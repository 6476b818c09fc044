/-
  mymalloc — the heap invariant.

  1. **Invariant** — a heap is well formed when some list of blocks is its model: the ring of
     headers is linked both ways, the blocks are aligned, stand one behind the other without
     overlap, and tile the memory obtained.
  2. **Specification** — `mymalloc` and `myfree` keep it, from any well-formed heap, whatever
     `vmalloc` answers and whether or not the new memory `Lands`: the harm of `extend_heap` is to
     callers, not to the list.
  3. **The crux (`heap_wellFormed`)** — `Reachable` is closed under such calls, so every heap of
     every run is well formed; `mixedHeap`, with blocks in use and free ones, is the concrete heap
     of the examples.
-/
import MiniLabs.Malloc.Calls
import Mathlib.Logic.Relation

set_option linter.unusedVariables false

namespace Malloc

open Extents LinkRing

/-- The heap is well formed. -/
def WellFormed (h : Heap) : Prop := ∃ bs, Models h bs

/-- One call: a request that does not wrap, or a free of NULL or of a block on the list. -/
inductive CallStep : Heap → Heap → Prop
  | malloc {h h' : Heap} {n p : Nat} {vmalloc : Nat → Nat} (hn : NoWrap n)
      (hv : Vmalloc h vmalloc) (hcall : mymalloc n vmalloc h = some (p, h')) : CallStep h h'
  | free {h : Heap} {block : Nat} (hon : h.OnList block) :
      CallStep h (myfree (wadd block sizeofBlock) h)
  | freeNull (h : Heap) : CallStep h (myfree 0 h)

/-- The heaps of all runs from the empty heap. -/
def Reachable (h : Heap) : Prop := Relation.ReflTransGen CallStep Heap.init h

/-- In a well-formed heap the addresses along the list increase. -/
theorem WellFormed.increasing {h : Heap} {a b : Nat} (hw : WellFormed h) (ha : h.OnList a)
    (hb : h.next a = b) (hne : b ≠ 0) : wadd (wadd a sizeofBlock) (h.size a) ≤ b ∧ a < b := by
  obtain ⟨bs, hm⟩ := hw
  obtain ⟨c, hc, rfl⟩ := (hm.onList_iff a).mp ha
  obtain ⟨l, r, rfl⟩ := List.append_of_mem hc
  rw [hm.next_eq] at hb
  cases r with
  | nil => exact absurd hb.symm hne
  | cons d r =>
    obtain rfl : d.addr = b := hb
    have hle := hm.sound.ordered.around.2 d List.mem_cons_self
    rw [Blk.extent_stop] at hle
    refine ⟨Nat.le_trans (Nat.le_of_eq hm.blockEnd_eq) hle, ?_⟩
    have hstop : c.addr + sizeofBlock + c.size ≤ d.addr := hle
    unfold sizeofBlock at hstop
    omega

/-- **`mymalloc` keeps a heap well formed**, and changes nothing where it fails. -/
theorem mymalloc_wellFormed {h : Heap} {n : Nat} {vmalloc : Nat → Nat} (hw : WellFormed h)
    (hn : NoWrap n) (hv : Vmalloc h vmalloc) :
    ∃ p h', mymalloc n vmalloc h = some (p, h') ∧ WellFormed h' ∧
      (p = 0 → h'.head = h.head ∧ h'.mem = h.mem) := by
  obtain ⟨bs, hm⟩ := hw
  rcases mymalloc_spec hm hn hv with hnull | ⟨l, c, r, h', hcall, hm', -⟩
  · exact ⟨0, _, hnull, ⟨bs, hm.ring, hm.cells, hm.sound⟩, fun _ => ⟨rfl, rfl⟩⟩
  · refine ⟨c.payload, h', hcall, ⟨_, hm'⟩, fun h0 => ?_⟩
    have hne := hm'.addr_ne (b := c) (by simp)
    unfold Blk.payload at h0
    omega

/-- **`myfree` keeps a heap well formed.**. -/
theorem myfree_wellFormed {h : Heap} {block : Nat} (hw : WellFormed h) (hon : h.OnList block) :
    WellFormed (myfree (wadd block sizeofBlock) h) := by
  obtain ⟨bs, hm⟩ := hw
  obtain ⟨a, ha, rfl⟩ := (hm.onList_iff block).mp hon
  obtain ⟨l, r, rfl⟩ := List.append_of_mem ha
  exact ⟨_, (myfree_spec hm).1⟩

/-- Every call keeps a heap well formed. -/
theorem CallStep.wellFormed {h h' : Heap} (hs : CallStep h h') (hw : WellFormed h) :
    WellFormed h' := by
  cases hs with
  | malloc hn hv hcall =>
    obtain ⟨p, g, hcall', hg, -⟩ := mymalloc_wellFormed hw hn hv
    rw [hcall] at hcall'
    obtain ⟨-, rfl⟩ := Prod.mk.inj (Option.some.inj hcall')
    exact hg
  | free hon => exact myfree_wellFormed hw hon
  | freeNull => exact hw

/-- Every heap that calls lead to is well formed. -/
theorem Reachable.wellFormed {h : Heap} (hr : Reachable h) : WellFormed h := by
  induction hr with
  | refl => exact ⟨[], Models.init⟩
  | tail _ hs ih => exact hs.wellFormed ih

/-- **The heap invariant.**  From every well-formed heap `mymalloc` returns, with a well-formed
    heap, and leaves the list as it was when it returns NULL; `myfree` of the payload of any
    block on the list leaves a well-formed heap; so every heap of every run is well formed. -/
theorem heap_wellFormed :
    (∀ (h : Heap) (n : Nat) (vmalloc : Nat → Nat), WellFormed h → NoWrap n →
      Vmalloc h vmalloc → ∃ p h', mymalloc n vmalloc h = some (p, h') ∧ WellFormed h' ∧
        (p = 0 → h'.head = h.head ∧ h'.mem = h.mem)) ∧
    (∀ (h : Heap) (block : Nat), WellFormed h → h.OnList block →
      WellFormed (myfree (wadd block sizeofBlock) h)) ∧
    ∀ h, Reachable h → WellFormed h := by
  refine ⟨?_, ?_, ?_⟩
  · intro h n vmalloc hw hn hv
    exact mymalloc_wellFormed hw hn hv
  · intro h block hw hon
    exact myfree_wellFormed hw hon
  · intro h hr
    exact hr.wellFormed

/-- A `vmalloc` that has one region of `len` bytes at `start` to give. -/
def oneRegion (start len : Nat) : Nat → Nat := fun n => if n = len then start else 0

/-- A fresh region may be handed out. -/
theorem oneRegion_vmalloc {h : Heap} {start len : Nat} (hpage : start % pageSize = 0)
    (hend : start + len ≤ addressSpace)
    (hfresh : ∀ x, (Extent.mk start len).Has x → ¬ Covers id h.obtained x) :
    Vmalloc h (oneRegion start len) := by
  intro n
  by_cases hn : n = len
  · rw [oneRegion, if_pos hn, hn]
    exact Or.inr ⟨hpage, hend, hfresh⟩
  · exact Or.inl (if_neg hn)

/-- A chunk with a free block, a used one and a free rest. -/
def mixedBlocks : List Blk :=
  [⟨1048576, 104, true⟩, ⟨1048712, 56, false⟩, ⟨1048800, 65280, true⟩]

/-- The heap behind requests of 100 and 50 bytes when the first one has been freed. -/
def mixedHeap : Heap where
  head := 1048576
  mem a :=
    if a = 1048576 then ⟨104, true, 0, 1048712⟩
    else if a = 1048712 then ⟨56, false, 1048576, 1048800⟩
    else if a = 1048800 then ⟨65280, true, 1048712, 0⟩
    else ⟨0, false, 0, 0⟩
  mallocCount := 2
  obtained := [⟨1048576, 65536⟩]
  touched := [1048576, 1048712, 1048800]

/-- The list of `mixedHeap`. -/
theorem mixedHeap_models : Models mixedHeap mixedBlocks where
  ring := by
    refine ⟨by decide, by decide, ?_⟩
    simp [mixedBlocks, Links.Joined, Heap.links, Heap.next, Heap.prev, mixedHeap]
  cells := by decide
  sound := by
    refine ⟨by decide, by unfold Ordered; decide, fun x => ?_, by decide, by decide⟩
    simp only [mixedBlocks, mixedHeap, covers_cons, covers_nil, or_false, Blk.extent, Extent.Has,
      Extent.stop, sizeofBlock, id]
    omega

/-- Memory below the chunk. -/
theorem mixedHeap_vmalloc : Vmalloc mixedHeap (oneRegion 65536 65536) := by
  refine oneRegion_vmalloc (by decide) (by decide) fun x hx hold => ?_
  simp only [mixedHeap, covers_cons, covers_nil, or_false, Extent.Has, Extent.stop, id] at hx hold
  omega

/-- A request that is served from the free block in front of a used one. -/
theorem heap_wellFormed_mixed :
    ∃ p h', mymalloc 100 (oneRegion 65536 65536) mixedHeap = some (p, h') ∧ WellFormed h' ∧
      (p = 0 → h'.head = mixedHeap.head ∧ h'.mem = mixedHeap.mem) :=
  heap_wellFormed.1 mixedHeap 100 (oneRegion 65536 65536) ⟨mixedBlocks, mixedHeap_models⟩
    (show NoWrap 100 by unfold NoWrap; decide) mixedHeap_vmalloc

end Malloc
