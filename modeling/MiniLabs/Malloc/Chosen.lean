/-
  mymalloc — the block a request is served from, where memory grows downwards.

  1. **Program in two halves** — `mymalloc` settles on a block (`chosen`) and then cuts it and takes
     it (`handOut`); `mymalloc_eq` says that the call is the one behind the other.
  2. **Specification (`chosen_cases`)** — the block is the first free one with room enough; if there
     is none it begins with new memory.  Memory that lies below all blocks becomes the first block
     of the list, and absorbs the old first one if that is free and they touch (`extend_below`).
  3. **The crux (`Models.unique`)** — a heap has one list of blocks only, so what two descriptions
     say of the same heap is about the same blocks.
-/
import MiniLabs.Malloc.Calls

set_option linter.unusedVariables false

namespace Malloc

open Extents Models

/-! ## The two halves of `mymalloc` -/

/-- The block that `mymalloc` will cut, or 0, and the heap at this point. -/
def chosen (n : Nat) (vmalloc : Nat → Nat) (h : Heap) : Option (Nat × Heap) :=
  let size := requestSize n
  let h := { h with mallocCount := h.mallocCount + 1 }
  (findFreeBlock size h).bind fun found =>
    if found = 0 then extendHeap size vmalloc h else some (found, h)

/-- What `mymalloc` does with this block. -/
def handOut (size : Nat) (b : Nat × Heap) : Nat × Heap :=
  if b.1 = 0 then (0, b.2)
  else (wadd b.1 sizeofBlock, (splitBlock b.1 size b.2).setFree b.1 false)

/-- `mymalloc` settles on a block and hands it out. -/
theorem mymalloc_eq (n : Nat) (vmalloc : Nat → Nat) (h : Heap) :
    mymalloc n vmalloc h = (chosen n vmalloc h).map (handOut (requestSize n)) := by
  rw [mymalloc, chosen]
  dsimp only
  cases findFreeBlock (requestSize n) { h with mallocCount := h.mallocCount + 1 } with
  | none => rfl
  | some found => rfl

/-! ## How much memory is asked for -/

/-- Whatever wraps, `align_up` gives a multiple of its power of two. -/
theorem alignUp_floor {k x : Nat} (hk : k < 64) :
    ∃ y, y < addressSpace ∧ alignUp x (2 ^ k) = y / 2 ^ k * 2 ^ k := by
  have hlt : 2 ^ k < addressSpace := Nat.pow_lt_pow_right (by decide) hk
  have hy : wsub (wadd x (2 ^ k)) 1 < addressSpace := Nat.mod_lt _ (by decide)
  refine ⟨_, hy, ?_⟩
  rw [alignUp, wsub_eq (Nat.two_pow_pos k) hlt, and_mask hk hy]

/-- Whatever wraps around, whole pages are asked for, and no less than a chunk. -/
theorem extendBytes_bounds (size : Nat) :
    extendBytes size % 8 = 0 ∧ chunkSize ≤ extendBytes size ∧
      extendBytes size < addressSpace := by
  obtain ⟨y, hy, hround⟩ : ∃ y, y < addressSpace ∧
      pageRound (wadd sizeofBlock size) = y / 4096 * 4096 :=
    @alignUp_floor 12 (wadd sizeofBlock size) (by decide)
  unfold extendBytes
  dsimp only
  rw [hround]
  unfold chunkSize addressSpace at *
  split <;> omega

/-! ## New memory below all blocks -/

/-- The block that new memory becomes. -/
def newBlk (start bytes : Nat) : Blk := ⟨start, bytes - sizeofBlock, true⟩

/-- **`extend_heap`** with memory below all blocks. -/
theorem extend_below {h : Heap} {bs : List Blk} {size start : Nat} {vmalloc : Nat → Nat}
    (hm : Models h bs) (hv : Vmalloc h vmalloc) (hstart : vmalloc (extendBytes size) = start)
    (h0 : start ≠ 0) (hbelow : ∀ b ∈ bs, start < b.addr) :
    ∃ h', extendHeap size vmalloc h = some (start, h') ∧
      Models h' ((mergeNext (newBlk start (extendBytes size)) bs).1 ::
        (mergeNext (newBlk start (extendBytes size)) bs).2) ∧
      h'.obtained = ⟨start, extendBytes size⟩ :: h.obtained := by
  obtain ⟨hpage, hend, hfresh⟩ : vmalloc (extendBytes size) % pageSize = 0 ∧ _ ∧ _ :=
    (hv (extendBytes size)).resolve_left (hstart.symm ▸ h0)
  rw [hstart] at hpage hend hfresh
  obtain ⟨l, r, h₁, rfl, hl, -, hins, hm₁, ho₁, -⟩ :=
    insert_new hm h0 hpage hend hfresh (extendBytes_bounds size)
  have hnil : l = [] := by
    cases l with
    | nil => rfl
    | cons a l =>
      have hlow := (hl a List.mem_cons_self).1
      have hhigh := hbelow a (by simp)
      omega
  subst hnil
  rw [Heap.newBlock] at hins
  have hprev : h₁.prev start = 0 := hm₁.prev_eq
  obtain ⟨hm₂, hT₂⟩ := hm₁.coalesce
  refine ⟨coalesceWithNext start h₁, ?_, hm₂, hT₂.obtained.trans ho₁⟩
  rw [extendHeap]
  dsimp only
  rw [hstart, if_neg h0, hins, Option.map_some, if_neg fun hne => hne hprev]

/-! ## The block chosen -/

/-- All answers of `vmalloc` lie below all blocks. -/
def Below (bs : List Blk) (vmalloc : Nat → Nat) : Prop :=
  ∀ len, vmalloc len ≠ 0 → ∀ b ∈ bs, vmalloc len < b.addr

/-- What `chosen` may come to: a free block of the list; nothing; or the first block of a list
    with new memory in front. -/
inductive Choice (h : Heap) (bs : List Blk) (n : Nat) (vmalloc : Nat → Nat) : Prop
  | found (l : List Blk) (c : Blk) (r : List Blk) (hbs : bs = l ++ c :: r)
      (hfree : c.free = true) (hsize : requestSize n ≤ c.size)
      (hchosen : chosen n vmalloc h =
        some (c.addr, { h with mallocCount := h.mallocCount + 1 }))
  | failed (hnone : ∀ b ∈ bs, b.free = true → b.size < requestSize n)
      (hnull : vmalloc (extendBytes (requestSize n)) = 0)
      (hchosen : chosen n vmalloc h = some (0, { h with mallocCount := h.mallocCount + 1 }))
  | extended (start : Nat) (h₁ : Heap)
      (hnone : ∀ b ∈ bs, b.free = true → b.size < requestSize n)
      (hstart : vmalloc (extendBytes (requestSize n)) = start) (h0 : start ≠ 0)
      (hchosen : chosen n vmalloc h = some (start, h₁))
      (hmodels : Models h₁
        ((mergeNext (newBlk start (extendBytes (requestSize n))) bs).1 ::
          (mergeNext (newBlk start (extendBytes (requestSize n))) bs).2))
      (hobtained : h₁.obtained = ⟨start, extendBytes (requestSize n)⟩ :: h.obtained)

/-- The heap with one more call counted holds the same blocks. -/
theorem Models.counted {h : Heap} {bs : List Blk} (hm : Models h bs) (k : Nat) :
    Models { h with mallocCount := k } bs := ⟨hm.ring, hm.cells, hm.sound⟩

/-- **The block that `mymalloc` settles on**: it is on the list, or new, or there is none. -/
theorem chosen_cases {h : Heap} {bs : List Blk} {n : Nat} {vmalloc : Nat → Nat}
    (hm : Models h bs) (hv : Vmalloc h vmalloc) (hbelow : Below bs vmalloc) :
    Choice h bs n vmalloc := by
  have hm₀ := hm.counted (h.mallocCount + 1)
  rcases firstFit_cases (requestSize n) bs with ⟨hzero, hnone⟩ | ⟨l, c, r, rfl, hfit, hfree, hsize⟩
  · by_cases h0 : vmalloc (extendBytes (requestSize n)) = 0
    · refine .failed hnone h0 ?_
      rw [chosen, hm₀.find, hzero, Option.bind_some, if_pos rfl, extendHeap]
      exact if_pos h0
    · obtain ⟨h₁, hext, hm₁, ho₁⟩ := extend_below hm₀ hv rfl h0 (hbelow _ h0)
      refine .extended _ h₁ hnone rfl h0 ?_ hm₁ ho₁
      rw [chosen, hm₀.find, hzero, Option.bind_some, if_pos rfl, hext]
  · refine .found l c r rfl hfree hsize ?_
    have hc0 : c.addr ≠ 0 := hm.addr_ne (by simp)
    rw [chosen, hm₀.find, hfit, Option.bind_some, if_neg hc0]

/-- The block that new memory begins with has room for the request. -/
theorem newBlk_room {n : Nat} (hn : NoWrap n) (start : Nat) (bs : List Blk) :
    requestSize n ≤ (mergeNext (newBlk start (extendBytes (requestSize n))) bs).1.size := by
  obtain ⟨-, hroom, -, -⟩ := extendBytes_spec (requestSize_spec hn)
  refine Nat.le_trans ?_ (mergeNext_size _ bs)
  unfold newBlk
  dsimp only
  omega

/-! ## What was obtained -/

/-- Linking back obtains no memory. -/
theorem linkBack_obtained (x v : Nat) (h : Heap) : (h.linkBack x v).obtained = h.obtained := by
  unfold Heap.linkBack
  split <;> rfl

/-- Marking a block obtains no memory. -/
theorem setFree_obtained (a : Nat) (f : Bool) (h : Heap) :
    (h.setFree a f).obtained = h.obtained := rfl

/-- Splitting obtains no memory. -/
theorem splitBlock_obtained (block size : Nat) (h : Heap) :
    (splitBlock block size h).obtained = h.obtained := by
  rw [splitBlock]
  split
  · rfl
  · exact linkBack_obtained _ _ _

/-! ## One list only -/

/-- Behind the same blocks come the same blocks. -/
theorem Models.same_behind {h : Heap} {l r r' : List Blk} (hm : Models h (l ++ r))
    (hm' : Models h (l ++ r')) : r = r' := by
  have hfront : front r = front r' := hm.seam.1.symm.trans hm'.seam.1
  induction r generalizing l r' with
  | nil =>
    cases r' with
    | nil => rfl
    | cons b' r' => exact absurd hfront.symm (hm'.addr_ne (by simp))
  | cons b r ih =>
    cases r' with
    | nil => exact absurd hfront (hm.addr_ne (by simp))
    | cons b' r' =>
      have haddr : b.addr = b'.addr := hfront
      have hcell := hm.cells b (by simp)
      have hcell' := hm'.cells b' (by simp)
      rw [haddr] at hcell
      have hb : b = b' := by
        cases b
        cases b'
        simp only [Blk.mk.injEq]
        exact ⟨haddr, hcell.1.symm.trans hcell'.1, hcell.2.symm.trans hcell'.2⟩
      subst hb
      have hcut : ∀ s, l ++ b :: s = (l ++ [b]) ++ s := fun s => by simp
      have hm₁ : Models h ((l ++ [b]) ++ r) := hcut r ▸ hm
      have hm₁' : Models h ((l ++ [b]) ++ r') := hcut r' ▸ hm'
      rw [ih hm₁ hm₁' (hm₁.seam.1.symm.trans hm₁'.seam.1)]

/-- **Uniqueness.**  The heap determines its blocks. -/
theorem Models.unique {h : Heap} {bs bs' : List Blk} (hm : Models h bs) (hm' : Models h bs') :
    bs = bs' := by
  have h₁ : Models h ([] ++ bs) := hm
  have h₂ : Models h ([] ++ bs') := hm'
  exact h₁.same_behind h₂

end Malloc
