/-
  mymalloc — the pointer routines against the list of blocks.

  1. **Specification** — `Models h bs` says that the heap `h` holds the blocks `bs`: their headers
     form a ring through `heap_head`, size and free flag of each are as listed, and the list is
     sound.
  2. **One theorem for each routine** — it says which list the routine leaves:
       * `Models.setFree`   — `Blk.mark`;
       * `Models.coalesce`  — `mergeNext`;
       * `Models.split`     — `cutBlk`;
       * `Models.insert`    — the new block stands in its place;
       * `Models.find`      — the first free block that is large enough, or 0.
  3. **The crux (`Models.relink`)** — the three routines that relink the list are instances of
     `Ring.splice`: the ring in front of the seam and the one behind it stay, and only the two links
     at the seam are looked at.
  4. **Frame** — `Touches P` keeps account of the headers a routine writes, and what is not among
     them is as before.
-/
import MiniLabs.Malloc.Blocks
import MiniLabs.Lib.LinkRing

set_option linter.unusedVariables false

namespace Malloc

open Extents LinkRing

/-! ## Reading headers back -/

namespace Heap

section Get

variable (h : Heap) (a x v : Nat) (f : Bool)

/-- What stands in the headers after `setSize`. -/
@[simp] theorem setSize_get :
    (h.setSize a v).size x = (if x = a then v else h.size x) ∧
    (h.setSize a v).free x = h.free x ∧ (h.setSize a v).prev x = h.prev x ∧
    (h.setSize a v).next x = h.next x := by
  unfold setSize write size free prev next
  dsimp only
  split <;> exact ⟨rfl, rfl, rfl, rfl⟩

/-- What stands in the headers after `setFree`. -/
@[simp] theorem setFree_get :
    (h.setFree a f).size x = h.size x ∧
    (h.setFree a f).free x = (if x = a then f else h.free x) ∧
    (h.setFree a f).prev x = h.prev x ∧ (h.setFree a f).next x = h.next x := by
  unfold setFree write size free prev next
  dsimp only
  split <;> exact ⟨rfl, rfl, rfl, rfl⟩

/-- What stands in the headers after `setPrev`. -/
@[simp] theorem setPrev_get :
    (h.setPrev a v).size x = h.size x ∧ (h.setPrev a v).free x = h.free x ∧
    (h.setPrev a v).prev x = (if x = a then v else h.prev x) ∧
    (h.setPrev a v).next x = h.next x := by
  unfold setPrev write size free prev next
  dsimp only
  split <;> exact ⟨rfl, rfl, rfl, rfl⟩

/-- What stands in the headers after `setNext`. -/
@[simp] theorem setNext_get :
    (h.setNext a v).size x = h.size x ∧ (h.setNext a v).free x = h.free x ∧
    (h.setNext a v).prev x = h.prev x ∧
    (h.setNext a v).next x = (if x = a then v else h.next x) := by
  unfold setNext write size free prev next
  dsimp only
  split <;> exact ⟨rfl, rfl, rfl, rfl⟩

@[simp] theorem setHead_get :
    (h.setHead v).size x = h.size x ∧ (h.setHead v).free x = h.free x ∧
    (h.setHead v).prev x = h.prev x ∧ (h.setHead v).next x = h.next x :=
  ⟨rfl, rfl, rfl, rfl⟩

@[simp] theorem obtain_get (e : Extent) :
    (h.obtain e).size x = h.size x ∧ (h.obtain e).free x = h.free x ∧
    (h.obtain e).prev x = h.prev x ∧ (h.obtain e).next x = h.next x :=
  ⟨rfl, rfl, rfl, rfl⟩

/-- What stands in the headers after linking back. -/
@[simp] theorem linkBack_get :
    (h.linkBack a v).size x = h.size x ∧ (h.linkBack a v).free x = h.free x ∧
    (h.linkBack a v).prev x = (if x = a ∧ a ≠ 0 then v else h.prev x) ∧
    (h.linkBack a v).next x = h.next x := by
  unfold linkBack
  by_cases ha : a = 0
  · rw [if_neg (by simp [ha])]
    simp [ha]
  · rw [if_pos ha]
    simp [ha]

@[simp] theorem head_setSize : (h.setSize a v).head = h.head := rfl
@[simp] theorem head_setFree : (h.setFree a f).head = h.head := rfl
@[simp] theorem head_setPrev : (h.setPrev a v).head = h.head := rfl
@[simp] theorem head_setNext : (h.setNext a v).head = h.head := rfl
@[simp] theorem head_setHead : (h.setHead v).head = v := rfl

@[simp] theorem head_linkBack : (h.linkBack a v).head = h.head := by
  unfold linkBack
  split <;> rfl

end Get

/-! ## What a routine writes -/

/-- Getting from `h` to `h'` no memory was obtained and only headers in `P` were written. -/
structure Touches (P : Nat → Prop) (h h' : Heap) : Prop where
  obtained : h'.obtained = h.obtained
  touched : ∃ t, h'.touched = t ++ h.touched ∧ ∀ a ∈ t, P a

section Touches

variable {P Q : Nat → Prop} {h h' h'' : Heap}

/-- Doing nothing touches nothing. -/
theorem Touches.refl (h : Heap) : Touches P h h :=
  ⟨rfl, [], rfl, fun a ha => absurd ha List.not_mem_nil⟩

/-- What two routines touch is what either does. -/
theorem Touches.trans (h₁ : Touches P h h') (h₂ : Touches P h' h'') : Touches P h h'' := by
  obtain ⟨ho, t, ht, hP⟩ := h₁
  obtain ⟨ho', t', ht', hP'⟩ := h₂
  refine ⟨ho'.trans ho, t' ++ t, by rw [ht', ht, List.append_assoc], ?_⟩
  intro a ha
  rcases List.mem_append.mp ha with ha | ha
  · exact hP' a ha
  · exact hP a ha

/-- More may be allowed to be touched. -/
theorem Touches.mono (hPQ : ∀ a, P a → Q a) (ht : Touches P h h') : Touches Q h h' := by
  obtain ⟨ho, t, ht, hP⟩ := ht
  exact ⟨ho, t, ht, fun a ha => hPQ a (hP a ha)⟩

/-- A write touches one header. -/
theorem touches_write {a : Nat} (ha : P a) (f : BlockT → BlockT) (h : Heap) :
    Touches P h (h.write a f) :=
  ⟨rfl, [a], rfl, fun x hx => List.mem_singleton.mp hx ▸ ha⟩

/-- Linking back touches one header, or none at the end of the list. -/
theorem touches_linkBack {a : Nat} (ha : a ≠ 0 → P a) (v : Nat) (h : Heap) :
    Touches P h (h.linkBack a v) := by
  unfold linkBack
  split
  · rename_i hne
    exact touches_write (ha hne) _ h
  · exact Touches.refl h

end Touches

/-- The ring of the headers; `heap_head` is the `next` pointer of null. -/
def links (h : Heap) : Links Nat := ⟨fun a => if a = 0 then h.head else h.next a, h.prev⟩

@[simp] theorem links_prv (h : Heap) (a : Nat) : h.links.prv a = h.prev a := rfl

/-- A link of the ring is the field of the header. -/
theorem links_nxt (h : Heap) {a : Nat} (ha : a ≠ 0) : h.links.nxt a = h.next a := if_neg ha

end Heap

/-! ## Heaps and lists of blocks -/

/-- The heap holds the blocks `bs`. -/
structure Models (h : Heap) (bs : List Blk) : Prop where
  ring : Ring h.links 0 (bs.map Blk.addr)
  cells : ∀ b ∈ bs, h.size b.addr = b.size ∧ h.free b.addr = b.free
  sound : Sound bs h.obtained

namespace Models

variable {h : Heap} {l r : List Blk} {a : Blk} {P : Nat → Prop}

/-- Before the first call the list is empty. -/
theorem init : Models Heap.init [] where
  ring := Ring.nil rfl
  cells := fun b hb => absurd hb List.not_mem_nil
  sound := Sound.nil

/-- No block lies at NULL. -/
theorem addr_ne (hm : Models h l) {b : Blk} (hb : b ∈ l) : b.addr ≠ 0 := by
  intro h0
  exact hm.ring.fresh (h0 ▸ List.mem_map_of_mem hb)

/-- The address of the first block, or 0. -/
def front (bs : List Blk) : Nat := (bs.map Blk.addr).headD 0

/-- The address of the last block, or 0. -/
def back (bs : List Blk) : Nat := (bs.map Blk.addr).getLastD 0

@[simp] theorem front_cons (b : Blk) (bs : List Blk) : front (b :: bs) = b.addr := rfl

/-- The first block is on the list. -/
theorem front_mem {bs : List Blk} (h0 : front bs ≠ 0) : front bs ∈ bs.map Blk.addr := by
  cases bs with
  | nil => exact absurd rfl h0
  | cons b bs => exact List.mem_cons_self

/-- The last block is on the list, if there is one. -/
theorem back_mem_or (bs : List Blk) : back bs = 0 ∨ back bs ∈ bs.map Blk.addr := by
  rw [back, List.getLastD_eq_getLast?]
  cases hl : (bs.map Blk.addr).getLast? with
  | none => exact Or.inl rfl
  | some k => exact Or.inr (List.mem_of_getLast? hl)

/-- `heap_head` is the first block. -/
theorem head_eq (hm : Models h l) : h.head = front l := hm.ring.head

/-- `next` of a block is the first of those behind it. -/
theorem next_eq (hm : Models h (l ++ a :: r)) : h.next a.addr = front r := by
  have hring := hm.ring
  rw [List.map_append, List.map_cons] at hring
  rw [← h.links_nxt (hm.addr_ne (by simp))]
  exact hring.next

/-- `prev` of a block is the last of those in front of it. -/
theorem prev_eq (hm : Models h (l ++ a :: r)) : h.prev a.addr = back l := by
  have hring := hm.ring
  rw [List.map_append, List.map_cons] at hring
  exact hring.prev

/-- The size in a header is that on the list. -/
theorem size_eq (hm : Models h (l ++ a :: r)) : h.size a.addr = a.size :=
  (hm.cells a (by simp)).1

/-- The flag in a header is that on the list. -/
theorem free_eq (hm : Models h (l ++ a :: r)) : h.free a.addr = a.free :=
  (hm.cells a (by simp)).2

/-- The first block of a list that is not empty is not NULL. -/
theorem front_ne (hm : Models h (l ++ a :: r)) : front (a :: r) ≠ 0 := hm.addr_ne (by simp)

/-! ### Marking -/

/-- A block is marked. -/
theorem setFree (hm : Models h (l ++ a :: r)) (f : Bool) :
    Models (h.setFree a.addr f) (l ++ a.mark f :: r) where
  ring := by
    have hlinks : (h.setFree a.addr f).links = h.links := by
      unfold Heap.links
      congr 1
      · funext x
        simp
      · funext x
        simp
    have haddr : (l ++ a.mark f :: r).map Blk.addr = (l ++ a :: r).map Blk.addr := by
      rw [List.map_append, List.map_cons, List.map_append, List.map_cons]
      rfl
    rw [hlinks, haddr]
    exact hm.ring
  cells := by
    have hnd := hm.sound.nodup
    rw [List.map_append, List.map_cons, List.nodup_append, List.nodup_cons] at hnd
    obtain ⟨-, ⟨har, -⟩, hlr⟩ := hnd
    intro b hb
    rw [(h.setFree_get a.addr b.addr f).1, (h.setFree_get a.addr b.addr f).2.1]
    rcases List.mem_append.mp hb with hb | hb
    · have hne : b.addr ≠ a.addr :=
        hlr _ (List.mem_map_of_mem hb) _ List.mem_cons_self
      rw [if_neg hne]
      exact hm.cells b (by simp [hb])
    · rcases List.mem_cons.mp hb with rfl | hb
      · exact ⟨hm.size_eq, if_pos rfl⟩
      · have hne : b.addr ≠ a.addr := fun heq => har (heq ▸ List.mem_map_of_mem hb)
        rw [if_neg hne]
        exact hm.cells b (by simp [hb])
  sound := hm.sound.mark f

/-! ### Relinking -/

/-- The two pointers at the place where the list is cut in two. -/
theorem seam (hm : Models h (l ++ r)) :
    h.links.nxt (back l) = front r ∧ (front r ≠ 0 → h.prev (front r) = back l) := by
  have hring := hm.ring
  rw [List.map_append] at hring
  exact hring.seam

/-- What a routine that puts `mid'` in the place of `mid` has to leave alone and to set. -/
theorem relink {h' : Heap} {mid mid' : List Blk} (hm : Models h (l ++ mid ++ r))
    (hsound : Sound (l ++ mid' ++ r) h'.obtained) (hne : ∀ b ∈ mid', b.addr ≠ 0)
    (hnxt : ∀ u, u ≠ back l → u ∉ mid'.map Blk.addr → h'.links.nxt u = h.links.nxt u)
    (hprv : ∀ v, v ≠ front r → v ∉ mid'.map Blk.addr → h'.prev v = h.prev v)
    (hmid : (back l :: (mid'.map Blk.addr ++ [front r])).IsChain (h'.links.Joined 0))
    (hkept : ∀ u, u ∉ mid'.map Blk.addr → h'.size u = h.size u ∧ h'.free u = h.free u)
    (hcells : ∀ b ∈ mid', h'.size b.addr = b.size ∧ h'.free b.addr = b.free) :
    Models h' (l ++ mid' ++ r) where
  ring := by
    have hnd := hsound.nodup
    have hring := hm.ring
    rw [List.map_append, List.map_append] at hring hnd ⊢
    refine hring.splice hnd ?_ hnxt hprv hmid
    intro h0
    obtain ⟨b, hb, hb0⟩ := List.mem_map.mp h0
    exact hne b hb hb0
  cells := by
    have hnd := hsound.nodup
    rw [List.map_append, List.map_append] at hnd
    obtain ⟨hnd, -, hlr⟩ := List.nodup_append.mp hnd
    obtain ⟨-, -, hlm⟩ := List.nodup_append.mp hnd
    intro b hb
    rcases List.mem_append.mp hb with hb | hb
    · rcases List.mem_append.mp hb with hb | hb
      · -- in front of the new stretch
        have hout : b.addr ∉ mid'.map Blk.addr := fun hmem =>
          hlm _ (List.mem_map_of_mem hb) _ hmem rfl
        rw [(hkept _ hout).1, (hkept _ hout).2]
        exact hm.cells b (by simp [hb])
      · exact hcells b hb
    · -- behind it
      have hout : b.addr ∉ mid'.map Blk.addr := fun hmem =>
        hlr _ (List.mem_append_right _ hmem) _ (List.mem_map_of_mem hb) rfl
      rw [(hkept _ hout).1, (hkept _ hout).2]
      exact hm.cells b (by simp [hb])
  sound := hsound

/-- The neighbours of a block are other blocks. -/
theorem back_ne (hm : Models h (l ++ a :: r)) : back l ≠ a.addr := by
  have hnd := hm.sound.nodup
  rw [List.map_append, List.map_cons, List.nodup_append] at hnd
  rcases back_mem_or l with h0 | hmem
  · rw [h0]
    exact (hm.addr_ne (by simp)).symm
  · exact hnd.2.2 _ hmem _ List.mem_cons_self

/-- A block is not its own successor. -/
theorem front_ne_addr (hm : Models h (l ++ a :: r)) : front r ≠ a.addr := by
  have hnd := hm.sound.nodup
  rw [List.map_append, List.map_cons, List.nodup_append, List.nodup_cons] at hnd
  cases r with
  | nil => exact (hm.addr_ne (by simp)).symm
  | cons b r =>
    intro heq
    apply hnd.2.1.1
    rw [← heq]
    exact List.mem_cons_self

/-! ### Merging with the next block -/

/-- The end of a block that has a successor, and of the last one, as far as the comparison with
    the successor goes. -/
theorem blockEnd_eq {b : Blk} (hm : Models h (l ++ a :: b :: r)) :
    blockEnd a.addr h = a.stop := by
  have hle := (hm.sound.ordered.around).2 b List.mem_cons_self
  rw [Blk.extent_stop] at hle
  have hlt := hm.sound.addr_lt (b := b) (by simp)
  have hstop : a.stop < addressSpace := Nat.lt_of_le_of_lt hle hlt
  unfold Blk.stop at hstop
  rw [blockEnd, hm.size_eq, @wadd_eq a.addr sizeofBlock (by omega), wadd_eq hstop]
  rfl

/-- **`coalesce_with_next`** absorbs the next block if both are free and they touch. -/
theorem coalesce (hm : Models h (l ++ a :: r)) :
    Models (coalesceWithNext a.addr h) (l ++ (mergeNext a r).1 :: (mergeNext a r).2) ∧
      Heap.Touches (· ∈ (a :: r).map Blk.addr) h (coalesceWithNext a.addr h) := by
  cases r with
  | nil =>
    have hnext : h.next a.addr = 0 := hm.next_eq
    rw [coalesceWithNext]
    dsimp only
    rw [hnext, if_neg (fun hc => hc.1 rfl)]
    exact ⟨hm, Heap.Touches.refl h⟩
  | cons b r =>
    have hcut : l ++ a :: b :: r = (l ++ [a]) ++ b :: r := by simp
    have hmb : Models h ((l ++ [a]) ++ b :: r) := hcut ▸ hm
    have hnext : h.next a.addr = b.addr := hm.next_eq
    have hba : b.addr ≠ a.addr := hm.front_ne_addr
    have hb0 : b.addr ≠ 0 := hmb.addr_ne (by simp)
    have ha0 : a.addr ≠ 0 := hm.addr_ne (by simp)
    rw [coalesceWithNext, mergeNext]
    dsimp only
    rw [hnext, hm.free_eq, hmb.free_eq, hm.blockEnd_eq]
    by_cases hc : a.free = true ∧ b.free = true ∧ a.stop = b.addr
    · rw [if_pos ⟨hb0, hc⟩, if_pos hc]
      have hsum : a.size + (sizeofBlock + b.size) < addressSpace := by
        have hstop := hmb.sound.stop_le (b := b) (by simp)
        have htouch := hc.2.2
        have hpos : 0 < a.addr := Nat.pos_of_ne_zero ha0
        unfold Blk.stop at hstop htouch
        omega
      have hsize : wadd (h.size a.addr) (wadd sizeofBlock (h.size b.addr))
          = (a.join b).size := by
        rw [hm.size_eq, hmb.size_eq, @wadd_eq sizeofBlock b.size (by omega), wadd_eq hsum]
        rfl
      have hnb : h.next b.addr = front r := hmb.next_eq
      have hxa : front r ≠ a.addr := by
        cases r with
        | nil => exact ha0.symm
        | cons c r =>
          have hlt := hm.sound.addr_lt_addr
          simp only [List.map_append, List.map_cons] at hlt
          have hac := (List.pairwise_cons.mp (List.pairwise_append.mp hlt).2.1).1 c.addr
            (by simp)
          exact Ne.symm (Nat.ne_of_lt hac)
      have hk : back l ≠ a.addr := hm.back_ne
      have hseam := hm.seam
      simp only [Heap.setSize_get, Heap.setNext_get, if_neg hba, hsize, hnb]
      have hcut₁ : l ++ a :: b :: r = l ++ [a, b] ++ r := by simp
      have hcut₂ : l ++ a.join b :: r = l ++ [a.join b] ++ r := by simp
      have hjoin := hm.sound.join hc.2.2
      have hT : Heap.Touches (· ∈ (a :: b :: r).map Blk.addr) h
          (((h.setSize a.addr (a.join b).size).setNext a.addr (front r)).linkBack (front r)
            a.addr) := by
        refine (Heap.touches_write List.mem_cons_self _ h).trans
          ((Heap.touches_write List.mem_cons_self _ _).trans (Heap.touches_linkBack ?_ _ _))
        intro hx0
        exact List.mem_cons_of_mem _ (List.mem_cons_of_mem _ (front_mem hx0))
      refine ⟨?_, hT⟩
      rw [hcut₂] at hjoin ⊢
      refine (hcut₁ ▸ hm).relink (hT.obtained ▸ hjoin) ?_ ?_ ?_ ?_ ?_ ?_
      · intro c hcm
        rw [List.mem_singleton.mp hcm]
        exact ha0
      · intro u huk hua
        have hua' : u ≠ a.addr := fun heq => hua (heq ▸ List.mem_cons_self)
        simp [Heap.links, hua']
      · intro v hvx hva
        simp [show v ≠ front r from hvx]
      · simp only [List.map_cons, List.map_nil, List.cons_append, List.nil_append,
          List.isChain_cons_cons, List.isChain_singleton, and_true]
        refine ⟨⟨?_, ?_⟩, ?_, ?_⟩
        · have hj := hseam.1
          simpa [Heap.links, hk] using hj
        · intro _
          have hj := hseam.2 hm.front_ne
          simpa [Ne.symm hxa] using hj
        · simp [Heap.links, ha0]
        · intro hx0
          simp [hx0]
      · intro u hu
        have hua' : u ≠ a.addr := fun heq => hu (heq ▸ List.mem_cons_self)
        simp [hua']
      · intro c hcm
        rw [List.mem_singleton.mp hcm]
        simp [Blk.join, hm.free_eq]
    · rw [if_neg (fun hcond => hc hcond.2), if_neg hc]
      exact ⟨hm, Heap.Touches.refl h⟩

/-! ### Splitting -/

/-- **`split_block`** cuts the block if a header and a minimal payload fit behind `n` bytes. -/
theorem split {n : Nat} (hm : Models h (l ++ a :: r)) (hn : n % 8 = 0) (hmin : minPayload ≤ n)
    (hfits : n + sizeofBlock + minPayload < addressSpace) :
    Models (splitBlock a.addr n h) (l ++ cutBlk a n ++ r) ∧
      Heap.Touches (· ∈ (cutBlk a n ++ r).map Blk.addr) h (splitBlock a.addr n h) := by
  have hsound := hm.sound.cut hn hmin
  have hneed : wadd (wadd n sizeofBlock) minPayload = n + sizeofBlock + minPayload := by
    rw [@wadd_eq n sizeofBlock (by omega), wadd_eq hfits]
  rw [splitBlock, hm.size_eq, hneed]
  rw [cutBlk] at hsound ⊢
  by_cases hlt : a.size < n + sizeofBlock + minPayload
  · rw [if_pos hlt, if_pos hlt]
    have hcut : l ++ [a] ++ r = l ++ a :: r := by simp
    exact ⟨hcut ▸ hm, Heap.Touches.refl h⟩
  · rw [if_neg hlt] at hsound
    rw [if_neg hlt, if_neg hlt]
    have ha0 : a.addr ≠ 0 := hm.addr_ne (by simp)
    have hstop := hm.sound.stop_le (b := a) (by simp)
    unfold Blk.stop at hstop
    have hrest : wadd (wadd a.addr sizeofBlock) n = a.addr + sizeofBlock + n := by
      unfold minPayload at hlt
      rw [@wadd_eq a.addr sizeofBlock (by omega), wadd_eq (by omega)]
    have hsize : wsub (wsub a.size n) sizeofBlock = a.size - n - sizeofBlock := by
      have hpos : 0 < a.addr := Nat.pos_of_ne_zero ha0
      rw [@wsub_eq a.size n (by omega) (by omega), wsub_eq (by omega) (by omega)]
    generalize hre : a.addr + sizeofBlock + n = rest at *
    have hra : rest ≠ a.addr := by
      unfold sizeofBlock at hre
      omega
    have hr0 : rest ≠ 0 := by omega
    have hxa : front r ≠ a.addr := hm.front_ne_addr
    have hka : back l ≠ a.addr := hm.back_ne
    -- the remainder is none of the old blocks
    have hnd := hsound.nodup
    simp only [List.map_append, List.map_cons, List.map_nil] at hnd
    have hkr : back l ≠ rest := by
      intro heq
      obtain ⟨hlm, -, -⟩ := List.nodup_append.mp hnd
      rcases back_mem_or l with h0 | hmem
      · exact hr0 (heq ▸ h0)
      · exact (List.nodup_append.mp hlm).2.2 _ hmem rest (by simp) heq
    have hxr : front r ≠ rest := by
      intro heq
      obtain ⟨-, -, hlr⟩ := List.nodup_append.mp hnd
      have hmem := front_mem (show front r ≠ 0 from heq ▸ hr0)
      exact hlr rest (by simp) _ hmem heq.symm
    have hseam := hm.seam
    have hnext : h.next a.addr = front r := hm.next_eq
    simp only [hrest, Heap.setSize_get, Heap.setFree_get, Heap.setPrev_get, Heap.setNext_get,
      if_neg (Ne.symm hra), hnext, hsize]
    have hT : Heap.Touches
        (· ∈ ([{ a with size := n }, ⟨rest, a.size - n - sizeofBlock, true⟩] ++ r).map Blk.addr) h
        ((((((((h.setSize rest (a.size - n - sizeofBlock)).setFree rest true).setPrev rest
          a.addr).setNext rest (front r)).linkBack (front r) rest).setSize a.addr n).setNext
          a.addr rest)) := by
      have hP : ∀ x, x = a.addr ∨ x = rest ∨ (x = front r ∧ x ≠ 0) →
          x ∈ ([{ a with size := n }, ⟨rest, a.size - n - sizeofBlock, true⟩] ++ r).map
            Blk.addr := by
        rintro x (rfl | rfl | ⟨rfl, hx0⟩)
        · simp
        · simp
        · have := front_mem hx0
          simp only [List.map_append, List.mem_append]
          exact Or.inr this
      apply Heap.Touches.mono hP
      refine (Heap.touches_write (Or.inr (Or.inl rfl)) _ _).trans
        ((Heap.touches_write (Or.inr (Or.inl rfl)) _ _).trans
        ((Heap.touches_write (Or.inr (Or.inl rfl)) _ _).trans
        ((Heap.touches_write (Or.inr (Or.inl rfl)) _ _).trans
        ((Heap.touches_linkBack (fun hx0 => Or.inr (Or.inr ⟨rfl, hx0⟩)) _ _).trans
        ((Heap.touches_write (Or.inl rfl) _ _).trans
        (Heap.touches_write (Or.inl rfl) _ _))))))
    refine ⟨?_, hT⟩
    have hcut : l ++ a :: r = l ++ [a] ++ r := by simp
    refine (hcut ▸ hm).relink (hT.obtained ▸ hsound) ?_ ?_ ?_ ?_ ?_ ?_
    · intro c hc
      rcases List.mem_cons.mp hc with rfl | hc
      · exact ha0
      · rw [List.mem_singleton.mp hc]
        exact hr0
    · intro u huk hum
      simp only [List.map_cons, List.map_nil, List.mem_cons, List.not_mem_nil, or_false,
        not_or] at hum
      simp [Heap.links, hum]
    · intro v hvx hvm
      simp only [List.map_cons, List.map_nil, List.mem_cons, List.not_mem_nil, or_false,
        not_or] at hvm
      simp [hvm, hvx]
    · simp only [List.map_cons, List.map_nil, List.cons_append, List.nil_append,
        List.isChain_cons_cons, List.isChain_singleton, and_true]
      refine ⟨⟨?_, ?_⟩, ⟨?_, ?_⟩, ?_, ?_⟩
      · have hj := hseam.1
        simpa [Heap.links, hka, hkr] using hj
      · intro _
        have hj := hseam.2 hm.front_ne
        simpa [Ne.symm hxa, Ne.symm hra] using hj
      · simp [Heap.links, ha0]
      · intro _
        simp [Ne.symm hxr]
      · simp [Heap.links, hr0, hra]
      · intro hx0
        simp [hx0]
    · intro u hu
      simp only [List.map_cons, List.map_nil, List.mem_cons, List.not_mem_nil, or_false,
        not_or] at hu
      simp [hu]
    · intro c hc
      rcases List.mem_cons.mp hc with rfl | hc
      · simp [Ne.symm hra, hm.free_eq]
      · rw [List.mem_singleton.mp hc]
        simp [hra]

/-! ### The two loops -/

/-- The list is shorter than the address space. -/
theorem length_lt (hm : Models h l) : l.length < addressSpace := by
  have hlo : ∀ b ∈ l, 1 ≤ b.extent.start := fun b hb => Nat.pos_of_ne_zero (hm.addr_ne hb)
  have hle := hm.sound.ordered.length_le (fun b _ => b.extent_pos) hlo
    (fun b hb => b.extent_stop ▸ hm.sound.stop_le hb) (by decide)
  omega

/-- The address of the first free block with room for `size` bytes, or 0. -/
def firstFit (size : Nat) (bs : List Blk) : Nat :=
  ((bs.find? fun b => b.free && decide (size ≤ b.size)).map Blk.addr).getD 0

/-- The loop of `find_free_block`, by induction on the blocks not yet looked at. -/
theorem findFrom_eq (size : Nat) {fuel : Nat} (hm : Models h (l ++ r)) (hf : r.length < fuel) :
    findFrom h size fuel (front r) = some (firstFit size r) := by
  induction r generalizing l fuel with
  | nil =>
    obtain ⟨f, rfl⟩ : ∃ f, fuel = f + 1 := ⟨fuel - 1, by simp at hf; omega⟩
    rw [findFrom]
    exact if_pos rfl
  | cons b r ih =>
    obtain ⟨f, rfl⟩ : ∃ f, fuel = f + 1 := ⟨fuel - 1, by simp at hf; omega⟩
    have hcut : l ++ b :: r = (l ++ [b]) ++ r := by simp
    rw [findFrom, front_cons, if_neg (hm.addr_ne (by simp)), hm.free_eq, hm.size_eq, hm.next_eq,
      firstFit, List.find?_cons]
    by_cases hfit : b.free = true ∧ b.size ≥ size
    · rw [if_pos hfit]
      simp [hfit.1, show size ≤ b.size from hfit.2]
    · have hno : (b.free && decide (size ≤ b.size)) = false := by
        rw [Bool.eq_false_iff]
        intro hyes
        rw [Bool.and_eq_true, decide_eq_true_iff] at hyes
        exact hfit hyes
      rw [if_neg hfit, hno]
      exact ih (hcut ▸ hm) (by simpa using hf)

/-- **`find_free_block`** finds the first block that fits. -/
theorem find (size : Nat) (hm : Models h l) : findFreeBlock size h = some (firstFit size l) := by
  rw [findFreeBlock, hm.head_eq]
  exact findFrom_eq size (show Models h ([] ++ l) from hm) hm.length_lt

/-- What was found is a free block of the list with room enough. -/
theorem firstFit_cases (size : Nat) (bs : List Blk) :
    (firstFit size bs = 0 ∧ ∀ b ∈ bs, b.free = true → b.size < size) ∨
      ∃ l b r, bs = l ++ b :: r ∧ firstFit size bs = b.addr ∧ b.free = true ∧ size ≤ b.size := by
  rw [firstFit]
  cases hfind : bs.find? fun b => b.free && decide (size ≤ b.size) with
  | none =>
    refine Or.inl ⟨rfl, fun b hb hfree => ?_⟩
    have hno := List.find?_eq_none.mp hfind b hb
    rw [hfree, Bool.true_and, decide_eq_true_iff] at hno
    omega
  | some b =>
    obtain ⟨l, r, rfl⟩ := List.append_of_mem (List.mem_of_find?_eq_some hfind)
    have hyes := List.find?_some hfind
    rw [Bool.and_eq_true, decide_eq_true_iff] at hyes
    exact Or.inr ⟨l, b, r, rfl, rfl, hyes⟩

/-- The loop of `insert_block` stops at the last block that begins below `block`. -/
theorem findPlace_eq {g : Heap} {block fuel : Nat} {mid : List Blk}
    (hm : Models h (l ++ a :: mid ++ r)) (hg : ∀ c ∈ a :: mid, g.next c.addr = h.next c.addr)
    (hmid : ∀ c ∈ mid, c.addr < block) (hr : ∀ c ∈ r, block < c.addr)
    (hf : mid.length < fuel) : findPlace g block fuel a.addr = some (back (a :: mid)) := by
  induction mid generalizing l a fuel with
  | nil =>
    obtain ⟨f, rfl⟩ : ∃ f, fuel = f + 1 := ⟨fuel - 1, by simp at hf; omega⟩
    have hcut : l ++ [a] ++ r = l ++ a :: r := by simp
    have hnext : h.next a.addr = front r := (hcut ▸ hm : Models h (l ++ a :: r)).next_eq
    rw [findPlace, hg a List.mem_cons_self, hnext]
    apply if_neg
    intro hc
    cases r with
    | nil => exact hc.1 rfl
    | cons c r =>
      have hlt := hr c List.mem_cons_self
      have hge : c.addr < block := hc.2
      omega
  | cons b mid ih =>
    obtain ⟨f, rfl⟩ : ∃ f, fuel = f + 1 := ⟨fuel - 1, by simp at hf; omega⟩
    have hcut : l ++ a :: b :: mid ++ r = l ++ a :: (b :: mid ++ r) := by simp
    have hcut' : l ++ a :: b :: mid ++ r = (l ++ [a]) ++ b :: mid ++ r := by simp
    have hnext : h.next a.addr = b.addr :=
      (hcut ▸ hm : Models h (l ++ a :: (b :: mid ++ r))).next_eq
    have hb0 : b.addr ≠ 0 := hm.addr_ne (by simp)
    rw [findPlace, hg a List.mem_cons_self, hnext,
      if_pos ⟨hb0, hmid b List.mem_cons_self⟩]
    exact ih (hcut' ▸ hm) (fun c hc => hg c (List.mem_cons_of_mem _ hc))
      (fun c hc => hmid c (List.mem_cons_of_mem _ hc)) (by simpa using hf)

/-! ### Inserting -/

/-- The cells of `g` are those of `h`, apart from `b`, whose header is written. -/
structure Headed (h g : Heap) (b : Blk) : Prop where
  head : g.head = h.head
  others : ∀ u, u ≠ b.addr → g.size u = h.size u ∧ g.free u = h.free u ∧
    g.prev u = h.prev u ∧ g.next u = h.next u
  cell : g.size b.addr = b.size ∧ g.free b.addr = b.free

/-- The last of a list that is not empty is on it. -/
theorem back_cons_mem (a : Blk) (l : List Blk) :
    back (a :: l) ∈ (a :: l).map Blk.addr := by
  rw [back, List.getLastD_eq_getLast?, List.map_cons, List.getLast?_cons]
  exact List.mem_of_getLast? List.getLast?_cons

/-- **`insert_block`**, its first branch: the block comes before all others. -/
theorem insert_first {g : Heap} {b : Blk} (hm : Models h r)
    (hsound : Sound (b :: r) g.obtained) (hb0 : b.addr ≠ 0) (hg : Headed h g b)
    (hr : ∀ c ∈ r, b.addr < c.addr) :
    ∃ h', insertBlock b.addr g = some h' ∧ Models h' (b :: r) ∧
      Heap.Touches (· ∈ (b :: r).map Blk.addr) g h' := by
  have hxb : front r ≠ b.addr := by
    cases r with
    | nil => exact hb0.symm
    | cons c r => exact Nat.ne_of_gt (hr c List.mem_cons_self)
  have hfirst : front r = 0 ∨ b.addr < front r := by
    cases r with
    | nil => exact Or.inl rfl
    | cons c r => exact Or.inr (hr c List.mem_cons_self)
  rw [insertBlock, hg.head, hm.head_eq, if_pos hfirst]
  have hT : Heap.Touches (· ∈ (b :: r).map Blk.addr) g
      ((((g.setPrev b.addr 0).setNext b.addr (front r)).linkBack (front r) b.addr).setHead
        b.addr) := by
    refine (Heap.touches_write List.mem_cons_self _ g).trans
      ((Heap.touches_write List.mem_cons_self _ _).trans
        ((Heap.touches_linkBack (fun hx0 => List.mem_cons_of_mem _ (front_mem hx0)) _ _).trans
          ⟨rfl, [], rfl, fun a ha => absurd ha List.not_mem_nil⟩))
  simp only [Heap.head_setPrev, Heap.head_setNext, hg.head, hm.head_eq]
  refine ⟨_, rfl, ?_, hT⟩
  show Models _ ([] ++ [b] ++ r)
  refine (show Models h ([] ++ [] ++ r) from hm).relink (hT.obtained ▸ hsound) ?_ ?_ ?_ ?_ ?_ ?_
  · intro c hc
    rw [List.mem_singleton.mp hc]
    exact hb0
  · intro u huk hub
    have hub' : u ≠ b.addr := fun heq => hub (heq ▸ List.mem_cons_self)
    have hu0 : u ≠ 0 := huk
    simp [Heap.links, hu0, hub', (hg.others u hub').2.2.2]
  · intro v hvx hvb
    have hvb' : v ≠ b.addr := fun heq => hvb (heq ▸ List.mem_cons_self)
    simp [hvx, hvb', (hg.others v hvb').2.2.1]
  · simp only [List.map_cons, List.map_nil, List.cons_append, List.nil_append,
      List.isChain_cons_cons, List.isChain_singleton, and_true]
    refine ⟨⟨?_, ?_⟩, ?_, ?_⟩
    · simp [Heap.links, back]
    · intro _
      simp [back, Ne.symm hxb]
    · simp [Heap.links, hb0]
    · intro hx0
      simp [hx0]
  · intro u hu
    have hub' : u ≠ b.addr := fun heq => hu (heq ▸ List.mem_cons_self)
    simp [hg.others u hub']
  · intro c hc
    rw [List.mem_singleton.mp hc]
    simp [hg.cell]

/-- Its other branch: the walk stops at the last block below, and the block goes behind it. -/
theorem insert_behind {g : Heap} {b : Blk} (hm : Models h (a :: l ++ r))
    (hsound : Sound (a :: l ++ b :: r) g.obtained) (hb0 : b.addr ≠ 0) (hg : Headed h g b)
    (hl : ∀ c ∈ a :: l, c.addr < b.addr) (hr : ∀ c ∈ r, b.addr < c.addr) :
    ∃ h', insertBlock b.addr g = some h' ∧ Models h' (a :: l ++ b :: r) ∧
      Heap.Touches (· ∈ (a :: l ++ b :: r).map Blk.addr) g h' := by
  have hnot : ¬ (front (a :: l ++ r) = 0 ∨ b.addr < front (a :: l ++ r)) := by
    have ha0 : a.addr ≠ 0 := hm.addr_ne (by simp)
    have hab := hl a List.mem_cons_self
    show ¬ (a.addr = 0 ∨ b.addr < a.addr)
    omega
  have hbound : l.length < addressSpace := by
    have hlen := hm.length_lt
    simp only [List.length_append, List.length_cons] at hlen
    omega
  have hplace : findPlace g b.addr addressSpace (front (a :: l ++ r))
      = some (back (a :: l)) := by
    refine findPlace_eq (show Models h ([] ++ a :: l ++ r) from hm) ?_
      (fun c hc => hl c (List.mem_cons_of_mem _ hc)) hr hbound
    intro c hc
    exact (hg.others c.addr (Nat.ne_of_lt (hl c hc))).2.2.2
  rw [insertBlock, hg.head, hm.head_eq, if_neg hnot, hplace, Option.map_some]
  have hseam := hm.seam
  have hkmem := back_cons_mem a l
  generalize hkdef : back (a :: l) = k at *
  obtain ⟨d, hd, hdk⟩ := List.mem_map.mp hkmem
  have hk0 : k ≠ 0 := hdk ▸ hm.addr_ne (List.mem_append_left _ hd)
  have hkb : k < b.addr := hdk ▸ hl d hd
  have hkne : k ≠ b.addr := Nat.ne_of_lt hkb
  have hxb : front r ≠ b.addr := by
    cases r with
    | nil => exact hb0.symm
    | cons c r => exact Nat.ne_of_gt (hr c List.mem_cons_self)
  have hknext : g.next k = front r := by
    rw [(hg.others k hkne).2.2.2, ← h.links_nxt hk0]
    exact hseam.1
  have hT : Heap.Touches (· ∈ (a :: l ++ b :: r).map Blk.addr) g
      ((((g.setPrev b.addr k).setNext b.addr (front r)).linkBack (front r) b.addr).setNext k
        b.addr) := by
    have hP : ∀ x, x = b.addr ∨ x = k ∨ (x = front r ∧ x ≠ 0) →
        x ∈ (a :: l ++ b :: r).map Blk.addr := by
      rw [List.map_append, List.map_cons]
      rintro x (rfl | rfl | ⟨rfl, hx0⟩)
      · exact List.mem_append_right _ List.mem_cons_self
      · exact List.mem_append_left _ hkmem
      · exact List.mem_append_right _ (List.mem_cons_of_mem _ (front_mem hx0))
    apply Heap.Touches.mono hP
    refine (Heap.touches_write (Or.inl rfl) _ _).trans
      ((Heap.touches_write (Or.inl rfl) _ _).trans
      ((Heap.touches_linkBack (fun hx0 => Or.inr (Or.inr ⟨rfl, hx0⟩)) _ _).trans
      (Heap.touches_write (Or.inr (Or.inl rfl)) _ _)))
  simp only [Heap.setPrev_get, Heap.setNext_get, if_neg hkne, hknext]
  refine ⟨_, rfl, ?_, hT⟩
  have hcut : a :: l ++ b :: r = a :: l ++ [b] ++ r := by simp
  rw [hcut] at hsound ⊢
  refine (show Models h (a :: l ++ [] ++ r) by simpa using hm).relink
    (hT.obtained ▸ hsound) ?_ ?_ ?_ ?_ ?_ ?_
  · intro c hc
    rw [List.mem_singleton.mp hc]
    exact hb0
  · intro u huk hub
    rw [hkdef] at huk
    have hub' : u ≠ b.addr := fun heq => hub (heq ▸ List.mem_cons_self)
    simp [Heap.links, huk, hub', (hg.others u hub').2.2.2, hg.head]
  · intro v hvx hvb
    have hvb' : v ≠ b.addr := fun heq => hvb (heq ▸ List.mem_cons_self)
    simp [hvx, hvb', (hg.others v hvb').2.2.1]
  · simp only [List.map_cons, List.map_nil, List.cons_append, List.nil_append,
      List.isChain_cons_cons, List.isChain_singleton, and_true, hkdef]
    refine ⟨⟨?_, ?_⟩, ?_, ?_⟩
    · simp [Heap.links, hk0]
    · intro _
      simp [Ne.symm hxb]
    · simp [Heap.links, hb0, Ne.symm hkne]
    · intro hx0
      simp [hx0]
  · intro u hu
    have hub' : u ≠ b.addr := fun heq => hu (heq ▸ List.mem_cons_self)
    simp [hg.others u hub']
  · intro c hc
    rw [List.mem_singleton.mp hc]
    simp [hg.cell]

/-- **`insert_block`** puts a block that is not in the list yet, its header written, into its
    place. -/
theorem insert {g : Heap} {b : Blk} (hm : Models h (l ++ r))
    (hsound : Sound (l ++ b :: r) g.obtained) (hb0 : b.addr ≠ 0) (hg : Headed h g b) :
    ∃ h', insertBlock b.addr g = some h' ∧ Models h' (l ++ b :: r) ∧
      Heap.Touches (· ∈ (l ++ b :: r).map Blk.addr) g h' := by
  have hlt := hsound.addr_lt_addr
  rw [List.map_append, List.map_cons] at hlt
  obtain ⟨-, hbr, hlb⟩ := List.pairwise_append.mp hlt
  have hl : ∀ c ∈ l, c.addr < b.addr := fun c hc =>
    hlb _ (List.mem_map_of_mem hc) _ List.mem_cons_self
  have hr : ∀ c ∈ r, b.addr < c.addr := fun c hc =>
    (List.pairwise_cons.mp hbr).1 _ (List.mem_map_of_mem hc)
  cases l with
  | nil => exact insert_first hm hsound hb0 hg hr
  | cons a l => exact insert_behind hm hsound hb0 hg hl hr

end Models
end Malloc
