/-
  mymalloc — what the heap is for: memory tiled by blocks.

  1. **Abstract heap** — the list of its blocks.  `Sound` says that the blocks are aligned, stand
     one behind the other and occupy exactly the memory obtained.
  2. **Operations** — on such a list:
       * `Blk.mark`  — a block becomes free or is taken;
       * `mergeNext` — a block absorbs its successor if both are free and they touch;
       * `cutBlk`    — a block is cut behind a payload of `n` bytes;
       * a new block for newly obtained memory, put in its place (`Sound.insert`).
  3. **The crux (`Sound.replace`)** — each of them but the last occupies what was occupied before,
     and that is all there is to prove about it.
  4. **Arithmetic** — the sizes the code computes modulo 2^64 are treated first: under `NoWrap` they
     are what they would be without the modulus (`requestSize_spec`, `extendBytes_spec`).
-/
import MiniLabs.Malloc.Code

set_option linter.unusedVariables false

namespace Malloc

open Extents

/-! ## Sizes that do not wrap -/

/-- A sum below 2^64 does not wrap. -/
theorem wadd_eq {a b : Nat} (h : a + b < addressSpace) : wadd a b = a + b := Nat.mod_eq_of_lt h

/-- A difference that is not negative does not wrap. -/
theorem wsub_eq {a b : Nat} (h : b ≤ a) (ha : a < addressSpace) : wsub a b = a - b := by
  have hsum : a + (addressSpace - b) = (a - b) + addressSpace := by omega
  rw [wsub, hsum, Nat.add_mod_right, Nat.mod_eq_of_lt (by omega)]

/-- Masking the low bits off rounds down. -/
theorem and_mask {k y : Nat} (hk : k < 64) (hy : y < addressSpace) :
    (y &&& (addressSpace - 1 - (2 ^ k - 1))) = y / 2 ^ k * 2 ^ k := by
  have hlt : 2 ^ k - 1 < 2 ^ 64 := by
    have := Nat.pow_lt_pow_right (show 1 < 2 by decide) hk
    omega
  apply Nat.eq_of_testBit_eq
  intro i
  have hmask : addressSpace - 1 - (2 ^ k - 1) = 2 ^ 64 - (2 ^ k - 1 + 1) := by
    unfold addressSpace
    omega
  rw [Nat.testBit_and, hmask, Nat.testBit_two_pow_sub_succ hlt, Nat.testBit_two_pow_sub_one,
    Nat.testBit_mul_two_pow, Nat.testBit_div_two_pow]
  rcases Nat.lt_or_ge i k with hik | hik
  · simp [hik, Nat.not_le.mpr hik]
  · rcases Nat.lt_or_ge i 64 with hi | hi
    · simp [hik, hi, Nat.not_lt.mpr hik]
    · have hbit : y.testBit i = false :=
        Nat.testBit_lt_two_pow (Nat.lt_of_lt_of_le hy (Nat.pow_le_pow_right (by decide) hi))
      simp [hik, hbit]

/-- `align_up` rounds up to a multiple of a power of two, if nothing wraps. -/
theorem alignUp_eq {k x : Nat} (hk : k < 64) (h : x + 2 ^ k - 1 < addressSpace) :
    alignUp x (2 ^ k) = (x + 2 ^ k - 1) / 2 ^ k * 2 ^ k := by
  have hpos : 0 < 2 ^ k := Nat.two_pow_pos k
  have hlt : 2 ^ k < addressSpace := Nat.pow_lt_pow_right (by decide) hk
  have hsub : wsub (wadd x (2 ^ k)) 1 = x + 2 ^ k - 1 := by
    unfold wsub wadd
    rw [Nat.mod_add_mod]
    have hsum : x + 2 ^ k + (addressSpace - 1) = (x + 2 ^ k - 1) + addressSpace := by
      unfold addressSpace
      omega
    rw [hsum, Nat.add_mod_right, Nat.mod_eq_of_lt h]
  rw [alignUp, hsub, wsub_eq hpos hlt, and_mask hk h]

/-- No size computed for a request of `n` bytes wraps; the largest one comes up in
    `page_round`. -/
def NoWrap (n : Nat) : Prop :=
  (max n minPayload + 7) / 8 * 8 + sizeofBlock + (pageSize - 1) < addressSpace

/-- What `request_size` makes of a request. -/
structure Request (n size : Nat) : Prop where
  aligned : size % 8 = 0
  enough : n ≤ size
  least : minPayload ≤ size
  tight : size < max n minPayload + 8
  fits : size + sizeofBlock + (pageSize - 1) < addressSpace

/-- `request_size` rounds up to a multiple of 8, and to `MIN_PAYLOAD` at least. -/
theorem requestSize_eq {n : Nat} (h : max n minPayload + 7 < addressSpace) :
    requestSize n = (max n minPayload + 7) / 8 * 8 := by
  have hmax : (if n < minPayload then minPayload else n) = max n minPayload := by
    unfold minPayload
    split <;> omega
  unfold requestSize
  dsimp only
  rw [hmax]
  exact @alignUp_eq 3 (max n minPayload) (by decide) (by omega)

/-- A request is rounded up to a multiple of 8 that is large enough. -/
theorem requestSize_spec {n : Nat} (h : NoWrap n) : Request n (requestSize n) := by
  unfold NoWrap minPayload sizeofBlock pageSize addressSpace at h
  rw [requestSize_eq (by unfold minPayload addressSpace; omega)]
  constructor <;> (unfold minPayload) <;> (try unfold sizeofBlock pageSize addressSpace) <;> omega

/-- What `extend_heap` asks for: whole pages, with room for a header and the payload. -/
theorem extendBytes_spec {n size : Nat} (h : Request n size) :
    extendBytes size % 8 = 0 ∧ size + sizeofBlock ≤ extendBytes size ∧
      chunkSize ≤ extendBytes size ∧ extendBytes size < addressSpace := by
  have hfits := h.fits
  unfold sizeofBlock pageSize addressSpace at hfits
  have hadd : wadd sizeofBlock size = sizeofBlock + size :=
    wadd_eq (by unfold sizeofBlock addressSpace; omega)
  have hround : pageRound (wadd sizeofBlock size)
      = (sizeofBlock + size + 4095) / 4096 * 4096 := by
    rw [hadd]
    exact @alignUp_eq 12 (sizeofBlock + size) (by decide)
      (by unfold sizeofBlock addressSpace; omega)
  unfold extendBytes
  dsimp only
  rw [hround]
  unfold sizeofBlock chunkSize addressSpace
  split <;> omega

/-! ## Blocks -/

/-- One block: its address, the size of its payload and whether it is free. -/
structure Blk where
  addr : Nat
  size : Nat
  free : Bool
  deriving DecidableEq, Repr

namespace Blk

/-- Header and payload. -/
def extent (b : Blk) : Extent := ⟨b.addr, sizeofBlock + b.size⟩

/-- The address of the payload, the pointer handed out. -/
def payload (b : Blk) : Nat := b.addr + sizeofBlock

/-- The address behind the block. -/
def stop (b : Blk) : Nat := b.addr + sizeofBlock + b.size

/-- The block with another free flag. -/
def mark (f : Bool) (b : Blk) : Blk := { b with free := f }

/-- `a` with `b` absorbed. -/
def join (a b : Blk) : Blk := { a with size := a.size + (sizeofBlock + b.size) }

@[simp] theorem mark_addr (f : Bool) (b : Blk) : (b.mark f).addr = b.addr := rfl
@[simp] theorem join_addr (a b : Blk) : (a.join b).addr = a.addr := rfl

/-- The extent of a block ends where the block does. -/
theorem extent_stop (b : Blk) : b.extent.stop = b.stop := (Nat.add_assoc _ _ _).symm

/-- A block has at least its header. -/
theorem extent_pos (b : Blk) : 0 < b.extent.len :=
  Nat.lt_of_lt_of_le (show 0 < sizeofBlock by decide) (Nat.le_add_right _ _)

/-- The addresses of a block. -/
theorem extent_has (b : Blk) (x : Nat) : b.extent.Has x ↔ b.addr ≤ x ∧ x < b.stop := by
  rw [Extent.Has, extent_stop]
  rfl

end Blk

/-- `coalesce_with_next` on `a` and what follows it. -/
def mergeNext (a : Blk) : List Blk → Blk × List Blk
  | [] => (a, [])
  | b :: r =>
    if a.free = true ∧ b.free = true ∧ a.stop = b.addr then (a.join b, r) else (a, b :: r)

/-- `split_block` on `a`. -/
def cutBlk (a : Blk) (n : Nat) : List Blk :=
  if a.size < n + sizeofBlock + minPayload then [a]
  else [{ a with size := n },
    ⟨a.addr + sizeofBlock + n, a.size - n - sizeofBlock, true⟩]

/-! ## Sound lists of blocks -/

/-- The blocks are aligned, in order, and occupy exactly the memory obtained. -/
structure Sound (bs : List Blk) (obtained : List Extent) : Prop where
  aligned : ∀ b ∈ bs, b.addr % 8 = 0 ∧ b.size % 8 = 0 ∧ minPayload ≤ b.size
  ordered : Ordered Blk.extent bs
  covers : ∀ x, Covers Blk.extent bs x ↔ Covers id obtained x
  total : total Blk.extent bs = total id obtained
  inSpace : ∀ e ∈ obtained, e.stop ≤ addressSpace

namespace Sound

variable {l mid mid' r : List Blk} {obtained : List Extent}

/-- The empty list is sound when nothing has been obtained. -/
theorem nil : Sound [] [] where
  aligned := fun b hb => absurd hb List.not_mem_nil
  ordered := List.Pairwise.nil
  covers := fun x => iff_of_false (covers_nil _ x) (covers_nil _ x)
  total := rfl
  inSpace := fun e he => absurd he List.not_mem_nil

/-- No block reaches behind the last address. -/
theorem stop_le (h : Sound l obtained) {b : Blk} (hb : b ∈ l) : b.stop ≤ addressSpace := by
  have hlast : Covers Blk.extent l (b.stop - 1) := by
    refine ⟨b, hb, (b.extent_has _).mpr ?_⟩
    unfold Blk.stop sizeofBlock
    omega
  obtain ⟨e, he, hx⟩ := (h.covers _).mp hlast
  have hstop := h.inSpace e he
  have hlt : b.stop - 1 < e.stop := hx.2
  omega

/-- A block lies within the address space. -/
theorem addr_lt (h : Sound l obtained) {b : Blk} (hb : b ∈ l) : b.addr < addressSpace := by
  have hstop := h.stop_le hb
  unfold Blk.stop sizeofBlock at hstop
  omega

/-- Addresses increase along the list. -/
theorem addr_lt_addr (h : Sound l obtained) :
    (l.map Blk.addr).Pairwise (· < ·) := by
  refine List.pairwise_map.mpr (h.ordered.imp ?_)
  intro a b hab
  rw [Blk.extent_stop] at hab
  have haddr : a.addr + sizeofBlock + a.size ≤ b.addr := hab
  unfold sizeofBlock at haddr
  omega

/-- No two blocks have one address. -/
theorem nodup (h : Sound l obtained) : (l.map Blk.addr).Nodup :=
  h.addr_lt_addr.imp fun hlt => Nat.ne_of_lt hlt

/-- **Replacement.**  A stretch of blocks may be exchanged for aligned blocks that occupy the
    same memory. -/
theorem replace (h : Sound (l ++ mid ++ r) obtained)
    (haligned : ∀ b ∈ mid', b.addr % 8 = 0 ∧ b.size % 8 = 0 ∧ minPayload ≤ b.size)
    (hordered : Ordered Blk.extent mid')
    (hcovers : ∀ x, Covers Blk.extent mid' x ↔ Covers Blk.extent mid x)
    (htotal : Extents.total Blk.extent mid' = Extents.total Blk.extent mid) :
    Sound (l ++ mid' ++ r) obtained where
  aligned := by
    intro b hb
    rcases List.mem_append.mp hb with hb | hb
    · rcases List.mem_append.mp hb with hb | hb
      · exact h.aligned b (by simp [hb])
      · exact haligned b hb
    · exact h.aligned b (by simp [hb])
  ordered := h.ordered.replace (fun b _ => b.extent_pos) hordered fun x => (hcovers x).mp
  covers := by
    intro x
    rw [← h.covers x]
    simp only [covers_append, hcovers x]
  total := by
    rw [← h.total]
    simp only [total_append, htotal]
  inSpace := h.inSpace

/-- A block is marked. -/
theorem mark {a : Blk} (h : Sound (l ++ a :: r) obtained) (f : Bool) :
    Sound (l ++ a.mark f :: r) obtained := by
  have hcut : ∀ b : Blk, l ++ b :: r = l ++ [b] ++ r := fun b => by simp
  rw [hcut] at h ⊢
  refine h.replace ?_ (List.pairwise_singleton _ _) ?_ rfl
  · intro b hb
    rw [List.mem_singleton.mp hb]
    exact h.aligned a (by simp)
  · intro x
    rw [covers_cons, covers_cons]
    exact Iff.rfl

/-- Two blocks that touch become one. -/
theorem join {a b : Blk} (h : Sound (l ++ a :: b :: r) obtained) (htouch : a.stop = b.addr) :
    Sound (l ++ a.join b :: r) obtained := by
  have hcut : l ++ a :: b :: r = l ++ [a, b] ++ r := by simp
  have hcut' : l ++ a.join b :: r = l ++ [a.join b] ++ r := by simp
  rw [hcut] at h
  rw [hcut']
  have ha := h.aligned a (by simp)
  have hb := h.aligned b (by simp)
  refine h.replace ?_ (List.pairwise_singleton _ _) ?_ ?_
  · intro c hc
    rw [List.mem_singleton.mp hc]
    unfold Blk.join sizeofBlock minPayload at *
    dsimp only
    omega
  · intro x
    simp only [covers_cons, covers_nil, or_false, Blk.extent_has]
    unfold Blk.stop Blk.join at *
    dsimp only at *
    omega
  · simp only [total_cons, total_nil, Blk.extent, Blk.join]
    omega

/-- **Merging keeps a list sound**: the two blocks occupied what the one does. -/
theorem mergeNext {a : Blk} (h : Sound (l ++ a :: r) obtained) :
    Sound (l ++ (mergeNext a r).1 :: (mergeNext a r).2) obtained := by
  cases r with
  | nil => exact h
  | cons b r =>
    rw [Malloc.mergeNext]
    split
    · rename_i hc
      exact h.join hc.2.2
    · exact h

/-- A block is cut behind the first `n` bytes of its payload. -/
theorem cut {a : Blk} {n : Nat} (h : Sound (l ++ a :: r) obtained) (hn : n % 8 = 0)
    (hmin : minPayload ≤ n) : Sound (l ++ cutBlk a n ++ r) obtained := by
  have hcut : l ++ a :: r = l ++ [a] ++ r := by simp
  rw [hcut] at h
  rw [cutBlk]
  split
  · exact h
  · rename_i hsize
    have ha := h.aligned a (by simp)
    unfold sizeofBlock minPayload at *
    refine h.replace ?_ ?_ ?_ ?_
    · intro c hc
      rcases List.mem_cons.mp hc with rfl | hc
      · exact ⟨ha.1, hn, hmin⟩
      · rw [List.mem_singleton.mp hc]
        unfold minPayload
        dsimp only
        omega
    · refine List.pairwise_cons.mpr ⟨?_, List.pairwise_singleton _ _⟩
      intro c hc
      rw [List.mem_singleton.mp hc, Blk.extent_stop]
      exact Nat.le_refl _
    · intro x
      simp only [covers_cons, covers_nil, or_false, Blk.extent_has]
      unfold Blk.stop sizeofBlock
      dsimp only
      omega
    · simp only [total_cons, total_nil, Blk.extent, sizeofBlock]
      omega

/-- Newly obtained memory becomes one more block. -/
theorem insert {b : Blk} (h : Sound (l ++ r) obtained)
    (haligned : b.addr % 8 = 0 ∧ b.size % 8 = 0 ∧ minPayload ≤ b.size)
    (hspace : b.stop ≤ addressSpace) (hl : ∀ a ∈ l, a.stop ≤ b.addr)
    (hr : ∀ c ∈ r, b.stop ≤ c.addr) : Sound (l ++ b :: r) (b.extent :: obtained) where
  aligned := by
    intro c hc
    rcases List.mem_append.mp hc with hc | hc
    · exact h.aligned c (by simp [hc])
    · rcases List.mem_cons.mp hc with rfl | hc
      · exact haligned
      · exact h.aligned c (by simp [hc])
  ordered := by
    refine h.ordered.insert ?_ ?_
    · intro a ha
      rw [Blk.extent_stop]
      exact hl a ha
    · intro c hc
      rw [Blk.extent_stop]
      exact hr c hc
  covers := by
    intro x
    have hx := h.covers x
    rw [covers_append] at hx
    rw [covers_append, covers_cons, covers_cons, ← hx]
    exact or_left_comm
  total := by
    have ht := h.total
    rw [total_append] at ht
    rw [total_append, total_cons, total_cons, ← ht]
    exact Nat.add_left_comm _ _ _
  inSpace := by
    intro e he
    rcases List.mem_cons.mp he with rfl | he
    · rw [Blk.extent_stop]
      exact hspace
    · exact h.inSpace e he

end Sound
end Malloc
