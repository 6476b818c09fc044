/-
  mymalloc — requests near the end of `size_t`.

  1. **Specification** — `HasRoom` is what a caller may expect of the pointer returned: its block
     has room for the bytes asked for, and a remainder lies behind them.
  2. **What can wrap around** — it is promised for every request, but three of the sizes computed
     are not what they should be near 2^64:
       * `request_size` rounds the last seven values up to 0;
       * `page_round` makes nothing of a size within a page of the end, and a chunk is asked for;
       * the threshold of `split_block` ends up below every block size.
  3. **The crux (`capacity_iff`)** — `SizesFit` is that the one which matters for the request does
     not wrap, and `HasRoom` holds then and only then.
  4. **What is idealised** — after a wrapped size the header of the remainder may share bytes with
     that of the block; here they are two headers at two addresses.
-/
import MiniLabs.Malloc.Chosen
import MiniLabs.Malloc.WellFormed

set_option linter.unusedVariables false

namespace Malloc

open Extents Models

/-- All answers of `vmalloc` lie below all blocks. -/
def Heap.Below (h : Heap) (vmalloc : Nat → Nat) : Prop :=
  ∀ len, vmalloc len ≠ 0 → ∀ b, h.OnList b → vmalloc len < b

/-- A pointer returned heads a block with a payload of `n` bytes or more, all of it obtained from
    `vmalloc`; if `split_block` wrote anything, the new header lies inside the block it cut,
    behind those `n` bytes. -/
def HasRoom (h : Heap) (n : Nat) (vmalloc : Nat → Nat) : Prop :=
  ∀ p h', mymalloc n vmalloc h = some (p, h') → p ≠ 0 →
    ∃ block h₁, chosen n vmalloc h = some (block, h₁) ∧ p = block + sizeofBlock ∧
      n ≤ h'.size block ∧ (∀ x, (Extent.mk p (h'.size block)).Has x → Covers id h'.obtained x) ∧
      ((splitBlock block (requestSize n) h₁).touched ≠ h₁.touched →
        p + n ≤ (splitBlock block (requestSize n) h₁).next block ∧
        (splitBlock block (requestSize n) h₁).next block + sizeofBlock ≤
          block + sizeofBlock + h₁.size block)

/-- Some free block is large enough for what `request_size` makes of `n`. -/
def Heap.Available (h : Heap) (n : Nat) : Prop :=
  ∃ b, h.OnList b ∧ h.free b = true ∧ requestSize n ≤ h.size b

/-- The request, rounded up without wrapping. -/
def rounded (n : Nat) : Nat := (max n minPayload + 7) / 8 * 8

/-- If a free block is large enough, the threshold of `split_block` does not wrap; otherwise
    `page_round` does not wrap, or `vmalloc` returns 0. -/
def SizesFit (h : Heap) (n : Nat) (vmalloc : Nat → Nat) : Prop :=
  (h.Available n → rounded n + sizeofBlock + minPayload < addressSpace) ∧
    (¬ h.Available n → NoWrap n ∨ vmalloc (extendBytes (requestSize n)) = 0)

/-! ## `split_block` -/

/-- One write more is seen. -/
theorem write_touched_ne {g h : Heap} (hT : Heap.Touches (fun _ => True) h g) (a : Nat)
    (f : BlockT → BlockT) : (g.write a f).touched ≠ h.touched := by
  obtain ⟨-, t, ht, -⟩ := hT
  intro heq
  have hlen : (a :: g.touched).length = h.touched.length := congrArg List.length heq
  rw [ht, List.length_cons, List.length_append] at hlen
  omega

/-- `split_block` writes when the block is not below its threshold. -/
theorem splitBlock_touched {block size : Nat} {h : Heap} :
    (splitBlock block size h).touched ≠ h.touched ↔
      ¬ h.size block < wadd (wadd size sizeofBlock) minPayload := by
  rw [splitBlock]
  split
  · rename_i hlt
    exact iff_of_false (fun hne => hne rfl) (fun hnot => hnot hlt)
  · rename_i hge
    refine iff_of_true (write_touched_ne ?_ _ _) hge
    exact (Heap.touches_write trivial _ _).trans ((Heap.touches_write trivial _ _).trans
      ((Heap.touches_write trivial _ _).trans ((Heap.touches_write trivial _ _).trans
      ((Heap.touches_linkBack (fun _ => trivial) _ _).trans (Heap.touches_write trivial _ _)))))

/-- The block is then followed by the remainder. -/
theorem splitBlock_next {block size : Nat} {h : Heap}
    (hsplit : (splitBlock block size h).touched ≠ h.touched) :
    (splitBlock block size h).next block = wadd (wadd block sizeofBlock) size := by
  rw [splitBlock, if_neg (splitBlock_touched.mp hsplit)]
  simp

/-! ## When there is room -/

section Room

variable {h h₁ : Heap} {n : Nat} {vmalloc : Nat → Nat}

/-- No size wraps, and the block chosen is large enough. -/
theorem room_of_models {l r : List Blk} {c : Blk}
    (hchosen : chosen n vmalloc h = some (c.addr, h₁)) (hm : Models h₁ (l ++ c :: r))
    (haligned : requestSize n % 8 = 0) (hleast : minPayload ≤ requestSize n)
    (hfits : requestSize n + sizeofBlock + minPayload < addressSpace) (hn : n ≤ requestSize n)
    (hsize : requestSize n ≤ c.size) : HasRoom h n vmalloc := by
  intro p h' hcall hp
  obtain ⟨hm', -⟩ := take_spec hm haligned hleast hfits
  obtain ⟨c', rest, hcut, haddr, -, hroom⟩ := takeBlk_cases c (requestSize n)
  have hassoc : l ++ c' :: rest ++ r = l ++ c' :: (rest ++ r) := by simp
  rw [hcut, hassoc] at hm'
  have hc0 : c.addr ≠ 0 := hm.addr_ne (by simp)
  have hstop := hm.sound.stop_le (b := c) (by simp)
  have hal := hm.sound.aligned c (by simp)
  have hpay : wadd c.addr sizeofBlock = c.addr + sizeofBlock := by
    apply wadd_eq
    unfold Blk.stop minPayload at *
    omega
  rw [mymalloc_eq, hchosen, Option.map_some, handOut, if_neg hc0, hpay] at hcall
  obtain ⟨rfl, rfl⟩ := Prod.mk.inj (Option.some.inj hcall)
  dsimp only at hm' ⊢
  have hsize' := hm'.size_eq
  rw [haddr] at hsize'
  refine ⟨c.addr, h₁, hchosen, rfl, ?_, ?_, ?_⟩
  · rw [hsize']
    exact Nat.le_trans hn (hroom hsize)
  · intro x hx
    rw [hsize'] at hx
    refine (hm'.sound.covers x).mp ⟨c', by simp, (c'.extent_has x).mpr ?_⟩
    obtain ⟨hlow, hhigh⟩ := hx
    unfold Extent.stop at hhigh
    unfold Blk.stop
    dsimp only at hlow hhigh
    omega
  · intro hsplit
    have hthreshold : wadd (wadd (requestSize n) sizeofBlock) minPayload =
        requestSize n + sizeofBlock + minPayload := by
      rw [@wadd_eq (requestSize n) sizeofBlock (by omega), wadd_eq hfits]
    have hge := splitBlock_touched.mp hsplit
    rw [hthreshold, hm.size_eq] at hge
    have hrest : wadd (wadd c.addr sizeofBlock) (requestSize n) =
        c.addr + sizeofBlock + requestSize n := by
      rw [hpay, wadd_eq]
      unfold Blk.stop minPayload at *
      omega
    rw [splitBlock_next hsplit, hrest, hm.size_eq]
    constructor <;> omega

/-- The block heads fewer bytes than that to the end of the address space. -/
theorem no_room_of_end {block : Nat} (hchosen : chosen n vmalloc h = some (block, h₁))
    (h0 : block ≠ 0) (hblock : block + sizeofBlock < addressSpace)
    (hspace : ∀ e ∈ h₁.obtained, e.stop ≤ addressSpace)
    (hend : addressSpace < block + sizeofBlock + n) : ¬ HasRoom h n vmalloc := by
  intro hroom
  have hpay : wadd block sizeofBlock = block + sizeofBlock := wadd_eq hblock
  have hcall : mymalloc n vmalloc h = some (block + sizeofBlock,
      (splitBlock block (requestSize n) h₁).setFree block false) := by
    rw [mymalloc_eq, hchosen, Option.map_some, handOut, if_neg h0, hpay]
  have hp : block + sizeofBlock ≠ 0 := by omega
  obtain ⟨block', h₁', hchosen', -, hsize, hcov, -⟩ := hroom _ _ hcall hp
  obtain ⟨rfl, rfl⟩ := Prod.mk.inj (Option.some.inj (hchosen.symm.trans hchosen'))
  generalize addressSpace = top at hblock hspace hend
  have hin : (Extent.mk (block + sizeofBlock) (((splitBlock block (requestSize n) h₁).setFree
      block false).size block)).Has top := by
    refine ⟨Nat.le_of_lt hblock, ?_⟩
    exact Nat.lt_of_lt_of_le hend (Nat.add_le_add_left hsize _)
  obtain ⟨e, he, -, hstop⟩ := hcov top hin
  rw [setFree_obtained, splitBlock_obtained] at he
  exact absurd hstop (Nat.not_lt.mpr (hspace e he))

/-- The block takes all of the address space but the first 8 bytes: the threshold wraps to 0 and
    the remainder goes to address 0. -/
theorem no_room_of_threshold (hchosen : chosen n vmalloc h = some (8, h₁))
    (hsize : requestSize n = addressSpace - 40) : ¬ HasRoom h n vmalloc := by
  intro hroom
  have hcall : mymalloc n vmalloc h = some (40,
      (splitBlock 8 (requestSize n) h₁).setFree 8 false) := by
    have hpay : wadd 8 sizeofBlock = 40 := by decide
    have h8 : (8 : Nat) ≠ 0 := by decide
    rw [mymalloc_eq, hchosen, Option.map_some, handOut, if_neg h8, hpay]
  obtain ⟨block', h₁', hchosen', -, -, -, hrest⟩ := hroom _ _ hcall (by decide)
  obtain ⟨rfl, rfl⟩ := Prod.mk.inj (Option.some.inj (hchosen.symm.trans hchosen'))
  have hsplit : (splitBlock 8 (requestSize n) h₁).touched ≠ h₁.touched := by
    have hzero : wadd (wadd (addressSpace - 40) sizeofBlock) minPayload = 0 := by decide
    rw [splitBlock_touched, hsize, hzero]
    exact Nat.not_lt_zero _
  have hnext := (hrest hsplit).1
  have hzero : wadd (wadd 8 sizeofBlock) (addressSpace - 40) = 0 := by decide
  rw [splitBlock_next hsplit, hsize, hzero] at hnext
  omega

end Room

/-! ## Every request -/

/-- `Below` on the heap is `Below` on its list. -/
theorem Models.below {h : Heap} {bs : List Blk} {vmalloc : Nat → Nat} (hm : Models h bs)
    (hb : h.Below vmalloc) : Below bs vmalloc :=
  fun len h0 b hmem => hb len h0 b.addr ((hm.onList_iff _).mpr ⟨b, hmem, rfl⟩)

/-- `find_free_block` has something to find when the list has. -/
theorem Models.available {h : Heap} {bs : List Blk} (hm : Models h bs) (n : Nat) :
    h.Available n ↔ ∃ b ∈ bs, b.free = true ∧ requestSize n ≤ b.size := by
  constructor
  · rintro ⟨a, hon, hfree, hsize⟩
    obtain ⟨b, hb, rfl⟩ := (hm.onList_iff a).mp hon
    rw [(hm.cells b hb).2] at hfree
    rw [(hm.cells b hb).1] at hsize
    exact ⟨b, hb, hfree, hsize⟩
  · rintro ⟨b, hb, hfree, hsize⟩
    refine ⟨b.addr, (hm.onList_iff _).mpr ⟨b, hb, rfl⟩, ?_, ?_⟩
    · rw [(hm.cells b hb).2]
      exact hfree
    · rw [(hm.cells b hb).1]
      exact hsize

/-- A free block is taken: there is room unless the threshold of `split_block` wraps. -/
theorem room_found {h : Heap} {l r : List Blk} {c : Blk} {n : Nat} {vmalloc : Nat → Nat}
    (hn : n < addressSpace) (hm : Models h (l ++ c :: r)) (hsize : requestSize n ≤ c.size)
    (hchosen : chosen n vmalloc h = some (c.addr, { h with mallocCount := h.mallocCount + 1 })) :
    HasRoom h n vmalloc ↔ rounded n + sizeofBlock + minPayload < addressSpace := by
  have hm₁ := hm.counted (h.mallocCount + 1)
  have hc0 : c.addr ≠ 0 := hm.addr_ne (by simp)
  have hstop := hm.sound.stop_le (b := c) (by simp)
  have hal := hm.sound.aligned c (by simp)
  by_cases hwrap : max n minPayload + 7 < addressSpace
  · have hreq : requestSize n = rounded n := requestSize_eq hwrap
    constructor
    · intro hroom
      by_contra hno
      have hcorner : c.addr = 8 ∧ requestSize n = addressSpace - 40 := by
        unfold rounded minPayload at hreq
        unfold rounded at hno
        unfold Blk.stop sizeofBlock minPayload addressSpace at *
        omega
      rw [hcorner.1] at hchosen
      exact no_room_of_threshold hchosen hcorner.2 hroom
    · intro hfits
      refine room_of_models hchosen hm₁ ?_ ?_ ?_ ?_ hsize
      · rw [hreq]
        exact Nat.mul_mod_left _ _
      · rw [hreq]
        unfold rounded minPayload
        omega
      · rw [hreq]
        exact hfits
      · rw [hreq]
        unfold rounded minPayload
        omega
  · refine iff_of_false (no_room_of_end hchosen hc0 ?_ hm.sound.inSpace ?_) ?_
    · unfold Blk.stop minPayload at *
      omega
    · unfold sizeofBlock minPayload addressSpace at *
      omega
    · unfold rounded sizeofBlock minPayload addressSpace at *
      omega

/-- New memory is taken: there is room unless `page_round` wraps. -/
theorem room_extended {h h₁ : Heap} {bs : List Blk} {n start : Nat} {vmalloc : Nat → Nat}
    (hv : Vmalloc h vmalloc) (hstart : vmalloc (extendBytes (requestSize n)) = start)
    (h0 : start ≠ 0) (hchosen : chosen n vmalloc h = some (start, h₁))
    (hm : Models h₁ ((mergeNext (newBlk start (extendBytes (requestSize n))) bs).1 ::
      (mergeNext (newBlk start (extendBytes (requestSize n))) bs).2)) :
    HasRoom h n vmalloc ↔ NoWrap n := by
  have haddr : (mergeNext (newBlk start (extendBytes (requestSize n))) bs).1.addr = start :=
    mergeNext_addr _ _
  by_cases hn : NoWrap n
  · refine iff_of_true ?_ hn
    have hreq := requestSize_spec hn
    have hfits : requestSize n + sizeofBlock + minPayload < addressSpace :=
      Nat.lt_of_le_of_lt (by unfold minPayload pageSize; omega) hreq.fits
    rw [← haddr] at hchosen
    have hm' : Models h₁ ([] ++ (mergeNext (newBlk start (extendBytes (requestSize n))) bs).1 ::
        (mergeNext (newBlk start (extendBytes (requestSize n))) bs).2) := hm
    exact room_of_models hchosen hm' hreq.aligned hreq.least hfits hreq.enough
      (newBlk_room hn start bs)
  · refine iff_of_false ?_ hn
    obtain ⟨hpage, hend, -⟩ : vmalloc (extendBytes (requestSize n)) % pageSize = 0 ∧ _ ∧ _ :=
      (hv _).resolve_left (hstart.symm ▸ h0)
    have hchunk := (extendBytes_bounds (requestSize n)).2.1
    rw [hstart] at hpage hend
    refine no_room_of_end hchosen h0 ?_ hm.sound.inSpace ?_
    · unfold sizeofBlock chunkSize at *
      omega
    · unfold NoWrap at hn
      unfold minPayload sizeofBlock pageSize addressSpace at *
      omega

/-- **Capacity.**  From every well-formed heap, for every request and whatever memory below all
    blocks `vmalloc` has to give, `mymalloc` returns, and it keeps its promise exactly when the
    size that matters does not wrap.

    When it wraps, `split_block` may put its new header over the one of the block it cuts.  In
    memory the two share bytes; in `Heap.mem` headers that lie at different addresses do not
    disturb one another.  Of such requests it is only said that there is no room for them, which
    the addresses decide. -/
theorem capacity_iff {h : Heap} {n : Nat} {vmalloc : Nat → Nat} (hn : n < addressSpace)
    (hw : WellFormed h) (hv : Vmalloc h vmalloc) (hb : h.Below vmalloc) :
    (mymalloc n vmalloc h).isSome ∧ (HasRoom h n vmalloc ↔ SizesFit h n vmalloc) := by
  obtain ⟨bs, hm⟩ := hw
  rw [SizesFit, hm.available, mymalloc_eq, Option.isSome_map]
  rcases chosen_cases hm hv (hm.below hb) with
    ⟨l, c, r, rfl, hfree, hsize, hchosen⟩ | ⟨hnone, hnull, hchosen⟩ |
    ⟨start, h₁, hnone, hstart, h0, hchosen, hm₁, -⟩
  · have hav : ∃ b ∈ l ++ c :: r, b.free = true ∧ requestSize n ≤ b.size :=
      ⟨c, by simp, hfree, hsize⟩
    refine ⟨by rw [hchosen]; rfl, (room_found hn hm hsize hchosen).trans ?_⟩
    exact ⟨fun hfits => ⟨fun _ => hfits, fun hno => absurd hav hno⟩, fun hboth => hboth.1 hav⟩
  · refine ⟨by rw [hchosen]; rfl, iff_of_true ?_ ⟨?_, fun _ => Or.inr hnull⟩⟩
    · intro p h' hcall hp
      rw [mymalloc_eq, hchosen] at hcall
      exact absurd (Prod.mk.inj (Option.some.inj hcall)).1.symm hp
    · rintro ⟨b, hmem, hfree, hsize⟩
      exact absurd hsize (Nat.not_le.mpr (hnone b hmem hfree))
  · have hav : ¬ ∃ b ∈ bs, b.free = true ∧ requestSize n ≤ b.size := by
      rintro ⟨b, hmem, hfree, hsize⟩
      exact absurd hsize (Nat.not_le.mpr (hnone b hmem hfree))
    refine ⟨by rw [hchosen]; rfl, (room_extended hv hstart h0 hchosen hm₁).trans ?_⟩
    refine ⟨fun hn => ⟨fun h => absurd h hav, fun _ => Or.inl hn⟩, fun hboth => ?_⟩
    exact (hboth.2 hav).resolve_right (hstart ▸ h0)

/-- The first memory lies below no block. -/
theorem init_below (vmalloc : Nat → Nat) : Heap.init.Below vmalloc := by
  intro len _ b hon
  obtain ⟨c, hc, -⟩ := (Models.init.onList_iff b).mp hon
  exact absurd hc List.not_mem_nil

/-- An address at which a chunk may be obtained first. -/
theorem chunk_vmalloc : Vmalloc Heap.init (oneRegion 65536 65536) :=
  oneRegion_vmalloc (by decide) (by decide) fun x _ => covers_nil id x

/-- A request of 100 bytes on a heap with free and used blocks, with a chunk below them. -/
theorem capacity_iff_mixed :
    (mymalloc 100 (oneRegion 65536 65536) mixedHeap).isSome ∧
      (HasRoom mixedHeap 100 (oneRegion 65536 65536) ↔
        SizesFit mixedHeap 100 (oneRegion 65536 65536)) := by
  refine capacity_iff (by decide) ⟨mixedBlocks, mixedHeap_models⟩ mixedHeap_vmalloc ?_
  intro len _ b hon
  obtain ⟨c, hc, rfl⟩ := (mixedHeap_models.onList_iff b).mp hon
  have hbelow : ∀ c ∈ mixedBlocks, 65536 < c.addr := by decide
  refine Nat.lt_of_le_of_lt ?_ (hbelow c hc)
  rw [oneRegion]
  split
  · exact Nat.le_refl _
  · exact Nat.zero_le _

/-- A first request of `SIZE_MAX` bytes is rounded up to 0 and gets the front of a chunk. -/
theorem size_max_served :
    ¬ ∀ (h : Heap) (n : Nat) (vmalloc : Nat → Nat), n < addressSpace → WellFormed h →
      Vmalloc h vmalloc → h.Below vmalloc → HasRoom h n vmalloc := by
  intro hclaim
  have hroom := hclaim Heap.init (addressSpace - 1) (oneRegion 65536 65536) (by decide)
    ⟨[], Models.init⟩ chunk_vmalloc (init_below _)
  have hbytes : oneRegion 65536 65536 (extendBytes (requestSize (addressSpace - 1))) = 65536 := by
    decide +kernel
  rcases chosen_cases (n := addressSpace - 1) Models.init chunk_vmalloc
      (Models.init.below (init_below _)) with
    ⟨l, c, r, hbs, -⟩ | ⟨-, hnull, -⟩ | ⟨start, h₁, -, hstart, h0, hchosen, hm, -⟩
  · exact absurd hbs (by simp)
  · rw [hbytes] at hnull
    exact absurd hnull (by decide)
  · have hno : ¬ NoWrap (addressSpace - 1) := by
      unfold NoWrap
      decide
    exact hno ((room_extended chunk_vmalloc hstart h0 hchosen hm).mp hroom)

end Malloc
