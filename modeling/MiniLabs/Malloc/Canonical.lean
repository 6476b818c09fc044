/-
  mymalloc — the list that is left when everything has been freed.

  1. **Specification** — `Restored`: with nothing live all blocks are free, no two of them touch,
     and the list is that of the stretches of the memory obtained, whatever the order of the frees
     (`SameList`).
  2. **The crux (`Tidy`)** — memory grows downwards: every region lies below the earlier ones.  Then
     every run keeps `Sys.Inv`, no two neighbours on the list are free and touch (`Coalesced`), and
     every block in use belongs to a live allocation.
  3. **Routine by routine** — each keeps `Coalesced` on its own:
       * `mergeNext` — whatever the block in front, the rest stays coalesced;
       * `freeBlk`   — two such merges, the second one around the result of the first;
       * `takeBlk`   — the front is taken, the rest ends where the free block ended.
-/
import Mathlib.Data.List.Sort
import MiniLabs.Malloc.Chosen
import MiniLabs.Malloc.Safety

set_option linter.unusedVariables false

namespace Malloc

open Extents Models

/-! ## Coalesced lists -/

/-- Two neighbours are not free both if they touch. -/
def Settled (a b : Blk) : Prop := ¬ (a.free = true ∧ b.free = true ∧ a.stop = b.addr)

/-- Every free block that touches the next one has been merged with it. -/
def Coalesced (bs : List Blk) : Prop := bs.IsChain Settled

/-- Two blocks that touch end where the second one did. -/
theorem join_stop {a b : Blk} (h : a.stop = b.addr) : (a.join b).stop = b.stop := by
  unfold Blk.stop at h
  unfold Blk.stop Blk.join
  dsimp only
  omega

/-- Merging settles a block with what follows. -/
theorem coalesced_mergeNext (a : Blk) {r : List Blk} (hr : Coalesced r) :
    Coalesced ((mergeNext a r).1 :: (mergeNext a r).2) := by
  cases r with
  | nil => exact List.IsChain.singleton a
  | cons b r =>
    rw [mergeNext]
    split
    · rename_i hc
      obtain ⟨hhead, htail⟩ := List.isChain_cons.mp hr
      refine List.isChain_cons.mpr ⟨?_, htail⟩
      rintro c hmem ⟨-, hcfree, htouch⟩
      rw [join_stop hc.2.2] at htouch
      exact hhead c hmem ⟨hc.2.1, hcfree, htouch⟩
    · rename_i hc
      exact List.isChain_cons_cons.mpr ⟨hc, hr⟩

/-- A block that starts like `p` stands behind the same blocks. -/
theorem Coalesced.behind {l r : List Blk} {p q : Blk} (hl : Coalesced (l ++ [p]))
    (hr : Coalesced (q :: r)) (haddr : q.addr = p.addr) (hfree : q.free = p.free) :
    Coalesced (l ++ q :: r) := by
  obtain ⟨hfront, -, hseam⟩ := List.isChain_append.mp hl
  refine List.isChain_append.mpr ⟨hfront, hr, ?_⟩
  intro x hx y hy
  obtain rfl : q = y := Option.some.inj hy
  have hxp := hseam x hx p rfl
  unfold Settled at hxp ⊢
  rwa [haddr, hfree]

/-- **Freeing keeps a list coalesced.**. -/
theorem coalesced_freeBlk {l r : List Blk} {a : Blk} (h : Coalesced (l ++ a :: r)) :
    Coalesced (freeBlk l a r) := by
  obtain ⟨hl, har, -⟩ := List.isChain_append.mp h
  have hmerged := coalesced_mergeNext (a.mark true) (List.isChain_cons.mp har).2
  rcases List.eq_nil_or_concat l with rfl | ⟨l, p, rfl⟩
  · exact hmerged
  · rw [List.concat_eq_append] at hl ⊢
    rw [freeBlk_concat]
    exact Coalesced.behind hl (coalesced_mergeNext p hmerged) (mergeNext_addr _ _)
      (mergeNext_free _ _)

/-- Taking the front of a free block keeps a list coalesced: the rest ends where the block did. -/
theorem coalesced_takeBlk {l r : List Blk} {c : Blk} {n : Nat} (h : Coalesced (l ++ c :: r))
    (hfree : c.free = true) : Coalesced (l ++ takeBlk c n ++ r) := by
  obtain ⟨hl, hcr, -⟩ := List.isChain_append.mp h
  obtain ⟨hhead, hr⟩ := List.isChain_cons.mp hcr
  -- a block in use may stand anywhere
  have hused : ∀ {x y : Blk}, x.free = false ∨ y.free = false → Settled x y := by
    rintro x y hxy ⟨hx, hy, -⟩
    rw [hx, hy] at hxy
    simp at hxy
  rw [takeBlk]
  split
  · have hcut : l ++ [c.mark false] ++ r = l ++ c.mark false :: r := by simp
    rw [hcut]
    refine List.isChain_append.mpr ⟨hl, List.isChain_cons.mpr ⟨?_, hr⟩, ?_⟩
    · exact fun y _ => hused (Or.inl rfl)
    · intro x _ y hy
      obtain rfl : c.mark false = y := Option.some.inj hy
      exact hused (Or.inr rfl)
  · rename_i hsize
    obtain ⟨b, hb⟩ : ∃ b : Blk, b = ⟨c.addr, n, false⟩ := ⟨_, rfl⟩
    obtain ⟨d, hd⟩ : ∃ d : Blk, d = ⟨c.addr + sizeofBlock + n, c.size - n - sizeofBlock, true⟩ :=
      ⟨_, rfl⟩
    have hbuse : b.free = false := by rw [hb]
    have hstop : d.stop = c.stop := by
      rw [hd]
      unfold Blk.stop minPayload at *
      dsimp only
      omega
    have hcut : l ++ [b, d] ++ r = l ++ b :: d :: r := by simp
    rw [← hb, ← hd, hcut]
    refine List.isChain_append.mpr ⟨hl, List.isChain_cons_cons.mpr ⟨hused (Or.inl hbuse),
      List.isChain_cons.mpr ⟨?_, hr⟩⟩, ?_⟩
    · rintro y hy ⟨-, hyfree, htouch⟩
      exact hhead y hy ⟨hfree, hyfree, hstop ▸ htouch⟩
    · intro x _ y hy
      obtain rfl : b = y := Option.some.inj hy
      exact hused (Or.inr hbuse)

/-! ## Blocks in use -/

/-- The blocks in use. -/
def inUse (bs : List Blk) : List Blk := bs.filter fun b => !b.free

/-- The blocks in use are those that are not free. -/
theorem mem_inUse {bs : List Blk} {b : Blk} : b ∈ inUse bs ↔ b ∈ bs ∧ b.free = false := by
  rw [inUse, List.mem_filter, Bool.not_eq_true']

/-- Merging concerns free blocks only. -/
theorem inUse_mergeNext (a : Blk) (r : List Blk) :
    inUse ((mergeNext a r).1 :: (mergeNext a r).2) = inUse (a :: r) := by
  cases r with
  | nil => rfl
  | cons b r =>
    rw [mergeNext]
    split
    · rename_i hc
      have hjoin : (a.join b).free = true := hc.1
      simp [inUse, hc.1, hc.2.1, hjoin]
    · rfl

/-- A block that is freed is no longer in use, and the others are as before. -/
theorem inUse_freeBlk (l : List Blk) (a : Blk) (r : List Blk) :
    inUse (freeBlk l a r) = inUse (l ++ r) := by
  have hmark : inUse (a.mark true :: r) = inUse r := by simp [inUse, Blk.mark]
  have happend : ∀ u v, inUse (u ++ v) = inUse u ++ inUse v := fun u v => List.filter_append ..
  rcases List.eq_nil_or_concat l with rfl | ⟨l, p, rfl⟩
  · rw [freeBlk_nil, inUse_mergeNext, hmark]
    rfl
  · have hcons : ∀ b v, inUse (b :: v) = inUse [b] ++ inUse v := fun b v => happend [b] v
    rw [List.concat_eq_append, freeBlk_concat, happend, inUse_mergeNext, hcons, inUse_mergeNext,
      hmark, happend, happend, List.append_assoc]

/-- Of the blocks that `takeBlk` leaves one is in use. -/
theorem takeBlk_inUse {c b : Blk} {n : Nat} (hb : b ∈ takeBlk c n) (huse : b.free = false) :
    b.payload = c.payload := by
  rw [takeBlk] at hb
  split at hb
  · rw [List.mem_singleton.mp hb]
    rfl
  · rcases List.mem_cons.mp hb with rfl | hb
    · rfl
    · rw [List.mem_singleton.mp hb] at huse
      exact absurd huse Bool.noConfusion

/-! ## Runs with memory that grows downwards -/

namespace Sys

/-- Every region that `vmalloc` has to give lies below all earlier ones. -/
def TopDown (s : Sys) : Call → Prop
  | .mymalloc _ vmalloc =>
    ∀ len, vmalloc len ≠ 0 → ∀ e ∈ s.heap.obtained, vmalloc len < e.start
  | .myfree _ => True

/-- The blocks are coalesced, and those in use belong to live allocations. -/
structure Tidy (s : Sys) (bs : List Blk) : Prop where
  inv : Inv s bs
  coalesced : Coalesced bs
  owned : ∀ b ∈ bs, b.free = false → ∃ n, (b.payload, n) ∈ s.live

variable {s s' : Sys} {bs : List Blk}

/-- The empty heap is tidy. -/
theorem Tidy.init : Tidy Sys.init [] where
  inv := Inv.init
  coalesced := List.IsChain.nil
  owned := fun b hb => absurd hb List.not_mem_nil

/-- Memory below all earlier regions lies below all blocks. -/
theorem Inv.below {n : Nat} {vmalloc : Nat → Nat} (hi : Inv s bs)
    (ht : s.TopDown (.mymalloc n vmalloc)) : Below bs vmalloc := by
  intro len h0 b hb
  have hcov : Covers Blk.extent bs b.addr := by
    refine ⟨b, hb, (b.extent_has _).mpr ⟨Nat.le_refl _, ?_⟩⟩
    unfold Blk.stop sizeofBlock
    omega
  obtain ⟨e, he, hlow, -⟩ := (hi.models.sound.covers _).mp hcov
  exact Nat.lt_of_lt_of_le (ht len h0 e he) hlow

/-- Memory below all blocks is where `extend_heap` expects it. -/
theorem Inv.served {n : Nat} {vmalloc : Nat → Nat} (hi : Inv s bs) (hb : Below bs vmalloc) :
    s.heap.Served n vmalloc := by
  intro _ h0
  apply Or.inl
  intro a hon
  obtain ⟨b, hmem, rfl⟩ := (hi.models.onList_iff a).mp hon
  exact hb _ h0 b hmem

/-- The free block `c` is cut and taken. -/
theorem tidy_take {h : Heap} {l r : List Blk} {c : Blk} {n : Nat} {live : List (Nat × Nat)}
    (hm : Models h (l ++ c :: r)) (hn : NoWrap n) (hfree : c.free = true)
    (hco : Coalesced (l ++ c :: r))
    (howned : ∀ b ∈ inUse (l ++ c :: r), ∃ k, (b.payload, k) ∈ live) :
    ∃ bs', Models ((splitBlock c.addr (requestSize n) h).setFree c.addr false) bs' ∧
      Coalesced bs' ∧
      ∀ b ∈ bs', b.free = false → b.payload = c.payload ∨ ∃ k, (b.payload, k) ∈ live := by
  have hreq := requestSize_spec hn
  have hfits : requestSize n + sizeofBlock + minPayload < addressSpace :=
    Nat.lt_of_le_of_lt (by unfold minPayload pageSize; omega) hreq.fits
  refine ⟨_, (take_spec hm hreq.aligned hreq.least hfits).1, coalesced_takeBlk hco hfree, ?_⟩
  intro b hb huse
  rw [List.append_assoc, List.mem_append, List.mem_append] at hb
  rcases hb with hb | hb | hb
  · exact Or.inr (howned b (mem_inUse.mpr ⟨by simp [hb], huse⟩))
  · exact Or.inl (takeBlk_inUse hb huse)
  · exact Or.inr (howned b (mem_inUse.mpr ⟨by simp [hb], huse⟩))

/-- `mymalloc` keeps the list tidy. -/
theorem Tidy.malloc {n : Nat} {vmalloc : Nat → Nat} (ht : Tidy s bs) (hn : NoWrap n)
    (hv : Vmalloc s.heap vmalloc) (htop : s.TopDown (.mymalloc n vmalloc))
    (hstep : s.step (.mymalloc n vmalloc) = some s') : ∃ bs', Tidy s' bs' := by
  have hbelow := ht.inv.below htop
  obtain ⟨bs', hi', -⟩ := ht.inv.malloc hn hv (ht.inv.served hbelow) hstep
  obtain ⟨⟨p, h⟩, hcall, rfl⟩ := Option.map_eq_some_iff.mp hstep
  have howned : ∀ b ∈ inUse bs, ∃ k, (b.payload, k) ∈ s.live := by
    intro b hb
    obtain ⟨hb, huse⟩ := mem_inUse.mp hb
    exact ht.owned b hb huse
  -- what is left to show when a free block is taken
  have htake : ∀ {h₁ : Heap} {l c r}, chosen n vmalloc s.heap = some (c.addr, h₁) →
      Models h₁ (l ++ c :: r) → c.free = true → Coalesced (l ++ c :: r) →
      inUse (l ++ c :: r) = inUse bs →
      ∃ bs', Tidy ⟨h, if p = 0 then s.live else (p, n) :: s.live⟩ bs' := by
    intro h₁ l c r hchosen hm hfree hco huse
    have hc0 : c.addr ≠ 0 := hm.addr_ne (by simp)
    have hal := hm.sound.aligned c (by simp)
    have hstop := hm.sound.stop_le (b := c) (by simp)
    have hpay : wadd c.addr sizeofBlock = c.payload := by
      apply wadd_eq
      unfold Blk.stop minPayload at *
      omega
    have hp0 : c.payload ≠ 0 := by
      unfold Blk.payload
      omega
    rw [mymalloc_eq, hchosen, Option.map_some, handOut, if_neg hc0, hpay] at hcall
    obtain ⟨rfl, rfl⟩ := Prod.mk.inj (Option.some.inj hcall)
    obtain ⟨bs'', hm'', hco'', hown''⟩ := tidy_take hm hn hfree hco (huse ▸ howned)
    obtain rfl := hi'.models.unique hm''
    refine ⟨bs', hi', hco'', fun b hb hbuse => ?_⟩
    dsimp only
    rw [if_neg hp0]
    rcases hown'' b hb hbuse with heq | ⟨k, hk⟩
    · exact ⟨n, heq ▸ List.mem_cons_self⟩
    · exact ⟨k, List.mem_cons_of_mem _ hk⟩
  rcases chosen_cases ht.inv.models hv hbelow with
    ⟨l, c, r, rfl, hfree, -, hchosen⟩ | ⟨-, -, hchosen⟩ |
    ⟨start, h₁, -, hstart, h0, hchosen, hm₁, -⟩
  · exact htake hchosen (ht.inv.models.counted _) hfree ht.coalesced rfl
  · rw [mymalloc_eq, hchosen] at hcall
    obtain ⟨rfl, rfl⟩ := Prod.mk.inj (Option.some.inj hcall)
    obtain rfl := hi'.models.unique (ht.inv.models.counted _)
    exact ⟨bs', hi', ht.coalesced, ht.owned⟩
  · have haddr := mergeNext_addr (newBlk start (extendBytes (requestSize n))) bs
    have hfree := mergeNext_free (newBlk start (extendBytes (requestSize n))) bs
    have huse := inUse_mergeNext (newBlk start (extendBytes (requestSize n))) bs
    have hchosen' : chosen n vmalloc s.heap =
        some ((mergeNext (newBlk start (extendBytes (requestSize n))) bs).1.addr, h₁) := by
      rw [haddr]
      exact hchosen
    exact htake (l := []) hchosen' hm₁ hfree (coalesced_mergeNext _ ht.coalesced) huse

/-- `myfree` keeps the list tidy. -/
theorem Tidy.free {ptr : Nat} (ht : Tidy s bs) (hlegal : s.Legal (.myfree ptr)) :
    ∃ bs', Tidy ⟨Malloc.myfree ptr s.heap, s.live.filter fun a => a.1 ≠ ptr⟩ bs' := by
  obtain ⟨bs', hi', -⟩ := ht.inv.free hlegal
  rcases hlegal with rfl | ⟨n, hlive⟩
  · have hsame : Malloc.myfree 0 s.heap = s.heap := if_pos rfl
    have hm := hi'.models
    dsimp only at hm
    rw [hsame] at hm
    obtain rfl := ht.inv.models.unique hm
    refine ⟨bs, hi', ht.coalesced, fun b hb huse => ?_⟩
    obtain ⟨k, hk⟩ := ht.owned b hb huse
    refine ⟨k, List.mem_filter.mpr ⟨hk, decide_eq_true ?_⟩⟩
    have hb0 := ht.inv.models.addr_ne hb
    unfold Blk.payload
    omega
  · obtain ⟨l, b, r, rfl, hp, huse, hptr⟩ := ht.inv.block_of_live hlive
    have hm := (myfree_spec ht.inv.models).1
    rw [hptr] at hm
    obtain rfl := hi'.models.unique hm
    refine ⟨_, hi', coalesced_freeBlk ht.coalesced, fun d hd hduse => ?_⟩
    have hmem : d ∈ inUse (l ++ r) := by
      rw [← inUse_freeBlk l b r]
      exact mem_inUse.mpr ⟨hd, hduse⟩
    have hlr := (mem_inUse.mp hmem).1
    obtain ⟨k, hk⟩ := ht.owned d (by
      rcases List.mem_append.mp hlr with h | h
      · simp [h]
      · simp [h]) hduse
    refine ⟨k, List.mem_filter.mpr ⟨hk, decide_eq_true ?_⟩⟩
    -- the other blocks in use have other payloads
    intro heq
    have haddr : d.addr = b.addr := by
      have hpay : d.payload = b.payload := heq.trans hp.symm
      unfold Blk.payload at hpay
      omega
    have hnd := ht.inv.models.sound.nodup
    rw [List.map_append, List.map_cons, List.nodup_append, List.nodup_cons] at hnd
    rcases List.mem_append.mp hlr with h | h
    · exact hnd.2.2 _ (List.mem_map_of_mem h) _ List.mem_cons_self haddr
    · exact hnd.2.1.1 (haddr ▸ List.mem_map_of_mem h)

/-- **Every step keeps a heap tidy**, as long as memory grows downwards. -/
theorem Tidy.step {c : Call} (ht : Tidy s bs) (hlegal : s.Legal c) (htop : s.TopDown c)
    (hstep : s.step c = some s') : ∃ bs', Tidy s' bs' := by
  cases c with
  | mymalloc n vmalloc => exact ht.malloc hlegal.1 hlegal.2 htop hstep
  | myfree ptr =>
    obtain rfl := Option.some.inj hstep
    exact ht.free hlegal

/-- The heap of every run is tidy. -/
theorem Run.tidy (hr : Run TopDown s) : ∃ bs, Tidy s bs := by
  induction hr with
  | init => exact ⟨[], Tidy.init⟩
  | step _ hlegal htop hstep ih =>
    obtain ⟨bs, ht⟩ := ih
    exact ht.step hlegal htop hstep

end Sys

/-! ## Coalesced heaps -/

/-- Free blocks of a coalesced list do not touch. -/
theorem Coalesced.apart {bs : List Blk} (hco : Coalesced bs) (ho : Ordered Blk.extent bs)
    {a b : Blk} (ha : a ∈ bs) (hb : b ∈ bs) (hafree : a.free = true) (hbfree : b.free = true) :
    a.stop ≠ b.addr := by
  intro htouch
  obtain ⟨l, r, rfl⟩ := List.append_of_mem ha
  have hastop : a.stop = a.addr + sizeofBlock + a.size := rfl
  have hbstop : b.stop = b.addr + sizeofBlock + b.size := rfl
  have hpos : 0 < sizeofBlock := by decide
  have hb' : b ∈ l ∨ b = a ∨ b ∈ r := by
    simpa using hb
  rcases hb' with hbl | rfl | hbr
  · have hle := ho.around.1 b hbl
    rw [Blk.extent_stop] at hle
    have hle' : b.stop ≤ a.addr := hle
    omega
  · omega
  · cases r with
    | nil => exact absurd hbr List.not_mem_nil
    | cons c r =>
      obtain ⟨hac, -⟩ := List.isChain_cons_cons.mp (List.isChain_append.mp hco).2.1
      rcases List.mem_cons.mp hbr with rfl | hbr
      · exact hac ⟨hafree, hbfree, htouch⟩
      · -- `c` stands between them
        have hle := ho.around.2 c List.mem_cons_self
        have hcut : l ++ a :: c :: r = (l ++ [a]) ++ c :: r := by simp
        have hcb := (hcut ▸ ho : Ordered Blk.extent ((l ++ [a]) ++ c :: r)).around.2 b hbr
        rw [Blk.extent_stop] at hle hcb
        have hle' : a.stop ≤ c.addr := hle
        have hcb' : c.stop ≤ b.addr := hcb
        have hcstop : c.stop = c.addr + sizeofBlock + c.size := rfl
        omega

/-- Free blocks from `a` on, each of them touching the next, up to `z`. -/
inductive Heap.FreeStretch (h : Heap) : Nat → Nat → Prop
  | one {a : Nat} (hon : h.OnList a) (hfree : h.free a = true) :
      h.FreeStretch a (a + sizeofBlock + h.size a)
  | more {a z : Nat} (hs : h.FreeStretch a z) (hon : h.OnList z) (hfree : h.free z = true) :
      h.FreeStretch a (z + sizeofBlock + h.size z)

/-- The request is served without `vmalloc`: whatever that would answer, the result is the same
    and not NULL. -/
def Heap.ServedFromList (h : Heap) (n : Nat) : Prop :=
  ∃ p h', p ≠ 0 ∧ ∀ vmalloc, mymalloc n vmalloc h = some (p, h')

section Coalesced

variable {h : Heap} {bs : List Blk}

/-- In a coalesced heap a stretch of free blocks is one block. -/
theorem Models.stretch (hm : Models h bs) (hco : Coalesced bs) {a z : Nat}
    (hs : h.FreeStretch a z) : ∃ b ∈ bs, b.free = true ∧ b.addr = a ∧ b.stop = z := by
  induction hs with
  | one hon hfree =>
    obtain ⟨b, hb, rfl⟩ := (hm.onList_iff _).mp hon
    rw [(hm.cells b hb).2] at hfree
    rw [(hm.cells b hb).1]
    exact ⟨b, hb, hfree, rfl, rfl⟩
  | more _ hon hfree ih =>
    obtain ⟨b, hb, hbfree, -, hstop⟩ := ih
    obtain ⟨c, hc, hcz⟩ := (hm.onList_iff _).mp hon
    rw [← hcz, (hm.cells c hc).2] at hfree
    exact absurd (hstop.trans hcz.symm) (hco.apart hm.sound.ordered hb hc hbfree hfree)

/-- A request that fits into a free block does without `vmalloc`. -/
theorem Models.servedFromList (hm : Models h bs) {b : Blk} (hb : b ∈ bs) (hfree : b.free = true)
    {n : Nat} (hn : n ≤ b.size) : h.ServedFromList n := by
  have hal := hm.sound.aligned b hb
  have hstop := hm.sound.stop_le hb
  have hb0 := hm.addr_ne hb
  have hround : requestSize n ≤ b.size := by
    rw [requestSize_eq (by unfold Blk.stop minPayload at *; omega)]
    unfold minPayload at *
    omega
  obtain ⟨c, hc, hca⟩ : ∃ c ∈ bs, c.addr = firstFit (requestSize n) bs := by
    rcases firstFit_cases (requestSize n) bs with ⟨-, hnone⟩ | ⟨l, c, r, rfl, hfit, -, -⟩
    · exact absurd hround (Nat.not_le.mpr (hnone b hb hfree))
    · exact ⟨c, by simp, hfit.symm⟩
  have hc0 : c.addr ≠ 0 := hm.addr_ne hc
  refine ⟨wadd c.addr sizeofBlock, (splitBlock c.addr (requestSize n)
    { h with mallocCount := h.mallocCount + 1 }).setFree c.addr false, ?_, fun vmalloc => ?_⟩
  · have hcal := hm.sound.aligned c hc
    have hcstop := hm.sound.stop_le hc
    rw [wadd_eq (by unfold Blk.stop minPayload at *; omega)]
    unfold sizeofBlock
    omega
  · have hm₀ := hm.counted (h.mallocCount + 1)
    rw [mymalloc_eq, chosen, hm₀.find, Option.bind_some, ← hca, if_neg hc0, Option.map_some,
      handOut, if_neg hc0]

/-- With all blocks free the list is that of the stretches of memory. -/
theorem Models.canonical (hm : Models h bs) (hco : Coalesced bs)
    (hall : ∀ b ∈ bs, b.free = true) (a z : Nat) :
    Stretch id h.obtained a z ↔ ∃ b ∈ bs, b.addr = a ∧ b.stop = z := by
  have hspaced : Spaced Blk.extent bs := by
    refine hm.sound.ordered.imp_of_mem fun ha hb hle => Nat.lt_of_le_of_ne hle ?_
    rw [Blk.extent_stop]
    exact hco.apart hm.sound.ordered ha hb (hall _ ha) (hall _ hb)
  have hiff := hspaced.stretch_iff (fun b _ => b.extent_pos) a z
  simp only [Blk.extent_stop] at hiff
  refine Iff.trans ⟨fun hs => ?_, fun hs => ?_⟩ hiff
  · exact hs.congr fun x => (hm.sound.covers x).symm
  · exact hs.congr hm.sound.covers

/-- **Canonicity.**  Two coalesced heaps without blocks in use that obtained the same memory have
    the same list. -/
theorem Models.same_list {h' : Heap} {bs' : List Blk} (hm : Models h bs) (hm' : Models h' bs')
    (hco : Coalesced bs) (hco' : Coalesced bs') (hall : ∀ b ∈ bs, b.free = true)
    (hall' : ∀ b ∈ bs', b.free = true)
    (hsame : ∀ x, Covers id h.obtained x ↔ Covers id h'.obtained x) : bs = bs' := by
  have hsub : ∀ {g g' : Heap} {cs cs' : List Blk}, Models g cs → Models g' cs' → Coalesced cs →
      Coalesced cs' → (∀ b ∈ cs, b.free = true) → (∀ b ∈ cs', b.free = true) →
      (∀ x, Covers id g.obtained x ↔ Covers id g'.obtained x) → ∀ b ∈ cs, b ∈ cs' := by
    intro g g' cs cs' hg hg' hcs hcs' hfree hfree' hcov b hb
    have hs := ((hg.canonical hcs hfree b.addr b.stop).mpr ⟨b, hb, rfl, rfl⟩).congr hcov
    obtain ⟨c, hc, haddr, hstop⟩ := (hg'.canonical hcs' hfree' _ _).mp hs
    have hbc : c = b := by
      have hcf := hfree' c hc
      have hbf := hfree b hb
      unfold Blk.stop at hstop
      cases b
      cases c
      simp only [Blk.mk.injEq]
      dsimp only at *
      exact ⟨haddr, by omega, hcf.trans hbf.symm⟩
    exact hbc ▸ hc
  have hperm : bs.Perm bs' := by
    apply (List.perm_ext_iff_of_nodup hm.sound.nodup.of_map hm'.sound.nodup.of_map).mpr
    intro b
    exact ⟨hsub hm hm' hco hco' hall hall' hsame b,
      hsub hm' hm hco' hco hall' hall (fun x => (hsame x).symm) b⟩
  have hlt := List.pairwise_map.mp hm.sound.addr_lt_addr
  have hlt' := List.pairwise_map.mp hm'.sound.addr_lt_addr
  exact hperm.eq_of_pairwise (fun a b _ _ hab hba => absurd hab (Nat.lt_asymm hba)) hlt hlt'

end Coalesced

/-! ## Freeing everything -/

namespace Sys

/-- Frees of live pointers, one after the other. -/
def Frees : Sys → Sys → Prop :=
  Relation.ReflTransGen fun s s' =>
    ∃ ptr, s.Legal (.myfree ptr) ∧ s.step (.myfree ptr) = some s'

/-- Freeing obtains no memory. -/
theorem Inv.free_obtained {s : Sys} {bs : List Blk} {ptr : Nat} (hi : Inv s bs)
    (hlegal : s.Legal (.myfree ptr)) :
    (Malloc.myfree ptr s.heap).obtained = s.heap.obtained := by
  rcases hlegal with rfl | ⟨n, hlive⟩
  · rw [show Malloc.myfree 0 s.heap = s.heap from if_pos rfl]
  · obtain ⟨l, b, r, rfl, -, -, hptr⟩ := hi.block_of_live hlive
    have hT := (myfree_spec hi.models).2
    rw [hptr] at hT
    exact hT.obtained

/-- The two lists are the same, block for block. -/
def SameList (s s' : Sys) : Prop := ∃ bs, Models s.heap bs ∧ Models s'.heap bs

/-- Frees lengthen a run and obtain no memory. -/
theorem Frees.run {s s' : Sys} (hr : Run TopDown s) (hf : Frees s s') :
    Run TopDown s' ∧ s'.heap.obtained = s.heap.obtained := by
  induction hf with
  | refl => exact ⟨hr, rfl⟩
  | tail _ hstep ih =>
    obtain ⟨ptr, hlegal, hstep⟩ := hstep
    obtain ⟨hrun, hobt⟩ := ih
    obtain ⟨bs, ht⟩ := hrun.tidy
    refine ⟨.step hrun hlegal trivial hstep, ?_⟩
    obtain rfl := Option.some.inj hstep
    exact (ht.inv.free_obtained hlegal).trans hobt

/-- When nothing is live, all blocks are free. -/
theorem Tidy.all_free {s : Sys} {bs : List Blk} (ht : Tidy s bs) (hlive : s.live = []) :
    ∀ b ∈ bs, b.free = true := by
  intro b hb
  cases hfree : b.free with
  | true => rfl
  | false =>
    obtain ⟨n, hn⟩ := ht.owned b hb hfree
    rw [hlive] at hn
    exact absurd hn List.not_mem_nil

/-- **Two runs that have obtained the same memory and freed everything have the same list.**. -/
theorem Run.same_list {s s' : Sys} (hr : Run TopDown s) (hr' : Run TopDown s')
    (hlive : s.live = []) (hlive' : s'.live = [])
    (hsame : ∀ x, Covers id s.heap.obtained x ↔ Covers id s'.heap.obtained x) : SameList s s' := by
  obtain ⟨bs, ht⟩ := hr.tidy
  obtain ⟨bs', ht'⟩ := hr'.tidy
  obtain rfl := ht.inv.models.same_list ht'.inv.models ht.coalesced ht'.coalesced
    (ht.all_free hlive) (ht'.all_free hlive') hsame
  exact ⟨bs, ht.inv.models, ht'.inv.models⟩

/-- No two free blocks touch.  A request that fits into a stretch of touching free blocks, less
    one header, is served without `vmalloc`.  When nothing is live the list has one free block for
    each stretch of the memory obtained, and it is the same list as in every other state with
    nothing live and the same memory; in particular the order of the last frees does not
    matter. -/
structure Restored (s : Sys) : Prop where
  apart : ∀ a b, s.heap.OnList a → s.heap.OnList b → s.heap.free a = true →
    s.heap.free b = true → a + sizeofBlock + s.heap.size a ≠ b
  served : ∀ a z n, s.heap.FreeStretch a z → n + sizeofBlock ≤ z - a → s.heap.ServedFromList n
  canonical : s.live = [] → (∀ a, s.heap.OnList a → s.heap.free a = true) ∧
    ∀ a z, Stretch id s.heap.obtained a z ↔
      s.heap.OnList a ∧ a + sizeofBlock + s.heap.size a = z
  same : ∀ s', Run TopDown s' → s.live = [] → s'.live = [] →
    (∀ x, Covers id s.heap.obtained x ↔ Covers id s'.heap.obtained x) → SameList s s'
  anyOrder : ∀ s₁ s₂, Frees s s₁ → Frees s s₂ → s₁.live = [] → s₂.live = [] → SameList s₁ s₂

/-- **Freeing everything restores the heap**, in every run with memory that grows downwards. -/
theorem run_restored {s : Sys} (hr : Run TopDown s) : s.Restored := by
  obtain ⟨bs, ht⟩ := hr.tidy
  have hm := ht.inv.models
  refine ⟨?_, ?_, ?_, ?_, ?_⟩
  · intro a b ha hb hafree hbfree
    obtain ⟨c, hc, rfl⟩ := (hm.onList_iff a).mp ha
    obtain ⟨d, hd, rfl⟩ := (hm.onList_iff b).mp hb
    rw [(hm.cells c hc).2] at hafree
    rw [(hm.cells d hd).2] at hbfree
    rw [(hm.cells c hc).1]
    exact ht.coalesced.apart hm.sound.ordered hc hd hafree hbfree
  · intro a z n hs hn
    obtain ⟨b, hb, hfree, rfl, rfl⟩ := hm.stretch ht.coalesced hs
    apply hm.servedFromList hb hfree
    unfold Blk.stop at hn
    omega
  · intro hlive
    have hall := ht.all_free hlive
    constructor
    · intro a ha
      obtain ⟨b, hb, rfl⟩ := (hm.onList_iff a).mp ha
      rw [(hm.cells b hb).2]
      exact hall b hb
    · intro a z
      rw [hm.canonical ht.coalesced hall]
      constructor
      · rintro ⟨b, hb, rfl, rfl⟩
        refine ⟨(hm.onList_iff _).mpr ⟨b, hb, rfl⟩, ?_⟩
        rw [(hm.cells b hb).1]
        rfl
      · rintro ⟨ha, rfl⟩
        obtain ⟨b, hb, rfl⟩ := (hm.onList_iff a).mp ha
        rw [(hm.cells b hb).1]
        exact ⟨b, hb, rfl, rfl⟩
  · intro s' hr' hlive hlive' hsame
    exact hr.same_list hr' hlive hlive' hsame
  · intro s₁ s₂ hf₁ hf₂ hlive₁ hlive₂
    obtain ⟨hr₁, hobt₁⟩ := hf₁.run hr
    obtain ⟨hr₂, hobt₂⟩ := hf₂.run hr
    exact hr₁.same_list hr₂ hlive₁ hlive₂ fun x => by rw [hobt₁, hobt₂]

/-- One allocation, freed again. -/
theorem run_restored_first :
    ∃ s, ((Sys.init.step (.mymalloc 100 (oneRegion 65536 65536))).bind fun s =>
      s.step (.myfree 65568)) = some s ∧ s.live = [] ∧ s.Restored := by
  have hlive : ((Sys.init.step (.mymalloc 100 (oneRegion 65536 65536))).map Sys.live) =
      some [(65568, 100)] := by decide +kernel
  obtain ⟨s, hs, hlive⟩ := Option.map_eq_some_iff.mp hlive
  have hfirst : Sys.init.Legal (.mymalloc 100 (oneRegion 65536 65536)) :=
    ⟨by unfold NoWrap; decide, oneRegion_vmalloc (by decide) (by decide) fun x _ => covers_nil id x⟩
  have htop : Sys.init.TopDown (.mymalloc 100 (oneRegion 65536 65536)) :=
    fun len _ e he => absurd he List.not_mem_nil
  have hrun : Run TopDown s := .step .init hfirst htop hs
  have hlegal : s.Legal (.myfree 65568) := Or.inr ⟨100, by rw [hlive]; exact List.mem_cons_self⟩
  refine ⟨⟨myfree 65568 s.heap, s.live.filter fun a => a.1 ≠ 65568⟩, ?_, ?_, ?_⟩
  · rw [hs, Option.bind_some]
    rfl
  · rw [hlive]
    rfl
  · exact run_restored (.step hrun hlegal trivial rfl)

end Sys
end Malloc
