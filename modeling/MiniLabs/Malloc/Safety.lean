/-
  mymalloc — who may use which memory.

  1. **Program** — a run (`Sys.Run`) keeps the list of live allocations beside the heap: the
     pointers `mymalloc` returned and `myfree` has not seen yet, with the sizes asked for.
  2. **Specification** — `Sys.Safe` is what the callers rely on: each live allocation lies in memory
     obtained, apart from the others and from all headers.  `Undisturbed` is what they rely on from
     one call to the next: no header is written into a payload that stays live.
  3. **The crux (`Sys.Inv`)** — every live allocation is the payload of a block in use with room for
     it.  Every step keeps it if the request is `Served`, and then the specification is a matter of
     the tiling.
  4. **Where it fails** — `extend_heap` hands back the block in front of the new one even if it did
     not merge the two, and `predecessor_handed_out` is a run of two requests in which that block is
     too small.
-/
import MiniLabs.Malloc.WellFormed

set_option linter.unusedVariables false

namespace Malloc

open Extents

/-! ## Runs -/

/-- The heap and the live allocations. -/
structure Sys where
  heap : Heap
  live : List (Nat × Nat)

/-- What a program calls. -/
inductive Call
  | mymalloc (n : Nat) (vmalloc : Nat → Nat)
  | myfree (ptr : Nat)

namespace Sys

/-- Before the first call nothing is live. -/
def init : Sys := ⟨Heap.init, []⟩

/-- The system after a call. -/
def step (s : Sys) : Call → Option Sys
  | .mymalloc n vmalloc =>
    (Malloc.mymalloc n vmalloc s.heap).map fun (p, h) =>
      ⟨h, if p = 0 then s.live else (p, n) :: s.live⟩
  | .myfree ptr => some ⟨Malloc.myfree ptr s.heap, s.live.filter fun a => a.1 ≠ ptr⟩

/-- The calls a program may make: requests that do not wrap, frees of live pointers or NULL. -/
def Legal (s : Sys) : Call → Prop
  | .mymalloc n vmalloc => NoWrap n ∧ Vmalloc s.heap vmalloc
  | .myfree ptr => ptr = 0 ∨ ∃ n, (ptr, n) ∈ s.live

/-- New memory, if the call gets any, will be used as it should. -/
def Served (s : Sys) : Call → Prop
  | .mymalloc n vmalloc => s.heap.Served n vmalloc
  | .myfree _ => True

/-- The systems of all runs from the empty heap whose calls are legal and satisfy `good`. -/
inductive Run (good : Sys → Call → Prop) : Sys → Prop
  | init : Run good Sys.init
  | step {s s' : Sys} {c : Call} (hs : Run good s) (hc : s.Legal c) (hg : good s c)
      (hstep : s.step c = some s') : Run good s'

/-- The bytes of an allocation. -/
def payload (a : Nat × Nat) : Extent := ⟨a.1, a.2⟩

/-- The bytes of the header at `a`. -/
def header (a : Nat) : Extent := ⟨a, sizeofBlock⟩

/-- Two extents share no address. -/
def Apart (e e' : Extent) : Prop := ∀ x, e.Has x → ¬ e'.Has x

/-- Every live payload lies in memory obtained and apart from all headers on the list, and
    different live payloads are apart. -/
structure Safe (s : Sys) : Prop where
  inside : ∀ a ∈ s.live, ∀ x, (payload a).Has x → Covers id s.heap.obtained x
  headers : ∀ a ∈ s.live, ∀ b, s.heap.OnList b → Apart (payload a) (header b)
  payloads : s.live.Pairwise fun a a' => Apart (payload a) (payload a')

/-- From `s` to `s'` no header was written inside a payload that stays live. -/
def Undisturbed (s s' : Sys) : Prop :=
  ∃ t, s'.heap.touched = t ++ s.heap.touched ∧
    ∀ b ∈ t, ∀ a ∈ s.live, a ∈ s'.live → Apart (payload a) (header b)

/-! ## The invariant -/

/-- Every live allocation is the payload of a block in use with room for it, and no two of them
    are the same. -/
structure Inv (s : Sys) (bs : List Blk) : Prop where
  models : Models s.heap bs
  backed : ∀ a ∈ s.live, ∃ b ∈ bs, b.payload = a.1 ∧ b.free = false ∧ a.2 ≤ b.size
  distinct : (s.live.map Prod.fst).Nodup

/-- The invariant holds before the first call. -/
theorem Inv.init : Inv Sys.init [] where
  models := Models.init
  backed := fun a ha => absurd ha List.not_mem_nil
  distinct := List.nodup_nil

/-- A payload lies in its block, behind the header. -/
theorem payload_has {a : Nat × Nat} {b : Blk} (hp : b.payload = a.1) (hn : a.2 ≤ b.size) {x : Nat}
    (hx : (payload a).Has x) : b.addr + sizeofBlock ≤ x ∧ b.extent.Has x := by
  obtain ⟨h1, h2⟩ := hx
  have hstart : (payload a).start = a.1 := rfl
  have hstop : (payload a).stop = a.1 + a.2 := rfl
  rw [hstart, ← hp] at h1
  rw [hstop, ← hp] at h2
  unfold Blk.payload at h1 h2
  rw [Blk.extent_has]
  unfold Blk.stop
  omega

/-- A payload is apart from the header of every block of the list. -/
theorem apart_header {bs : List Blk} {obtained : List Extent} (hs : Sound bs obtained)
    {a : Nat × Nat} {b c : Blk} (hb : b ∈ bs) (hp : b.payload = a.1) (hn : a.2 ≤ b.size)
    (hc : c ∈ bs) : Apart (payload a) (header c.addr) := by
  intro x hx hhdr
  obtain ⟨hbehind, hbx⟩ := payload_has hp hn hx
  have hlow : c.addr ≤ x := hhdr.1
  have hhigh : x < c.addr + sizeofBlock := hhdr.2
  have hcx : c.extent.Has x := by
    rw [Blk.extent_has]
    unfold Blk.stop
    omega
  obtain rfl := hs.ordered.eq_of_has hb hc hbx hcx
  omega

/-- **The invariant is safety**: payloads of different blocks lie apart. -/
theorem Inv.safe {s : Sys} {bs : List Blk} (hi : Inv s bs) : s.Safe where
  inside := by
    intro a ha x hx
    obtain ⟨b, hb, hp, -, hn⟩ := hi.backed a ha
    exact (hi.models.sound.covers x).mp ⟨b, hb, (payload_has hp hn hx).2⟩
  headers := by
    intro a ha c hc
    obtain ⟨b, hb, hp, -, hn⟩ := hi.backed a ha
    obtain ⟨d, hd, rfl⟩ := (hi.models.onList_iff c).mp hc
    exact apart_header hi.models.sound hb hp hn hd
  payloads := by
    have hne := List.pairwise_map.mp hi.distinct
    apply hne.imp_of_mem
    intro a a' ha ha' hdiff x hx hx'
    obtain ⟨b, hb, hp, -, hn⟩ := hi.backed a ha
    obtain ⟨b', hb', hp', -, hn'⟩ := hi.backed a' ha'
    obtain rfl := hi.models.sound.ordered.eq_of_has hb hb' (payload_has hp hn hx).2
      (payload_has hp' hn' hx').2
    exact hdiff (hp.symm.trans hp')

/-- What a call writes to is apart from the payloads that are backed before and after it. -/
theorem undisturbed_of_wrote {s s' : Sys} {bs bs' : List Blk} (hi : Inv s bs) (hi' : Inv s' bs')
    (hw : Wrote (Headers s.heap s'.heap bs bs') s.heap s'.heap) : Undisturbed s s' := by
  obtain ⟨t, ht, hP⟩ := hw
  refine ⟨t, ht, ?_⟩
  intro x hx a ha ha'
  rcases hP x hx with hold | hnew | ⟨e, -, rfl, hlen, hfresh⟩
  · obtain ⟨c, hc, rfl⟩ := List.mem_map.mp hold
    obtain ⟨b, hb, hp, -, hn⟩ := hi.backed a ha
    exact apart_header hi.models.sound hb hp hn hc
  · obtain ⟨c, hc, rfl⟩ := List.mem_map.mp hnew
    obtain ⟨b, hb, hp, -, hn⟩ := hi'.backed a ha'
    exact apart_header hi'.models.sound hb hp hn hc
  · -- the header lies in memory that was not obtained when the payload was handed out
    intro y hy hhdr
    refine hfresh y ⟨hhdr.1, Nat.lt_of_lt_of_le hhdr.2 ?_⟩ (hi.safe.inside a ha y hy)
    exact Nat.add_le_add_left hlen _

/-- `mymalloc` keeps the invariant if it is served. -/
theorem Inv.malloc {s s' : Sys} {bs : List Blk} {n : Nat} {vmalloc : Nat → Nat} (hi : Inv s bs)
    (hn : NoWrap n) (hv : Vmalloc s.heap vmalloc) (hserved : s.heap.Served n vmalloc)
    (hstep : s.step (.mymalloc n vmalloc) = some s') :
    ∃ bs', Inv s' bs' ∧ Wrote (Headers s.heap s'.heap bs bs') s.heap s'.heap := by
  obtain ⟨⟨p, h⟩, hcall, rfl⟩ := Option.map_eq_some_iff.mp hstep
  rcases mymalloc_spec hi.models hn hv with hnull | ⟨l, c, r, h', hok, hm', hfree, -, hw, hgood⟩
  · rw [hcall] at hnull
    obtain ⟨rfl, rfl⟩ := Prod.mk.inj (Option.some.inj hnull)
    refine ⟨bs, ⟨⟨hi.models.ring, hi.models.cells, hi.models.sound⟩, ?_, ?_⟩, [], rfl,
      fun a ha => absurd ha List.not_mem_nil⟩
    · dsimp only
      rw [if_pos rfl]
      exact hi.backed
    · dsimp only
      rw [if_pos rfl]
      exact hi.distinct
  · rw [hcall] at hok
    obtain ⟨rfl, rfl⟩ := Prod.mk.inj (Option.some.inj hok)
    obtain ⟨hroom, hkeep⟩ := hgood hserved
    have hp0 : c.payload ≠ 0 := by
      have hne := hm'.addr_ne (b := c) (by simp)
      unfold Blk.payload
      omega
    -- the blocks of the live allocations are other blocks than `c`
    have hother : ∀ a ∈ s.live, ∃ b ∈ l ++ r, b.payload = a.1 ∧ b.free = false ∧ a.2 ≤ b.size := by
      intro a ha
      obtain ⟨b, hb, hp, huse, hsize⟩ := hi.backed a ha
      exact ⟨b, hkeep b hb huse, hp, huse, hsize⟩
    refine ⟨l ++ c :: r, ⟨hm', ?_, ?_⟩, hw⟩
    · dsimp only
      rw [if_neg hp0]
      intro a ha
      rcases List.mem_cons.mp ha with rfl | ha
      · exact ⟨c, by simp, rfl, hfree, hroom⟩
      · obtain ⟨b, hb, hrest⟩ := hother a ha
        refine ⟨b, ?_, hrest⟩
        rcases List.mem_append.mp hb with hb | hb
        · exact List.mem_append_left _ hb
        · exact List.mem_append_right _ (List.mem_cons_of_mem _ hb)
    · dsimp only
      rw [if_neg hp0]
      refine List.nodup_cons.mpr ⟨?_, hi.distinct⟩
      intro hmem
      obtain ⟨a, ha, hac⟩ := List.mem_map.mp hmem
      obtain ⟨b, hb, hp, -⟩ := hother a ha
      have haddr : b.addr = c.addr := by
        have hpay : b.payload = c.payload := hp.trans hac
        unfold Blk.payload at hpay
        omega
      have hnd := hm'.sound.nodup
      rw [List.map_append, List.map_cons, List.nodup_append, List.nodup_cons] at hnd
      rcases List.mem_append.mp hb with hb | hb
      · exact hnd.2.2 _ (List.mem_map_of_mem hb) _ List.mem_cons_self haddr
      · exact hnd.2.1.1 (haddr ▸ List.mem_map_of_mem hb)

/-- A live pointer is the payload of a block in use. -/
theorem Inv.block_of_live {s : Sys} {bs : List Blk} {a : Nat × Nat} (hi : Inv s bs)
    (ha : a ∈ s.live) : ∃ l b r, bs = l ++ b :: r ∧ b.payload = a.1 ∧ b.free = false ∧
      wadd b.addr sizeofBlock = a.1 := by
  obtain ⟨b, hb, hp, huse, -⟩ := hi.backed a ha
  obtain ⟨l, r, hbs⟩ := List.append_of_mem hb
  refine ⟨l, b, r, hbs, hp, huse, ?_⟩
  have hal := hi.models.sound.aligned b hb
  have hstop := hi.models.sound.stop_le hb
  rw [← hp, Blk.payload, wadd_eq]
  unfold Blk.stop minPayload at *
  omega

/-- `myfree` keeps the invariant. -/
theorem Inv.free {s : Sys} {bs : List Blk} {ptr : Nat} (hi : Inv s bs)
    (hlegal : s.Legal (.myfree ptr)) :
    ∃ bs', Inv ⟨Malloc.myfree ptr s.heap, s.live.filter fun a => a.1 ≠ ptr⟩ bs' ∧
      Wrote (Headers s.heap (Malloc.myfree ptr s.heap) bs bs') s.heap
        (Malloc.myfree ptr s.heap) := by
  have hdistinct : ((s.live.filter fun a => a.1 ≠ ptr).map Prod.fst).Nodup :=
    hi.distinct.sublist (List.filter_sublist.map _)
  rcases hlegal with rfl | ⟨n, hlive⟩
  · refine ⟨bs, ⟨hi.models, fun a ha => hi.backed a (List.mem_of_mem_filter ha), hdistinct⟩, [],
      rfl, fun a ha => absurd ha List.not_mem_nil⟩
  · obtain ⟨l, b, r, rfl, hp, huse, hptr⟩ := hi.block_of_live hlive
    obtain ⟨hm', hT⟩ := myfree_spec hi.models
    rw [hptr] at hm' hT
    refine ⟨freeBlk l b r, ⟨hm', ?_, hdistinct⟩, hT.wrote.mono fun x hx => Or.inl hx⟩
    intro a ha
    obtain ⟨ha, hne⟩ := List.mem_filter.mp ha
    obtain ⟨d, hd, hdp, hduse, hdn⟩ := hi.backed a ha
    have hdb : d ≠ b := by
      rintro rfl
      exact of_decide_eq_true hne (hdp.symm.trans hp)
    refine ⟨d, freeBlk_keeps b ?_ hduse, hdp, hduse, hdn⟩
    simp only [List.mem_append, List.mem_cons] at hd ⊢
    rcases hd with hd | rfl | hd
    · exact Or.inl hd
    · exact absurd rfl hdb
    · exact Or.inr hd

/-- One call keeps the invariant if it is served, and disturbs no live payload. -/
theorem Inv.step {s s' : Sys} {bs : List Blk} {c : Call} (hi : Inv s bs) (hlegal : s.Legal c)
    (hserved : s.Served c) (hstep : s.step c = some s') :
    ∃ bs', Inv s' bs' ∧ Undisturbed s s' := by
  cases c with
  | mymalloc n vmalloc =>
    obtain ⟨bs', hi', hw⟩ := hi.malloc hlegal.1 hlegal.2 hserved hstep
    exact ⟨bs', hi', undisturbed_of_wrote hi hi' hw⟩
  | myfree ptr =>
    obtain ⟨bs', hi', hw⟩ := hi.free hlegal
    obtain rfl := Option.some.inj hstep
    exact ⟨bs', hi', undisturbed_of_wrote hi hi' hw⟩

/-- The invariant holds in every run whose requests are served. -/
theorem Run.inv {s : Sys} (hr : Run Served s) : ∃ bs, Inv s bs := by
  induction hr with
  | init => exact ⟨[], Inv.init⟩
  | step _ hlegal hserved hstep ih =>
    obtain ⟨bs, hi⟩ := ih
    obtain ⟨bs', hi', -⟩ := hi.step hlegal hserved hstep
    exact ⟨bs', hi'⟩

/-- **Allocator safety.**  In every run whose requests are all served as they should be, every
    state is safe, and no call writes a header inside a payload that stays live. -/
theorem run_safe {s : Sys} (hr : Run Served s) :
    s.Safe ∧ ∀ (c : Call) (s' : Sys), s.Legal c → s.Served c → s.step c = some s' →
      s'.Safe ∧ Undisturbed s s' := by
  obtain ⟨bs, hi⟩ := hr.inv
  refine ⟨hi.safe, ?_⟩
  intro c s' hlegal hserved hstep
  obtain ⟨bs', hi', hu⟩ := hi.step hlegal hserved hstep
  exact ⟨hi'.safe, hu⟩

/-- Without fresh memory a request is legal and served in every system. -/
theorem legal_null (s : Sys) {n : Nat} (hn : NoWrap n) :
    s.Legal (.mymalloc n fun _ => 0) ∧ s.Served (.mymalloc n fun _ => 0) :=
  ⟨⟨hn, fun _ => .inl rfl⟩, fun _ h0 => absurd rfl h0⟩

/-- Two requests, the first one freed, and a third one that gets its block, in front of the one
    that is still used. -/
theorem run_safe_mixed :
    ∃ s s', Run Served s ∧ s.live = [(1048744, 50)] ∧
      s.step (.mymalloc 100 fun _ => 0) = some s' ∧ s'.live = [(1048608, 100), (1048744, 50)] ∧
      s'.Safe := by
  have hall : ((Sys.init.step (.mymalloc 100 (oneRegion 1048576 65536))).bind fun s₁ =>
      (s₁.step (.mymalloc 50 fun _ => 0)).bind fun s₂ =>
        (s₂.step (.myfree 1048608)).bind fun s₃ =>
          (s₃.step (.mymalloc 100 fun _ => 0)).map fun s₄ => (s₂.live, s₃.live, s₄.live)) =
      some ([(1048744, 50), (1048608, 100)], [(1048744, 50)], [(1048608, 100), (1048744, 50)]) := by
    decide +kernel
  obtain ⟨s₁, h₁, hrest⟩ := Option.bind_eq_some_iff.mp hall
  obtain ⟨s₂, h₂, hrest⟩ := Option.bind_eq_some_iff.mp hrest
  obtain ⟨s₃, h₃, hrest⟩ := Option.bind_eq_some_iff.mp hrest
  obtain ⟨s₄, h₄, hlive⟩ := Option.map_eq_some_iff.mp hrest
  obtain ⟨hlive₂, hlive₃, hlive₄⟩ : s₂.live = _ ∧ s₃.live = _ ∧ s₄.live = _ := by
    simpa only [Prod.mk.injEq] using hlive
  have hlegal₁ : Sys.init.Legal (.mymalloc 100 (oneRegion 1048576 65536)) :=
    ⟨by unfold NoWrap; decide, oneRegion_vmalloc (by decide) (by decide) fun x _ => covers_nil id x⟩
  have hserved₁ : Sys.init.Served (.mymalloc 100 (oneRegion 1048576 65536)) := by
    intro _ _
    apply Or.inl
    intro b hb
    obtain ⟨c, hc, -⟩ := (Models.init.onList_iff b).mp hb
    exact absurd hc List.not_mem_nil
  obtain ⟨hlegal₂, hserved₂⟩ := legal_null s₁ (show NoWrap 50 by unfold NoWrap; decide)
  have hlegal₃ : s₂.Legal (.myfree 1048608) := Or.inr ⟨100, by rw [hlive₂]; decide⟩
  have hrun : Run Served s₃ :=
    .step (.step (.step .init hlegal₁ hserved₁ h₁) hlegal₂ hserved₂ h₂) hlegal₃ trivial h₃
  obtain ⟨hlegal₄, hserved₄⟩ := legal_null s₃ (show NoWrap 100 by unfold NoWrap; decide)
  exact ⟨s₃, s₄, hrun, hlive₃, h₄, hlive₄, ((run_safe hrun).2 _ s₄ hlegal₄ hserved₄ h₄).1⟩

/-- Two requests; the memory for the second one lies far above the first chunk.  The second
    pointer is the payload of the rest of the first chunk, 65368 bytes, for 70000 asked for. -/
theorem predecessor_handed_out :
    ¬ ∀ s : Sys, Run (fun _ _ => True) s → s.Safe := by
  intro hclaim
  have hfirst : (Sys.init.step (.mymalloc 100 (oneRegion 65536 65536))).map
      (fun s => s.heap.obtained) = some [⟨65536, 65536⟩] := by decide +kernel
  have hboth : ((Sys.init.step (.mymalloc 100 (oneRegion 65536 65536))).bind fun s =>
        s.step (.mymalloc 70000 (oneRegion 1048576 73728))).map
      (fun s => (s.live, s.heap.obtained)) =
        some ([(65704, 70000), (65568, 100)], [⟨1048576, 73728⟩, ⟨65536, 65536⟩]) := by
    decide +kernel
  obtain ⟨s₁, hs₁, hobt₁⟩ := Option.map_eq_some_iff.mp hfirst
  rw [hs₁, Option.bind_some] at hboth
  obtain ⟨s₂, hs₂, hres⟩ := Option.map_eq_some_iff.mp hboth
  obtain ⟨hlive, hobt⟩ := Prod.mk.inj hres
  have hlegal₁ : Sys.init.Legal (.mymalloc 100 (oneRegion 65536 65536)) :=
    ⟨by unfold NoWrap; decide, oneRegion_vmalloc (by decide) (by decide) fun x _ => covers_nil id x⟩
  have hlegal₂ : s₁.Legal (.mymalloc 70000 (oneRegion 1048576 73728)) := by
    refine ⟨by unfold NoWrap; decide, oneRegion_vmalloc (by decide) (by decide) ?_⟩
    intro x hx hold
    rw [hobt₁, covers_cons] at hold
    simp only [Extent.Has, Extent.stop, covers_nil, or_false, id] at hold hx
    omega
  have hrun₂ : Run (fun _ _ => True) s₂ :=
    .step (.step .init hlegal₁ trivial hs₁) hlegal₂ trivial hs₂
  -- the byte behind the first chunk belongs to the second payload
  have hin := (hclaim s₂ hrun₂).inside (65704, 70000) (by rw [hlive]; exact List.mem_cons_self)
    131072 ⟨by decide, by decide⟩
  rw [hobt, covers_cons, covers_cons] at hin
  revert hin
  simp [Extent.Has, Extent.stop]

end Sys
end Malloc
