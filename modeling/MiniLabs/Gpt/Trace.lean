/-
  gpt — runs of `parallel_for` access by access.

  1. **Program** — `ForkJoin` runs the slices of a call as threads of `Lib.Interleave`: any of them
     may make the next access, and the call is over when all of them are.  `Traced` is a list of
     calls one after the other, with all accesses they make.
  2. **Specification (`forkJoin_iff`)** — where no two indices clash, such a run leaves what the
     coarser `ParallelFor` does: it does no harm that there whole indices are interleaved.
  3. **The crux (`threads_isolated`)** — the accesses of a slice stay within the cells of its
     indices, and those of two slices spare each other, so each thread runs as if it were alone.
  4. **What is idealised** — accesses are sequentially consistent; as no two threads touch one cell
     that either writes, there is nothing for a weaker memory to reorder.
-/
import Mathlib.Data.List.Nodup
import MiniLabs.Gpt.Parallel
import MiniLabs.Lib.Interleave

set_option linter.unusedVariables false

namespace Gpt

open Access Access.Prog Shuffles

section Runs

variable {F P : Type} [DecidableEq P]

/-- `fn(begin, end, arg)`. -/
def RangeCall.range (c : RangeCall F P) (s : Nat × Nat) : Prog P F Unit :=
  forRange (s.2 - s.1) fun i => c.body (s.1 + i)

/-- `parallel_for(0, total, fn, arg)` can make the accesses `es`, and then leaves `m'`. -/
def ForkJoin (workerCount : Nat) (c : RangeCall F P) (m : P → F) (es : List (Event P))
    (m' : P → F) : Prop :=
  if c.total ≤ 0 then es = [] ∧ m' = m
  else Interleave ((slices workerCount 0 c.total).map c.range) m es m'

/-- The calls, one after the other, can make the accesses `es`, and then leave `m'`. -/
inductive Traced (workerCount : Nat) :
    List (RangeCall F P) → (P → F) → List (Event P) → (P → F) → Prop
  | nil (m : P → F) : Traced workerCount [] m [] m
  | cons {c : RangeCall F P} {cs : List (RangeCall F P)} {m m₁ m₂ : P → F}
      {es fs : List (Event P)} (h : ForkJoin workerCount c m es m₁)
      (hs : Traced workerCount cs m₁ fs m₂) : Traced workerCount (c :: cs) m (es ++ fs) m₂

variable {w : Nat} {c : RangeCall F P} {cs ds : List (RangeCall F P)} {m m' : P → F}
  {es : List (Event P)}

/-- Every call has a run. -/
theorem forkJoin_exists (w : Nat) (c : RangeCall F P) (m : P → F) :
    ∃ es m', ForkJoin w c m es m' := by
  by_cases h : c.total ≤ 0
  · refine ⟨[], m, ?_⟩
    rw [ForkJoin, if_pos h]
    exact ⟨rfl, rfl⟩
  · obtain ⟨es, m', hrun⟩ := interleave_exists ((slices w 0 c.total).map c.range) m
    refine ⟨es, m', ?_⟩
    rwa [ForkJoin, if_neg h]

/-- Every list of calls has a run. -/
theorem traced_exists (w : Nat) (cs : List (RangeCall F P)) (m : P → F) :
    ∃ es m', Traced w cs m es m' := by
  induction cs generalizing m with
  | nil => exact ⟨[], m, .nil m⟩
  | cons c cs ih =>
    obtain ⟨es, m₁, h⟩ := forkJoin_exists w c m
    obtain ⟨fs, m₂, hs⟩ := ih m₁
    exact ⟨es ++ fs, m₂, .cons h hs⟩

/-- Calls behind other calls. -/
theorem traced_append (h : Traced w (cs ++ ds) m es m') : ∃ es₁ m₁ es₂,
    Traced w cs m es₁ m₁ ∧ Traced w ds m₁ es₂ m' ∧ es = es₁ ++ es₂ := by
  induction cs generalizing m es with
  | nil => exact ⟨[], m, es, .nil m, h, rfl⟩
  | cons c cs ih =>
    cases h with
    | cons hc hcs =>
      obtain ⟨es₁, m₁, es₂, hcs₁, hds, rfl⟩ := ih hcs
      exact ⟨_, m₁, es₂, .cons hc hcs₁, hds, (List.append_assoc _ _ _).symm⟩

/-! ## What holds of every index holds of the threads -/

/-- An index of a slice is one of the call. -/
theorem slice_index {s : Nat × Nat} {n : Nat} (hs : s ∈ slices w 0 n) (hn : 0 < n) {i : Nat}
    (hi : i < s.2 - s.1) : s.1 + i < n := by
  have hflat := slices_flatten w hn
  have hmem : s.1 + i ∈ ((slices w 0 n).map indices).flatten := by
    refine List.mem_flatten.mpr ⟨indices s, List.mem_map_of_mem hs, ?_⟩
    rw [indices, List.mem_range'_1]
    omega
  rw [hflat, List.mem_range'_1] at hmem
  omega

/-- Every index is one of a slice. -/
theorem index_slice (w : Nat) {n i : Nat} (hi : i < n) : ∃ s ∈ slices w 0 n, ∃ k, k < s.2 - s.1 ∧
    s.1 + k = i := by
  have hmem : i ∈ ((slices w 0 n).map indices).flatten := by
    rw [slices_flatten w (Nat.lt_of_le_of_lt (Nat.zero_le i) hi), List.mem_range'_1]
    omega
  obtain ⟨l, hl, hil⟩ := List.mem_flatten.mp hmem
  obtain ⟨s, hs, rfl⟩ := List.mem_map.mp hl
  rw [indices, List.mem_range'_1] at hil
  exact ⟨s, hs, i - s.1, by omega, by omega⟩

/-- The accesses of a call are those of its indices. -/
theorem ForkJoin.within {R W : P → Prop} (h : ForkJoin w c m es m')
    (hc : ∀ i, i < c.total → (c.body i).Within R W) :
    ∀ e ∈ es, match e with
      | .rd x => R x
      | .wr x => W x := by
  rw [ForkJoin] at h
  split at h
  · rw [h.1]
    exact fun e he => absurd he List.not_mem_nil
  · apply h.within
    intro p hp
    obtain ⟨s, hs, rfl⟩ := List.mem_map.mp hp
    exact within_forRange fun i hi => hc _ (slice_index hs (by omega) hi)

/-- Indices that define what they read do so in every run of the call; what they define is
    defined or written in the end. -/
theorem ForkJoin.defines {D : P → Prop} {D' : Nat → P → Prop} (h : ForkJoin w c m es m')
    (hc : ∀ i, i < c.total → (c.body i).Defines D (D' i)) :
    Supplied D es fun x => ∃ i, i < c.total ∧ D' i x := by
  -- round `i` of a slice finds what the rounds before it have defined
  have hrange : ∀ s ∈ slices w 0 c.total, 0 < c.total → (c.range s).Defines D
      fun x => D x ∨ ∃ k, k < s.2 - s.1 ∧ D' (s.1 + k) x := by
    intro s hs hpos
    refine (defines_loop (fun n x => D x ∨ ∃ k, k < n ∧ D' (s.1 + k) x) () fun i hi _ =>
      ?round).conseq ?_ fun x hx => hx
    case round =>
      refine ((hc _ (slice_index hs hpos hi)).frame
        fun x => D x ∨ ∃ k, k < i ∧ D' (s.1 + k) x).conseq ?_ ?_
      · exact fun x hx => hx.elim Or.inl id
      · rintro x (hx | ⟨k, hk, hx⟩)
        · exact Or.inr (Or.inl hx)
        · by_cases hki : k = i
          · exact Or.inl (hki ▸ hx)
          · exact Or.inr (Or.inr ⟨k, by omega, hx⟩)
    rintro x (hx | ⟨k, hk, -⟩)
    · exact hx
    · exact absurd hk (Nat.not_lt_zero k)
  rw [ForkJoin] at h
  split at h
  · rw [h.1]
    refine ⟨sourced_nil, ?_⟩
    rintro x ⟨i, hi, -⟩
    omega
  · have hpos : 0 < c.total := by omega
    constructor
    · apply h.sourced
      intro p hp
      obtain ⟨s, hs, rfl⟩ := List.mem_map.mp hp
      exact (hrange s hs hpos).conseq (fun x hx => hx) fun x hx => hx.elim
    · rintro x ⟨i, hi, hx⟩
      obtain ⟨s, hs, k, hk, rfl⟩ := index_slice w hi
      exact h.written (List.mem_map_of_mem hs) (hrange s hs hpos) (Or.inr ⟨k, hk, hx⟩)

end Runs

/-! ## Fine and coarse runs -/

section Coarse

variable {F : Type} {c : RangeCall F} {w : Nat}

/-- A slice touches what its indices touch. -/
theorem range_within (c : RangeCall F) (s : Nat × Nat) :
    (c.range s).Within (fun x => ∃ i ∈ indices s, (c.body i).Reads x)
      fun x => ∃ i ∈ indices s, (c.body i).Writes x := by
  refine within_forRange fun i hi => ?_
  have hmem : s.1 + i ∈ indices s := by
    rw [indices, List.mem_range'_1]
    omega
  exact (within_self _).mono (fun x hx => ⟨_, hmem, hx⟩) fun x hx => ⟨_, hmem, hx⟩

/-- The threads of a call without clashes spare each other. -/
theorem threads_isolated (hc : NoClash c) (hpos : 0 < c.total) :
    Isolated ((slices w 0 c.total).map c.range) := by
  have hflat := slices_flatten w hpos
  have hnd : ((slices w 0 c.total).map indices).flatten.Nodup := by
    rw [hflat]
    exact List.nodup_range'
  have hlt : ∀ s ∈ slices w 0 c.total, ∀ i ∈ indices s, i < c.total := by
    intro s hs i hi
    have hmem := List.mem_flatten.mpr ⟨indices s, List.mem_map_of_mem hs, hi⟩
    rw [hflat, List.mem_range'_1] at hmem
    omega
  have hpair := List.pairwise_map.mp (List.nodup_flatten.mp hnd).2
  rw [Isolated, List.pairwise_map]
  refine hpair.imp_of_mem fun {s t} hs ht hdisj => ?_
  have hspare : ∀ {s t}, s ∈ slices w 0 c.total → t ∈ slices w 0 c.total →
      (indices s).Disjoint (indices t) → (c.range s).Spares (c.range t) := by
    intro s t hs ht hdisj
    apply (range_within c s).spares (range_within c t)
    rintro x ⟨i, hi, hx⟩
    have hfree : ∀ j ∈ indices t, ¬ (c.body j).Reads x ∧ ¬ (c.body j).Writes x := by
      intro j hj
      refine hc i (hlt s hs i hi) j (hlt t ht j hj) ?_ x hx
      rintro rfl
      exact hdisj hi hj
    refine ⟨?_, ?_⟩
    · rintro ⟨j, hj, h⟩
      exact (hfree j hj).1 h
    · rintro ⟨j, hj, h⟩
      exact (hfree j hj).2 h
  exact ⟨hspare hs ht hdisj, hspare ht hs fun i hi hj => hdisj hj hi⟩

/-- Slices one after the other are their indices one after the other. -/
theorem runThreads_slices (c : RangeCall F) (ss : List (Nat × Nat)) (m : Mem F) :
    runThreads (ss.map c.range) m = runAll c.body (ss.map indices).flatten m := by
  induction ss generalizing m with
  | nil => rfl
  | cons s ss ih =>
    have hslice : ((c.range s).run m).2 = runAll c.body (indices s) m := by
      rw [RangeCall.range, run_forRange, indices, List.range'_eq_map_range, runAll, runAll,
        List.foldl_map]
    rw [List.map_cons, runThreads_cons, ih, hslice, List.map_cons, List.flatten_cons,
      runAll_append]

/-- **What a call leaves access by access, it leaves index by index**, if no two indices clash. -/
theorem forkJoin_iff (hc : NoClash c) (m m' : Mem F) :
    (∃ es, ForkJoin w c m es m') ↔ ParallelFor w c m m' := by
  have hleft : ∀ es m', ForkJoin w c m es m' → m' = runAll c.body (List.range c.total) m := by
    intro es m' h
    rw [ForkJoin] at h
    split at h
    · rename_i htotal
      rw [h.2, Nat.le_zero.mp htotal]
      rfl
    · have hpos : 0 < c.total := by omega
      rw [h.serial (threads_isolated hc hpos), runThreads_slices, slices_flatten w hpos,
        Nat.sub_zero, List.range_eq_range']
  rw [parallelFor_iff hc]
  constructor
  · rintro ⟨es, h⟩
    exact hleft es m' h
  · rintro rfl
    obtain ⟨es, m'', h⟩ := forkJoin_exists w c m
    rw [← hleft es m'' h]
    exact ⟨es, h⟩

/-- The same of a list of calls. -/
theorem traced_iff {cs : List (RangeCall F)} (hcs : ∀ c ∈ cs, NoClash c) (m m' : Mem F) :
    (∃ es, Traced w cs m es m') ↔ RunCalls w cs m m' := by
  induction cs generalizing m with
  | nil =>
    constructor
    · rintro ⟨es, h⟩
      cases h
      exact RunCalls.nil _
    · intro h
      cases h
      exact ⟨[], Traced.nil _⟩
  | cons c cs ih =>
    have hc := hcs c List.mem_cons_self
    have ih' := ih fun c' hc' => hcs c' (List.mem_cons_of_mem c hc')
    constructor
    · rintro ⟨_, h⟩
      cases h with
      | cons h hs => exact RunCalls.cons ((forkJoin_iff hc _ _).mp ⟨_, h⟩) ((ih' _).mp ⟨_, hs⟩)
    · intro h
      cases h with
      | cons h hs =>
        obtain ⟨es, h⟩ := (forkJoin_iff hc _ _).mpr h
        obtain ⟨fs, hs⟩ := (ih' _).mpr hs
        exact ⟨es ++ fs, Traced.cons h hs⟩

end Coarse
end Gpt
