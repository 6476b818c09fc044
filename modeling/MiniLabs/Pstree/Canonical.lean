/-
  The forest that pstree prints is canonical: it does not depend on the order of `readdir`.

  1. **The order (`Before`)** — of siblings and roots: by name and then pid, or by pid.  On a list
     with distinct pids it is total, so there is one sorted order of every set of siblings
     (`mergeSort_perm_eq`), whatever their positions.
  2. **Specification (`Canonical`)** — what the lines look like: depths count ancestors, descendants
     follow in a block, siblings are in order, and every process that is not below a cycle has its
     line.
  3. **The crux (`pstree_perm`)** — parents, children and roots of a permuted list are the same
     processes, and sorted they are the same lists.
  4. **What is asked of the list** — `canonical_forest` is for lists with positive pids; with pid 0
     roots may have parents (see `Pstree.Printed`).
-/
import MiniLabs.Pstree.Printed

set_option linter.unusedVariables false

namespace Pstree

open Forest Libc

/-! ## The order of siblings -/

/-- By name and then pid, or with `-n` by pid alone. -/
def Before (numericSort : Bool) (s t : Status) : Prop :=
  if numericSort then s.pid < t.pid
  else s.name < t.name ∨ s.name = t.name ∧ s.pid < t.pid

section Order

variable {S S' : List Status} {numericSort : Bool} {s t u : Status}

/-- Comparing pids is comparing numbers. -/
theorem compareByPid_le (s t : Status) : compareByPid ⟨s, []⟩ ⟨t, []⟩ ≤ 0 ↔ ¬ t.pid < s.pid := by
  show (if s.pid > t.pid then (1 : Int) else 0) - (if s.pid < t.pid then 1 else 0) ≤ 0 ↔ _
  split <;> split <;> omega

/-- The comparison that sorts is the order of siblings. -/
theorem sortLe_iff : sortLe numericSort s t = true ↔ ¬ Before numericSort t s := by
  rw [sortLe, decide_eq_true_iff]
  cases numericSort with
  | true => exact compareByPid_le s t
  | false =>
    show (if strcmp s.name t.name ≠ 0 then strcmp s.name t.name
      else compareByPid ⟨s, []⟩ ⟨t, []⟩) ≤ 0 ↔
        ¬ (t.name < s.name ∨ t.name = s.name ∧ t.pid < s.pid)
    by_cases hname : s.name = t.name
    · rw [if_neg (not_not.mpr ((strcmp_eq_iff _ _).mpr hname)), compareByPid_le, hname]
      have hirr : ¬ t.name < t.name := List.lt_irrefl _
      simp [hirr]
    · rw [if_pos fun h => hname ((strcmp_eq_iff _ _).mp h), strcmp_le_iff]
      simp [Ne.symm hname]

/-- No two processes come before one another. -/
theorem Before.asymm (h : Before numericSort s t) : ¬ Before numericSort t s := by
  cases numericSort with
  | true => exact Int.lt_asymm h
  | false =>
    rintro (hlt' | ⟨heq', hlt'⟩)
    · rcases h with hlt | ⟨heq, -⟩
      · exact List.lt_asymm hlt hlt'
      · exact List.lt_irrefl _ (heq ▸ hlt')
    · rcases h with hlt | ⟨-, hlt⟩
      · exact List.lt_irrefl _ (heq' ▸ hlt)
      · exact Int.lt_asymm hlt hlt'

/-- Different pids are in order one way or the other. -/
theorem Before.total (hne : s.pid ≠ t.pid) : Before numericSort s t ∨ Before numericSort t s := by
  cases numericSort with
  | true => exact Int.lt_or_gt_of_ne hne
  | false =>
    by_cases hst : s.name < t.name
    · exact Or.inl (Or.inl hst)
    · by_cases hts : t.name < s.name
      · exact Or.inr (Or.inl hts)
      · have heq : s.name = t.name := List.le_antisymm hts hst
        rcases Int.lt_or_gt_of_ne hne with hlt | hgt
        · exact Or.inl (Or.inr ⟨heq, hlt⟩)
        · exact Or.inr (Or.inr ⟨heq.symm, hgt⟩)

/-- Not coming before is transitive, as `qsort` needs it. -/
theorem not_before_trans (hst : ¬ Before numericSort t s) (htu : ¬ Before numericSort u t) :
    ¬ Before numericSort u s := by
  cases numericSort with
  | true =>
    have hst : ¬ t.pid < s.pid := hst
    have htu : ¬ u.pid < t.pid := htu
    show ¬ u.pid < s.pid
    omega
  | false =>
    have hst : ¬ (t.name < s.name ∨ t.name = s.name ∧ t.pid < s.pid) := hst
    have htu : ¬ (u.name < t.name ∨ u.name = t.name ∧ u.pid < t.pid) := htu
    have hst1 : ¬ t.name < s.name := fun h => hst (Or.inl h)
    have htu1 : ¬ u.name < t.name := fun h => htu (Or.inl h)
    rintro (hlt | ⟨heq, hlt⟩)
    · exact absurd hlt (List.le_trans hst1 htu1)
    · -- names that are equal at the ends are equal in between
      have hts : t.name = s.name := List.le_antisymm (heq ▸ htu1) hst1
      have hut : u.name = t.name := heq.trans hts.symm
      have hst2 : ¬ t.pid < s.pid := fun h => hst (Or.inr ⟨hts, h⟩)
      have htu2 : ¬ u.pid < t.pid := fun h => htu (Or.inr ⟨hut, h⟩)
      omega

/-! ## Sorted lists -/

/-- In a sorted list nobody comes before those in front of it. -/
theorem sorted_pairwise (xs : List Status) :
    (xs.mergeSort (sortLe numericSort)).Pairwise fun s t => ¬ Before numericSort t s := by
  have htrans : ∀ s t u, sortLe numericSort s t → sortLe numericSort t u →
      sortLe numericSort s u := by
    intro s t u hst htu
    exact sortLe_iff.mpr (not_before_trans (sortLe_iff.mp hst) (sortLe_iff.mp htu))
  have htotal : ∀ s t, sortLe numericSort s t || sortLe numericSort t s := by
    intro s t
    rw [Bool.or_eq_true, sortLe_iff, sortLe_iff]
    by_cases h : Before numericSort t s
    · exact Or.inr h.asymm
    · exact Or.inl h
  exact (List.pairwise_mergeSort htrans htotal xs).imp fun h => sortLe_iff.mp h

/-- Distinct pids are sorted strictly. -/
theorem sorted_strict {xs : List Status} (hd : (xs.map (·.pid)).Nodup) :
    (xs.mergeSort (sortLe numericSort)).Pairwise (Before numericSort) := by
  have hd' : ((xs.mergeSort (sortLe numericSort)).map (·.pid)).Nodup :=
    ((List.mergeSort_perm xs _).map _).nodup_iff.mpr hd
  refine (sorted_pairwise xs).imp₂ ?_ (List.pairwise_map.mp hd')
  intro s t hst hne
  exact (Before.total hne).resolve_right hst

/-- **One sorted order.** -/
theorem mergeSort_perm_eq {xs ys : List Status} (hp : xs.Perm ys) (hd : (xs.map (·.pid)).Nodup) :
    xs.mergeSort (sortLe numericSort) = ys.mergeSort (sortLe numericSort) := by
  have hperm : (xs.mergeSort (sortLe numericSort)).Perm (ys.mergeSort (sortLe numericSort)) :=
    (List.mergeSort_perm xs _).trans (hp.trans (List.mergeSort_perm ys _).symm)
  refine hperm.eq_of_pairwise ?_ (sorted_strict hd)
    (sorted_strict ((hp.map _).nodup_iff.mp hd))
  intro s t _ _ hst hts
  exact absurd hts hst.asymm

/-! ## Permutations of the list -/

/-- A part of the list has distinct pids. -/
theorem nodup_filter {q : Status → Bool} (hd : (S.map (·.pid)).Nodup) :
    ((S.filter q).map (·.pid)).Nodup := hd.sublist (List.filter_sublist.map _)

/-- The order of the list does not matter for parents. -/
theorem parentOf_perm (hp : S'.Perm S) (hd : (S.map (·.pid)).Nodup) : parentOf S' = parentOf S := by
  have hd' : (S'.map (·.pid)).Nodup := (hp.map _).nodup_iff.mpr hd
  funext s
  apply Option.ext
  intro p
  rw [parentOf_some hd, parentOf_some hd', hp.mem_iff]

/-- **Nor for children.**. -/
theorem kidsOf_perm (hp : S'.Perm S) (hd : (S.map (·.pid)).Nodup) :
    kidsOf S' numericSort = kidsOf S numericSort := by
  funext p
  rw [kidsOf, kidsOf, parentOf_perm hp hd]
  exact mergeSort_perm_eq (hp.filter _) (nodup_filter ((hp.map _).nodup_iff.mpr hd))

/-- **Nor for roots.**. -/
theorem rootsOf_perm (hp : S'.Perm S) (hd : (S.map (·.pid)).Nodup) :
    rootsOf S' numericSort = rootsOf S numericSort := by
  rw [rootsOf, rootsOf, parentOf_perm hp hd]
  exact mergeSort_perm_eq (hp.filter _) (nodup_filter ((hp.map _).nodup_iff.mpr hd))

/-- **The order of `readdir` does not matter**, however long the walk goes on. -/
theorem pstree_perm (hp : S'.Perm S) (hd : (S.map (·.pid)).Nodup) (fuel : Nat) :
    pstree numericSort fuel S' = pstree numericSort fuel S := by
  rw [pstree_eq hd, pstree_eq ((hp.map _).nodup_iff.mpr hd), kidsOf_perm hp hd, rootsOf_perm hp hd]

end Order

/-! ## The forest -/

/-- **The canonical forest** of a list. -/
structure Canonical (numericSort : Bool) (S : List Status) (lines : List Line) : Prop where
  /-- Depths count ancestors. -/
  depth : ∀ ℓ ∈ lines, {a | Ancestor S a ℓ.process}.Finite ∧
    {a | Ancestor S a ℓ.process}.ncard = ℓ.depth
  /-- The descendants of a process are what follows it up to a line that is not deeper. -/
  block : ∀ pre ℓ rest, lines = pre ++ ℓ :: rest → ∀ z,
    (∃ m ∈ rest.takeWhile fun m => ℓ.depth < m.depth, m.process = z) ↔
      z ∈ S ∧ Ancestor S ℓ.process z
  /-- Siblings, and roots, are in strictly increasing order. -/
  order : lines.Pairwise fun ℓ m =>
    (∀ p, Parent S ℓ.process p ↔ Parent S m.process p) → Before numericSort ℓ.process m.process
  /-- A process is printed when it is not on a cycle or below one, and once. -/
  printed : ∀ s, s ∈ lines.map (·.process) ↔
    s ∈ S ∧ ¬ ∃ c, (c = s ∨ Ancestor S c s) ∧ Ancestor S c c
  once : (lines.map (·.process)).Nodup

section Canonical

variable {S : List Status} {numericSort : Bool} {out : List (Nat × Status)}

/-- The block below a line, as a block of the listing. -/
theorem takeWhile_line (e : Nat) (rest : List (Nat × Status)) :
    ((rest.map line).takeWhile fun m => e < m.depth)
      = (rest.takeWhile fun ℓ => e < ℓ.1).map line := List.takeWhile_map

/-- A listing of the forest is canonical. -/
theorem canonical_of_listed (hd : (S.map (·.pid)).Nodup)
    (hroots : (∃ p ∈ S, p.pid = 0) → ∀ s ∈ S, s.ppid ≠ 0)
    (h : Listed (kidsOf S numericSort) 0 (rootsOf S numericSort) out) :
    Canonical numericSort S (out.map line) where
  depth := by
    intro ℓ hℓ
    obtain ⟨⟨e, s⟩, hmem, rfl⟩ := List.mem_map.mp hℓ
    have hde := ((listed_mem hd hroots h).mp hmem).2
    have hset : {a | Ancestor S a s} = {a | Above (parentOf S) a s} :=
      Set.ext fun a => ancestor_iff hd
    show {a | Ancestor S a s}.Finite ∧ {a | Ancestor S a s}.ncard = e
    rw [hset]
    exact hde.ncard
  block := by
    intro pre ℓ rest hlines z
    obtain ⟨pre', tail, rfl, rfl, htail⟩ := List.map_eq_append_iff.mp hlines
    obtain ⟨⟨e, s⟩, rest', rfl, rfl, rfl⟩ := List.map_eq_cons_iff.mp htail
    have hblock := h.block (kids hd numericSort) roots_sub rfl z
    rw [ancestor_iff hd, show (line (e, s)).process = s from rfl, ← hblock]
    show (∃ m ∈ (rest'.map line).takeWhile fun m => e < m.depth, m.process = z) ↔ _
    rw [takeWhile_line]
    constructor
    · rintro ⟨m, hm, rfl⟩
      obtain ⟨⟨e', z⟩, hz, rfl⟩ := List.mem_map.mp hm
      exact ⟨e', hz⟩
    · rintro ⟨e', hz⟩
      exact ⟨line (e', z), List.mem_map_of_mem hz, rfl⟩
  order := by
    have hsorted := h.sorted (kids hd numericSort) roots_sub (roots_depth hroots)
      (roots_nodup hd) (r := Before numericSort)
      (fun p => sorted_strict (nodup_filter hd)) (sorted_strict (nodup_filter hd))
    refine List.pairwise_map.mpr (hsorted.imp fun {a b} hab hparents => hab ?_)
    apply Option.ext
    intro p
    rw [parentOf_some hd, parentOf_some hd]
    exact hparents p
  printed := by
    intro s
    rw [map_line_process]
    exact printed_iff hd hroots h
  once := by
    rw [map_line_process]
    exact h.nodup (kids hd numericSort) roots_sub (roots_depth hroots) (roots_nodup hd)

end Canonical

/-- **The canonical forest is printed**, whatever the order of the list. -/
theorem canonical_forest (S : List Status) (numericSort : Bool) (hd : (S.map (·.pid)).Nodup)
    (hpos : ∀ s ∈ S, 0 < s.pid) :
    ∃ lines, Canonical numericSort S lines ∧ ∀ S', S'.Perm S → Prints numericSort S' lines := by
  have hroots : (∃ p ∈ S, p.pid = 0) → ∀ s ∈ S, s.ppid ≠ 0 := by
    rintro ⟨p, hp, hzero⟩
    exact absurd (hpos p hp) (by rw [hzero]; exact Int.lt_irrefl 0)
  obtain ⟨out, hout⟩ := listed_exists (kids hd numericSort) roots_sub (roots_depth hroots)
  refine ⟨out.map line, canonical_of_listed hd hroots hout, fun S' hp => ?_⟩
  obtain ⟨least, h⟩ := (prints_iff hd).mpr ⟨out, hout, rfl⟩
  exact ⟨least, fun fuel hle => (pstree_perm hp hd fuel).trans (h fuel hle)⟩

theorem canonical_forest_three :
    ∃ lines, Canonical false three lines ∧ ∀ S', S'.Perm three → Prints false S' lines :=
  canonical_forest three false (by decide) (by decide)

end Pstree
