/-
  When pstree prints every process once.

  1. **Specification** — the list is a snapshot of a directory, and any parents may stand in it.
     `Parent` and `Ancestor` say who is whose parent in the list; `Prints` is that every process has
     one line.
  2. **What goes wrong** — there are two ways:
       * A process on a cycle hangs below no root: neither it nor what is below it is printed.
       * A root is found by ppid 0 or a missing parent, a child by a parent that is found.  A
         process with pid 0 in the list makes its children roots as well, and they are printed
         twice.
  3. **The crux (`printed_iff`)** — a process has a line exactly when there is no cycle above it, by
     way of `Listed`; `prints_all_iff` says that nothing else goes wrong.
-/
import MiniLabs.Pstree.Links

set_option linter.unusedVariables false

namespace Pstree

open Forest

/-- `p` is the parent of `s` in the list. -/
def Parent (S : List Status) (s p : Status) : Prop := p ∈ S ∧ s.ppid = p.pid

/-- `a` is an ancestor of `s` in the list. -/
def Ancestor (S : List Status) (a s : Status) : Prop := Relation.TransGen (Parent S) s a

/-- Printing ends, with these lines. -/
def Prints (numericSort : Bool) (S : List Status) (lines : List Line) : Prop :=
  ∃ least, ∀ fuel, least ≤ fuel → pstree numericSort fuel S = some lines

section Printed

variable {S : List Status} {numericSort : Bool} {lines : List Line} {s p : Status}
  {out : List (Nat × Status)}

/-- An ancestor in the list is one along the parents. -/
theorem ancestor_iff (hd : (S.map (·.pid)).Nodup) {a : Status} :
    Ancestor S a s ↔ Above (parentOf S) a s := by
  have hrel : Parent S = fun x p => parentOf S x = some p := by
    funext x p
    exact propext (parentOf_some hd).symm
  rw [Ancestor, Above, hrel]

/-- The children are those with that parent. -/
theorem mem_kidsOf : s ∈ kidsOf S numericSort p ↔ s ∈ S ∧ parentOf S s = some p := by
  rw [kidsOf, (List.mergeSort_perm _ _).mem_iff, List.mem_filter, beq_iff_eq]

/-- The roots are those with ppid 0 or without a parent. -/
theorem mem_rootsOf :
    s ∈ rootsOf S numericSort ↔ s ∈ S ∧ (s.ppid = 0 ∨ parentOf S s = none) := by
  rw [rootsOf, (List.mergeSort_perm _ _).mem_iff, List.mem_filter, Bool.or_eq_true, beq_iff_eq,
    Option.isNone_iff_eq_none]

/-- The children fit the parents, as `Forest` needs them. -/
theorem kids (hd : (S.map (·.pid)).Nodup) (numericSort : Bool) :
    Kids (parentOf S) S (kidsOf S numericSort) where
  mem_iff := fun c p => mem_kidsOf
  nodup := fun p => (List.mergeSort_perm _ _).nodup_iff.mpr ((List.Nodup.of_map _ hd).filter _)
  closed := fun c p _ hp => ((parentOf_some hd).mp hp).1

/-- No root is there twice. -/
theorem roots_nodup (hd : (S.map (·.pid)).Nodup) : (rootsOf S numericSort).Nodup :=
  (List.mergeSort_perm _ _).nodup_iff.mpr ((List.Nodup.of_map _ hd).filter _)

/-- The roots are processes of the list. -/
theorem roots_sub : ∀ s ∈ rootsOf S numericSort, s ∈ S := fun s hs => (mem_rootsOf.mp hs).1

/-- The lines printed are a listing of the forest. -/
theorem prints_iff (hd : (S.map (·.pid)).Nodup) :
    Prints numericSort S lines ↔
      ∃ out, Listed (kidsOf S numericSort) 0 (rootsOf S numericSort) out ∧ lines = out.map line := by
  constructor
  · rintro ⟨least, h⟩
    have hl := h least (Nat.le_refl _)
    rw [pstree_eq hd] at hl
    obtain ⟨out, hout, rfl⟩ := Option.map_eq_some_iff.mp hl
    exact ⟨out, listed_of_walk hout, rfl⟩
  · rintro ⟨out, hout, rfl⟩
    obtain ⟨least, h⟩ := hout.walk
    refine ⟨least, fun fuel hle => ?_⟩
    rw [pstree_eq hd, h fuel hle]
    rfl

/-- The processes of the lines. -/
theorem map_line_process (out : List (Nat × Status)) :
    (out.map line).map (·.process) = out.map Prod.snd := by
  rw [List.map_map]
  rfl

/-- Roots are those without a parent, when no process with pid 0 has children. -/
theorem root_iff (hroots : (∃ p ∈ S, p.pid = 0) → ∀ s ∈ S, s.ppid ≠ 0) (hs : s ∈ S) :
    s ∈ rootsOf S numericSort ↔ parentOf S s = none := by
  rw [mem_rootsOf]
  constructor
  · rintro ⟨-, hzero | hnone⟩
    · apply parentOf_none.mpr
      intro p hp heq
      exact hroots ⟨p, hp, heq.trans hzero⟩ s hs hzero
    · exact hnone
  · exact fun h => ⟨hs, Or.inr h⟩

/-- A root has no parent, unless ppid 0 is a pid of the list. -/
theorem roots_depth (hroots : (∃ p ∈ S, p.pid = 0) → ∀ s ∈ S, s.ppid ≠ 0) :
    ∀ s ∈ rootsOf S numericSort, Depth (parentOf S) s 0 :=
  fun s hs => depth_zero.mpr ((root_iff hroots (roots_sub s hs)).mp hs)

/-- What is listed, when no process with pid 0 has children. -/
theorem listed_mem (hd : (S.map (·.pid)).Nodup)
    (hroots : (∃ p ∈ S, p.pid = 0) → ∀ s ∈ S, s.ppid ≠ 0)
    (h : Listed (kidsOf S numericSort) 0 (rootsOf S numericSort) out) {e : Nat} :
    (e, s) ∈ out ↔ s ∈ S ∧ Depth (parentOf S) s e := by
  rw [h.mem_iff (kids hd numericSort) roots_sub]
  constructor
  · rintro ⟨hs, r, hr, k, rfl, hk⟩
    rw [Nat.zero_add]
    exact ⟨hs, r, hk, (root_iff hroots (roots_sub r hr)).mp hr⟩
  · rintro ⟨hs, r, hr, hnone⟩
    have hrS := (kids hd numericSort).climb_mem hs hr
    exact ⟨hs, r, (root_iff hroots hrS).mpr hnone, e, (Nat.zero_add e).symm, hr⟩

/-- A process is printed when no cycle is above it. -/
theorem printed_iff (hd : (S.map (·.pid)).Nodup)
    (hroots : (∃ p ∈ S, p.pid = 0) → ∀ s ∈ S, s.ppid ≠ 0)
    (h : Listed (kidsOf S numericSort) 0 (rootsOf S numericSort) out) :
    s ∈ out.map Prod.snd ↔ s ∈ S ∧ ¬ ∃ c, (c = s ∨ Ancestor S c s) ∧ Ancestor S c c := by
  have hcycle : (∃ c, (c = s ∨ Ancestor S c s) ∧ Ancestor S c c) ↔
      ∃ c, (c = s ∨ Above (parentOf S) c s) ∧ Above (parentOf S) c c := by
    simp only [ancestor_iff hd]
  rw [hcycle]
  constructor
  · intro hs
    obtain ⟨⟨e, s⟩, hmem, rfl⟩ := List.mem_map.mp hs
    obtain ⟨hs, hde⟩ := (listed_mem hd hroots h).mp hmem
    exact ⟨hs, ((kids hd numericSort).depth_iff hs).mp ⟨e, hde⟩⟩
  · rintro ⟨hs, hno⟩
    obtain ⟨e, hde⟩ := ((kids hd numericSort).depth_iff hs).mpr hno
    exact List.mem_map.mpr ⟨(e, s), (listed_mem hd hroots h).mpr ⟨hs, hde⟩, rfl⟩

/-- When everything is listed once, no process with pid 0 has children. -/
theorem once_roots (hd : (S.map (·.pid)).Nodup)
    (h : Listed (kidsOf S numericSort) 0 (rootsOf S numericSort) out)
    (honce : (out.map Prod.snd).Perm S) : (∃ p ∈ S, p.pid = 0) → ∀ s ∈ S, s.ppid ≠ 0 := by
  rintro ⟨p, hp, hpid⟩ s hs hzero
  have hnd : (out.map Prod.snd).Nodup := honce.nodup_iff.mpr (List.Nodup.of_map _ hd)
  -- `s` is listed as a root and below `p`
  have hroot : (0, s) ∈ out := h.mem_start (mem_rootsOf.mpr ⟨hs, Or.inl hzero⟩)
  obtain ⟨⟨e, p'⟩, hout, rfl⟩ := List.mem_map.mp (honce.mem_iff.mpr hp)
  have hkid : s ∈ kidsOf S numericSort p' :=
    mem_kidsOf.mpr ⟨hs, (parentOf_some hd).mpr ⟨hp, hzero.trans hpid.symm⟩⟩
  have hchild : (e + 1, s) ∈ out := h.mem_kids hout hkid
  have heq := List.inj_on_of_nodup_map hnd hroot hchild rfl
  exact absurd (congrArg Prod.fst heq) (Nat.succ_ne_zero e).symm

/-- **Every process once.**  Printing ends with every process of the list printed exactly once,
    when and only when no process is its own ancestor and no process with pid 0 has children. -/
theorem prints_all_iff (S : List Status) (numericSort : Bool) (hd : (S.map (·.pid)).Nodup) :
    (∃ lines, Prints numericSort S lines ∧ (lines.map (·.process)).Perm S) ↔
      (∀ s ∈ S, ¬ Ancestor S s s) ∧ ((∃ p ∈ S, p.pid = 0) → ∀ s ∈ S, s.ppid ≠ 0) := by
  constructor
  · rintro ⟨lines, hprints, honce⟩
    obtain ⟨out, hout, rfl⟩ := (prints_iff hd).mp hprints
    rw [map_line_process] at honce
    have hroots := once_roots hd hout honce
    refine ⟨fun s hs hcycle => ?_, hroots⟩
    obtain ⟨-, hno⟩ := (printed_iff hd hroots hout).mp (honce.mem_iff.mpr hs)
    exact hno ⟨s, Or.inl rfl, hcycle⟩
  · rintro ⟨hacyclic, hroots⟩
    obtain ⟨out, hout⟩ := listed_exists (kids hd numericSort) roots_sub (roots_depth hroots)
    refine ⟨out.map line, (prints_iff hd).mpr ⟨out, hout, rfl⟩, ?_⟩
    rw [map_line_process]
    have hnd := hout.nodup (kids hd numericSort) roots_sub (roots_depth hroots) (roots_nodup hd)
    apply (List.perm_ext_iff_of_nodup hnd (List.Nodup.of_map _ hd)).mpr
    intro s
    rw [printed_iff hd hroots hout]
    refine ⟨fun h => h.1, fun hs => ⟨hs, ?_⟩⟩
    -- what is on a cycle is in the list
    rintro ⟨c, -, hcycle⟩
    obtain ⟨k, hk⟩ := above_iff_climb.mp ((ancestor_iff hd).mp hcycle)
    obtain ⟨x, -, hx⟩ := climb_last hk
    exact hacyclic c ((parentOf_some hd).mp hx).1 hcycle

/-- Parents that are older than their children make no cycle. -/
theorem acyclic_of_older (hold : ∀ s ∈ S, ∀ p ∈ S, s.ppid = p.pid → p.pid < s.pid) :
    ∀ s ∈ S, ¬ Ancestor S s s := by
  have holder : ∀ {a s : Status}, s ∈ S → Ancestor S a s → a ∈ S ∧ a.pid < s.pid := by
    intro a s hs h
    induction h with
    | single h => exact ⟨h.1, hold _ hs _ h.1 h.2⟩
    | tail _ h ih => exact ⟨h.1, Int.lt_trans (hold _ ih.1 _ h.1 h.2) ih.2⟩
  intro s hs h
  exact Int.lt_irrefl _ (holder hs h).2

end Printed

/-- Three processes, as a snapshot may find them. -/
def three : List Status := [⟨7, 1, ascii "sh"⟩, ⟨1, 0, ascii "init"⟩, ⟨9, 7, ascii "ps"⟩]

theorem prints_all_iff_three :
    ∃ lines, Prints false three lines ∧ (lines.map (·.process)).Perm three :=
  (prints_all_iff three false (by decide)).mpr
    ⟨acyclic_of_older (by decide), by decide⟩

/-- A process with pid 0 that is its own parent hangs below itself. -/
theorem swapper_not_once :
    ([⟨0, 0, ascii "swapper"⟩].map fun s : Status => s.pid).Nodup ∧
      ¬ ∃ lines, Prints false [⟨0, 0, ascii "swapper"⟩] lines ∧
        (lines.map (·.process)).Perm [⟨0, 0, ascii "swapper"⟩] := by
  have hd : ([⟨0, 0, ascii "swapper"⟩].map fun s : Status => s.pid).Nodup := by decide
  refine ⟨hd, ?_⟩
  rintro ⟨lines, hprints, honce⟩
  obtain ⟨out, hout, rfl⟩ := (prints_iff hd).mp hprints
  rw [map_line_process] at honce
  exact once_roots hd hout honce ⟨_, List.mem_singleton_self _, rfl⟩ _
    (List.mem_singleton_self _) rfl

end Pstree
