/-
  Stepping — a machine that works on a state, step by step.

  1. **Machine** — `step` takes what the machine remembers and the state it works on to the next
     ones, and `result` says whether it has stopped, and with what.  `Runs` is any number of steps
     of a machine that has not stopped.
  2. **Running on** — a machine is shown to get somewhere by composing runs (`next`, `trans`), in
     the order in which a function that it is compared with computes.
  3. **The crux (`Runs.onward`)** — there is one way to run, so every place on the way to a result
     leads to that result, and a machine that gets into a circle has none (`Runs.circle`).
-/
import Mathlib.Logic.Relation

set_option linter.unusedVariables false

namespace Stepping

variable {L S R : Type} {step : L → S → L × S} {result : L → Option R} {a b c : L × S} {l : L}
  {s : S} {r : R}

/-- Any number of **steps**. -/
def Runs (step : L → S → L × S) (result : L → Option R) : L × S → L × S → Prop :=
  Relation.ReflTransGen fun a b => result a.1 = none ∧ b = step a.1 a.2

/-- No steps at all. -/
theorem Runs.refl (a : L × S) : Runs step result a a := Relation.ReflTransGen.refl

/-- Some steps, and then some. -/
theorem Runs.trans (h : Runs step result a b) (h' : Runs step result b c) :
    Runs step result a c := Relation.ReflTransGen.trans h h'

/-- One step, and then some. -/
theorem Runs.next (hl : result l = none) (hstep : step l s = b) (h : Runs step result b c) :
    Runs step result (l, s) c := Relation.ReflTransGen.head ⟨hl, hstep.symm⟩ h

/-- One step. -/
theorem Runs.one (hl : result l = none) (hstep : step l s = b) : Runs step result (l, s) b :=
  .next hl hstep (.refl b)

/-- A machine that has stopped makes no step. -/
theorem Runs.of_result (hr : result l = some r) (h : Runs step result (l, s) b) : b = (l, s) := by
  rcases Relation.ReflTransGen.cases_head h with heq | ⟨c, ⟨hnone, -⟩, -⟩
  · exact heq.symm
  · exact absurd (hr.symm.trans hnone) (Option.some_ne_none r)

/-- A machine whose step leads back to itself stays there. -/
theorem Runs.of_circle (hstep : step l s = (l, s)) (h : Runs step result (l, s) b) :
    b = (l, s) := by
  induction h with
  | refl => rfl
  | tail _ hnext ih => rw [hnext.2, ih, hstep]

/-- **There is one way to run.** -/
theorem Runs.total (h : Runs step result a b) (h' : Runs step result a c) :
    Runs step result b c ∨ Runs step result c b := by
  refine Relation.ReflTransGen.total_of_right_unique ?_ h h'
  rintro a b c ⟨-, rfl⟩ ⟨-, rfl⟩
  rfl

/-- Every place on the way to the result leads there. -/
theorem Runs.onward (h : Runs step result a (l, s)) (hr : result l = some r)
    (hb : Runs step result a b) : Runs step result b (l, s) := by
  rcases hb.total h with hon | hback
  · exact hon
  · rw [hback.of_result hr]
    exact .refl _

/-- A machine that gets into a circle does not stop. -/
theorem Runs.circle (h : Runs step result a (l, s)) (hl : result l = none)
    (hstep : step l s = (l, s)) (hb : Runs step result a b) : result b.1 = none := by
  rcases h.total hb with hon | hback
  · rw [hon.of_circle hstep]
    exact hl
  · cases hr : result b.1 with
    | none => rfl
    | some r =>
      have hsame : l = b.1 := congrArg Prod.fst (hback.of_result hr)
      rw [← hsame, hl] at hr
      cases hr

end Stepping
