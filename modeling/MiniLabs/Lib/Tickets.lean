/-
  Tickets — numbers are issued in order, taken in order, and finished in order.

  * `issued` — the next number to issue; the numbers from `taken` on are waiting.
  * `held`   — the number each worker has taken and not finished.
  * `done`   — the next number to finish; only the worker that holds it may.

  `Sound` says that every number below `taken` is finished or held by exactly one worker.  It
  holds at the start and every operation keeps it; and while any number is held, the next one to
  finish is held too (`front_held`), so the workers that must wait never wait for each other.  The
  numbers held lie closer together than there are workers (`window_le`).
-/
import Mathlib.Data.Fintype.Card
import Mathlib.Logic.Function.Basic

set_option linter.unusedVariables false

/-- A dispenser, for the workers `W`. -/
structure Tickets (W : Type) where
  issued : Nat
  taken : Nat
  held : W → Option Nat
  done : Nat

namespace Tickets

variable {W : Type}

/-- Nothing has been issued. -/
def start : Tickets W := ⟨0, 0, fun _ => none, 0⟩

/-- One more number is waiting. -/
def issue (t : Tickets W) : Tickets W := { t with issued := t.issued + 1 }

/-- A worker takes the first number that is waiting. -/
def take [DecidableEq W] (t : Tickets W) (w : W) : Tickets W :=
  { t with taken := t.taken + 1, held := Function.update t.held w (some t.taken) }

/-- A worker finishes the number whose turn it is. -/
def finish [DecidableEq W] (t : Tickets W) (w : W) : Tickets W :=
  { t with held := Function.update t.held w none, done := t.done + 1 }

/-- Every number that was taken is finished or held by one worker. -/
structure Sound (t : Tickets W) : Prop where
  done_le : t.done ≤ t.taken
  taken_le : t.taken ≤ t.issued
  bounds : ∀ w k, t.held w = some k → t.done ≤ k ∧ k < t.taken
  holder : ∀ k, t.done ≤ k → k < t.taken → ∃ w, t.held w = some k
  unique : ∀ w w' k, t.held w = some k → t.held w' = some k → w = w'

/-- No numbers are out at the start. -/
theorem sound_start : (start : Tickets W).Sound where
  done_le := Nat.le_refl 0
  taken_le := Nat.le_refl 0
  bounds := fun w k h => nomatch h
  holder := fun k _ hk => absurd hk (Nat.not_lt_zero k)
  unique := fun w w' k h => nomatch h

namespace Sound

variable {t : Tickets W}

/-- No more numbers are held than there are workers. -/
theorem window_le [Fintype W] (h : t.Sound) : t.taken - t.done ≤ Fintype.card W := by
  choose holder hheld using h.holder
  let worker (i : Fin (t.taken - t.done)) : W :=
    holder (t.done + i) (Nat.le_add_right _ _) (by omega)
  have hinj : Function.Injective worker := by
    intro i j hij
    have hi : t.held (worker i) = some (t.done + i) := hheld _ _ _
    have hj : t.held (worker j) = some (t.done + j) := hheld _ _ _
    rw [hij, hj] at hi
    have heq := Option.some.inj hi
    omega
  have hcard := Fintype.card_le_of_injective worker hinj
  rwa [Fintype.card_fin] at hcard

/-- Issuing a number keeps it. -/
theorem issue (h : t.Sound) : t.issue.Sound :=
  { h with taken_le := Nat.le_succ_of_le h.taken_le }

/-- **Taking the next number keeps it**, for a worker that holds none. -/
theorem take [DecidableEq W] (h : t.Sound) {w : W} (hw : t.held w = none) (hlt : t.taken < t.issued) :
    (t.take w).Sound where
  done_le := Nat.le_succ_of_le h.done_le
  taken_le := hlt
  bounds := by
    intro w' k hk
    show t.done ≤ k ∧ k < t.taken + 1
    by_cases hw' : w' = w
    · subst hw'
      have hk' : some t.taken = some k := (Function.update_self w' _ t.held).symm.trans hk
      cases hk'
      exact ⟨h.done_le, Nat.lt_succ_self _⟩
    · have hk' : t.held w' = some k := (Function.update_of_ne hw' _ t.held).symm.trans hk
      exact ⟨(h.bounds w' k hk').1, Nat.lt_succ_of_lt (h.bounds w' k hk').2⟩
  holder := by
    intro k hdone hk
    by_cases hkt : k = t.taken
    · subst hkt
      exact ⟨w, Function.update_self w _ t.held⟩
    · obtain ⟨w', hw'⟩ := h.holder k hdone (Nat.lt_of_le_of_ne (Nat.le_of_lt_succ hk) hkt)
      refine ⟨w', (Function.update_of_ne ?_ _ t.held).trans hw'⟩
      rintro rfl
      rw [hw] at hw'
      cases hw'
  unique := by
    have hfresh : ∀ w', t.held w' ≠ some t.taken := fun w' hw' =>
      Nat.lt_irrefl _ (h.bounds w' _ hw').2
    intro a b k ha hb
    have hcase : ∀ w', (t.take w).held w' = some k →
        (w' = w ∧ k = t.taken) ∨ (w' ≠ w ∧ t.held w' = some k) := by
      intro w' hk
      by_cases hw' : w' = w
      · subst hw'
        have hk' : some t.taken = some k := (Function.update_self w' _ t.held).symm.trans hk
        cases hk'
        exact Or.inl ⟨rfl, rfl⟩
      · exact Or.inr ⟨hw', (Function.update_of_ne hw' _ t.held).symm.trans hk⟩
    rcases hcase a ha with ⟨hwa, hka⟩ | ⟨-, hta⟩ <;> rcases hcase b hb with ⟨hwb, hkb⟩ | ⟨-, htb⟩
    · rw [hwa, hwb]
    · exact absurd (hka ▸ htb) (hfresh b)
    · exact absurd (hkb ▸ hta) (hfresh a)
    · exact h.unique a b k hta htb

/-- **Finishing the next number keeps it.** -/
theorem finish [DecidableEq W] (h : t.Sound) {w : W} (hw : t.held w = some t.done) : (t.finish w).Sound := by
  have hother : ∀ w' k, (t.finish w).held w' = some k → w' ≠ w ∧ t.held w' = some k := by
    intro w' k hk
    by_cases hw' : w' = w
    · subst hw'
      have hk' : none = some k := (Function.update_self w' _ t.held).symm.trans hk
      cases hk'
    · exact ⟨hw', (Function.update_of_ne hw' _ t.held).symm.trans hk⟩
  refine ⟨(h.bounds w _ hw).2, h.taken_le, ?_, ?_, ?_⟩
  · intro w' k hk
    obtain ⟨hne, hk⟩ := hother w' k hk
    refine ⟨Nat.lt_of_le_of_ne (h.bounds w' k hk).1 ?_, (h.bounds w' k hk).2⟩
    rintro rfl
    exact hne (h.unique w' w _ hk hw)
  · intro k hdone hk
    obtain ⟨w', hw'⟩ := h.holder k (Nat.le_of_succ_le hdone) hk
    refine ⟨w', (Function.update_of_ne ?_ _ t.held).trans hw'⟩
    rintro rfl
    rw [hw] at hw'
    cases hw'
    exact Nat.lt_irrefl _ hdone
  · intro a b k ha hb
    exact h.unique a b k (hother a k ha).2 (hother b k hb).2

/-- **Nobody waits in a circle.**  A worker whose turn it is not waits for another one. -/
theorem front_held (h : t.Sound) {w : W} {k : Nat} (hw : t.held w = some k) (hk : k ≠ t.done) :
    ∃ w', w' ≠ w ∧ t.held w' = some t.done := by
  obtain ⟨hdone, htaken⟩ := h.bounds w k hw
  obtain ⟨w', hw'⟩ := h.holder t.done (Nat.le_refl _) (Nat.lt_of_le_of_lt hdone htaken)
  refine ⟨w', ?_, hw'⟩
  rintro rfl
  rw [hw] at hw'
  cases hw'
  exact hk rfl

end Sound
end Tickets
