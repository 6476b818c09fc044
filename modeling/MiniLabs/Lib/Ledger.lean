/-
  What is held: resources that are acquired and released one by one.

  1. **Definition** — `Runs b held es held'`: the events `es` lead from holding `held` to holding
     `held'`; nothing is released that is not held, and at no moment are more than `b` held.
  2. **Rules** — runs compose (`Runs.append`), a bound may be raised (`Runs.mono`), and what is
     acquired for a while and released is a round (`Runs.round`, `Runs.two`).
-/
import Mathlib.Data.Multiset.AddSub

set_option linter.unusedVariables false

namespace Ledger

/-- One event. -/
inductive Event (α : Type)
  | acquire (a : α)
  | release (a : α)

variable {α : Type}

/-- The events lead from `held` to `held'`, with at most `b` at any moment. -/
inductive Runs (b : Nat) : Multiset α → List (Event α) → Multiset α → Prop
  | nil {held : Multiset α} (hb : held.card ≤ b) : Runs b held [] held
  | acquire {held held' : Multiset α} {a : α} {es : List (Event α)} (hb : held.card ≤ b)
      (h : Runs b (a ::ₘ held) es held') : Runs b held (.acquire a :: es) held'
  | release {held held' : Multiset α} {a : α} {es : List (Event α)}
      (hb : (a ::ₘ held).card ≤ b) (h : Runs b held es held') :
      Runs b (a ::ₘ held) (.release a :: es) held'

variable {b : Nat} {held held' held'' : Multiset α} {es es' : List (Event α)} {a a' : α}

/-- Events behind one another. -/
theorem Runs.append (h : Runs b held es held') (h' : Runs b held' es' held'') :
    Runs b held (es ++ es') held'' := by
  induction h with
  | nil hb => exact h'
  | acquire hb _ ih => exact .acquire hb (ih h')
  | release hb _ ih => exact .release hb (ih h')

/-- More may be held at a time. -/
theorem Runs.mono {b' : Nat} (h : Runs b held es held') (hb : b ≤ b') : Runs b' held es held' := by
  induction h with
  | nil hcard => exact .nil (hcard.trans hb)
  | acquire hcard _ ih => exact .acquire (hcard.trans hb) ih
  | release hcard _ ih => exact .release (hcard.trans hb) ih

/-- One is acquired. -/
theorem Runs.one (hb : held.card + 1 ≤ b) : Runs b held [.acquire a] (a ::ₘ held) :=
  .acquire (by omega) (.nil (by rwa [Multiset.card_cons]))

/-- One is acquired and released. -/
theorem Runs.round (hb : held.card + 1 ≤ b) :
    Runs b held [.acquire a, .release a] held :=
  .acquire (by omega) (.release (by rwa [Multiset.card_cons]) (.nil (by omega)))

/-- Two are acquired. -/
theorem Runs.two (hb : held.card + 2 ≤ b) :
    Runs b held [.acquire a, .acquire a'] (a' ::ₘ a ::ₘ held) :=
  .acquire (by omega) (.one (by rw [Multiset.card_cons]; omega))

/-- Two are acquired and released. -/
theorem Runs.rounds (hb : held.card + 2 ≤ b) :
    Runs b held [.acquire a, .acquire a', .release a, .release a'] held := by
  refine .acquire (by omega) (.acquire (by rw [Multiset.card_cons]; omega) ?_)
  rw [Multiset.cons_swap]
  refine .release ?_ (.release ?_ (.nil (by omega))) <;> simp only [Multiset.card_cons] <;> omega

end Ledger
