/-
  First come, first served: a list is gone through once.

  1. **Program** — an element is kept unless it clashes with one that was kept before, or there is
     no more room; `select` is the fold, `offer` its step.
  2. **What is kept** — a sublist (`select_sublist`) without a clash (`select_pairwise`), no longer
     than there is room for.
  3. **What is not (`select_complete`)** — it has its reason among the elements before it: a clash,
     or that the room was used up.
-/
import Mathlib.Data.List.Induction

set_option linter.unusedVariables false

namespace Greedy

variable {α : Type} (cap : Nat) (clash : α → α → Bool)

/-- An element is kept if there is room and nothing kept clashes with it. -/
def offer (kept : List α) (x : α) : List α :=
  if decide (kept.length < cap) && ! kept.any (fun y => clash y x) then kept ++ [x] else kept

/-- What is kept of a list. -/
def select (xs : List α) : List α := xs.foldl (offer cap clash) []

/-- The last element is offered to what was kept of the others. -/
theorem select_concat (xs : List α) (x : α) :
    select cap clash (xs ++ [x]) = offer cap clash (select cap clash xs) x := by
  rw [select, List.foldl_append]
  rfl

/-- What was kept stays. -/
theorem offer_grows (kept : List α) (x : α) : kept <+: offer cap clash kept x := by
  rw [offer]
  split
  · exact List.prefix_append _ _
  · exact List.prefix_rfl

/-- What is kept of a first part stays. -/
theorem select_grows (xs ys : List α) : select cap clash xs <+: select cap clash (xs ++ ys) := by
  induction ys using List.reverseRecOn with
  | nil => exact ⟨[], by rw [List.append_nil, List.append_nil]⟩
  | append_singleton ys y ih =>
    rw [← List.append_assoc, select_concat]
    exact List.IsPrefix.trans ih (offer_grows cap clash _ _)

/-- **Sublist.** -/
theorem select_sublist (xs : List α) : (select cap clash xs).Sublist xs := by
  induction xs using List.reverseRecOn with
  | nil => exact List.Sublist.refl _
  | append_singleton xs x ih =>
    rw [select_concat, offer]
    split
    · exact ih.append (List.Sublist.refl _)
    · exact ih.trans (List.sublist_append_left _ _)

/-- No more are kept than there is room for. -/
theorem select_length (xs : List α) : (select cap clash xs).length ≤ cap := by
  induction xs using List.reverseRecOn with
  | nil => exact Nat.zero_le _
  | append_singleton xs x ih =>
    rw [select_concat, offer]
    by_cases h : (decide ((select cap clash xs).length < cap) &&
        ! (select cap clash xs).any fun y => clash y x) = true
    · rw [if_pos h, List.length_append, List.length_singleton]
      exact of_decide_eq_true (Bool.and_eq_true_iff.mp h).1
    · rw [if_neg h]
      exact ih

/-- **No clash.** -/
theorem select_pairwise (xs : List α) :
    (select cap clash xs).Pairwise fun y x => clash y x = false := by
  induction xs using List.reverseRecOn with
  | nil => exact List.Pairwise.nil
  | append_singleton xs x ih =>
    rw [select_concat, offer]
    by_cases h : (decide ((select cap clash xs).length < cap) &&
        ! (select cap clash xs).any fun y => clash y x) = true
    · rw [if_pos h]
      have hany := Bool.not_eq_true' _ ▸ (Bool.and_eq_true_iff.mp h).2
      refine List.pairwise_append.mpr ⟨ih, List.pairwise_singleton _ _, fun y hy z hz => ?_⟩
      rw [List.mem_singleton.mp hz]
      exact Bool.eq_false_iff.mpr (List.any_eq_false.mp hany y hy)
    · rw [if_neg h]
      exact ih

/-- **Completeness.**  The reason is there when the element comes up. -/
theorem select_complete (xs ys : List α) (x : α) :
    x ∈ select cap clash (xs ++ x :: ys) ∨
      (∃ y ∈ select cap clash xs, clash y x = true) ∨ cap ≤ (select cap clash xs).length := by
  by_cases h : (decide ((select cap clash xs).length < cap) &&
      ! (select cap clash xs).any fun y => clash y x) = true
  · refine Or.inl ((List.append_cons xs x ys ▸ select_grows cap clash (xs ++ [x]) ys).subset ?_)
    rw [select_concat, offer, if_pos h]
    exact List.mem_append_right _ (List.mem_singleton.mpr rfl)
  · apply Or.inr
    rw [Bool.and_eq_true, decide_eq_true_iff, Bool.not_eq_true', not_and_or,
      Bool.not_eq_false] at h
    rcases h with hfull | hclash
    · exact Or.inr (Nat.le_of_not_lt hfull)
    · exact Or.inl (List.any_eq_true.mp hclash)

end Greedy
