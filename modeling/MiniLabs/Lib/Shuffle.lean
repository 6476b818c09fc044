/-
  Shuffles — the orders in which several threads can take their steps.

  1. **Definition** — `Shuffle ls w` says that `w` takes every element of the lists `ls` once and
     keeps the order of each list.
  2. **What comes of it** — whatever the order, the same elements are taken (`Shuffle.perm`), and
     running the lists one after the other is a shuffle (`Shuffle.flatten`).
-/
import Mathlib.Data.List.Perm.Basic

set_option linter.unusedVariables false

namespace Shuffles

variable {α : Type}

/-- `w` interleaves the lists `ls`. -/
inductive Shuffle : List (List α) → List α → Prop
  | done {ls : List (List α)} (h : ∀ l ∈ ls, l = []) : Shuffle ls []
  | pick {pre post : List (List α)} {l w : List α} (x : α)
      (h : Shuffle (pre ++ l :: post) w) : Shuffle (pre ++ (x :: l) :: post) (x :: w)

/-- A shuffle takes what the lists hold. -/
theorem Shuffle.perm {ls : List (List α)} {w : List α} (h : Shuffle ls w) :
    w.Perm ls.flatten := by
  induction h with
  | done h =>
    rw [List.flatten_eq_nil_iff.mpr h]
  | @pick pre post l w x _ ih =>
    have hmid : (pre ++ (x :: l) :: post).flatten
        = pre.flatten ++ x :: (l ++ post.flatten) := by
      rw [List.flatten_append, List.flatten_cons, List.cons_append]
    have hmid' : (pre ++ l :: post).flatten = pre.flatten ++ (l ++ post.flatten) := by
      rw [List.flatten_append, List.flatten_cons]
    rw [hmid]
    rw [hmid'] at ih
    exact (ih.cons x).trans List.perm_middle.symm

/-- One list after the other. -/
theorem Shuffle.flatten (ls : List (List α)) : Shuffle ls ls.flatten := by
  suffices h : ∀ done : List (List α), (∀ l ∈ done, l = []) → Shuffle (done ++ ls) ls.flatten by
    exact h [] fun l hl => absurd hl List.not_mem_nil
  induction ls with
  | nil =>
    intro done hdone
    rw [List.append_nil]
    exact .done hdone
  | cons l ls ih =>
    intro done hdone
    induction l with
    | nil =>
      have hcut : done ++ [] :: ls = (done ++ [[]]) ++ ls := by simp
      rw [hcut, List.flatten_cons, List.nil_append]
      apply ih _
      intro l hl
      rcases List.mem_append.mp hl with hl | hl
      · exact hdone l hl
      · exact List.mem_singleton.mp hl
    | cons x l ihl => exact .pick x ihl

end Shuffles
