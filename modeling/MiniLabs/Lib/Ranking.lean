/-
  The first few of a list in an order of rank, by repeated selection.

  `r x y` says that `x` ranks above `y`.  `best` keeps the best member seen so far, `top` takes
  the best again and again.

  For a strict order that is total on the list (`Ranks`), `top` lists the first ones in order
  (`top_pairwise`), as many as there are or as were asked for (`length_top`), and nothing that is
  left out ranks above one that is listed (`top_above`).
-/
import Mathlib.Data.List.Dedup
import Mathlib.Data.List.Induction
import Mathlib.Data.List.Perm.Subperm

set_option linter.unusedVariables false

namespace Ranking

section Defs

variable {α : Type} [DecidableEq α] (r : α → α → Prop) [DecidableRel r]

/-- The better one of the best so far and the next. -/
def better : Option α → α → Option α
  | none, x => some x
  | some b, x => if r x b then some x else some b

/-- The best of a list. -/
def best (xs : List α) : Option α := xs.foldl (better r) none

/-- The best `k` of a list, the best one first. -/
def top : Nat → List α → List α
  | 0, _ => []
  | k + 1, xs =>
    match best r xs with
    | none => []
    | some b => b :: top k (xs.filter (· ≠ b))

end Defs

/-- `r` is a strict order, and total on `xs`. -/
structure Ranks {α : Type} (r : α → α → Prop) (xs : List α) : Prop where
  irrefl : ∀ x, ¬ r x x
  trans : ∀ x y z, r x y → r y z → r x z
  total : ∀ x ∈ xs, ∀ y ∈ xs, x ≠ y → r x y ∨ r y x

/-- A part of the list is ranked as well. -/
theorem Ranks.filter {α : Type} {r : α → α → Prop} {xs : List α} (h : Ranks r xs)
    (q : α → Bool) : Ranks r (xs.filter q) where
  irrefl := h.irrefl
  trans := h.trans
  total := fun x hx y hy =>
    h.total x (List.mem_of_mem_filter hx) y (List.mem_of_mem_filter hy)

section Best

variable {α : Type} {r : α → α → Prop} [DecidableRel r] {xs : List α} {b : α}

/-- There is a best one as soon as there is one. -/
theorem better_ne_none (o : Option α) (x : α) : better r o x ≠ none := by
  cases o with
  | none => exact Option.some_ne_none x
  | some b =>
    rw [better]
    split
    · exact Option.some_ne_none x
    · exact Option.some_ne_none b

/-- A list without a best member is empty. -/
theorem best_none : best r xs = none ↔ xs = [] := by
  constructor
  · intro h
    rcases List.eq_nil_or_concat' xs with hnil | ⟨ys, x, rfl⟩
    · exact hnil
    · rw [best, List.foldl_concat] at h
      exact absurd h (better_ne_none _ x)
  · rintro rfl
    rfl

/-- **The best** is a member, and none ranks above it. -/
theorem best_some (htrans : ∀ x y z, r x y → r y z → r x z) (hirr : ∀ x, ¬ r x x)
    (h : best r xs = some b) : b ∈ xs ∧ ∀ x ∈ xs, ¬ r x b := by
  induction xs using List.reverseRecOn generalizing b with
  | nil => cases h
  | append_singleton ys y ih =>
    rw [best, List.foldl_concat] at h
    cases hbest : best r ys with
    | none =>
      rw [best] at hbest
      rw [hbest] at h
      obtain rfl := Option.some.inj h
      rw [best_none.mp hbest]
      refine ⟨List.mem_singleton_self _, fun x hx => ?_⟩
      rw [List.mem_singleton.mp hx]
      exact hirr y
    | some c =>
      obtain ⟨hc, hmax⟩ := ih hbest
      rw [best] at hbest
      rw [hbest, better] at h
      by_cases hyc : r y c
      · rw [if_pos hyc] at h
        obtain rfl := Option.some.inj h
        refine ⟨List.mem_append_right _ (List.mem_singleton_self _), fun x hx hxy => ?_⟩
        rcases List.mem_append.mp hx with hx | hx
        · exact hmax x hx (htrans _ _ _ hxy hyc)
        · exact hirr y (List.mem_singleton.mp hx ▸ hxy)
      · rw [if_neg hyc] at h
        obtain rfl := Option.some.inj h
        refine ⟨List.mem_append_left _ hc, fun x hx => ?_⟩
        rcases List.mem_append.mp hx with hx | hx
        · exact hmax x hx
        · rw [List.mem_singleton.mp hx]
          exact hyc

end Best

section Top

variable {α : Type} [DecidableEq α] {r : α → α → Prop} [DecidableRel r] {xs : List α} {b : α}
  {k : Nat}

/-- What is selected is on the list. -/
theorem top_subset (k : Nat) (xs : List α) (hr : Ranks r xs) : ∀ x ∈ top r k xs, x ∈ xs := by
  induction k generalizing xs with
  | zero => exact fun x hx => absurd hx List.not_mem_nil
  | succ k ih =>
    intro x hx
    rw [top] at hx
    cases hb : best r xs with
    | none =>
      rw [hb] at hx
      exact absurd hx List.not_mem_nil
    | some b =>
      rw [hb] at hx
      rcases List.mem_cons.mp hx with rfl | hx
      · exact (best_some hr.trans hr.irrefl hb).1
      · exact List.mem_of_mem_filter (ih _ (hr.filter _) x hx)

/-- The best is not listed again. -/
theorem not_mem_top (hr : Ranks r xs) : b ∉ top r k (xs.filter (· ≠ b)) := by
  intro hmem
  have := List.of_mem_filter (top_subset k _ (hr.filter _) b hmem)
  simp at this

/-- **In order.** -/
theorem top_pairwise (k : Nat) (xs : List α) (hr : Ranks r xs) : (top r k xs).Pairwise r := by
  induction k generalizing xs with
  | zero => exact List.Pairwise.nil
  | succ k ih =>
    rw [top]
    cases hb : best r xs with
    | none => exact List.Pairwise.nil
    | some b =>
      obtain ⟨hmem, hmax⟩ := best_some hr.trans hr.irrefl hb
      refine List.pairwise_cons.mpr ⟨fun x hx => ?_, ih _ (hr.filter _)⟩
      have hx' := top_subset k _ (hr.filter _) x hx
      have hxs := List.mem_of_mem_filter hx'
      have hne : b ≠ x := by
        rintro rfl
        exact not_mem_top hr hx
      exact (hr.total b hmem x hxs hne).resolve_right (hmax x hxs)

/-- Nothing is selected twice. -/
theorem top_nodup (hr : Ranks r xs) : (top r k xs).Nodup := by
  apply (top_pairwise k xs hr).imp
  rintro x y hxy rfl
  exact hr.irrefl x hxy

/-- **As many as there are**, or as were asked for. -/
theorem length_top (k : Nat) (xs : List α) (hr : Ranks r xs) (hnd : xs.Nodup) :
    (top r k xs).length = min k xs.length := by
  induction k generalizing xs with
  | zero => rw [Nat.zero_min]; rfl
  | succ k ih =>
    rw [top]
    cases hb : best r xs with
    | none =>
      rw [best_none.mp hb]
      rfl
    | some b =>
      have hmem := (best_some hr.trans hr.irrefl hb).1
      have hrest : xs.filter (· ≠ b) = xs.erase b := by
        rw [hnd.erase_eq_filter]
        apply List.filter_congr
        intro x _
        simp [bne, beq_eq_decide]
      show (top r k (xs.filter (· ≠ b))).length + 1 = _
      rw [ih _ (hr.filter _) (hnd.filter _), hrest, List.length_erase_of_mem hmem]
      have := List.length_pos_of_mem hmem
      omega

/-- **Nothing left out ranks above** what is listed. -/
theorem top_above (k : Nat) (xs : List α) (hr : Ranks r xs) {x y : α} (hx : x ∈ top r k xs)
    (hy : y ∈ xs) (hout : y ∉ top r k xs) : ¬ r y x := by
  induction k generalizing xs with
  | zero => exact absurd hx List.not_mem_nil
  | succ k ih =>
    rw [top] at hx hout
    cases hb : best r xs with
    | none =>
      rw [hb] at hx
      exact absurd hx List.not_mem_nil
    | some b =>
      rw [hb] at hx hout
      obtain ⟨hyb, hout⟩ := not_or.mp (mt List.mem_cons.mpr hout)
      rcases List.mem_cons.mp hx with rfl | hx
      · exact (best_some hr.trans hr.irrefl hb).2 y hy
      · refine ih _ (hr.filter _) hx (List.mem_filter.mpr ⟨hy, ?_⟩) hout
        exact decide_eq_true hyb

end Top

/-- **One selection.**  Two selections of the same size, in order, such that nothing left out
    ranks above what is selected, are the same. -/
theorem selected_unique {α : Type} {r : α → α → Prop} {L L' : List α} (hirr : ∀ x, ¬ r x x)
    (htrans : ∀ x y z, r x y → r y z → r x z) (htotal : ∀ x y, x ≠ y → r x y ∨ r y x)
    (hL : L.Pairwise r) (hL' : L'.Pairwise r) (hlen : L.length = L'.length)
    (habove : ∀ x ∈ L, ∀ y, y ∉ L → ¬ r y x) (habove' : ∀ x ∈ L', ∀ y, y ∉ L' → ¬ r y x) :
    L = L' := by
  have hnd : ∀ {M : List α}, M.Pairwise r → M.Nodup := by
    intro M hM
    apply hM.imp
    rintro x y hxy rfl
    exact hirr x hxy
  have hsub : L ⊆ L' := by
    intro x hx
    by_contra hout
    have hback : ∃ y ∈ L', y ∉ L := by
      by_contra hno
      have hsub : L' ⊆ L := fun y hy => by_contra fun h => hno ⟨y, hy, h⟩
      have hperm := (List.subperm_of_subset (hnd hL') hsub).perm_of_length_le (Nat.le_of_eq hlen)
      exact hout (hperm.mem_iff.mpr hx)
    obtain ⟨y, hy, hyL⟩ := hback
    rcases htotal x y (fun heq => hyL (heq ▸ hx)) with hxy | hyx
    · exact habove' y hy x hout hxy
    · exact habove x hx y hyL hyx
  have hperm := (List.subperm_of_subset (hnd hL) hsub).perm_of_length_le (Nat.le_of_eq hlen.symm)
  refine hperm.eq_of_pairwise ?_ hL hL'
  intro x y _ _ hxy hyx
  exact absurd (htrans x y x hxy hyx) (hirr x)

end Ranking
