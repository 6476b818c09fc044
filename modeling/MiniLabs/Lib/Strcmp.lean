/-
  `strcmp` on the bytes of two strings.

  1. **Program** — the first two bytes that differ decide, as `unsigned char`, and a string that
     ends comes first.  The C library promises the sign of the result only; here it is -1, 0 or 1.
  2. **Specification** — it compares as lists are compared: `strcmp_le_iff`, `strcmp_lt_iff`, and
     equality in `strcmp_eq_iff`.
  3. **What is idealised** — a string is the list of its bytes, without the NUL behind them.
-/

set_option linter.unusedVariables false

namespace Libc

/-- `strcmp`. -/
def strcmp : List UInt8 → List UInt8 → Int
  | [], [] => 0
  | [], _ :: _ => -1
  | _ :: _, [] => 1
  | x :: a, y :: b => if x = y then strcmp a b else if x < y then -1 else 1

/-- `strcmp` compares as lists are compared. -/
theorem strcmp_le_iff (a b : List UInt8) : strcmp a b ≤ 0 ↔ ¬ b < a := by
  induction a generalizing b with
  | nil =>
    cases b with
    | nil => simp [strcmp]
    | cons y b => simp [strcmp]
  | cons x a ih =>
    cases b with
    | nil => simp [strcmp]
    | cons y b =>
      rw [strcmp, List.cons_lt_cons_iff]
      by_cases hxy : x = y
      · rw [if_pos hxy, ih, hxy]
        simp
      · rw [if_neg hxy]
        by_cases hlt : x < y
        · rw [if_pos hlt]
          have hnot : ¬ y < x := UInt8.lt_asymm hlt
          simp [hnot, Ne.symm hxy]
        · rw [if_neg hlt]
          have hyx : y < x := UInt8.lt_of_le_of_ne (UInt8.not_lt.mp hlt) (Ne.symm hxy)
          simp [hyx]

/-- It is 0 for equal strings only. -/
theorem strcmp_eq_iff (a b : List UInt8) : strcmp a b = 0 ↔ a = b := by
  induction a generalizing b with
  | nil => cases b <;> simp [strcmp]
  | cons x a ih =>
    cases b with
    | nil => simp [strcmp]
    | cons y b =>
      rw [strcmp, List.cons.injEq]
      by_cases hxy : x = y
      · rw [if_pos hxy, ih]
        simp [hxy]
      · rw [if_neg hxy]
        by_cases hlt : x < y
        · simp [hlt, hxy]
        · simp [hlt, hxy]

/-- It is negative when the first string comes first. -/
theorem strcmp_lt_iff (a b : List UInt8) : strcmp a b < 0 ↔ a < b := by
  constructor
  · intro h
    have hle : ¬ b < a := (strcmp_le_iff a b).mp (Int.le_of_lt h)
    have hne : a ≠ b := fun heq => absurd ((strcmp_eq_iff a b).mpr heq) (Int.ne_of_lt h)
    by_cases hlt : a < b
    · exact hlt
    · exact absurd (List.le_antisymm hle hlt) hne
  · intro h
    have hle : strcmp a b ≤ 0 := (strcmp_le_iff a b).mpr (List.lt_asymm h)
    have hne : strcmp a b ≠ 0 := by
      intro heq
      rw [(strcmp_eq_iff a b).mp heq] at h
      exact List.lt_irrefl _ h
    omega

end Libc
