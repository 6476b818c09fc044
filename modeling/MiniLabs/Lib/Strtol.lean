/-
  `strtol` in base 10.

  Blanks and a sign may stand in front of the digits; the value is the nearest `long`, and
  `errno` is `ERANGE` if it is not the number itself.  `strtol_iff` is for callers that want the
  whole text to be a number between two bounds: the text is a numeral, or it is empty, which
  counts as 0 because `endptr` is then the end of the text.
-/
import Mathlib.Algebra.Order.Ring.Int
import MiniLabs.Lib.Spans

set_option linter.unusedVariables false

namespace Strtol

open Spans

/-- `isspace`. -/
def isSpace (c : UInt8) : Bool := c == 32 || (9 ≤ c && c ≤ 13)

/-- `isdigit`. -/
def isDigit (c : UInt8) : Bool := 48 ≤ c && c ≤ 57

/-- `LONG_MAX`. -/
def longMax : Int := 2 ^ 63 - 1

/-- `LONG_MIN`. -/
def longMin : Int := -2 ^ 63

/-- The value of a row of digits. -/
def number (ds : List UInt8) : Nat := ds.foldl (fun v c => v * 10 + (c.toNat - 48)) 0

/-- The number of a sign and digits. -/
def signed (sign ds : List UInt8) : Int := if sign = [45] then -(number ds : Int) else number ds

/-- The sign in front. -/
def signAt (s : List UInt8) : List UInt8 :=
  if s.head? = some 43 then [43] else if s.head? = some 45 then [45] else []

/-- The value, the text from `endptr` on, and whether `errno` is `ERANGE`. -/
structure Parsed where
  value : Int
  rest : List UInt8
  erange : Bool
  deriving DecidableEq, Repr

/-- `strtol(s, &end, 10)`. -/
def strtol (s : List UInt8) : Parsed :=
  let t := s.dropWhile isSpace
  let sign := signAt t
  let u := t.drop sign.length
  let ds := u.takeWhile isDigit
  -- without digits nothing is read, not even the blanks
  if ds = [] then ⟨0, s, false⟩
  else
    let n := signed sign ds
    ⟨max (min n longMax) longMin, u.dropWhile isDigit, decide (n < longMin ∨ longMax < n)⟩

/-- A **numeral** for `n`: blanks, a sign or none, and digits. -/
def Numeral (s : List UInt8) (n : Int) : Prop :=
  ∃ blanks sign ds, s = blanks ++ (sign ++ ds) ∧ (∀ c ∈ blanks, isSpace c = true) ∧
    (sign = [] ∨ sign = [43] ∨ sign = [45]) ∧ ds ≠ [] ∧ (∀ c ∈ ds, isDigit c = true) ∧
    n = signed sign ds

/-- A text that **spells** `n`: a numeral, or nothing, which counts as 0. -/
def Spells (s : List UInt8) (n : Int) : Prop := s = [] ∧ n = 0 ∨ Numeral s n

/-- A sign in front is taken off. -/
theorem signAt_split (s : List UInt8) : ∃ t, s = signAt s ++ t ∧
    (signAt s = [] ∨ signAt s = [43] ∨ signAt s = [45]) := by
  cases s with
  | nil => exact ⟨[], rfl, .inl rfl⟩
  | cons c s =>
    by_cases hplus : c = 43
    · subst hplus
      exact ⟨s, rfl, .inr (.inl rfl)⟩
    · by_cases hminus : c = 45
      · subst hminus
        exact ⟨s, rfl, .inr (.inr rfl)⟩
      · have hnone : signAt (c :: s) = [] := by simp [signAt, hplus, hminus]
        rw [hnone]
        exact ⟨c :: s, rfl, .inl rfl⟩

/-- A digit is neither a blank nor a sign. -/
theorem isDigit_plain {c : UInt8} (h : isDigit c = true) :
    isSpace c = false ∧ c ≠ 43 ∧ c ≠ 45 := by
  simp only [isDigit, Bool.and_eq_true, decide_eq_true_eq, UInt8.le_iff_toNat_le,
    UInt8.reduceToNat] at h
  refine ⟨?_, ?_, ?_⟩
  · simp only [isSpace, Bool.or_eq_false_iff, Bool.and_eq_false_iff, decide_eq_false_iff_not,
      beq_eq_false_iff_ne, UInt8.le_iff_toNat_le, ne_eq, ← UInt8.toNat_inj, UInt8.reduceToNat]
    omega
  all_goals
    rintro rfl
    revert h
    decide

/-- A sign and digits behind it. -/
theorem signAt_digits {sign ds : List UInt8} (hsign : sign = [] ∨ sign = [43] ∨ sign = [45])
    (hne : ds ≠ []) (hds : ∀ c ∈ ds, isDigit c = true) :
    signAt (sign ++ ds) = sign ∧ Stops isSpace (sign ++ ds) := by
  obtain rfl | rfl | rfl := hsign
  · obtain ⟨c, ds', rfl⟩ := List.exists_cons_of_ne_nil hne
    obtain ⟨hspace, hplus, hminus⟩ := isDigit_plain (hds c (List.mem_cons_self ..))
    refine ⟨?_, Stops.cons hspace _⟩
    simp [signAt, hplus, hminus]
  · exact ⟨rfl, Stops.cons (by decide) _⟩
  · exact ⟨rfl, Stops.cons (by decide) _⟩

/-- The numerals are what is read to the end, and the value is the nearest `long`. -/
theorem strtol_numeral {s : List UInt8} {n : Int} (h : Numeral s n) :
    strtol s = ⟨max (min n longMax) longMin, [], decide (n < longMin ∨ longMax < n)⟩ := by
  obtain ⟨blanks, sign, ds, rfl, hblanks, hsign, hne, hds, rfl⟩ := h
  obtain ⟨hat, hstops⟩ := signAt_digits hsign hne hds
  have htake : ds.takeWhile isDigit = ds := List.takeWhile_eq_self_iff.mpr hds
  have hdrop : ds.dropWhile isDigit = [] := List.dropWhile_eq_nil_iff.mpr hds
  rw [strtol, dropWhile_span hblanks hstops, hat, List.drop_left, htake, hdrop, if_neg hne]

/-- What is read to the end is a numeral, if it is not empty. -/
theorem numeral_of_rest {s : List UInt8} (hs : s ≠ []) (h : (strtol s).rest = []) :
    ∃ n, Numeral s n := by
  obtain ⟨blanks, t, rfl, hblanks, ht⟩ := exists_span isSpace s
  rw [strtol, dropWhile_span hblanks ht] at h
  obtain ⟨u, hu, hsign⟩ := signAt_split t
  generalize signAt t = sign at *
  subst hu
  rw [List.drop_left] at h
  by_cases hne : u.takeWhile isDigit = []
  · rw [if_pos hne] at h
    exact absurd h hs
  · rw [if_neg hne] at h
    have hds : ∀ c ∈ u, isDigit c = true := List.dropWhile_eq_nil_iff.mp h
    have hu : u ≠ [] := by
      rintro rfl
      exact hne rfl
    exact ⟨_, blanks, sign, u, rfl, hblanks, hsign, hu, hds, rfl⟩

/-- **A whole text as a number between two bounds** that are inside `long`: `ERANGE` need not be
    asked for. -/
theorem strtol_iff {s : List UInt8} {lo hi n : Int} (hlo : longMin < lo) (hhi : hi < longMax) :
    ((strtol s).rest = [] ∧ lo ≤ (strtol s).value ∧ (strtol s).value ≤ hi ∧
      (strtol s).value = n) ↔
    Spells s n ∧ lo ≤ n ∧ n ≤ hi := by
  by_cases hs : s = []
  · subst hs
    have hnone : ¬Numeral [] n := by
      rintro ⟨blanks, sign, ds, heq, -, -, hne, -⟩
      exact hne (List.append_eq_nil_iff.mp (List.append_eq_nil_iff.mp heq.symm).2).2
    have hnil : strtol [] = ⟨0, [], false⟩ := by decide
    rw [hnil]
    constructor
    · rintro ⟨-, hge, hle, rfl⟩
      exact ⟨.inl ⟨rfl, rfl⟩, hge, hle⟩
    · rintro ⟨⟨-, rfl⟩ | h, hge, hle⟩
      · exact ⟨rfl, hge, hle, rfl⟩
      · exact absurd h hnone
  · constructor
    · rintro ⟨hrest, hge, hle, rfl⟩
      obtain ⟨k, hk⟩ := numeral_of_rest hs hrest
      rw [strtol_numeral hk] at hge hle ⊢
      -- strictly inside `long`, the nearest `long` is the number itself
      have hself : max (min k longMax) longMin = k := by
        dsimp only at hge hle
        omega
      exact ⟨.inr (hself.symm ▸ hk), hge, hle⟩
    · rintro ⟨⟨h, -⟩ | hk, hge, hle⟩
      · exact absurd h hs
      · rw [strtol_numeral hk]
        have hself : max (min n longMax) longMin = n := by omega
        dsimp only
        rw [hself]
        exact ⟨rfl, hge, hle, rfl⟩

/-- What is read to the end inside `long` sets no error. -/
theorem erange_of_between {s : List UInt8} (hlo : longMin < (strtol s).value)
    (hhi : (strtol s).value < longMax) (hrest : (strtol s).rest = []) :
    (strtol s).erange = false := by
  by_cases hs : s = []
  · subst hs
    decide
  · obtain ⟨k, hk⟩ := numeral_of_rest hs hrest
    rw [strtol_numeral hk] at hlo hhi ⊢
    dsimp only at hlo hhi ⊢
    exact decide_eq_false (by omega)

end Strtol
