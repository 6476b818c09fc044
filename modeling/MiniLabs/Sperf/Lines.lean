/-
  sperf — what becomes of a line of the trace.

  1. **Program** — `parse_elapsed_seconds` looks for the time from the end of the line,
     `parse_syscall_name` for the name from its start.
  2. **Specification (`payload_cannot_fake`)** — a line about a call is read as that call and its
     time, whatever the program under the trace has written between the two; a line about a call
     that is not finished, or about an exit, adds nothing.
  3. **The crux (`findLess_last`)** — the last `<` of a line is the one in front of the time,
     whatever stands before it (`elapsed_last`).
  4. **What is idealised** — `strtod` has the grammar of the C standard, with signs, exponents and
     hexadecimal digits, and its values are exact: it rounds nothing and has no range errors.
-/
import Mathlib.Data.List.GetD
import Mathlib.Tactic.FieldSimp
import Mathlib.Tactic.Ring
import MiniLabs.Lib.Spans
import MiniLabs.Sperf.Code

set_option linter.unusedVariables false

namespace Sperf

open Libc

/-! ## `strtod` -/

/-- A `double`; the finite ones are exact. -/
inductive Double
  | finite (x : Rat)
  | infinity (negative : Bool)
  | nan
  deriving DecidableEq

/-- `-x`. -/
def Double.neg : Double → Double
  | .finite x => .finite (-x)
  | .infinity negative => .infinity !negative
  | .nan => .nan

/-- `x >= 0.0`. -/
def Double.nonneg : Double → Bool
  | .finite x => decide (0 ≤ x)
  | .infinity negative => !negative
  | .nan => false

/-- `isdigit`. -/
def isDigit (c : UInt8) : Bool := 48 ≤ c && c ≤ 57

/-- `isxdigit`. -/
def isXDigit (c : UInt8) : Bool := isDigit c || (65 ≤ c && c ≤ 70) || (97 ≤ c && c ≤ 102)

/-- `tolower`. -/
def lower (c : UInt8) : UInt8 := if 65 ≤ c && c ≤ 90 then c + 32 else c

/-- The value of a digit, also of a hexadecimal one. -/
def digitValue (c : UInt8) : Nat := if isDigit c then c.toNat - 48 else (lower c).toNat - 87

/-- The value of a row of digits. -/
def numberOf (base : Nat) (ds : List UInt8) : Nat :=
  ds.foldl (fun v c => v * base + digitValue c) 0

/-- The sign in front, and its length. -/
def signAt (s : List UInt8) : Bool × Nat :=
  if s.head? = some 45 then (true, 1) else if s.head? = some 43 then (false, 1) else (false, 0)

/-- The exponent in front, and its length; both are 0 if there is none. -/
def exponentAt (mark : UInt8) (s : List UInt8) : Int × Nat :=
  if s.head?.map lower = some mark then
    let sign := signAt s.tail
    let ds := (s.tail.drop sign.2).takeWhile isDigit
    if ds = [] then (0, 0)
    else (if sign.1 then -(numberOf 10 ds : Int) else numberOf 10 ds, 1 + sign.2 + ds.length)
  else (0, 0)

/-- Digits, a point and digits in front: the value and the length; there has to be one digit. -/
def mantissaAt (ok : UInt8 → Bool) (base : Nat) (s : List UInt8) : Option (Rat × Nat) :=
  let whole := s.takeWhile ok
  let rest := s.drop whole.length
  let point := rest.head? == some 46
  let frac := if point then rest.tail.takeWhile ok else []
  if whole.length + frac.length = 0 then none
  else
    some ((numberOf base (whole ++ frac) : Rat) / (base : Rat) ^ frac.length,
      whole.length + if point then 1 + frac.length else 0)

/-- What `strtod` takes behind blanks and a sign. -/
def unsignedAt (s : List UInt8) : Option (Double × Nat) :=
  if (s.take 8).map lower = ascii "infinity" then some (.infinity false, 8)
  else if (s.take 3).map lower = ascii "inf" then some (.infinity false, 3)
  else if (s.take 3).map lower = ascii "nan" then
    let cs := (s.drop 4).takeWhile fun c => isAlnum c || c == 95
    if s[3]? = some 40 ∧ s[4 + cs.length]? = some 41 then some (.nan, 5 + cs.length)
    else some (.nan, 3)
  else
    match if (s.take 2).map lower = ascii "0x" then mantissaAt isXDigit 16 (s.drop 2) else none with
    | some (m, n) =>
      let e := exponentAt 112 (s.drop (2 + n))
      some (.finite (m * 2 ^ e.1), 2 + n + e.2)
    | none =>
      (mantissaAt isDigit 10 s).map fun (m, n) =>
        let e := exponentAt 101 (s.drop n)
        (.finite (m * 10 ^ e.1), n + e.2)

/-- `strtod`: the value, and how far `endptr` lies behind `nptr`. -/
def strtod (s : List UInt8) : Double × Nat :=
  let blanks := (s.takeWhile isSpace).length
  let sign := signAt (s.drop blanks)
  match unsignedAt (s.drop (blanks + sign.2)) with
  | none => (.finite 0, 0)
  | some (x, n) => (if sign.1 then x.neg else x, blanks + sign.2 + n)

/-! ## `parse_elapsed_seconds` -/

/-- The loop that leaves blanks at the end out. -/
def trimEnd (line : List UInt8) : Nat → Nat
  | 0 => 0
  | end_ + 1 => if isSpace (line.getD end_ 0) then trimEnd line end_ else end_ + 1

/-- The loop that goes back to a `<`. -/
def findLess (line : List UInt8) : Nat → Nat
  | 0 => 0
  | start + 1 => if line.getD (start + 1) 0 ≠ 60 then findLess line start else start + 1

/-- The loop that skips blanks, up to `stop`. -/
def skipSpaces (line : List UInt8) (stop parseEnd : Nat) : Nat :=
  parseEnd + (((line.drop parseEnd).take (stop - parseEnd)).takeWhile isSpace).length

/-- `parse_elapsed_seconds`. -/
def parseElapsedSeconds (line : List UInt8) : Option Double :=
  let end_ := trimEnd line line.length
  if end_ = 0 ∨ line.getD (end_ - 1) 0 ≠ 62 then none
  else
    let start := findLess line (end_ - 1)
    if line.getD start 0 ≠ 60 then none
    else
      let seconds := strtod (line.drop (start + 1))
      let parseEnd := skipSpaces line (end_ - 1) (start + 1 + seconds.2)
      if parseEnd = end_ - 1 ∧ seconds.1.nonneg then some seconds.1 else none

/-- What `run_profiler` finds on a line. -/
def parseLine (line : List UInt8) : Option (List UInt8 × Double) :=
  (parseElapsedSeconds line).bind fun seconds =>
    (parseSyscallName line).map fun name => (name, seconds)

/-- The round is one for this line; a line with an infinite time has none. -/
def Round.Reads (r : Round) (line : List UInt8) : Prop :=
  (r.record.map fun record => (record.name, Double.finite record.seconds)) = parseLine line

/-! ## A decimal number -/

/-- A row of digits. -/
def Digits (ds : List UInt8) : Prop := ds ≠ [] ∧ ∀ c ∈ ds, isDigit c = true

instance (ds : List UInt8) : Decidable (Digits ds) := inferInstanceAs (Decidable (_ ∧ _))

/-- The number that `ds.fs` stands for. -/
def decimal (ds fs : List UInt8) : Rat := numberOf 10 ds + numberOf 10 fs / 10 ^ fs.length

/-- More digits behind a number. -/
theorem numberOf_from (base v : Nat) (ds : List UInt8) :
    ds.foldl (fun v c => v * base + digitValue c) v = v * base ^ ds.length + numberOf base ds := by
  induction ds generalizing v with
  | nil => simp [numberOf]
  | cons c ds ih =>
    have hcons : numberOf base (c :: ds) = digitValue c * base ^ ds.length + numberOf base ds := by
      rw [numberOf, List.foldl_cons, ih, Nat.zero_mul, Nat.zero_add]
    rw [List.foldl_cons, ih, hcons, List.length_cons, Nat.pow_succ]
    ring

/-- Digits behind one another. -/
theorem numberOf_append (base : Nat) (ds fs : List UInt8) :
    numberOf base (ds ++ fs) = numberOf base ds * base ^ fs.length + numberOf base fs := by
  rw [numberOf, List.foldl_append, ← numberOf, numberOf_from]

/-- A decimal is a fraction. -/
theorem decimal_eq (ds fs : List UInt8) :
    decimal ds fs = (numberOf 10 (ds ++ fs) : Rat) / ((10 : Nat) : Rat) ^ fs.length := by
  have hpow : (10 : Rat) ^ fs.length ≠ 0 := pow_ne_zero _ (by norm_num)
  rw [decimal, numberOf_append]
  push_cast
  field_simp

/-- A decimal is not negative. -/
theorem decimal_nonneg (ds fs : List UInt8) : 0 ≤ decimal ds fs := by
  rw [decimal_eq]
  positivity

/-- A digit is nothing that `strtod` looks for in front of one. -/
theorem isDigit_plain {c : UInt8} (h : isDigit c = true) :
    lower c = c ∧ isSpace c = false ∧ c ≠ 43 ∧ c ≠ 45 ∧ c ≠ 60 ∧ c ≠ 105 ∧ c ≠ 110 ∧ c ≠ 120 := by
  simp only [isDigit, Bool.and_eq_true, decide_eq_true_eq, UInt8.le_iff_toNat_le,
    UInt8.reduceToNat] at h
  refine ⟨?_, ?_, ?_, ?_, ?_, ?_, ?_, ?_⟩
  · have hnot : (decide (65 ≤ c) && decide (c ≤ 90)) = false := by
      simp only [Bool.and_eq_false_iff, decide_eq_false_iff_not, UInt8.le_iff_toNat_le,
        UInt8.reduceToNat]
      omega
    rw [lower, hnot]
    rfl
  · simp only [isSpace, Bool.or_eq_false_iff, Bool.and_eq_false_iff, decide_eq_false_iff_not,
      beq_eq_false_iff_ne, UInt8.le_iff_toNat_le, ne_eq, ← UInt8.toNat_inj, UInt8.reduceToNat]
    omega
  all_goals
    rintro rfl
    revert h
    decide

/-- A mantissa in decimal notation. -/
theorem mantissaAt_decimal {ds fs : List UInt8} (hds : Digits ds) (hfs : Digits fs)
    (rest : List UInt8) :
    mantissaAt isDigit 10 (ds ++ 46 :: (fs ++ 62 :: rest)) =
      some (decimal ds fs, ds.length + 1 + fs.length) := by
  have hlen : ds.length ≠ 0 := fun h => hds.1 (List.eq_nil_of_length_eq_zero h)
  have hfrac : (fs ++ 62 :: rest).takeWhile isDigit = fs :=
    Spans.takeWhile_span hfs.2 (Spans.Stops.cons rfl rest)
  rw [mantissaAt, Spans.takeWhile_span hds.2 (Spans.Stops.cons rfl _), List.drop_left]
  simp only [List.head?_cons, BEq.rfl, if_true, List.tail_cons, hfrac]
  rw [if_neg (by omega), decimal_eq, Nat.add_assoc]

/-- `strtod` on a decimal number, up to a `>`. -/
theorem strtod_decimal {ds fs : List UInt8} (hds : Digits ds) (hfs : Digits fs)
    (rest : List UInt8) :
    strtod (ds ++ 46 :: (fs ++ 62 :: rest)) = (.finite (decimal ds fs), ds.length + 1 + fs.length) := by
  have hmantissa := mantissaAt_decimal hds hfs rest
  have hdrop : (ds ++ 46 :: (fs ++ 62 :: rest)).drop (ds.length + 1 + fs.length) = 62 :: rest := by
    have happend : ds ++ 46 :: (fs ++ 62 :: rest) = (ds ++ 46 :: fs) ++ 62 :: rest := by simp
    have hlength : ds.length + 1 + fs.length = (ds ++ 46 :: fs).length := by
      rw [List.length_append, List.length_cons]
      omega
    rw [happend, hlength, List.drop_left]
  obtain ⟨c, ds', rfl⟩ := List.exists_cons_of_ne_nil hds.1
  obtain ⟨hlower, hspace, hplus, hminus, -, hi, hn, -⟩ :=
    isDigit_plain (hds.2 c (List.mem_cons_self ..))
  -- the character behind the first is a digit or the point, not an `x`
  have hx : ((c :: ds' ++ 46 :: (fs ++ 62 :: rest)).take 2).map lower ≠ ascii "0x" := by
    intro h
    cases ds' with
    | nil => simp [ascii, lower] at h
    | cons c' ds' =>
      obtain ⟨hlower', -, -, -, -, -, -, hx'⟩ :=
        isDigit_plain (hds.2 c' (List.mem_cons_of_mem c (List.mem_cons_self ..)))
      simp [ascii, hlower'] at h
      exact hx' h.2
  have hunsigned : unsignedAt (c :: ds' ++ 46 :: (fs ++ 62 :: rest)) =
      some (.finite (decimal (c :: ds') fs), (c :: ds').length + 1 + fs.length) := by
    have hexponent : exponentAt 101 (62 :: rest) = (0, 0) := rfl
    rw [unsignedAt, if_neg (by simp [ascii, hlower, hi]), if_neg (by simp [ascii, hlower, hi]),
      if_neg (by simp [ascii, hlower, hn]), if_neg hx, hmantissa]
    simp only [Option.map_some, hdrop, hexponent, zpow_zero, mul_one, Nat.add_zero]
  have hblanks : (c :: ds' ++ 46 :: (fs ++ 62 :: rest)).takeWhile isSpace = [] := by
    rw [List.cons_append, List.takeWhile_cons_of_neg (by rw [hspace]; decide)]
  have hsign : signAt (c :: ds' ++ 46 :: (fs ++ 62 :: rest)) = (false, 0) := by
    simp [signAt, hplus, hminus]
  rw [strtod, hblanks]
  simp only [List.length_nil, List.drop_zero, hsign, Nat.add_zero, hunsigned, Nat.zero_add]
  rfl

/-! ## The end of a line -/

/-- The character between two parts. -/
theorem getD_append (pre : List UInt8) (c : UInt8) (rest : List UInt8) :
    (pre ++ c :: rest).getD pre.length 0 = c := by
  rw [List.getD_append_right _ _ _ _ (Nat.le_refl _), Nat.sub_self]
  rfl

/-- Blanks at the end are left out. -/
theorem trimEnd_blank (line pre : List UInt8) {c : UInt8} {blanks : List UInt8}
    (hline : line = pre ++ c :: blanks) (hc : isSpace c = false)
    (hblanks : ∀ x ∈ blanks, isSpace x = true) : trimEnd line line.length = pre.length + 1 := by
  have hloop : ∀ k, k ≤ blanks.length → trimEnd line (pre.length + 1 + k) = pre.length + 1 := by
    intro k hk
    induction k with
    | zero =>
      rw [Nat.add_zero, trimEnd, hline, getD_append, hc]
      rfl
    | succ k ih =>
      have hget : line.getD (pre.length + 1 + k) 0 = blanks[k] := by
        rw [hline, List.getD_append_right _ _ _ _ (by omega)]
        have hindex : pre.length + 1 + k - pre.length = k + 1 := by omega
        rw [hindex, List.getD_cons_succ, List.getD_eq_getElem _ _ hk]
      rw [← Nat.add_assoc, trimEnd, hget, hblanks _ (List.getElem_mem _), if_pos rfl,
        ih (Nat.le_of_succ_le hk)]
  have hlength : line.length = pre.length + 1 + blanks.length := by
    rw [hline, List.length_append, List.length_cons]
    omega
  rw [hlength]
  exact hloop _ (Nat.le_refl _)

/-- **The last `<`** is the one with none behind it, whatever stands before it. -/
theorem findLess_last (line pre : List UInt8) {mid rest : List UInt8}
    (hline : line = pre ++ 60 :: (mid ++ rest)) (hmid : 60 ∉ mid) :
    findLess line (pre.length + mid.length) = pre.length := by
  have hloop : ∀ k, k ≤ mid.length → findLess line (pre.length + k) = pre.length := by
    intro k hk
    induction k with
    | zero =>
      cases hpre : pre.length with
      | zero => rfl
      | succ n =>
        have hget : line.getD (n + 1) 0 = 60 := by
          rw [hline, ← hpre, getD_append]
        rw [Nat.add_zero, findLess, hget, if_neg (by simp)]
    | succ k ih =>
      have hget : line.getD (pre.length + k + 1) 0 = mid[k] := by
        rw [hline, List.getD_append_right _ _ _ _ (by omega)]
        have hindex : pre.length + k + 1 - pre.length = k + 1 := by omega
        rw [hindex, List.getD_cons_succ, List.getD_append _ _ _ _ hk, List.getD_eq_getElem _ _ hk]
      have hne : line.getD (pre.length + k + 1) 0 ≠ 60 := by
        rw [hget]
        exact fun h => hmid (h ▸ List.getElem_mem hk)
      rw [← Nat.add_assoc, findLess, if_pos hne, ih (Nat.le_of_succ_le hk)]
  exact hloop _ (Nat.le_refl _)

/-- On a line that ends in `<mid>`, the time is what `strtod` makes of `mid`, if that is all of
    it. -/
theorem elapsed_last (pre : List UInt8) {mid : List UInt8} (hmid : 60 ∉ mid) :
    parseElapsedSeconds (pre ++ 60 :: (mid ++ [62, 10])) =
      let seconds := strtod (mid ++ [62, 10])
      let parseEnd := skipSpaces (pre ++ 60 :: (mid ++ [62, 10])) (pre.length + 1 + mid.length)
        (pre.length + 1 + seconds.2)
      if parseEnd = pre.length + 1 + mid.length ∧ seconds.1.nonneg then some seconds.1 else none := by
  have hend : trimEnd (pre ++ 60 :: (mid ++ [62, 10])) (pre ++ 60 :: (mid ++ [62, 10])).length =
      pre.length + 1 + mid.length + 1 := by
    have hline : pre ++ 60 :: (mid ++ [62, 10]) = (pre ++ 60 :: mid) ++ 62 :: [10] := by simp
    rw [trimEnd_blank _ _ hline rfl (List.forall_mem_singleton.mpr rfl), List.length_append, List.length_cons]
    omega
  have hlast : (pre ++ 60 :: (mid ++ [62, 10])).getD (pre.length + 1 + mid.length) 0 = 62 := by
    have hline : pre ++ 60 :: (mid ++ [62, 10]) = (pre ++ 60 :: mid) ++ 62 :: [10] := by simp
    have hlength : pre.length + 1 + mid.length = (pre ++ 60 :: mid).length := by
      rw [List.length_append, List.length_cons]
      omega
    rw [hline, hlength, getD_append]
  have hstart : findLess (pre ++ 60 :: (mid ++ [62, 10])) (pre.length + 1 + mid.length) =
      pre.length := by
    have hline : pre ++ 60 :: (mid ++ [62, 10]) = pre ++ 60 :: ((mid ++ [62]) ++ [10]) := by simp
    have hlength : pre.length + 1 + mid.length = pre.length + (mid ++ [62]).length := by
      rw [List.length_append, List.length_singleton]
      omega
    rw [hlength]
    exact findLess_last _ pre hline (by simpa using hmid)
  have hdrop : (pre ++ 60 :: (mid ++ [62, 10])).drop (pre.length + 1) = mid ++ [62, 10] := by
    rw [← List.drop_drop, List.drop_left, List.drop_one, List.tail_cons]
  rw [parseElapsedSeconds]
  dsimp only
  rw [hend, Nat.add_sub_cancel, hlast, if_neg (by simp), hstart, getD_append, if_neg (by simp),
    hdrop]

/-- At the end there is nothing to skip. -/
theorem skipSpaces_stop (line : List UInt8) (stop : Nat) : skipSpaces line stop stop = stop := by
  rw [skipSpaces, Nat.sub_self]
  rfl

/-- **The time on a line is read exactly**, whatever stands before its `<`. -/
theorem elapsed_decimal (pre : List UInt8) {ds fs : List UInt8} (hds : Digits ds) (hfs : Digits fs) :
    parseElapsedSeconds (pre ++ 60 :: (ds ++ 46 :: fs ++ [62, 10])) =
      some (.finite (decimal ds fs)) := by
  have hmid : 60 ∉ ds ++ 46 :: fs := by
    intro h
    rcases List.mem_append.mp h with h | h
    · exact (isDigit_plain (hds.2 _ h)).2.2.2.2.1 rfl
    · rcases List.mem_cons.mp h with h | h
      · exact absurd h (by decide)
      · exact (isDigit_plain (hfs.2 _ h)).2.2.2.2.1 rfl
  have hstrtod : strtod (ds ++ 46 :: fs ++ [62, 10]) =
      (.finite (decimal ds fs), (ds ++ 46 :: fs).length) := by
    have hline : ds ++ 46 :: fs ++ [62, 10] = ds ++ 46 :: (fs ++ 62 :: [10]) := by simp
    rw [hline, strtod_decimal hds hfs, List.length_append, List.length_cons]
    congr 1
    omega
  rw [elapsed_last pre hmid]
  dsimp only
  rw [hstrtod, skipSpaces_stop, if_pos ⟨rfl, decide_eq_true (decimal_nonneg ds fs)⟩]

/-- A line that ends in `<unfinished ...>` has no time. -/
theorem elapsed_unfinished (pre : List UInt8) :
    parseElapsedSeconds (pre ++ 60 :: (ascii "unfinished ..." ++ [62, 10])) = none := by
  have hstrtod : strtod (ascii "unfinished ..." ++ [62, 10]) = (.finite 0, 0) := by decide
  -- `strtod` takes nothing, and the text it has left begins with no blank
  have hskip : skipSpaces (pre ++ 60 :: (ascii "unfinished ..." ++ [62, 10]))
      (pre.length + 1 + (ascii "unfinished ...").length) (pre.length + 1) = pre.length + 1 := by
    rw [skipSpaces, ← List.drop_drop, List.drop_left, List.drop_one, List.tail_cons,
      Nat.add_sub_cancel_left]
    rfl
  rw [elapsed_last pre (by decide)]
  dsimp only
  rw [hstrtod, Nat.add_zero, hskip, if_neg]
  rintro ⟨hparse, -⟩
  simp [ascii] at hparse

/-- A line that ends in `+++` has no time. -/
theorem elapsed_plus (pre : List UInt8) : parseElapsedSeconds (pre ++ [43, 10]) = none := by
  have hend : trimEnd (pre ++ [43, 10]) (pre ++ [43, 10]).length = pre.length + 1 :=
    trimEnd_blank _ pre rfl rfl (List.forall_mem_singleton.mpr rfl)
  rw [parseElapsedSeconds]
  dsimp only
  rw [hend, Nat.add_sub_cancel, getD_append, if_pos (.inr (by decide))]

/-! ## Its start -/

/-- The name of a system call: a letter or `_`, then letters, digits and `_`. -/
structure SyscallName (s : List UInt8) : Prop where
  head : s.head?.any (fun c => isAlpha c || c == 95) = true
  word : ∀ c ∈ s, (isAlnum c || c == 95) = true
  short : s.length < nameLen

/-- The whole name is copied, if it fits. -/
theorem copyName_all {ok : UInt8 → Bool} {name s rest : List UInt8} {c : UInt8}
    (hs : ∀ x ∈ s, ok x = true) (hc : ok c = false) (hshort : name.length + s.length < nameLen) :
    copyName ok name (s ++ c :: rest) = (name ++ s, c :: rest) := by
  induction s generalizing name with
  | nil =>
    rw [List.nil_append, copyName, hc, List.append_nil]
    rfl
  | cons x s ih =>
    rw [List.length_cons] at hshort
    rw [List.cons_append, copyName, if_pos (hs x (List.mem_cons_self ..)), if_pos (by omega),
      ih (fun y hy => hs y (List.mem_cons_of_mem x hy)), List.append_assoc]
    · rfl
    · rw [List.length_append, List.length_singleton]
      omega

/-- A name is not empty. -/
theorem SyscallName.pos {s : List UInt8} (h : SyscallName s) : 0 < s.length := by
  cases s with
  | nil => exact absurd h.head (by simp)
  | cons c s => exact Nat.succ_pos _

/-- **The name in front of a `(`** is read in full. -/
theorem parseSyscallName_call {s : List UInt8} (hs : SyscallName s) (rest : List UInt8) :
    parseSyscallName (s ++ 40 :: rest) = some s := by
  have hcopy : copyName (fun c => isAlnum c || c == 95) [] (s ++ 40 :: rest) = (s, 40 :: rest) :=
    copyName_all hs.word (by decide) (by simpa using hs.short)
  obtain ⟨c, s', rfl⟩ := List.exists_cons_of_ne_nil (List.ne_nil_of_length_pos hs.pos)
  have hhead := hs.head
  have hless : ((c :: s') ++ 40 :: rest).take 5 ≠ ascii "<... " := by
    intro h
    rw [(List.cons.inj h).1, List.head?_cons] at hhead
    exact absurd hhead (by decide)
  have hfirst : ((c :: s') ++ 40 :: rest).head?.any (fun c => isAlpha c || c == 95) = true := hhead
  rw [parseSyscallName, if_neg hless, hfirst, hcopy, if_neg (by decide)]
  exact if_neg (not_or.mpr ⟨fun hne => hne rfl, Nat.succ_ne_zero _⟩)

/-- The characters of a name end no word. -/
theorem word_plain {c : UInt8} (h : (isAlnum c || c == 95) = true) :
    (c != 0 && !isSpace c && c != 62) = true := by
  simp only [isAlnum, isAlpha, Bool.or_eq_true, Bool.and_eq_true, decide_eq_true_eq, beq_iff_eq,
    UInt8.le_iff_toNat_le, ← UInt8.toNat_inj, UInt8.reduceToNat] at h
  simp only [isSpace, Bool.and_eq_true, bne_iff_ne, ne_eq, Bool.not_eq_true', Bool.or_eq_false_iff,
    Bool.and_eq_false_iff, decide_eq_false_iff_not, beq_eq_false_iff_ne, UInt8.le_iff_toNat_le,
    ← UInt8.toNat_inj, UInt8.reduceToNat]
  omega

/-- **The name behind `<... `** is read up to the next blank. -/
theorem parseSyscallName_resumed {s : List UInt8} (hs : SyscallName s) (rest : List UInt8) :
    parseSyscallName (ascii "<... " ++ (s ++ 32 :: rest)) = some s := by
  have hcopy : copyName (fun c => c != 0 && !isSpace c && c != 62) [] (s ++ 32 :: rest) =
      (s, 32 :: rest) :=
    copyName_all (fun c hc => word_plain (hs.word c hc)) (by decide) (by simpa using hs.short)
  have htake : (ascii "<... " ++ (s ++ 32 :: rest)).take 5 = ascii "<... " := List.take_left' rfl
  have hdrop : (ascii "<... " ++ (s ++ 32 :: rest)).drop 5 = s ++ 32 :: rest := List.drop_left' rfl
  rw [parseSyscallName, if_pos htake, hdrop, hcopy]
  exact if_pos hs.pos

/-! ## The lines of a trace -/

/-- What a program can have written: bytes without NUL and newline. -/
def Text (p : List UInt8) : Prop := ∀ c ∈ p, c ≠ 0 ∧ c ≠ 10

/-- A call on one line, with its time. -/
def callLine (s p d : List UInt8) : List UInt8 :=
  s ++ ascii "(" ++ p ++ ascii " <" ++ d ++ ascii ">\n"

/-- The second half of a call, with its time. -/
def resumedLine (s p d : List UInt8) : List UInt8 :=
  ascii "<... " ++ s ++ ascii " resumed>" ++ p ++ ascii " <" ++ d ++ ascii ">\n"

/-- The first half of a call. -/
def unfinishedLine (s p : List UInt8) : List UInt8 :=
  s ++ ascii "(" ++ p ++ ascii " <unfinished ...>\n"

/-- The end of a process. -/
def exitLine (p : List UInt8) : List UInt8 := ascii "+++ " ++ p ++ ascii " +++\n"

/-- The time of a call. -/
theorem elapsed_callLine (s p : List UInt8) {ds fs : List UInt8} (hds : Digits ds)
    (hfs : Digits fs) :
    parseElapsedSeconds (callLine s p (ds ++ 46 :: fs)) = some (.finite (decimal ds fs)) := by
  have hline : callLine s p (ds ++ 46 :: fs) =
      (s ++ ascii "(" ++ p ++ [32]) ++ 60 :: (ds ++ 46 :: fs ++ [62, 10]) := by
    simp [callLine, ascii]
  rw [hline, elapsed_decimal _ hds hfs]

/-- The time of a call that was resumed. -/
theorem elapsed_resumedLine (s p : List UInt8) {ds fs : List UInt8} (hds : Digits ds)
    (hfs : Digits fs) :
    parseElapsedSeconds (resumedLine s p (ds ++ 46 :: fs)) = some (.finite (decimal ds fs)) := by
  have hline : resumedLine s p (ds ++ 46 :: fs) =
      (ascii "<... " ++ s ++ ascii " resumed>" ++ p ++ [32]) ++
        60 :: (ds ++ 46 :: fs ++ [62, 10]) := by
    simp [resumedLine, ascii]
  rw [hline, elapsed_decimal _ hds hfs]

/-- The name of a call. -/
theorem parseSyscallName_callLine {s : List UInt8} (hs : SyscallName s) (p d : List UInt8) :
    parseSyscallName (callLine s p d) = some s := by
  have hline : callLine s p d = s ++ 40 :: (p ++ ascii " <" ++ d ++ ascii ">\n") := by
    simp [callLine, ascii]
  rw [hline, parseSyscallName_call hs]

/-- The name of a call that was resumed. -/
theorem parseSyscallName_resumedLine {s : List UInt8} (hs : SyscallName s) (p d : List UInt8) :
    parseSyscallName (resumedLine s p d) = some s := by
  have hline : resumedLine s p d =
      ascii "<... " ++ (s ++ 32 :: (ascii "resumed>" ++ p ++ ascii " <" ++ d ++ ascii ">\n")) := by
    simp [resumedLine, ascii]
  rw [hline, parseSyscallName_resumed hs]

/-- A call that is not finished is no record. -/
theorem parseLine_unfinished (s p : List UInt8) : parseLine (unfinishedLine s p) = none := by
  have hline : unfinishedLine s p =
      (s ++ ascii "(" ++ p ++ [32]) ++ 60 :: (ascii "unfinished ..." ++ [62, 10]) := by
    simp [unfinishedLine, ascii]
  rw [parseLine, hline, elapsed_unfinished]
  rfl

/-- An exit is no record. -/
theorem parseLine_exit (p : List UInt8) : parseLine (exitLine p) = none := by
  have hline : exitLine p = (ascii "+++ " ++ p ++ ascii " ++") ++ [43, 10] := by
    simp [exitLine, ascii]
  rw [parseLine, hline, elapsed_plus]
  rfl

/-- A line without a record adds nothing. -/
theorem Round.Reads.add_none {r : Round} {line : List UInt8} (hr : r.Reads line)
    (hline : parseLine line = none) (q : Profiler) : q.add r = q := by
  have hrecord : r.record = none := by
    rw [Round.Reads, hline] at hr
    exact Option.map_eq_none_iff.mp hr
  rw [Profiler.add, hrecord]

/-- **Payload cannot fake a measurement**: whatever text stands between them, the name and the
    time of a line are read exactly; a line of another shape adds nothing. -/
theorem payload_cannot_fake {s p ds fs : List UInt8} (hs : SyscallName s) (hp : Text p)
    (hds : Digits ds) (hfs : Digits fs) :
    (parseElapsedSeconds (callLine s p (ds ++ 46 :: fs)) = some (.finite (decimal ds fs)) ∧
      parseSyscallName (callLine s p (ds ++ 46 :: fs)) = some s) ∧
    (parseElapsedSeconds (resumedLine s p (ds ++ 46 :: fs)) = some (.finite (decimal ds fs)) ∧
      parseSyscallName (resumedLine s p (ds ++ 46 :: fs)) = some s) ∧
    (∀ (q : Profiler) (r : Round), r.Reads (unfinishedLine s p) → q.add r = q) ∧
    (∀ (q : Profiler) (r : Round), r.Reads (exitLine p) → q.add r = q) :=
  ⟨⟨elapsed_callLine s p hds hfs, parseSyscallName_callLine hs p _⟩,
    ⟨elapsed_resumedLine s p hds hfs, parseSyscallName_resumedLine hs p _⟩,
    fun q r hr => hr.add_none (parseLine_unfinished s p) q,
    fun q r hr => hr.add_none (parseLine_exit p) q⟩

/-- A `write` whose data look like a time. -/
theorem payload_cannot_fake_write :
    parseElapsedSeconds (callLine (ascii "write") (ascii "1, <999.000000>)") (ascii "0.009")) =
      some (.finite (decimal (ascii "0") (ascii "009"))) := by
  have hs : SyscallName (ascii "write") := ⟨rfl, List.all_eq_true.mp rfl, by decide⟩
  have hp : Text (ascii "1, <999.000000>)") := by simp [Text, ascii]
  have hds : Digits (ascii "0") := ⟨nofun, List.all_eq_true.mp rfl⟩
  have hfs : Digits (ascii "009") := ⟨nofun, List.all_eq_true.mp rfl⟩
  exact (payload_cannot_fake hs hp hds hfs).1.1

end Sperf
