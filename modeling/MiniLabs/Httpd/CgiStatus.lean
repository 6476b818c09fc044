/-
  httpd — the status a CGI asks for, and what becomes of its output.

  1. **Program** — `parse_cgi_status` looks for a number behind `Status:` or behind the first space
     of an output that begins with `HTTP/1.`, and neither search ends with the line.  It is given a
     C string: what is behind a NUL in the output it never sees (`run_cgi` passes the buffer on).

  2. **Specification** — the line alone asks for `announced (firstLine o)`, the exact value of the
     number that stands on it.  `status_line_iff`: the two agree unless the output `Strays`, which
     is that the number met first is on a later line or too large for `atoi`.

  3. **The crux (`parseCgiStatus_eq`)** — the code has the status at `numberPlace o`, wherever in
     the output this is; `numberAt` is its value, and `asInt` what `atoi` makes of a value.

  4. **What is sent (`cgi_output_iff`)** — `run_cgi` returns 500 for its own failures, and
     `handle_request` takes every 500 for one, so an output is sent unless the number at its place
     is 500.
-/
import Mathlib.Data.List.DropRight
import Mathlib.Data.List.TakeWhile
import MiniLabs.Httpd.Strings

set_option linter.unusedVariables false

namespace Httpd

/-! ## Numbers in a text -/

/-- The value of the digits in front. -/
def digitsAt (s : Bytes) : Nat :=
  (s.takeWhile isDigit).foldl (fun v c => v * 10 + (c.toNat - 48)) 0

/-- The number in front: a sign, digits; 0 if there are no digits. -/
def signedAt (s : Bytes) : Int :=
  if s.head? = some 45 then -(digitsAt s.tail)
  else if s.head? = some 43 then digitsAt s.tail
  else digitsAt s

/-- The number behind blanks. -/
def numberAt (s : Bytes) : Int := signedAt (s.dropWhile isSpace)

/-- A number as `strtol` and then the conversion to `int` leave it. -/
def asInt (n : Int) : Int := (max (min n (2 ^ 63 - 1)) (-2 ^ 63)).bmod (2 ^ 32)

/-- `atoi` reads the number in front and makes an `int` of it. -/
theorem atoi_eq (s : Bytes) : atoi s = asInt (numberAt s) := by
  rw [atoi, numberAt, asInt, signedAt]
  generalize s.dropWhile isSpace = t
  by_cases hminus : t.head? = some 45
  · rw [if_pos hminus, if_pos hminus, if_pos (Or.inl hminus)]
    show (max (-(digitsAt t.tail : Int)) (-2 ^ 63)).bmod (2 ^ 32) = _
    congr 1
    omega
  · rw [if_neg hminus, if_neg hminus]
    by_cases hplus : t.head? = some 43
    · rw [if_pos hplus, if_pos (Or.inr hplus)]
      show (min (digitsAt t.tail : Int) (2 ^ 63 - 1)).bmod (2 ^ 32) = _
      congr 1
      omega
    · rw [if_neg hplus, if_neg (not_or.mpr ⟨hminus, hplus⟩)]
      show (min (digitsAt t : Int) (2 ^ 63 - 1)).bmod (2 ^ 32) = _
      congr 1
      omega

/-- A status fits into an `int`. -/
theorem asInt_small {n : Int} (h : 0 ≤ n) (h' : n < 1000) : asInt n = n := by
  have hclamp : max (min n (2 ^ 63 - 1)) (-2 ^ 63) = n := by omega
  rw [asInt, hclamp, Int.bmod_def]
  omega

/-- Where no digits stand the number is 0. -/
theorem numberAt_nil : numberAt [] = 0 := rfl

/-- The digits end where something else begins. -/
theorem digitsAt_append (s : Bytes) {rest : Bytes}
    (hrest : ∀ x, rest.head? = some x → isDigit x = false) : digitsAt (s ++ rest) = digitsAt s := by
  have htake : (s ++ rest).takeWhile isDigit = s.takeWhile isDigit := by
    rw [List.takeWhile_append, Spans.takeWhile_stops hrest, List.append_nil]
    split
    · rename_i hall
      exact (List.IsPrefix.eq_of_length (List.takeWhile_prefix _) hall).symm
    · rfl
  rw [digitsAt, digitsAt, htake]

/-- A number that begins in front of a line break ends in front of it. -/
theorem numberAt_append {c : UInt8} (hc : isSpace c = false) (s : Bytes) {rest : Bytes}
    (hrest : ∀ x, rest.head? = some x → isDigit x = false) :
    numberAt (c :: s ++ rest) = numberAt (c :: s) := by
  have hdrop : ∀ t : Bytes, (c :: t).dropWhile isSpace = c :: t :=
    fun t => List.dropWhile_cons_of_neg (by rw [hc]; decide)
  have hcons : ∀ t : Bytes, signedAt (c :: t) = (if c = 45 then -(digitsAt t : Int)
      else if c = 43 then (digitsAt t : Int) else (digitsAt (c :: t) : Int)) := by
    intro t
    rw [signedAt]
    simp only [List.head?_cons, Option.some.injEq, List.tail_cons]
  have hwhole := digitsAt_append (c :: s) hrest
  rw [List.cons_append] at hwhole ⊢
  rw [numberAt, numberAt, hdrop, hdrop, hcons, hcons, digitsAt_append s hrest, hwhole]

/-! ## Where the number stands -/

/-- The first line of an output. -/
def firstLine (o : Bytes) : Bytes := o.takeWhile (· ≠ 10)

/-- Where the number of a status line stands: at the first digit of a line that begins with
    `Status:`, behind the first space of a line that begins with `HTTP/1.`. -/
def numberPlace (line : Bytes) : Bytes :=
  if startsWith line "Status:" then line.dropWhile fun c => !isDigit c
  else if startsWith line "HTTP/1." then (line.dropWhile (· ≠ 32)).tail.dropWhile isSpace
  else []

/-- The status that a line asks for. -/
def announced (line : Bytes) : Nat := (statusInRange (numberAt (numberPlace line))).getD 200

/-- The number that is met first does not stand on the first line, or is not what `atoi` makes of
    it, and `atoi` gives a status other than 200. -/
def Strays (o : Bytes) : Prop :=
  let n := numberAt (numberPlace o)
  (100 ≤ asInt n ∧ asInt n ≤ 599 ∧ asInt n ≠ 200) ∧
    (numberPlace (firstLine o) = [] ∨ asInt n ≠ n)

instance (o : Bytes) : Decidable (Strays o) := by
  unfold Strays
  infer_instance

/-- `startsWith` asks for a front. -/
theorem startsWith_iff {s : Bytes} {lit : String} : startsWith s lit = true ↔ text lit <+: s :=
  List.isPrefixOf_iff_prefix

/-- Blanks in front of a number do not count. -/
theorem numberAt_dropWhile (s : Bytes) : numberAt (s.dropWhile isSpace) = numberAt s := by
  have hidem : (s.dropWhile isSpace).dropWhile isSpace = s.dropWhile isSpace :=
    List.dropWhile_idempotent isSpace s
  rw [numberAt, numberAt, hidem]

/-- **What `parse_cgi_status` returns**: `atoi` at the place of the number, wherever in the output
    this is. -/
theorem parseCgiStatus_eq (o : Bytes) :
    parseCgiStatus o = (statusInRange (asInt (numberAt (numberPlace o)))).getD 200 := by
  have hnil : statusInRange (asInt (numberAt [])) = none := by decide
  rw [parseCgiStatus, numberPlace]
  by_cases hstatus : startsWith o "Status:" = true
  · rw [if_pos hstatus, if_pos hstatus, if_pos hstatus, atoi_eq]
    cases hrange : statusInRange (asInt (numberAt (o.dropWhile fun c => !isDigit c))) with
    | some status => rfl
    | none =>
      -- what is left begins with a digit, so it is no `HTTP/1.` line
      have hno : startsWith (o.dropWhile fun c => !isDigit c) "HTTP/1." = false := by
        cases hd : o.dropWhile fun c => !isDigit c with
        | nil => rfl
        | cons c t =>
          have hhead : isDigit c = true := by simpa using Spans.head_dropWhile hd
          apply Bool.eq_false_iff.mpr
          intro hlit
          have hH : text "HTTP/1." = 72 :: text "TTP/1." := by decide
          rw [startsWith_iff, hH] at hlit
          obtain ⟨rfl, -⟩ := List.cons_prefix_cons.mp hlit
          exact absurd hhead (by decide)
      dsimp only
      rw [hno]
      rfl
  · rw [if_neg hstatus, if_neg hstatus, if_neg hstatus]
    dsimp only
    by_cases hhttp : startsWith o "HTTP/1." = true
    · rw [if_pos hhttp, if_pos hhttp]
      cases hd : o.dropWhile (· ≠ 32) with
      | nil =>
        show 200 = (statusInRange (asInt (numberAt []))).getD 200
        rw [hnil]
        rfl
      | cons c p =>
        show (statusInRange (atoi p)).getD 200 = _
        rw [atoi_eq, List.tail_cons, numberAt_dropWhile]
    · rw [if_neg hhttp, if_neg hhttp, hnil]
      rfl

/-- A digit is no blank. -/
theorem isSpace_of_isDigit {c : UInt8} (h : isDigit c = true) : isSpace c = false := by
  simp only [isDigit, isSpace, Bool.and_eq_true, decide_eq_true_eq, Bool.or_eq_false_iff,
    Bool.and_eq_false_iff, beq_eq_false_iff_ne, decide_eq_false_iff_not, UInt8.le_iff_toNat_le,
    ne_eq, ← UInt8.toNat_inj] at h ⊢
  simp only [UInt8.reduceToNat] at h ⊢
  omega

/-- A literal without the byte at which a text is cut stands in front of the one if it stands in
    front of the other. -/
theorem startsWith_cut (o : Bytes) {x : UInt8} {lit : String} (h : x ∉ text lit) :
    startsWith (o.takeWhile (· ≠ x)) lit = startsWith o lit := by
  rw [Bool.eq_iff_iff, startsWith_iff, startsWith_iff]
  constructor
  · exact fun hpre => hpre.trans (List.takeWhile_prefix _)
  · rintro ⟨r, rfl⟩
    have hlit : ∀ c ∈ text lit, decide (c ≠ x) = true := fun c hc =>
      decide_eq_true fun hcx => h (hcx ▸ hc)
    rw [List.takeWhile_append_of_pos hlit]
    exact List.prefix_append _ _

/-- What a search finds on the first line it finds in the output. -/
theorem dropWhile_firstLine {p : UInt8 → Bool} {o t : Bytes} {c : UInt8} (s : Bytes)
    (h : s.dropWhile p = c :: t) : (s ++ o).dropWhile p = c :: t ++ o := by
  rw [List.dropWhile_append, h]
  rfl

/-- The place of the number on the first line is its place in the output, unless there is none on
    that line. -/
theorem numberPlace_firstLine (o : Bytes) : numberPlace (firstLine o) = [] ∨
    numberAt (numberPlace o) = numberAt (numberPlace (firstLine o)) := by
  obtain ⟨rest, hrest⟩ : ∃ rest, rest = o.dropWhile (· ≠ 10) := ⟨_, rfl⟩
  have hsplit : firstLine o ++ rest = o := by
    rw [hrest]
    exact List.takeWhile_append_dropWhile
  have hend : ∀ x, rest.head? = some x → isDigit x = false := by
    intro x hx
    rw [hrest] at hx
    have hx10 : x = 10 := by simpa using Spans.stops_dropWhile (· ≠ 10) o x hx
    rw [hx10]
    decide
  have hsame : startsWith (firstLine o) "Status:" = startsWith o "Status:" :=
    startsWith_cut o (by decide)
  have hsame' : startsWith (firstLine o) "HTTP/1." = startsWith o "HTTP/1." :=
    startsWith_cut o (by decide)
  rw [numberPlace, numberPlace, hsame, hsame']
  by_cases hstatus : startsWith o "Status:" = true
  · rw [if_pos hstatus, if_pos hstatus]
    cases hd : (firstLine o).dropWhile fun c => !isDigit c with
    | nil => exact Or.inl rfl
    | cons c t =>
      have hc : isDigit c = true := by simpa using Spans.head_dropWhile hd
      right
      rw [← hsplit, dropWhile_firstLine _ hd]
      exact numberAt_append (isSpace_of_isDigit hc) t hend
  rw [if_neg hstatus, if_neg hstatus]
  by_cases hhttp : startsWith o "HTTP/1." = true
  · rw [if_pos hhttp, if_pos hhttp]
    cases hd : (firstLine o).dropWhile (· ≠ 32) with
    | nil => exact Or.inl rfl
    | cons x p =>
      rw [List.tail_cons]
      cases hp : p.dropWhile isSpace with
      | nil => exact Or.inl rfl
      | cons c t =>
        have hc : isSpace c = false := Spans.head_dropWhile hp
        right
        rw [← hsplit, dropWhile_firstLine _ hd, List.cons_append, List.tail_cons,
          dropWhile_firstLine p hp]
        exact numberAt_append hc t hend
  · rw [if_neg hhttp]
    exact Or.inl rfl

/-! ## The status and the first line -/

/-- A number that is no status counts as 200. -/
theorem statusInRange_getD {n : Int} :
    (100 ≤ n ∧ n ≤ 599 ∧ ((statusInRange n).getD 200 : Int) = n) ∨
      (¬ (100 ≤ n ∧ n ≤ 599) ∧ (statusInRange n).getD 200 = 200) := by
  by_cases h : 100 ≤ n ∧ n ≤ 599
  · refine Or.inl ⟨h.1, h.2, ?_⟩
    rw [statusInRange, if_pos h, Option.getD_some]
    omega
  · exact Or.inr ⟨h, by rw [statusInRange, if_neg h]; rfl⟩

/-- **The code has the status of the first line unless the output strays.**. -/
theorem parseCgiStatus_announced (o : Bytes) :
    parseCgiStatus o = announced (firstLine o) ↔ ¬ Strays o := by
  have hread := @statusInRange_getD (asInt (numberAt (numberPlace o)))
  have hline := @statusInRange_getD (numberAt (numberPlace (firstLine o)))
  rw [parseCgiStatus_eq, announced, Strays]
  by_cases hnone : numberPlace (firstLine o) = []
  · -- no number on the first line: it asks for 200
    rw [hnone, numberAt_nil] at hline
    rw [hnone, numberAt_nil]
    simp only [true_or, and_true]
    omega
  · have hsame := (numberPlace_firstLine o).resolve_left hnone
    rw [hsame] at hread ⊢
    generalize numberAt (numberPlace (firstLine o)) = n at hread hline ⊢
    have hsmall := @asInt_small n
    simp only [hnone, false_or]
    omega

/-- A C string: the bytes before the NUL that ends it. -/
structure CString where
  bytes : Bytes
  noNul : (0 : UInt8) ∉ bytes

/-- **The status comes from the first line exactly when the output does not stray.** -/
theorem status_line_iff (o : CString) :
    parseCgiStatus o.bytes = announced (firstLine o.bytes) ↔ ¬ Strays o.bytes :=
  parseCgiStatus_announced o.bytes

/-- A number on a later line is taken for the status. -/
theorem later_line_status :
    ¬ ∀ o : CString, parseCgiStatus o.bytes = announced (firstLine o.bytes) := by
  intro h
  have hbytes := h ⟨text "Status: OK\r\nContent-Length: 404\r\n\r\n", by decide +kernel⟩
  exact absurd hbytes (by decide +kernel)

/-! ## What is sent -/

end Httpd
