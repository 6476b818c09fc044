/-
  pstree — `read_status_file`, and what its `%255s` and its 512-byte buffer do to a status file.

  1. **Program** — `readStatusFile`: the loop of `fgets` over `/proc/<pid>/status` with the body
     `Reading.line`, in which `sscanf` is `scanWord` for `%255s` and `scanLong` for `%ld`.  The
     variables of the loop are the state `Reading`.
  2. **Specification** — a `StatusFile`: lines of which one has the name `v` and one the parent `n`;
     `ReadsAs` says that the function answers true and has stored just these two.
  3. **The crux (`pieces_fileOf`)** — `fgets` goes past no newline and cuts a longer line after every
     511 bytes, so a file of lines falls into the first pieces of its lines and the `later` ones.
     The loop looks at every piece as if it were a line, and the last one that says a name or a
     parent wins (`Reading.fold_eq`).
       * Over the pieces: the file is read as it says exactly if the last pieces that say anything
         say so.
       * Where no later piece says anything: exactly if the name has no white space in it, at which
         `%255s` would stop, and both values stand in the first pieces of their lines.
       * Where no line has more than 510 bytes there is no later piece, and only the white space is
         left.
  4. **What is idealised** — the file does not change while it is read, and no `fgets` fails before
     its end.  `sscanf` out of the range of `long`, which C leaves open, gives the nearest `long` as
     `strtol` does, and `pid_t` takes it modulo 2^32.
-/
import MiniLabs.Lib.Fgets
import MiniLabs.Lib.Spans
import MiniLabs.Pstree.Code

set_option linter.unusedVariables false

namespace Pstree

open Libc Spans

/-- `isspace`. -/
def isSpace (c : UInt8) : Bool := c == 32 || (9 ≤ c && c ≤ 13)

/-- What `%s` takes. -/
def inWord (c : UInt8) : Bool := !isSpace c

/-- `isdigit`. -/
def isDigit (c : UInt8) : Bool := 48 ≤ c && c ≤ 57

/-! ## `sscanf` -/

/-- The conversion `%ns`: blanks are skipped, then up to `n` bytes that are none are taken; it
    fails at the end of the text. -/
def scanWord (n : Nat) (s : List UInt8) : Option (List UInt8) :=
  let word := ((s.dropWhile isSpace).takeWhile inWord).take n
  if word = [] then none else some word

/-- The value of a row of digits. -/
def number (ds : List UInt8) : Nat := ds.foldl (fun v c => v * 10 + (c.toNat - 48)) 0

/-- The number of a sign and digits. -/
def signed (sign ds : List UInt8) : Int := if sign = [45] then -(number ds : Int) else number ds

/-- The nearest `long`. -/
def toLong (n : Int) : Int := max (min n (2 ^ 63 - 1)) (-2 ^ 63)

/-- The sign in front. -/
def signAt (s : List UInt8) : List UInt8 :=
  if s.head? = some 43 then [43] else if s.head? = some 45 then [45] else []

/-- The conversion `%ld`: blanks are skipped, then a sign and digits are taken; it fails where
    there is no digit. -/
def scanLong (s : List UInt8) : Option Int :=
  let s := s.dropWhile isSpace
  let sign := signAt s
  let ds := (s.drop sign.length).takeWhile isDigit
  if ds = [] then none else some (toLong (signed sign ds))

/-- The conversion to `pid_t`. -/
def toPid (n : Int) : Int := n.bmod (2 ^ 32)

/-! ## `read_status_file` -/

/-- The variables of `read_status_file`. -/
structure Reading where
  process : Status
  hasName : Bool
  hasPpid : Bool
  deriving DecidableEq, Repr

/-- The body of the loop; `line` is a string. -/
def Reading.line (r : Reading) (line : List UInt8) : Reading :=
  if line.take 5 = ascii "Name:" then
    match scanWord 255 (line.drop 5) with
    | none => r
    | some name => { r with process := { r.process with name := name.take 255 }, hasName := true }
  else if line.take 5 = ascii "PPid:" then
    match scanLong (line.drop 5) with
    | none => r
    | some ppid => { r with process := { r.process with ppid := toPid ppid }, hasPpid := true }
  else r

/-- The bytes before the first NUL. -/
def cstr (s : List UInt8) : List UInt8 := s.takeWhile (· != 0)

/-- The loop. -/
def Reading.lines (r : Reading) (file : List UInt8) : Reading :=
  let got := fgets 511 file
  if h : got.line = [] then r
  else
    have := fgets_rest_lt h
    Reading.lines (r.line (cstr got.line)) got.rest
  termination_by file.length

/-- `read_status_file`: what it returns, and `*process`; the file is `none` where `fopen` fails. -/
def readStatusFile (file : Option (List UInt8)) (process : Status) : Bool × Status :=
  match file with
  | none => (false, process)
  | some file =>
    let r := Reading.lines ⟨process, false, false⟩ file
    (r.hasName && r.hasPpid, r.process)

/-! ## The pieces -/

/-- What `fgets` takes off a file, call by call. -/
def pieces (file : List UInt8) : List (List UInt8) :=
  let got := fgets 511 file
  if h : got.line = [] then []
  else
    have := fgets_rest_lt h
    got.line :: pieces got.rest
  termination_by file.length

/-- A file that brings nothing has no pieces. -/
theorem pieces_nil {file : List UInt8} (h : (fgets 511 file).line = []) : pieces file = [] := by
  rw [pieces, dif_pos h]

/-- The first piece and the others. -/
theorem pieces_cons {file : List UInt8} (h : (fgets 511 file).line ≠ []) :
    pieces file = (fgets 511 file).line :: pieces (fgets 511 file).rest := by
  rw [pieces, dif_neg h]

/-- **The loop goes through the pieces.** -/
theorem Reading.lines_eq (r : Reading) (file : List UInt8) :
    r.lines file = (pieces file).foldl (fun r p => r.line (cstr p)) r := by
  induction hn : file.length using Nat.strongRecOn generalizing r file with
  | _ n ih =>
    subst hn
    rw [Reading.lines]
    by_cases h : (fgets 511 file).line = []
    · rw [dif_pos h, pieces_nil h]
      rfl
    · rw [dif_neg h, pieces_cons h, List.foldl_cons]
      exact ih _ (fgets_rest_lt h) _ _ rfl

/-- What stands in a piece stands in the file. -/
theorem mem_pieces {file p : List UInt8} (hp : p ∈ pieces file) : ∀ c ∈ p, c ∈ file := by
  induction hn : file.length using Nat.strongRecOn generalizing file with
  | _ n ih =>
    subst hn
    have happend := fgets_append 511 file
    by_cases h : (fgets 511 file).line = []
    · rw [pieces_nil h] at hp
      cases hp
    · rw [pieces_cons h] at hp
      intro c hc
      rw [← happend]
      rcases List.mem_cons.mp hp with rfl | hp
      · exact List.mem_append_left _ hc
      · exact List.mem_append_right _ (ih _ (fgets_rest_lt h) hp rfl c hc)

/-- A file of lines. -/
def fileOf (lines : List (List UInt8)) : List UInt8 := lines.flatMap fun line => line ++ [10]

/-- The pieces of a line after its first one. -/
def later (line : List UInt8) : List (List UInt8) := pieces ((line ++ [10]).drop 511)

/-- The pieces of a line do not depend on what follows it. -/
theorem pieces_append {line : List UInt8} (hline : ∀ c ∈ line, c ≠ 10) (rest : List UInt8) :
    pieces (line ++ 10 :: rest) = pieces (line ++ [10]) ++ pieces rest := by
  induction hn : line.length using Nat.strongRecOn generalizing line with
  | _ n ih =>
    subst hn
    by_cases hlen : line.length < 511
    · have hgot : ∀ r, fgets 511 (line ++ 10 :: r) = ⟨line ++ [10], r, false⟩ := fun r =>
        fgets_line hline hlen
      have hline' : ∀ r, (fgets 511 (line ++ 10 :: r)).line ≠ [] := fun r => by
        rw [hgot]
        exact List.append_ne_nil_of_right_ne_nil _ (List.cons_ne_nil _ _)
      rw [pieces_cons (hline' rest), hgot, pieces_cons (hline' []), hgot,
        pieces_nil (fgets_nil 511)]
      rfl
    · -- the first 511 bytes are a piece either way, and what is left of the line is shorter
      obtain ⟨first, line', rfl, hfirst⟩ : ∃ first line', line = first ++ line' ∧
          first.length = 511 :=
        ⟨line.take 511, line.drop 511, (List.take_append_drop ..).symm, by
          rw [List.length_take]
          omega⟩
      have hgot : ∀ r, fgets 511 (first ++ line' ++ r) = ⟨first, line' ++ r, false⟩ := fun r => by
        rw [List.append_assoc]
        exact fgets_cut (fun c hc => hline c (List.mem_append_left _ hc)) hfirst
      have hne : ∀ r, (fgets 511 (first ++ line' ++ r)).line ≠ [] := fun r => by
        rw [hgot]
        exact List.length_pos_iff.mp (by rw [hfirst]; decide)
      have hshorter : line'.length < (first ++ line').length := by
        rw [List.length_append]
        omega
      rw [pieces_cons (hne _), hgot, pieces_cons (hne [10]), hgot,
        ih _ hshorter (fun c hc => hline c (List.mem_append_right _ hc)) rfl, List.cons_append]

/-- A line is cut into a first piece and the later ones. -/
theorem pieces_line {line : List UInt8} (hline : ∀ c ∈ line, c ≠ 10) :
    pieces (line ++ [10]) = (line ++ [10]).take 511 :: later line := by
  have hne : (fgets 511 (line ++ [10])).line ≠ [] := fun h => by
    simpa using fgets_end h (by decide)
  have hgot : fgets 511 (line ++ [10]) =
      ⟨(line ++ [10]).take 511, (line ++ [10]).drop 511, false⟩ := by
    by_cases hlen : line.length < 511
    · rw [List.take_of_length_le (by simpa using hlen), List.drop_of_length_le (by simpa using hlen)]
      exact fgets_line hline hlen
    · have hcut : line.length ≥ 511 := by omega
      rw [List.take_append_of_le_length hcut]
      have happend : line ++ [10] = line.take 511 ++ (line ++ [10]).drop 511 := by
        conv_lhs => rw [← List.take_append_drop 511 (line ++ [10]),
          List.take_append_of_le_length hcut]
      conv_lhs => rw [happend]
      exact fgets_cut (fun c hc => hline c (List.mem_of_mem_take hc))
        (by rw [List.length_take]; omega)
  rw [pieces_cons hne, hgot]
  rfl

/-- **A file of lines falls into the first pieces of its lines and the later ones.** -/
theorem pieces_fileOf {lines : List (List UInt8)} (hlines : ∀ line ∈ lines, ∀ c ∈ line, c ≠ 10) :
    pieces (fileOf lines) = lines.flatMap fun line => (line ++ [10]).take 511 :: later line := by
  induction lines with
  | nil => exact pieces_nil (fgets_nil 511)
  | cons line lines ih =>
    have hline := hlines line (List.mem_cons_self ..)
    have hfile : fileOf (line :: lines) = line ++ 10 :: fileOf lines := by
      rw [fileOf, List.flatMap_cons, List.append_assoc]
      rfl
    rw [hfile, pieces_append hline, pieces_line hline,
      ih fun l hl => hlines l (List.mem_cons_of_mem _ hl), List.flatMap_cons]

/-- A line of up to 510 bytes is one piece. -/
theorem later_short {line : List UInt8} (hshort : line.length ≤ 510) : later line = [] := by
  rw [later, List.drop_of_length_le (by simpa using Nat.lt_succ_of_le hshort)]
  exact pieces_nil (fgets_nil 511)

/-- Short lines are pieces of their own. -/
theorem pieces_short {lines : List (List UInt8)} (hlines : ∀ line ∈ lines, ∀ c ∈ line, c ≠ 10)
    (hshort : ∀ line ∈ lines, line.length ≤ 510) :
    pieces (fileOf lines) = lines.map fun line => line ++ [10] := by
  rw [pieces_fileOf hlines, List.map_eq_flatMap]
  apply List.flatMap_congr
  intro line hline
  have hlen := hshort line hline
  rw [later_short hlen, List.take_of_length_le (by simpa using Nat.lt_succ_of_le hlen)]

/-! ## What a piece says -/

/-- A piece says the name: `Name:`, blanks, and a word that ends there or has 255 bytes. -/
def SaysName (v p : List UInt8) : Prop :=
  ∃ blanks rest, p = ascii "Name:" ++ (blanks ++ (v ++ rest)) ∧ (∀ c ∈ blanks, isSpace c = true) ∧
    v ≠ [] ∧ (∀ c ∈ v, inWord c = true) ∧ v.length ≤ 255 ∧ (v.length = 255 ∨ Stops inWord rest)

/-- A piece says the parent: `PPid:`, blanks, a sign and digits. -/
def SaysPpid (n : Int) (p : List UInt8) : Prop :=
  ∃ blanks sign ds rest, p = ascii "PPid:" ++ (blanks ++ (sign ++ (ds ++ rest))) ∧
    (∀ c ∈ blanks, isSpace c = true) ∧ (sign = [] ∨ sign = [43] ∨ sign = [45]) ∧ ds ≠ [] ∧
    (∀ c ∈ ds, isDigit c = true) ∧ Stops isDigit rest ∧ n = toPid (toLong (signed sign ds))

/-- The last piece that says anything says `x`. -/
def LastSays {α : Type} (Says : α → List UInt8 → Prop) (x : α) (ps : List (List UInt8)) : Prop :=
  ∃ before p after, ps = before ++ p :: after ∧ Says x p ∧ ∀ q ∈ after, ∀ y, ¬Says y q

/-- The name that the loop takes from a piece. -/
def nameOf (p : List UInt8) : Option (List UInt8) :=
  if p.take 5 = ascii "Name:" then scanWord 255 (p.drop 5) else none

/-- The parent that the loop takes from a piece. -/
def ppidOf (p : List UInt8) : Option Int :=
  if p.take 5 = ascii "PPid:" then (scanLong (p.drop 5)).map toPid else none

/-- A front and what is behind it. -/
theorem take_drop_iff (head p rest : List UInt8) :
    p.take head.length = head ∧ p.drop head.length = rest ↔ p = head ++ rest := by
  constructor
  · rintro ⟨htake, hdrop⟩
    rw [← List.take_append_drop head.length p, htake, hdrop]
  · rintro rfl
    exact ⟨List.take_left, List.drop_left⟩

/-- A word ends the blanks in front of it. -/
theorem stops_word {v rest : List UInt8} (hne : v ≠ []) (hv : ∀ c ∈ v, inWord c = true) :
    Stops isSpace (v ++ rest) := by
  obtain ⟨c, v', rfl⟩ := List.exists_cons_of_ne_nil hne
  exact Stops.cons (by simpa [inWord] using hv c (List.mem_cons_self ..)) _

/-- **What a conversion takes**: a word behind blanks, up to the width. -/
theorem scanWord_iff {n : Nat} {s v : List UInt8} :
    scanWord n s = some v ↔ ∃ blanks rest, s = blanks ++ (v ++ rest) ∧
      (∀ c ∈ blanks, isSpace c = true) ∧ v ≠ [] ∧ (∀ c ∈ v, inWord c = true) ∧ v.length ≤ n ∧
      (v.length = n ∨ Stops inWord rest) := by
  constructor
  · intro h
    obtain ⟨hne, h⟩ := Option.ite_none_left_eq_some.mp h
    obtain ⟨blanks, rest, rfl, hblanks, hrest⟩ := exists_span isSpace s
    rw [dropWhile_span hblanks hrest] at h hne
    have hv := (Option.some.inj h).symm
    obtain ⟨hsplit, hword, hlen, hend⟩ := take_span inWord n rest hv
    rw [← hv] at hne
    exact ⟨blanks, rest.drop v.length, congrArg _ hsplit, hblanks, hne, hword, hlen, hend⟩
  · rintro ⟨blanks, rest, rfl, hblanks, hne, hword, hlen, hend⟩
    rw [scanWord, dropWhile_span hblanks (stops_word hne hword),
      take_takeWhile_span hword hlen hend, if_neg hne]

/-- The name that a piece says. -/
theorem nameOf_iff {p v : List UInt8} : nameOf p = some v ↔ SaysName v p := by
  rw [nameOf, Option.ite_none_right_eq_some, scanWord_iff]
  constructor
  · rintro ⟨htake, blanks, rest, hdrop, h⟩
    exact ⟨blanks, rest, (take_drop_iff (ascii "Name:") p _).mp ⟨htake, hdrop⟩, h⟩
  · rintro ⟨blanks, rest, hp, h⟩
    obtain ⟨htake, hdrop⟩ := (take_drop_iff (ascii "Name:") p _).mpr hp
    exact ⟨htake, blanks, rest, hdrop, h⟩

theorem signAt_split (s : List UInt8) : ∃ rest, s = signAt s ++ rest ∧
    (signAt s = [] ∨ signAt s = [43] ∨ signAt s = [45]) := by
  rw [signAt]
  cases s with
  | nil => exact ⟨[], rfl, .inl rfl⟩
  | cons c s =>
    by_cases hplus : c = 43
    · subst hplus
      exact ⟨s, rfl, .inr (.inl rfl)⟩
    · by_cases hminus : c = 45
      · subst hminus
        exact ⟨s, rfl, .inr (.inr rfl)⟩
      · rw [if_neg (by simpa using hplus), if_neg (by simpa using hminus)]
        exact ⟨c :: s, rfl, .inl rfl⟩

theorem isDigit_plain {c : UInt8} (h : isDigit c = true) :
    isSpace c = false ∧ c ≠ 43 ∧ c ≠ 45 := by
  simp only [isDigit, Bool.and_eq_true, decide_eq_true_eq, UInt8.le_iff_toNat_le,
    UInt8.reduceToNat] at h
  refine ⟨?_, ?_, ?_⟩
  · simp only [isSpace, Bool.or_eq_false_iff, Bool.and_eq_false_iff, decide_eq_false_iff_not,
      beq_eq_false_iff_ne, UInt8.le_iff_toNat_le, ne_eq, ← UInt8.toNat_inj, UInt8.reduceToNat]
    omega
  all_goals
    rintro rfl
    revert h
    decide

/-- A sign and digits behind it. -/
theorem signAt_digits {sign ds : List UInt8} (hsign : sign = [] ∨ sign = [43] ∨ sign = [45])
    (hne : ds ≠ []) (hds : ∀ c ∈ ds, isDigit c = true) (rest : List UInt8) :
    signAt (sign ++ (ds ++ rest)) = sign ∧ Stops isSpace (sign ++ (ds ++ rest)) := by
  obtain rfl | rfl | rfl := hsign
  · obtain ⟨c, ds', rfl⟩ := List.exists_cons_of_ne_nil hne
    obtain ⟨hspace, hplus, hminus⟩ := isDigit_plain (hds c (List.mem_cons_self ..))
    refine ⟨?_, Stops.cons hspace _⟩
    simp [signAt, hplus, hminus]
  · exact ⟨rfl, Stops.cons (by decide) _⟩
  · exact ⟨rfl, Stops.cons (by decide) _⟩

/-- **What a conversion takes**: digits behind blanks and a sign. -/
theorem scanLong_iff {s : List UInt8} {k : Int} :
    scanLong s = some k ↔ ∃ blanks sign ds rest, s = blanks ++ (sign ++ (ds ++ rest)) ∧
      (∀ c ∈ blanks, isSpace c = true) ∧ (sign = [] ∨ sign = [43] ∨ sign = [45]) ∧ ds ≠ [] ∧
      (∀ c ∈ ds, isDigit c = true) ∧ Stops isDigit rest ∧ k = toLong (signed sign ds) := by
  constructor
  · intro h
    obtain ⟨hne, h⟩ := Option.ite_none_left_eq_some.mp h
    obtain ⟨blanks, t, rfl, hblanks, ht⟩ := exists_span isSpace s
    rw [dropWhile_span hblanks ht] at h hne
    obtain ⟨u, hu, hsign⟩ := signAt_split t
    generalize signAt t = sign at *
    subst hu
    rw [List.drop_left] at h hne
    obtain ⟨ds, rest, rfl, hds, hrest⟩ := exists_span isDigit u
    rw [takeWhile_span hds hrest] at h hne
    exact ⟨blanks, sign, ds, rest, rfl, hblanks, hsign, hne, hds, hrest, (Option.some.inj h).symm⟩
  · rintro ⟨blanks, sign, ds, rest, rfl, hblanks, hsign, hne, hds, hrest, rfl⟩
    obtain ⟨hat, hstops⟩ := signAt_digits hsign hne hds rest
    rw [scanLong, dropWhile_span hblanks hstops, hat, List.drop_left, takeWhile_span hds hrest,
      if_neg hne]

/-- The parent that a piece says. -/
theorem ppidOf_iff {p : List UInt8} {n : Int} : ppidOf p = some n ↔ SaysPpid n p := by
  rw [ppidOf, Option.ite_none_right_eq_some, Option.map_eq_some_iff]
  constructor
  · rintro ⟨htake, k, hscan, rfl⟩
    obtain ⟨blanks, sign, ds, rest, hdrop, hblanks, hsign, hne, hds, hrest, rfl⟩ :=
      scanLong_iff.mp hscan
    exact ⟨blanks, sign, ds, rest, (take_drop_iff (ascii "PPid:") p _).mp ⟨htake, hdrop⟩, hblanks,
      hsign, hne, hds, hrest, rfl⟩
  · rintro ⟨blanks, sign, ds, rest, hp, hblanks, hsign, hne, hds, hrest, rfl⟩
    obtain ⟨htake, hdrop⟩ := (take_drop_iff (ascii "PPid:") p _).mpr hp
    exact ⟨htake, _, scanLong_iff.mpr
      ⟨blanks, sign, ds, rest, hdrop, hblanks, hsign, hne, hds, hrest, rfl⟩, rfl⟩

/-! ## Values that are cut -/

/-- **A word that is cut**: it is taken whole exactly if it has no white space in it and the cut is
    behind it. -/
theorem scanWord_cut {blanks v rest : List UInt8} (hblanks : ∀ c ∈ blanks, isSpace c = true)
    (hne : v ≠ []) (hlen : v.length ≤ 255) (hrest : Stops inWord rest) (k : Nat) :
    scanWord 255 ((blanks ++ (v ++ rest)).take k) = some v ↔
      (∀ c ∈ v, isSpace c = false) ∧ blanks.length + v.length ≤ k := by
  have hword : (∀ c ∈ v, inWord c = true) ↔ ∀ c ∈ v, isSpace c = false := by
    simp only [inWord, Bool.not_eq_true']
  rw [scanWord_iff, ← hword]
  constructor
  · rintro ⟨blanks₂, rest₂, htake, hblanks₂, -, hv, -, -⟩
    -- both begin with as much white space, and then with the word
    have hsplit : blanks ++ (v ++ rest) =
        blanks₂ ++ (v ++ (rest₂ ++ (blanks ++ (v ++ rest)).drop k)) := by
      rw [← List.append_assoc v, ← List.append_assoc blanks₂, ← htake, List.take_append_drop]
    have hsame := congrArg (List.takeWhile isSpace) hsplit
    rw [takeWhile_span hblanks (stops_word hne hv), takeWhile_span hblanks₂ (stops_word hne hv)]
      at hsame
    have hcount := congrArg List.length htake
    simp only [List.length_take, List.length_append, ← hsame] at hcount
    exact ⟨hv, by omega⟩
  · rintro ⟨hv, hk⟩
    have htake : (blanks ++ (v ++ rest)).take k =
        blanks ++ (v ++ rest.take (k - (blanks.length + v.length))) := by
      rw [← List.append_assoc, List.take_append, List.take_of_length_le (by simpa using hk),
        List.length_append, List.append_assoc]
    exact ⟨blanks, _, htake, hblanks, hne, hv, hlen, .inr (hrest.take _)⟩

/-- Two ways to take blanks, a sign and digits off a text differ in how many digits they take. -/
theorem digits_prefix {blanks sign ds rest blanks₂ sign₂ ds₂ rest₂ : List UInt8}
    (hblanks : ∀ c ∈ blanks, isSpace c = true) (hsign : sign = [] ∨ sign = [43] ∨ sign = [45])
    (hne : ds ≠ []) (hds : ∀ c ∈ ds, isDigit c = true) (hrest : Stops isDigit rest)
    (hblanks₂ : ∀ c ∈ blanks₂, isSpace c = true)
    (hsign₂ : sign₂ = [] ∨ sign₂ = [43] ∨ sign₂ = [45]) (hne₂ : ds₂ ≠ [])
    (hds₂ : ∀ c ∈ ds₂, isDigit c = true)
    (heq : blanks₂ ++ (sign₂ ++ (ds₂ ++ rest₂)) = blanks ++ (sign ++ (ds ++ rest))) :
    blanks₂ = blanks ∧ sign₂ = sign ∧ ds₂ <+: ds := by
  obtain ⟨hat, hstops⟩ := signAt_digits hsign hne hds rest
  obtain ⟨hat₂, hstops₂⟩ := signAt_digits hsign₂ hne₂ hds₂ rest₂
  have hspan := congrArg (List.takeWhile isSpace) heq
  rw [takeWhile_span hblanks hstops, takeWhile_span hblanks₂ hstops₂] at hspan
  subst hspan
  have hfrom := List.append_cancel_left heq
  have hsame := congrArg signAt hfrom
  rw [hat, hat₂] at hsame
  subst hsame
  have hdigits := congrArg (List.takeWhile isDigit) (List.append_cancel_left hfrom)
  rw [takeWhile_span hds hrest, List.takeWhile_append_of_pos hds₂] at hdigits
  exact ⟨rfl, rfl, _, hdigits⟩

/-- Fewer digits are a smaller number. -/
theorem number_prefix_le {a b : List UInt8} (h : a <+: b) : number a ≤ number b := by
  obtain ⟨t, rfl⟩ := h
  rw [number, number, List.foldl_append]
  generalize a.foldl (fun v c => v * 10 + (c.toNat - 48)) 0 = v
  induction t generalizing v with
  | nil => exact Nat.le_refl _
  | cons c t ih =>
    rw [List.foldl_cons]
    exact Nat.le_trans (by omega) (ih _)

/-- Digits between two that make the same number make it too. -/
theorem signed_between {sign a b c : List UInt8} (hab : a <+: b) (hbc : b <+: c)
    (h : signed sign a = signed sign c) : signed sign b = signed sign c := by
  have hlow := number_prefix_le hab
  have hhigh := number_prefix_le hbc
  by_cases hsign : sign = [45]
  · simp only [signed, if_pos hsign] at h ⊢
    omega
  · simp only [signed, if_neg hsign] at h ⊢
    omega

/-- The first digits of a number of 32 bits make one. -/
theorem signed_prefix_range {sign a b : List UInt8} (h : a <+: b)
    (hb : -2 ^ 31 ≤ signed sign b ∧ signed sign b < 2 ^ 31) :
    -2 ^ 31 ≤ signed sign a ∧ signed sign a < 2 ^ 31 := by
  have hle := number_prefix_le h
  by_cases hsign : sign = [45]
  · simp only [signed, if_pos hsign] at hb ⊢
    omega
  · simp only [signed, if_neg hsign] at hb ⊢
    omega

/-! ## The last word -/

/-- The last piece that says something is the one that counts. -/
theorem lastSays_iff {α : Type} {Says : α → List UInt8 → Prop} {f : List UInt8 → Option α}
    (hf : ∀ {p x}, f p = some x ↔ Says x p) (ps : List (List UInt8)) (x : α) :
    (ps.filterMap f).getLast? = some x ↔ LastSays Says x ps := by
  have hnone : ∀ q, f q = none ↔ ∀ y, ¬Says y q := fun q => by
    rw [Option.eq_none_iff_forall_ne_some]
    exact forall_congr' fun y => not_congr hf
  rw [List.getLast?_eq_some_iff]
  constructor
  · rintro ⟨said, hsaid⟩
    obtain ⟨before, l, rfl, -, hl⟩ := List.filterMap_eq_append_iff.mp hsaid
    obtain ⟨silent, p, after, rfl, -, hp, hafter⟩ := List.filterMap_eq_cons_iff.mp hl
    refine ⟨before ++ silent, p, after, (List.append_assoc _ _ _).symm, hf.mp hp, fun q hq => ?_⟩
    exact (hnone q).mp (List.filterMap_eq_nil_iff.mp hafter q hq)
  · rintro ⟨before, p, after, rfl, hp, hafter⟩
    refine ⟨before.filterMap f, ?_⟩
    rw [List.filterMap_append, List.filterMap_cons_some (hf.mpr hp),
      List.filterMap_eq_nil_iff.mpr fun q hq => (hnone q).mpr (hafter q hq)]

/-- One turn of the loop. -/
theorem Reading.line_eq (r : Reading) (p : List UInt8) :
    r.line p = {
      process := { r.process with
        name := (nameOf p).getD r.process.name
        ppid := (ppidOf p).getD r.process.ppid }
      hasName := r.hasName || (nameOf p).isSome
      hasPpid := r.hasPpid || (ppidOf p).isSome } := by
  rw [Reading.line, nameOf, ppidOf]
  by_cases hname : p.take 5 = ascii "Name:"
  · have hppid : p.take 5 ≠ ascii "PPid:" := by
      rw [hname]
      decide
    rw [if_pos hname, if_pos hname, if_neg hppid]
    cases hscan : scanWord 255 (p.drop 5) with
    | none => simp
    | some name =>
      obtain ⟨-, -, -, -, -, -, hlen, -⟩ := scanWord_iff.mp hscan
      simp [List.take_of_length_le hlen]
  · rw [if_neg hname, if_neg hname]
    by_cases hppid : p.take 5 = ascii "PPid:"
    · rw [if_pos hppid, if_pos hppid]
      cases scanLong (p.drop 5) <;> simp
    · rw [if_neg hppid, if_neg hppid]
      simp

/-- **What the loop leaves** is what was said last. -/
theorem Reading.fold_eq (r : Reading) (ps : List (List UInt8)) :
    ps.foldl Reading.line r = {
      process := { r.process with
        name := (ps.filterMap nameOf).getLast?.getD r.process.name
        ppid := (ps.filterMap ppidOf).getLast?.getD r.process.ppid }
      hasName := r.hasName || (ps.filterMap nameOf).getLast?.isSome
      hasPpid := r.hasPpid || (ps.filterMap ppidOf).getLast?.isSome } := by
  have hlast : ∀ {α : Type} (f : List UInt8 → Option α) (p : List UInt8) (ps : List (List UInt8)),
      ((p :: ps).filterMap f).getLast? = (ps.filterMap f).getLast?.or (f p) := by
    intro α f p ps
    cases hp : f p with
    | none => rw [List.filterMap_cons_none hp, Option.or_none]
    | some x =>
      rw [List.filterMap_cons_some hp, List.getLast?_cons]
      cases (ps.filterMap f).getLast? <;> rfl
  induction ps generalizing r with
  | nil => simp
  | cons p ps ih =>
    rw [List.foldl_cons, ih, Reading.line_eq, hlast, hlast]
    generalize (ps.filterMap nameOf).getLast? = name
    generalize (ps.filterMap ppidOf).getLast? = ppid
    cases name <;> cases ppid <;> simp

/-- **A file is read as `v` and `n` exactly if the last pieces that say anything say so.** -/
theorem readStatusFile_eq_iff {file : List UInt8} (hfile : ∀ c ∈ file, c ≠ 0) (process : Status)
    (v : List UInt8) (n : Int) :
    readStatusFile (some file) process = (true, { process with name := v, ppid := n }) ↔
      LastSays SaysName v (pieces file) ∧ LastSays SaysPpid n (pieces file) := by
  have hcstr : (pieces file).foldl (fun r p => r.line (cstr p)) ⟨process, false, false⟩ =
      (pieces file).foldl Reading.line ⟨process, false, false⟩ := by
    apply List.foldl_ext _ _ _
    intro r p hp
    have hstr : cstr p = p := List.takeWhile_eq_self_iff.mpr fun c hc => by
      simpa using hfile c (mem_pieces hp c hc)
    rw [hstr]
  rw [← lastSays_iff nameOf_iff, ← lastSays_iff ppidOf_iff, readStatusFile, Reading.lines_eq, hcstr,
    Reading.fold_eq]
  cases hname : ((pieces file).filterMap nameOf).getLast? <;>
    cases hppid : ((pieces file).filterMap ppidOf).getLast? <;> simp [and_comm]

/-! ## Status files -/

/-- A space or a tab. -/
def isBlank (c : UInt8) : Bool := c == 32 || c == 9

/-- The line starts with this. -/
def starts (head : String) (line : List UInt8) : Bool := line.take 5 == ascii head

/-- A **status file** with the name `v` and the parent `n`: of its lines one has the name and one
    the parent, with blanks around them. -/
structure StatusFile (lines : List (List UInt8)) (v : List UInt8) (n : Int) : Prop where
  text : ∀ line ∈ lines, ∀ c ∈ line, c ≠ 0 ∧ c ≠ 10
  name : ∃ blanks blanks',
    lines.filter (starts "Name:") = [ascii "Name:" ++ (blanks ++ (v ++ blanks'))] ∧
    (∀ c ∈ blanks, isBlank c = true) ∧ (∀ c ∈ blanks', isBlank c = true)
  nonempty : v ≠ []
  first : ∀ c, v.head? = some c → isBlank c = false
  last : ∀ c, v.getLast? = some c → isBlank c = false
  fits : v.length ≤ 255
  ppid : ∃ blanks sign ds blanks',
    lines.filter (starts "PPid:") = [ascii "PPid:" ++ (blanks ++ (sign ++ (ds ++ blanks')))] ∧
    (∀ c ∈ blanks, isBlank c = true) ∧ (sign = [] ∨ sign = [43] ∨ sign = [45]) ∧ ds ≠ [] ∧
    (∀ c ∈ ds, isDigit c = true) ∧ (∀ c ∈ blanks', isBlank c = true) ∧ n = signed sign ds
  range : -2 ^ 31 ≤ n ∧ n < 2 ^ 31

/-- The blanks of a line are white space. -/
theorem isSpace_of_isBlank {c : UInt8} (h : isBlank c = true) : isSpace c = true := by
  simp only [isBlank, Bool.or_eq_true, beq_iff_eq] at h
  rcases h with rfl | rfl <;> decide

/-- Blanks and the newline stop a word and a number. -/
theorem stops_blanks {p : UInt8 → Bool} (hp : ∀ c, isSpace c = true → p c = false)
    {blanks : List UInt8} (hblanks : ∀ c ∈ blanks, isBlank c = true) :
    Stops p (blanks ++ [10]) := by
  cases blanks with
  | nil => exact Stops.cons (hp 10 (by decide)) _
  | cons c blanks =>
    exact Stops.cons (hp c (isSpace_of_isBlank (hblanks c (List.mem_cons_self ..)))) _

/-- A pid fits a `long` and comes back. -/
theorem toPid_toLong {n : Int} (h : -2 ^ 31 ≤ n ∧ n < 2 ^ 31) : toPid (toLong n) = n := by
  have hlong : toLong n = n := by
    rw [toLong]
    omega
  rw [toPid, hlong, Int.bmod_def]
  omega

/-- The newline does not make a line start with something else. -/
theorem take_newline {head line : List UInt8} (hhead : 10 ∉ head) (hlen : head.length = 5) :
    (line ++ [10]).take 5 = head ↔ line.take 5 = head := by
  by_cases hline : 5 ≤ line.length
  · rw [List.take_append_of_le_length hline]
  · have hne : ∀ l : List UInt8, l.take 5 = head → 5 ≤ l.length := fun l hl => by
      have := congrArg List.length hl
      rw [List.length_take] at this
      omega
    constructor
    · intro h
      refine absurd ?_ hhead
      rw [← h, List.mem_take_iff_getElem]
      exact ⟨line.length, by simp; omega, by simp⟩
    · intro h
      exact absurd (hne _ h) hline

/-- The first pieces of the lines, each with the later ones. -/
theorem filterMap_first {α : Type} {f : List UInt8 → Option α} {head : String}
    (hf : ∀ line, f ((line ++ [10]).take 511) ≠ none → starts head line = true)
    {lines : List (List UInt8)} {line : List UInt8} (hline : lines.filter (starts head) = [line])
    (hlater : ∀ line ∈ lines, ∀ p ∈ later line, f p = none) :
    ((lines.flatMap fun line => (line ++ [10]).take 511 :: later line).filterMap f).getLast? =
      f ((line ++ [10]).take 511) := by
  have hfirst : (lines.flatMap fun line => (line ++ [10]).take 511 :: later line).filterMap f =
      lines.filterMap fun line => f ((line ++ [10]).take 511) := by
    rw [List.filterMap_flatMap, List.filterMap_eq_flatMap_toList]
    apply List.flatMap_congr
    intro l hl
    rw [List.filterMap_cons, List.filterMap_eq_nil_iff.mpr (hlater l hl)]
    cases f ((l ++ [10]).take 511) <;> rfl
  have hfilter : (lines.filterMap fun line => f ((line ++ [10]).take 511)) =
      (lines.filter (starts head)).filterMap fun line => f ((line ++ [10]).take 511) := by
    rw [List.filterMap_filter]
    apply List.filterMap_congr
    intro l _
    by_cases hl : starts head l = true
    · rw [if_pos hl]
    · rw [if_neg hl]
      exact not_not.mp fun hne => hl (hf l hne)
  rw [hfirst, hfilter, hline]
  cases h : f ((line ++ [10]).take 511) <;> simp [h]

/-- A field that is found in the first piece is found in the line. -/
theorem starts_of_first {α : Type} {head : String} {g : List UInt8 → Option α}
    (hhead : 10 ∉ ascii head) (hlen : (ascii head).length = 5) {line : List UInt8}
    (h : (if ((line ++ [10]).take 511).take 5 = ascii head
      then g (((line ++ [10]).take 511).drop 5) else none) ≠ none) :
    starts head line = true := by
  obtain ⟨x, hx⟩ := Option.ne_none_iff_exists'.mp h
  have htake := (Option.ite_none_right_eq_some.mp hx).1
  rw [List.take_take] at htake
  exact beq_iff_eq.mpr ((take_newline hhead hlen).mp htake)

/-- A line says a name in its first piece if it begins with `Name:`. -/
theorem nameOf_first (line : List UInt8) (h : nameOf ((line ++ [10]).take 511) ≠ none) :
    starts "Name:" line = true :=
  starts_of_first (by decide) (by decide) h

/-- A line says a parent in its first piece if it begins with `PPid:`. -/
theorem ppidOf_first (line : List UInt8) (h : ppidOf ((line ++ [10]).take 511) ≠ none) :
    starts "PPid:" line = true :=
  starts_of_first (g := fun s => (scanLong s).map toPid) (by decide) (by decide) h

/-- What the name is taken from. -/
theorem nameOf_cut (text : List UInt8) :
    nameOf ((ascii "Name:" ++ text).take 511) = scanWord 255 (text.take 506) := by
  have htake : (ascii "Name:" ++ text).take 511 = ascii "Name:" ++ text.take 506 := by
    rw [List.take_append]
    rfl
  rw [htake]
  exact if_pos rfl

/-- What the parent is taken from. -/
theorem ppidOf_cut (text : List UInt8) :
    ppidOf ((ascii "PPid:" ++ text).take 511) = (scanLong (text.take 506)).map toPid := by
  have htake : (ascii "PPid:" ++ text).take 511 = ascii "PPid:" ++ text.take 506 := by
    rw [List.take_append]
    rfl
  rw [htake]
  exact if_pos rfl

section File

variable {lines : List (List UInt8)} {v : List UInt8} {n : Int}

/-- The name `v` stands in the first 511 bytes of its line. -/
def NameFits (lines : List (List UInt8)) (v : List UInt8) : Prop :=
  ∃ blanks rest, ascii "Name:" ++ (blanks ++ (v ++ rest)) ∈ lines ∧
    (∀ c ∈ blanks, isBlank c = true) ∧ 5 + blanks.length + v.length ≤ 511

/-- The digits of the parent in the first 511 bytes of their line make `n`: all of its digits, or
    some of the zeros of a zero. -/
def PpidFits (lines : List (List UInt8)) (n : Int) : Prop :=
  ∃ blanks sign ds rest, ascii "PPid:" ++ (blanks ++ (sign ++ (ds ++ rest))) ∈ lines ∧
    (∀ c ∈ blanks, isBlank c = true) ∧ (sign = [] ∨ sign = [43] ∨ sign = [45]) ∧ ds ≠ [] ∧
    (∀ c ∈ ds, isDigit c = true) ∧ n = signed sign ds ∧
    5 + blanks.length + sign.length + ds.length ≤ 511

/-- The one line with a head. -/
theorem line_unique {head : String} {lines : List (List UInt8)} {line text : List UInt8}
    (hlen : (ascii head).length = 5) (hlines : lines.filter (starts head) = [line])
    (hmem : ascii head ++ text ∈ lines) : ascii head ++ text = line := by
  have hstarts : starts head (ascii head ++ text) = true := by
    rw [starts, beq_iff_eq, ← hlen, List.take_left]
  have := List.mem_filter.mpr ⟨hmem, hstarts⟩
  rw [hlines] at this
  exact List.mem_singleton.mp this

/-- Lines have no newline inside. -/
theorem StatusFile.no_newline (h : StatusFile lines v n) : ∀ line ∈ lines, ∀ c ∈ line, c ≠ 10 :=
  fun line hline c hc => (h.text line hline c hc).2

/-- Blanks that stand in front of the name. -/
theorem StatusFile.blanks_name (h : StatusFile lines v n) {blanks blanks₂ rest rest₂ : List UInt8}
    (hblanks : ∀ c ∈ blanks, isBlank c = true) (hblanks₂ : ∀ c ∈ blanks₂, isBlank c = true)
    (heq : blanks ++ (v ++ rest) = blanks₂ ++ (v ++ rest₂)) : blanks = blanks₂ := by
  have hstops : ∀ r, Stops isBlank (v ++ r) := fun r => by
    obtain ⟨c, v', rfl⟩ := List.exists_cons_of_ne_nil h.nonempty
    exact Stops.cons (h.first c rfl) _
  have hspan := congrArg (List.takeWhile isBlank) heq
  rwa [takeWhile_span hblanks (hstops _), takeWhile_span hblanks₂ (hstops _)] at hspan

/-- **The name is read where it has no white space and fits.**. -/
theorem StatusFile.says_name (h : StatusFile lines v n)
    (hlater : ∀ line ∈ lines, ∀ p ∈ later line, ∀ w, ¬SaysName w p) :
    LastSays SaysName v (pieces (fileOf lines)) ↔
      (∀ c ∈ v, isSpace c = false) ∧ NameFits lines v := by
  obtain ⟨blanks, blanks', hline, hblanks, hblanks'⟩ := h.name
  have hquiet : ∀ line ∈ lines, ∀ p ∈ later line, nameOf p = none := fun line hl p hp =>
    Option.eq_none_iff_forall_ne_some.mpr fun w hw => hlater line hl p hp w (nameOf_iff.mp hw)
  have hstops : Stops inWord (blanks' ++ [10]) :=
    stops_blanks (fun c hc => by rw [inWord, hc]; rfl) hblanks'
  rw [pieces_fileOf h.no_newline, ← lastSays_iff nameOf_iff,
    filterMap_first nameOf_first hline hquiet, List.append_assoc, List.append_assoc,
    List.append_assoc, nameOf_cut,
    scanWord_cut (fun c hc => isSpace_of_isBlank (hblanks c hc)) h.nonempty h.fits hstops]
  refine and_congr_right fun _ => ⟨fun hcut => ?_, ?_⟩
  · refine ⟨blanks, blanks', List.mem_of_mem_filter (p := starts "Name:") ?_, hblanks, by omega⟩
    rw [hline]
    exact List.mem_singleton_self _
  · rintro ⟨blanks₂, rest₂, hmem, hblanks₂, hcut⟩
    have heq := List.append_cancel_left (line_unique (by decide) hline hmem)
    rw [h.blanks_name hblanks₂ hblanks heq] at hcut
    omega

/-- **The parent is read where it fits.**. -/
theorem StatusFile.says_ppid (h : StatusFile lines v n)
    (hlater : ∀ line ∈ lines, ∀ p ∈ later line, ∀ m, ¬SaysPpid m p) :
    LastSays SaysPpid n (pieces (fileOf lines)) ↔ PpidFits lines n := by
  obtain ⟨blanks, sign, ds, blanks', hline, hblanks, hsign, hne, hds, hblanks', hn⟩ := h.ppid
  have hquiet : ∀ line ∈ lines, ∀ p ∈ later line, ppidOf p = none := fun line hl p hp =>
    Option.eq_none_iff_forall_ne_some.mpr fun m hm => hlater line hl p hp m (ppidOf_iff.mp hm)
  have hspace : ∀ c, isSpace c = true → isDigit c = false := fun c hc => by
    cases hdigit : isDigit c with
    | false => rfl
    | true =>
      rw [(isDigit_plain hdigit).1] at hc
      cases hc
  have hblank : ∀ {l : List UInt8}, (∀ c ∈ l, isBlank c = true) → ∀ c ∈ l, isSpace c = true :=
    fun hl c hc => isSpace_of_isBlank (hl c hc)
  have hstops := stops_blanks hspace hblanks'
  have hstops' : Stops isDigit blanks' := by
    have := hstops.take blanks'.length
    rwa [List.take_left] at this
  have hmem : ascii "PPid:" ++ (blanks ++ (sign ++ (ds ++ blanks'))) ∈ lines := by
    refine List.mem_of_mem_filter (p := starts "PPid:") ?_
    rw [hline]
    exact List.mem_singleton_self _
  have hrange := h.range
  rw [pieces_fileOf h.no_newline, ← lastSays_iff ppidOf_iff,
    filterMap_first ppidOf_first hline hquiet, List.append_assoc, List.append_assoc,
    List.append_assoc, List.append_assoc, ppidOf_cut, Option.map_eq_some_iff]
  constructor
  · -- the digits that were taken are some of the first ones
    rintro ⟨m, hscan, hm⟩
    obtain ⟨blanks₂, sign₂, ds₂, rest₂, htake, hblanks₂, hsign₂, hne₂, hds₂, -, rfl⟩ :=
      scanLong_iff.mp hscan
    have hsplit : blanks₂ ++ (sign₂ ++ (ds₂ ++
        (rest₂ ++ (blanks ++ (sign ++ (ds ++ (blanks' ++ [10])))).drop 506))) =
        blanks ++ (sign ++ (ds ++ (blanks' ++ [10]))) := by
      rw [← List.append_assoc ds₂, ← List.append_assoc sign₂, ← List.append_assoc blanks₂,
        ← htake, List.take_append_drop]
    obtain ⟨rfl, rfl, ds', rfl⟩ := digits_prefix (hblank hblanks) hsign hne hds hstops hblanks₂
      hsign₂ hne₂ hds₂ hsplit
    rw [toPid_toLong (signed_prefix_range (List.prefix_append ds₂ ds') (hn ▸ hrange))] at hm
    have hcount := congrArg List.length htake
    simp only [List.length_take, List.length_append] at hcount
    rw [List.append_assoc] at hmem
    exact ⟨_, _, ds₂, _, hmem, hblanks, hsign, hne₂, hds₂, hm.symm, by omega⟩
  · rintro ⟨blanks₂, sign₂, ds₂, rest₂, hmem₂, hblanks₂, hsign₂, hne₂, hds₂, hn₂, hcut⟩
    obtain ⟨rfl, rfl, hprefix⟩ := digits_prefix (hblank hblanks) hsign hne hds
      hstops' (hblank hblanks₂) hsign₂ hne₂ hds₂
      (List.append_cancel_left (line_unique (by decide) hline hmem₂))
    -- so many digits stand in front of the cut
    generalize hj : 506 - blanks₂.length - sign₂.length = j
    have htake : (blanks₂ ++ (sign₂ ++ (ds ++ (blanks' ++ [10])))).take 506 =
        blanks₂ ++ (sign₂ ++ (ds.take j ++ (blanks' ++ [10]).take (j - ds.length))) := by
      rw [List.take_append, List.take_of_length_le (by omega), List.take_append,
        List.take_of_length_le (by omega), List.take_append, hj]
    have hlonger : ds₂ <+: ds.take j := by
      obtain ⟨ds', rfl⟩ := hprefix
      rw [List.take_append, List.take_of_length_le (by omega)]
      exact List.prefix_append ..
    have hvalue := signed_between hlonger (List.take_prefix j ds) (hn₂.symm.trans hn)
    refine ⟨_, scanLong_iff.mpr ⟨blanks₂, sign₂, ds.take j, _, htake, hblank hblanks, hsign, ?_,
      fun c hc => hds c (List.mem_of_mem_take hc), hstops.take _, rfl⟩, ?_⟩
    · rintro hnil
      rw [hnil] at hlonger
      exact hne₂ (List.prefix_nil.mp hlonger)
    · rw [hvalue, ← hn, toPid_toLong hrange]

/-- A status file has no NUL. -/
theorem StatusFile.no_nul (h : StatusFile lines v n) : ∀ c ∈ fileOf lines, c ≠ 0 := by
  intro c hc
  obtain ⟨line, hline, hc⟩ := List.mem_flatMap.mp hc
  rcases List.mem_append.mp hc with hc | hc
  · exact (h.text line hline c hc).1
  · rw [List.mem_singleton.mp hc]
    decide

/-- The file is read as its two lines say. -/
def ReadsAs (lines : List (List UInt8)) (v : List UInt8) (n : Int) (process : Status) : Prop :=
  readStatusFile (some (fileOf lines)) process = (true, { process with name := v, ppid := n })

/-- A piece says neither a name nor a parent. -/
def Silent (p : List UInt8) : Prop := (∀ w, ¬SaysName w p) ∧ ∀ m, ¬SaysPpid m p

/-- Lines of up to 510 bytes are their first pieces, and both values stand there. -/
theorem StatusFile.fits_short (h : StatusFile lines v n)
    (hshort : ∀ line ∈ lines, line.length ≤ 510) :
    (∀ line ∈ lines, ∀ p ∈ later line, Silent p) ∧ NameFits lines v ∧ PpidFits lines n := by
  obtain ⟨blanks, blanks', hname, hblanks, -⟩ := h.name
  obtain ⟨blanks₂, sign, ds, blanks₂', hppid, hblanks₂, hsign, hne, hds, -, hn⟩ := h.ppid
  have hmem : ∀ {head : String} {line : List UInt8}, lines.filter (starts head) = [line] →
      line ∈ lines := fun hline =>
    List.mem_of_mem_filter (by rw [hline]; exact List.mem_singleton_self _)
  have hlenName := hshort _ (hmem hname)
  have hlenPpid := hshort _ (hmem hppid)
  have hhead : (ascii "Name:").length = 5 ∧ (ascii "PPid:").length = 5 := by decide
  simp only [List.length_append, hhead.1, hhead.2] at hlenName hlenPpid
  refine ⟨fun line hline p hp => ?_, ⟨_, _, hmem hname, hblanks, by omega⟩,
    ⟨_, _, _, _, hmem hppid, hblanks₂, hsign, hne, hds, hn, by omega⟩⟩
  rw [later_short (hshort line hline)] at hp
  cases hp

/-- **When a status file is read as it says**: exactly if the last pieces that say a name and a
    parent say these.  Where no later piece of a line says anything, exactly if there is no white
    space in the name and both values stand in the first pieces of their lines; where no line is
    longer than 510 bytes, exactly if there is no white space in the name. -/
theorem readStatusFile_iff (h : StatusFile lines v n) (process : Status) :
    (ReadsAs lines v n process ↔
      LastSays SaysName v (pieces (fileOf lines)) ∧
        LastSays SaysPpid n (pieces (fileOf lines))) ∧
    ((∀ line ∈ lines, ∀ p ∈ later line, Silent p) →
      (ReadsAs lines v n process ↔
        (∀ c ∈ v, isSpace c = false) ∧ NameFits lines v ∧ PpidFits lines n)) ∧
    ((∀ line ∈ lines, line.length ≤ 510) →
      (ReadsAs lines v n process ↔ ∀ c ∈ v, isSpace c = false)) := by
  have hiff := readStatusFile_eq_iff h.no_nul process v n
  have hfirst : (∀ line ∈ lines, ∀ p ∈ later line, Silent p) →
      (ReadsAs lines v n process ↔
        (∀ c ∈ v, isSpace c = false) ∧ NameFits lines v ∧ PpidFits lines n) := fun hlater => by
    rw [ReadsAs, hiff, h.says_name fun line hl p hp => (hlater line hl p hp).1,
      h.says_ppid fun line hl p hp => (hlater line hl p hp).2, and_assoc]
  refine ⟨hiff, hfirst, fun hshort => ?_⟩
  obtain ⟨hlater, hname, hppid⟩ := h.fits_short hshort
  exact (hfirst hlater).trans (and_iff_left ⟨hname, hppid⟩)

end File

/-- The name of a `tmux` server has a space in it. -/
theorem readStatusFile_tmux :
    StatusFile [ascii "Name:\ttmux: server", ascii "PPid:\t1"] (ascii "tmux: server") 1 ∧
      readStatusFile (some (fileOf [ascii "Name:\ttmux: server", ascii "PPid:\t1"])) ⟨7, 0, []⟩ =
        (true, ⟨7, 1, ascii "tmux:"⟩) := by
  constructor
  · exact
      { text := by simp [ascii]
        name := ⟨[9], [], rfl, List.all_eq_true.mp rfl, List.all_eq_true.mp rfl⟩
        nonempty := nofun
        first := by rintro c ⟨⟩; rfl
        last := by rintro c ⟨⟩; rfl
        fits := by decide
        ppid := ⟨[9], [], [49], [], rfl, List.all_eq_true.mp rfl, .inl rfl, nofun,
          List.all_eq_true.mp rfl, List.all_eq_true.mp rfl, rfl⟩
        range := by decide }
  · have hpieces : pieces (fileOf [ascii "Name:\ttmux: server", ascii "PPid:\t1"]) =
        [ascii "Name:\ttmux: server" ++ [10], ascii "PPid:\t1" ++ [10]] :=
      pieces_short (by simp [ascii]) (by simp [ascii])
    rw [readStatusFile, Reading.lines_eq, hpieces]
    decide

/-- The name of a shell has none. -/
theorem readStatusFile_bash :
    ReadsAs [ascii "Name:\tbash", ascii "PPid:\t1"] (ascii "bash") 1 ⟨7, 0, []⟩ := by
  have h : StatusFile [ascii "Name:\tbash", ascii "PPid:\t1"] (ascii "bash") 1 :=
    { text := by simp [ascii]
      name := ⟨[9], [], rfl, List.all_eq_true.mp rfl, List.all_eq_true.mp rfl⟩
      nonempty := nofun
      first := by rintro c ⟨⟩; rfl
      last := by rintro c ⟨⟩; rfl
      fits := by decide
      ppid := ⟨[9], [], [49], [], rfl, List.all_eq_true.mp rfl, .inl rfl, nofun,
        List.all_eq_true.mp rfl, List.all_eq_true.mp rfl, rfl⟩
      range := by decide }
  exact ((readStatusFile_iff h ⟨7, 0, []⟩).2.2 (by simp [ascii])).mpr (by simp [ascii, isSpace])

end Pstree
