/-
  From what strace writes to the report.

  1. **Program** — `getline` takes the stream apart into the lines that strace put into it
     (`traceLines_text`), and each line is read as the record it is about or as none
     (`recordsOf_trace`).

  2. **Specification** — a `TraceLine` is what strace writes about a call, a call that is cut in
     two or an exit; the payloads are any text.  `trace_report`: the last report shows the top five
     of the calls with their times.

  3. **What is granted** — as in the code of the profile: exact times, the memory for a line, and
     an answer of `waitpid`; without the answer there is no last report.
-/
import MiniLabs.Sperf.Lines
import MiniLabs.Sperf.Profile

set_option linter.unusedVariables false

namespace Sperf

open Libc

/-- The lines that `getline` takes from a stream; the last one may have no newline. -/
def traceLines : List UInt8 → List (List UInt8)
  | [] => []
  | c :: s =>
    if c = 10 then [c] :: traceLines s
    else
      match traceLines s with
      | [] => [[c]]
      | line :: lines => (c :: line) :: lines

/-- The first line and the others. -/
theorem traceLines_append {line : List UInt8} (hline : ∀ c ∈ line, c ≠ 10) (s : List UInt8) :
    traceLines (line ++ [10] ++ s) = (line ++ [10]) :: traceLines s := by
  induction line with
  | nil => rfl
  | cons c line ih =>
    have hc : c ≠ 10 := hline c List.mem_cons_self
    show traceLines (c :: (line ++ [10] ++ s)) = _
    rw [traceLines, if_neg hc, ih fun d hd => hline d (List.mem_cons_of_mem _ hd)]
    rfl

/-! ## What strace writes -/

/-- A call with its time. -/
structure Timed where
  name : List UInt8
  payload : List UInt8
  digits : List UInt8
  fraction : List UInt8
  isName : SyscallName name
  isText : Text payload
  isDigits : Digits digits
  isFraction : Digits fraction

/-- The time, as strace writes it. -/
def Timed.time (t : Timed) : List UInt8 := t.digits ++ 46 :: t.fraction

/-- What the line is to count for. -/
def Timed.record (t : Timed) : Record :=
  ⟨t.name, decimal t.digits t.fraction, t.isName.short, decimal_nonneg t.digits t.fraction⟩

/-- A line of strace. -/
inductive TraceLine
  | call (t : Timed)
  | resumed (t : Timed)
  | unfinished (s p : List UInt8) (hs : SyscallName s) (hp : Text p)
  | exit (p : List UInt8) (hp : Text p)

namespace TraceLine

/-- The line that strace writes. -/
def text : TraceLine → List UInt8
  | .call t => callLine t.name t.payload t.time
  | .resumed t => resumedLine t.name t.payload t.time
  | .unfinished s p _ _ => unfinishedLine s p
  | .exit p _ => exitLine p

/-- The record that it is about. -/
def record : TraceLine → Option Record
  | .call t | .resumed t => some t.record
  | .unfinished .. | .exit .. => none

end TraceLine

section Lines

variable {s p : List UInt8}

/-- A name has no newline. -/
theorem SyscallName.no_newline (hs : SyscallName s) : ∀ c ∈ s, c ≠ 10 := by
  rintro c hc rfl
  exact absurd (hs.word 10 hc) (by decide)

/-- Nor have digits. -/
theorem Digits.no_newline (hs : Digits s) : ∀ c ∈ s, c ≠ 10 := by
  rintro c hc rfl
  exact absurd (hs.2 10 hc) (by decide)

/-- Nor has a time. -/
theorem Timed.no_newline (t : Timed) : ∀ c ∈ t.time, c ≠ 10 := by
  intro c hc
  rcases List.mem_append.mp hc with hc | hc
  · exact t.isDigits.no_newline c hc
  · rcases List.mem_cons.mp hc with rfl | hc
    · decide
    · exact t.isFraction.no_newline c hc

/-- A line has its newline at the end, and no other. -/
theorem TraceLine.text_split (l : TraceLine) :
    ∃ line, l.text = line ++ [10] ∧ ∀ c ∈ line, c ≠ 10 := by
  have hlit : ∀ {s : List UInt8}, s.all (· != 10) = true → ∀ c ∈ s, c ≠ 10 := fun h c hc =>
    bne_iff_ne.mp (List.all_eq_true.mp h c hc)
  have happ : ∀ {s t : List UInt8}, (∀ c ∈ s, c ≠ 10) → (∀ c ∈ t, c ≠ 10) →
      ∀ c ∈ s ++ t, c ≠ 10 := fun hs ht c hc =>
    (List.mem_append.mp hc).elim (hs c) (ht c)
  cases l with
  | call t =>
    refine ⟨t.name ++ ascii "(" ++ t.payload ++ ascii " <" ++ t.time ++ ascii ">", ?_, ?_⟩
    · simp [TraceLine.text, callLine, ascii]
    · exact happ (happ (happ (happ (happ t.isName.no_newline (hlit (by decide)))
        fun c hc => (t.isText c hc).2) (hlit (by decide))) t.no_newline) (hlit (by decide))
  | resumed t =>
    refine ⟨ascii "<... " ++ t.name ++ ascii " resumed>" ++ t.payload ++ ascii " <" ++ t.time ++
      ascii ">", ?_, ?_⟩
    · simp [TraceLine.text, resumedLine, ascii]
    · exact happ (happ (happ (happ (happ (happ (hlit (by decide)) t.isName.no_newline)
        (hlit (by decide))) fun c hc => (t.isText c hc).2) (hlit (by decide))) t.no_newline)
        (hlit (by decide))
  | unfinished s p hs hp =>
    refine ⟨s ++ ascii "(" ++ p ++ ascii " <unfinished ...>", ?_, ?_⟩
    · simp [TraceLine.text, unfinishedLine, ascii]
    · exact happ (happ (happ hs.no_newline (hlit (by decide))) fun c hc => (hp c hc).2)
        (hlit (by decide))
  | exit p hp =>
    refine ⟨ascii "+++ " ++ p ++ ascii " +++", ?_, ?_⟩
    · simp [TraceLine.text, exitLine, ascii]
    · exact happ (happ (hlit (by decide)) fun c hc => (hp c hc).2) (hlit (by decide))

/-- **`getline` takes the trace apart** as it was put together. -/
theorem traceLines_text (trace : List TraceLine) :
    traceLines (trace.flatMap TraceLine.text) = trace.map TraceLine.text := by
  induction trace with
  | nil => rfl
  | cons l trace ih =>
    obtain ⟨line, htext, hline⟩ := l.text_split
    rw [List.flatMap_cons, List.map_cons, htext, traceLines_append hline, ih]

/-- A line is read as what it is about. -/
theorem TraceLine.parse (l : TraceLine) : parseLine l.text =
    l.record.map fun record => (record.name, Double.finite record.seconds) := by
  cases l with
  | call t =>
    show parseLine (callLine t.name t.payload t.time) = _
    rw [parseLine, Timed.time, elapsed_callLine _ _ t.isDigits t.isFraction,
      parseSyscallName_callLine t.isName]
    rfl
  | resumed t =>
    show parseLine (resumedLine t.name t.payload t.time) = _
    rw [parseLine, Timed.time, elapsed_resumedLine _ _ t.isDigits t.isFraction,
      parseSyscallName_resumedLine t.isName]
    rfl
  | unfinished s p hs hp => exact parseLine_unfinished s p
  | exit p hp => exact parseLine_exit p

/-- A record is its name and its time. -/
theorem record_ext {r r' : Record} (hname : r.name = r'.name) (hseconds : r.seconds = r'.seconds) :
    r = r' := by
  cases r
  cases r'
  exact Record.mk.injEq .. |>.mpr ⟨hname, hseconds⟩

/-- A round that reads the line has its record. -/
theorem Round.Reads.record_eq {r : Round} {l : TraceLine} (h : r.Reads l.text) :
    r.record = l.record := by
  rw [Round.Reads, l.parse] at h
  cases hr : r.record with
  | none =>
    rw [hr] at h
    exact (Option.map_eq_none_iff.mp h.symm).symm
  | some record =>
    rw [hr] at h
    obtain ⟨record', hl, heq⟩ := Option.map_eq_some_iff.mp h.symm
    obtain ⟨hname, hseconds⟩ := Prod.mk.inj heq
    rw [hl, record_ext hname (Double.finite.inj hseconds)]

/-- The rounds read the records of the trace, whatever the clock says. -/
theorem recordsOf_trace {rounds : List Round} {trace : List TraceLine}
    (h : List.Forall₂ Round.Reads rounds (trace.map TraceLine.text)) :
    recordsOf rounds = trace.filterMap TraceLine.record := by
  rw [List.forall₂_map_right_iff] at h
  induction h with
  | nil => rfl
  | @cons r l rounds trace hr _ ih =>
    rw [recordsOf, List.filterMap_cons, List.filterMap_cons, hr.record_eq]
    cases l.record with
    | none => exact ih
    | some record => exact congrArg (record :: ·) ih

end Lines

/-- **From the trace to the report.**  Whatever calls a program makes, with whatever payloads, and
    whatever the clock says while they come in: if `waitpid` answers, the last report shows the top
    five of the calls with their times, and everything is in it. -/
theorem trace_report (trace : List TraceLine) (rounds : List Round)
    (hreads : List.Forall₂ Round.Reads rounds (traceLines (trace.flatMap TraceLine.text)))
    (hroom : Fits (trace.filterMap TraceLine.record))
    (hpos : 0 < total (trace.filterMap TraceLine.record)) (hlen : trace.length < 2 ^ 64)
    (status : Status) :
    ∃ lines, TopFive (trace.filterMap TraceLine.record) lines ∧
      LastReport rounds (some status) lines := by
  rw [traceLines_text] at hreads
  have hrecords := recordsOf_trace hreads
  have hle := List.length_filterMap_le TraceLine.record trace
  rw [← hrecords] at hroom hpos hle ⊢
  exact lastReport_topFive rounds hroom hpos (Nat.lt_of_le_of_lt hle hlen) status

/-- A `read` that takes half a second. -/
def halfRead : Timed where
  name := ascii "read"
  payload := ascii "0, \"<9.9>\", 5) = 5"
  digits := ascii "0"
  fraction := ascii "5"
  isName := ⟨rfl, List.all_eq_true.mp rfl, by decide⟩
  isText := by simp [Text, ascii]
  isDigits := ⟨List.cons_ne_nil _ _, List.all_eq_true.mp rfl⟩
  isFraction := ⟨List.cons_ne_nil _ _, List.all_eq_true.mp rfl⟩

/-- A call that is cut in two, on two lines. -/
theorem trace_report_half : ∃ lines, TopFive [halfRead.record] lines ∧
    LastReport [⟨none, 1, 1, 1⟩, ⟨some halfRead.record, 1, 1, 1⟩] (some (.exited 0)) lines := by
  have htext : Text (ascii "0, ") := by simp [Text, ascii]
  refine trace_report [.unfinished (ascii "read") (ascii "0, ") halfRead.isName htext,
    .resumed halfRead] _ ?_ ?_ ?_ (Nat.lt_of_lt_of_le (Nat.lt_succ_self 2) (by decide)) _
  · rw [traceLines_text]
    exact .cons (parseLine_unfinished _ _).symm (.cons (TraceLine.parse (.resumed halfRead)).symm .nil)
  · show Fits [halfRead.record]
    unfold Fits
    decide
  · have hseconds : halfRead.record.seconds = 1 / 2 := by
      show decimal (ascii "0") (ascii "5") = _
      rw [decimal, show numberOf 10 (ascii "0") = 0 from rfl,
        show numberOf 10 (ascii "5") = 5 from rfl, show (ascii "5").length = 1 from rfl]
      norm_num
    show 0 < total [halfRead.record]
    norm_num [total, hseconds]

end Sperf
