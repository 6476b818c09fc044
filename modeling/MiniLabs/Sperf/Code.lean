/-
  sperf — the profile of a trace: `add_stat`, `pick_top`, `print_report`, `run_profiler`.

  1. **Program** — `addStat` keeps a table of names and times, `pickTop` selects from it again and
     again the call that is ahead of all others, `printReport` prints the lines of a report.
     `runProfiler` is the loop of `run_profiler` over the lines of the trace, with `waitpid` and
     the last report behind it; the pipe and the child are there when it starts.

  2. **What comes from outside** is an input.  A `Record` is what parsing makes of a line of the
     trace.  A `Round` is one turn of the loop, with what `now_ms` answers at its three places:
     the clock may say anything.  What `waitpid` answers is an input, too; it can fail (`ECHILD`,
     where `SIGCHLD` was ignored when sperf was started), and then there is no last report.

  3. **What is idealised** — times are exact rationals, where the code adds and compares doubles:
     0.1 + 0.2 ranks above 0.3 in the code and is a tie here.  `getline` always has the memory for
     a line.

  4. **What is not** — `generation` is an `unsigned long`, and counts modulo 2 ^ 64 here as there.
     It matters: the code asks whether two generations are the same, however far apart they are.

  What is printed is kept by rounds: `none` where a round prints nothing, and one more entry for
  what is printed behind the loop.
-/
import Mathlib.Data.Rat.Floor
import MiniLabs.Lib.Ranking
import MiniLabs.Lib.Strcmp

set_option linter.unusedVariables false

namespace Sperf

open Libc Ranking

/-- `MAX_SYSCALLS`. -/
def maxSyscalls : Nat := 512

/-- `NAME_LEN`. -/
def nameLen : Nat := 64

/-- `REFRESH_MS`. -/
def refreshMs : Int := 100

/-! ## `parse_syscall_name` -/

/-- The bytes of an ASCII string. -/
def ascii (s : String) : List UInt8 := s.toList.map fun c => c.toNat.toUInt8

/-- `isspace`. -/
def isSpace (c : UInt8) : Bool := c == 32 || (9 ≤ c && c ≤ 13)

/-- `isalpha`. -/
def isAlpha (c : UInt8) : Bool := (65 ≤ c && c ≤ 90) || (97 ≤ c && c ≤ 122)

/-- `isalnum`. -/
def isAlnum (c : UInt8) : Bool := isAlpha c || (48 ≤ c && c ≤ 57)

/-- The loops that copy a name, as far as there is room for it; the rest of the line is left. -/
def copyName (ok : UInt8 → Bool) : List UInt8 → List UInt8 → List UInt8 × List UInt8
  | name, [] => (name, [])
  | name, c :: line =>
    if ok c then copyName ok (if name.length + 1 < nameLen then name ++ [c] else name) line
    else (name, c :: line)

/-- `parse_syscall_name`: what follows `<... ` up to a blank or `>`, or a name at the start with `(`
    behind it. -/
def parseSyscallName (line : List UInt8) : Option (List UInt8) :=
  if line.take 5 = ascii "<... " then
    let name := (copyName (fun c => c != 0 && !isSpace c && c != 62) [] (line.drop 5)).1
    if name.length > 0 then some name else none
  else if ! line.head?.any fun c => isAlpha c || c == 95 then none
  else
    let copied := copyName (fun c => isAlnum c || c == 95) [] line
    if copied.2.head? ≠ some 40 ∨ copied.1.length = 0 then none else some copied.1

/-! ## `add_stat` -/

/-- `struct syscall_stat`. -/
structure SyscallStat where
  name : List UInt8
  seconds : Rat
  deriving DecidableEq

/-- `struct stats`; the count is the length of the list. -/
structure Stats where
  calls : List SyscallStat
  totalSeconds : Rat
  generation : UInt64
  deriving DecidableEq

/-- `add_stat`: the time goes to the entry with the name, or to a new one while there is room.  The
    total and the generation count every record. -/
def addStat (stats : Stats) (name : List UInt8) (seconds : Rat) : Stats :=
  match stats.calls.findIdx? fun call => strcmp call.name name == 0 with
  | some i =>
    { calls := stats.calls.modify i fun call => { call with seconds := call.seconds + seconds }
      totalSeconds := stats.totalSeconds + seconds
      generation := stats.generation + 1 }
  | none =>
    { calls :=
        if stats.calls.length < maxSyscalls then
          stats.calls ++ [⟨name.take (nameLen - 1), seconds⟩]
        else stats.calls
      totalSeconds := stats.totalSeconds + seconds
      generation := stats.generation + 1 }

/-! ## `pick_top` and `print_report` -/

/-- `stats->calls[i]`. -/
def call (calls : List SyscallStat) (i : Nat) : SyscallStat := calls.getD i ⟨[], 0⟩

/-- The test by which a call replaces the best so far: more time, or the same time and a smaller
    name. -/
def Ahead (calls : List SyscallStat) (i best : Nat) : Prop :=
  (call calls i).seconds > (call calls best).seconds ∨
    (call calls i).seconds = (call calls best).seconds ∧
      strcmp (call calls i).name (call calls best).name < 0

instance (calls : List SyscallStat) : DecidableRel (Ahead calls) :=
  fun _ _ => inferInstanceAs (Decidable (_ ∨ _))

/-- The inner loop of `pick_top`: the best call with a positive time that is not used; what is used
    is what stands in `indices`. -/
def pickBest (calls : List SyscallStat) (indices : List Nat) : Option Nat :=
  (List.range calls.length).foldl
    (fun best i =>
      if i ∈ indices ∨ (call calls i).seconds ≤ 0 then best else better (Ahead calls) best i)
    none

/-- `pick_top`, with room for so many more. -/
def pickTop (calls : List SyscallStat) : Nat → List Nat → List Nat
  | 0, indices => indices
  | room + 1, indices =>
    if indices.length < calls.length then
      match pickBest calls indices with
      | none => indices
      | some best => pickTop calls room (indices ++ [best])
    else indices

/-- The conversion to `int` cuts off the fraction. -/
def toInt (x : Rat) : Int := x.num.tdiv x.den

/-- A report: names and percentages. -/
abbrev Report := List (List UInt8 × Int)

/-- A line of a report. -/
def reportLine (stats : Stats) (i : Nat) : List UInt8 × Int :=
  ((call stats.calls i).name,
    toInt ((call stats.calls i).seconds * 100 / stats.totalSeconds + 1 / 10 ^ 9))

/-- `print_report`. -/
def printReport (stats : Stats) : Option Report :=
  if stats.totalSeconds ≤ 0 then none
  else some ((pickTop stats.calls 5 []).map (reportLine stats))

/-! ## `run_profiler` -/

/-- A parsed line of the trace. -/
structure Record where
  name : List UInt8
  seconds : Rat
  short : name.length < nameLen
  nonneg : 0 ≤ seconds

/-- One turn of the loop: the record on the line, if it has one, and what `now_ms` returns when
    the first record is in, when the time is checked and when a report is out. -/
structure Round where
  record : Option Record
  started : Int
  checked : Int
  reported : Int

/-- The variables of `run_profiler`, and what its rounds have printed. -/
structure Profiler where
  stats : Stats
  lastReport : Int
  printedGeneration : UInt64
  printed : List (Option Report)

/-- Before the loop. -/
def Profiler.start : Profiler := ⟨⟨[], 0, 0⟩, 0, 0, []⟩

/-- A record is added. -/
def Profiler.add (p : Profiler) (r : Round) : Profiler :=
  match r.record with
  | none => p
  | some record =>
    { p with
      stats := addStat p.stats record.name record.seconds
      lastReport := if p.lastReport = 0 then r.started else p.lastReport }

/-- A report is due: something has been added since the last one, and it is `REFRESH_MS` old. -/
def Profiler.Due (p : Profiler) (now : Int) : Prop :=
  p.lastReport ≠ 0 ∧ now - p.lastReport ≥ refreshMs ∧ p.stats.generation ≠ p.printedGeneration

instance (p : Profiler) (now : Int) : Decidable (p.Due now) := inferInstanceAs (Decidable (_ ∧ _))

/-- The second half of the loop. -/
def Profiler.report (p : Profiler) (r : Round) : Profiler :=
  if p.Due r.checked then
    { p with
      printedGeneration := p.stats.generation
      lastReport := r.reported
      printed := p.printed ++ [printReport p.stats] }
  else { p with printed := p.printed ++ [none] }

/-- One turn of the loop. -/
def Profiler.round (p : Profiler) (r : Round) : Profiler := (p.add r).report r

/-- The loop. -/
def runRounds (rounds : List Round) : Profiler := rounds.foldl Profiler.round Profiler.start

/-- The status of a child, as `WIFEXITED` and `WIFSIGNALED` tell it. -/
inductive Status
  | exited (status : Nat)
  | signaled (signal : Nat)
  | other
  deriving DecidableEq, Repr

/-- What is returned for a status: the exit status, 128 and the signal, or 1. -/
def Status.code : Status → Nat
  | .exited status => status
  | .signaled signal => 128 + signal
  | .other => 1

/-- What a run has printed, and what it returns. -/
structure Ran where
  printed : List (Option Report)
  code : Nat

/-- `run_profiler`: what the rounds print, and what is printed in the end; `waited` is what
    `waitpid` answers, `none` where it fails. -/
def runProfiler (rounds : List Round) (waited : Option Status) : Ran :=
  let p := runRounds rounds
  match waited with
  | none => ⟨p.printed, 1⟩
  | some status =>
    ⟨p.printed ++
        [if p.stats.generation ≠ p.printedGeneration then printReport p.stats else none],
      status.code⟩

end Sperf
