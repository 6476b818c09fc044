/-
  crepl — the read-eval-print loop.

  1. **Program** — `command` takes one piece of input: a function is compiled and its handle kept
     (`loadFunctionLine`), an expression is wrapped, compiled, called and its handle closed
     (`evalExpressionLine`).  `mainLoop` takes the pieces from the input, and `closeAll` closes
     what has been kept.

  2. **Input** — a piece is what one `fgets` takes: a line of up to 4095 bytes with its newline,
     or the next 4095 bytes of a longer one.  `main` looks at each piece on its own.

  3. **What the outside world answers** to the calls of one command (`mkstemp`, `fopen`, `fprintf`,
     `fclose`, `fork`, `waitpid`, `dlopen`, `dlsym`) is an input, `Answers`.  What the program does
     to the outside world is a list of effects, oldest first; paths and handles are numbers.

  4. **Typed code runs in the process**: constructors in `dlopen`, the wrapper when it is called,
     destructors in `dlclose`.  What becomes of it is an input, an `Outcome`: it comes back, having
     taken bytes of the input, or it does not (it crashes, ends the process, runs forever), and
     nothing happens any more.  What it does to the data of crepl, to its files or to the position
     in the input behind its back is left out.
-/
import Mathlib.Algebra.Order.Ring.Int
import MiniLabs.Lib.Fgets

set_option linter.unusedVariables false

namespace Crepl

open Libc

/-- The bytes of a string literal. -/
def ascii (s : String) : List UInt8 := s.toList.map fun c => c.toNat.toUInt8

/-- `MAX_LINE`. -/
def maxLine : Nat := 4096
/-- `MAX_HANDLES`. -/
def maxHandles : Nat := 128

/-! ## The line -/

/-- `isspace`. -/
def isSpace (c : UInt8) : Bool := c == 32 || (9 ≤ c && c ≤ 13)

/-- `trim_left`. -/
def trimLeft (s : List UInt8) : List UInt8 := s.dropWhile isSpace

/-- `chomp`. -/
def chomp (s : List UInt8) : List UInt8 :=
  (s.reverse.dropWhile fun c => c == 10 || c == 13).reverse

/-- `is_function_definition`; at the end of the string `s[3]` is NUL, which is no space. -/
def isFunctionDefinition (s : List UInt8) : Bool :=
  s.take 3 == ascii "int" && (s[3]?.map isSpace).getD false

/-- What `main` looks at: the string in the buffer, chomped and trimmed. -/
def inputOf (line : List UInt8) : List UInt8 := trimLeft (chomp (line.takeWhile (· != 0)))

/-! ## The outside world -/

/-- What becomes of typed code: it comes back, with bytes of the input taken, or the process is
    gone with it. -/
inductive Outcome (α : Type)
  | returns (taken : Nat) (a : α)
  | gone

/-- What `waitpid` says in the end. -/
inductive Waited
  | error
  | signalled
  | exited (status : Nat)

/-- What the outside world answers to one command. -/
structure Answers where
  /-- `mkstemp` for the source and for the library. -/
  source : Option Nat
  library : Option Nat
  fopen : Bool
  /-- `fprintf` does not return a negative number. -/
  fprintf : Bool
  fclose : Bool
  fork : Bool
  /-- How often `waitpid` is interrupted first. -/
  interrupts : Nat
  waited : Waited
  dlopen : Outcome (Option Nat)
  /-- `dlerror` has nothing to say, and the symbol is not null. -/
  dlsym : Bool
  /-- The call of the wrapper. -/
  function : Outcome Int
  dlclose : Outcome Unit

inductive Reply
  | ok
  | error
  | value (n : Int)
  deriving DecidableEq

/-- What is printed. -/
def Reply.text : Reply → List UInt8
  | .ok => ascii "OK.\n"
  | .error => ascii "ERROR.\n"
  | .value n => ascii "= " ++ ascii (toString n) ++ ascii ".\n"

/-- What the program does. -/
inductive Effect
  | fgets (piece : List UInt8)
  | mkstemp (path : Nat)
  | unlink (path : Nat)
  | fopen (path : Nat)
  | fprintf (path : Nat) (text : List UInt8)
  /-- The text was not written. -/
  | failed (path : Nat)
  | fclose (path : Nat)
  | dlopen (handle : Nat)
  | dlclose (handle : Nat)
  | print (r : Reply)

/-- `loaded_handles` up to `loaded_count`, `expr_count`, and what was done. -/
structure State where
  loaded : List Nat
  exprCount : Nat
  trace : List Effect

namespace State

/-- Nothing has been typed. -/
def init : State := ⟨[], 0, []⟩

/-- One more effect. -/
def did (e : Effect) (s : State) : State := { s with trace := s.trace ++ [e] }

end State

/-! ## One command -/

/-- `make_temp_path`: `mkstemp` makes the file, under a name nobody else has. -/
def makeTempPath (answer : Option Nat) (s : State) : Option Nat × State :=
  match answer with
  | none => (none, s)
  | some path => (some path, s.did (.mkstemp path))

/-- The text of a source: a line, or a function under the wrapper's name that returns it. -/
def sourceText (line : List UInt8) : Option (List UInt8) → List UInt8
  | none => line ++ ascii "\n"
  | some wrapper => ascii "int " ++ wrapper ++ ascii "(void) \x7b return (" ++ line ++ ascii "); \x7d\n"

/-- `write_source`: true where `fopen`, `fprintf` and `fclose` all succeed. -/
def writeSource (path : Nat) (line : List UInt8) (wrapper : Option (List UInt8)) (a : Answers)
    (s : State) : Bool × State :=
  if a.fopen then
    let s := s.did (.fopen path)
    if a.fprintf then
      let s := s.did (.fprintf path (sourceText line wrapper))
      (a.fclose, s.did (.fclose path))
    -- `||` does not get to `fclose`
    else (false, s.did (.failed path))
  else (false, s)

/-- The loop around `waitpid`, which goes on after `EINTR`: true where the compiler exited with
    0. -/
def waitFor : Nat → Waited → Bool
  | n + 1, w => waitFor n w
  | 0, .exited status => status == 0
  | 0, _ => false

/-- `compile_shared_object`, in the parent. -/
def compileSharedObject (a : Answers) : Bool := a.fork && waitFor a.interrupts a.waited

/-- `cleanup_files`. -/
def cleanupFiles (source library : Nat) (s : State) : State :=
  (s.did (.unlink source)).did (.unlink library)

/-- `dlclose`, and what comes behind it. -/
def closeHandle {α : Type} (handle : Nat) (answer : Outcome Unit) (s : State)
    (next : Nat → State → Outcome α × State) : Outcome α × State :=
  match answer with
  | .gone => (.gone, s.did (.dlclose handle))
  | .returns taken () => next taken (s.did (.dlclose handle))

/-- `load_function_line`: the line is compiled and loaded, and its handle kept, if there is room for
    it.  On every way back both files are removed. -/
def loadFunctionLine (line : List UInt8) (a : Answers) (s : State) : Outcome Bool × State :=
  match makeTempPath a.source s with
  | (none, s) => (.returns 0 false, s)
  | (some source, s) =>
    match makeTempPath a.library s with
    | (none, s) => (.returns 0 false, s.did (.unlink source))
    | (some library, s) =>
      match writeSource source line none a s with
      | (false, s) => (.returns 0 false, cleanupFiles source library s)
      | (true, s) =>
        if compileSharedObject a = false then (.returns 0 false, cleanupFiles source library s)
        else
          match a.dlopen with
          | .gone => (.gone, s)
          | .returns n none => (.returns n false, cleanupFiles source library s)
          | .returns n (some handle) =>
            let s := s.did (.dlopen handle)
            if s.loaded.length ≥ maxHandles then
              closeHandle handle a.dlclose s fun m s =>
                (.returns (n + m) false, cleanupFiles source library s)
            else
              (.returns n true, cleanupFiles source library { s with loaded := s.loaded ++ [handle] })

/-- The name of a wrapper. -/
def wrapperName (n : Nat) : List UInt8 := ascii "__crepl_expr_" ++ ascii (toString n)

/-- `eval_expression_line`, with the result: the expression is wrapped, compiled, loaded and called,
    and its handle closed.  On every way back both files are removed; a call that does not come back
    leaves them, and the handle. -/
def evalExpressionLine (line : List UInt8) (a : Answers) (s : State) :
    Outcome (Option Int) × State :=
  let wrapper := wrapperName s.exprCount
  let s := { s with exprCount := (s.exprCount + 1) % 2 ^ 64 }
  match makeTempPath a.source s with
  | (none, s) => (.returns 0 none, s)
  | (some source, s) =>
    match makeTempPath a.library s with
    | (none, s) => (.returns 0 none, s.did (.unlink source))
    | (some library, s) =>
      match writeSource source line (some wrapper) a s with
      | (false, s) => (.returns 0 none, cleanupFiles source library s)
      | (true, s) =>
        if compileSharedObject a = false then (.returns 0 none, cleanupFiles source library s)
        else
          match a.dlopen with
          | .gone => (.gone, s)
          | .returns n none => (.returns n none, cleanupFiles source library s)
          | .returns n (some handle) =>
            let s := s.did (.dlopen handle)
            if a.dlsym = false then
              closeHandle handle a.dlclose s fun m s =>
                (.returns (n + m) none, cleanupFiles source library s)
            else
              match a.function with
              | .gone => (.gone, s)
              | .returns l result =>
                closeHandle handle a.dlclose s fun m s =>
                  (.returns (n + l + m) (some result), cleanupFiles source library s)

/-- What `main` does with one piece: nothing with a blank one, otherwise it prints one answer. -/
def command (input : List UInt8) (a : Answers) (s : State) : Outcome Unit × State :=
  if input = [] then (.returns 0 (), s)
  else if isFunctionDefinition input then
    match loadFunctionLine input a s with
    | (.gone, s) => (.gone, s)
    | (.returns taken true, s) => (.returns taken (), s.did (.print .ok))
    | (.returns taken false, s) => (.returns taken (), s.did (.print .error))
  else
    match evalExpressionLine input a s with
    | (.gone, s) => (.gone, s)
    | (.returns taken (some n), s) => (.returns taken (), s.did (.print (.value n)))
    | (.returns taken none, s) => (.returns taken (), s.did (.print .error))

/-! ## The loop -/

/-- The pieces `fgets` takes from the input, if nobody else takes any of it. -/
def pieces (stdin : List UInt8) : List (List UInt8) :=
  let got := fgets (maxLine - 1) stdin
  if h : got.line = [] then []
  else
    have := fgets_rest_lt h
    got.line :: pieces got.rest
  termination_by stdin.length

/-- The loop of `main`; `answers k` is what the outside world answers to the `k`th piece.  What
    typed code has taken from the input is gone for the loop. -/
def mainLoop (answers : Nat → Answers) (k : Nat) (stdin : List UInt8) (s : State) :
    Outcome Unit × State :=
  let got := fgets (maxLine - 1) stdin
  if h : got.line = [] then (.returns 0 (), s)
  else
    have := fgets_rest_lt h
    match command (inputOf got.line) (answers k) (s.did (.fgets got.line)) with
    | (.gone, s) => (.gone, s)
    | (.returns taken (), s) => mainLoop answers (k + 1) (got.rest.drop taken) s
  termination_by stdin.length
  decreasing_by
    rw [List.length_drop]
    exact Nat.lt_of_le_of_lt (Nat.sub_le _ _) this

/-- The handles are closed, the oldest first. -/
def closeAll (answers : Nat → Outcome Unit) : Nat → List Nat → State → Outcome Unit × State
  | _, [], s => (.returns 0 (), s)
  | k, handle :: handles, s =>
    closeHandle handle (answers k) s fun _ s => closeAll answers (k + 1) handles s

/-- `main`; `closing k` is what becomes of the `k`th `dlclose` at the end. -/
def main (answers : Nat → Answers) (closing : Nat → Outcome Unit) (stdin : List UInt8) :
    Outcome Unit × State :=
  match mainLoop answers 0 stdin .init with
  | (.gone, s) => (.gone, s)
  | (.returns _ (), s) => closeAll closing 0 s.loaded s

end Crepl
