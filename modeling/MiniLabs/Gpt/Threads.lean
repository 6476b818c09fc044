/-
  gpt — `thread.h` and `parallel_for`: threads, slots, and who runs which slice.

  1. **State** — the main thread makes the calls of `parallel_for` in `todo`, one after the other.
     `n_` is the number of slots in use, the length of `threads`.  `calls` is not state of the
     program: it is what was called, by whomever, in order.
  2. **Steps** — a thread that `spawn` has created may run at any time; it calls `range_worker` with
     its id and returns.  `undefined` is where a value does not fit, an array is left or NULL is
     called, `abort` where the assertion of `spawn` fails.
  3. **Integers** — whether a value fits an `int` is asked of `int`, which is `int32` or, for exact
     integers, `some`.
  4. **What is idealised** — `pthread_create` and `pthread_join` succeed.  All threads of the
     program have the entry `range_worker`, and `Fn` is a function together with its argument; a
     call of it is one step, as `Gpt.Trace` takes care of what happens inside.
-/
import Mathlib
import MiniLabs.Gpt.Kernels

set_option linter.unusedVariables false

namespace Gpt

/-- An `int` of 32 bits, or `none` where it overflows. -/
def int32 (x : Int) : Option Int := if -2 ^ 31 ≤ x ∧ x < 2 ^ 31 then some x else none

/-- `LENGTH(threads_)`. -/
def threadSlots : Nat := 4096

/-- The status of a slot in use. -/
inductive Status
  | live
  | dead
  deriving DecidableEq, Repr

/-- `struct thread`; `returned` says that its function has returned, which `pthread_join` waits
    for. -/
structure Thread where
  id : Int
  status : Status
  returned : Bool
  deriving DecidableEq, Repr

/-- Where the main thread is. -/
inductive Main (Fn : Type)
  /-- Between two calls of `parallel_for`. -/
  | idle
  /-- In the loop that spawns, behind `i` rounds. -/
  | spawning (fn : Fn) (n i : Int)
  /-- In `join`, at slot `i`. -/
  | joining (i : Nat)
  /-- Undefined behaviour. -/
  | undefined
  /-- The assertion of `spawn` has failed. -/
  | abort
  deriving DecidableEq, Repr

/-- The program is over, with an error. -/
def Main.stopped {Fn : Type} : Main Fn → Bool
  | .undefined | .abort => true
  | _ => false

/-- The threads and the variables they share. -/
structure Machine (Fn : Type) where
  workerCount : Int
  currentRangeFn : Option Fn
  currentSlices : List (Int × Int)
  currentBaseId : Int
  threads : List Thread
  main : Main Fn
  todo : List (Fn × Int × Int)
  calls : List (Fn × Int × Int)

/-- Whose turn it is: the main thread's, or that of the thread in slot `k`. -/
inductive Turn
  | main
  | work (k : Nat)
  deriving DecidableEq, Repr

namespace Machine

variable {Fn : Type} (int : Int → Option Int)

/-- Before the first call. -/
def start (workerCount : Int) (todo : List (Fn × Int × Int)) : Machine Fn where
  workerCount := workerCount
  currentRangeFn := none
  currentSlices := List.replicate maxWorkers (0, 0)
  currentBaseId := 0
  threads := []
  main := .idle
  todo := todo
  calls := []

/-- `spawn(range_worker)`: the next slot is taken, with an id from 1 on.  `none` where the assertion
    on `n_` fails. -/
def spawn (s : Machine Fn) : Option (Machine Fn) :=
  if s.threads.length < threadSlots then
    some { s with threads := s.threads ++ [⟨s.threads.length + 1, .live, false⟩] }
  else none

/-- `n` of `parallel_for`: `worker_count`, at least 1, at most `MAX_WORKERS`, at most `total`. -/
def workers (workerCount total : Int) : Int :=
  let n := workerCount
  let n := if n < 1 then 1 else n
  let n := if n > maxWorkers then (maxWorkers : Int) else n
  if n > total then total else n

/-- One round of the loop that sets `current_slices`: the product, the two sums, and the slice cut
    to `end`. -/
def setSlice (begin_ end_ span : Int) (slices : List (Int × Int)) (i : Nat) :
    Option (List (Int × Int)) :=
  (int (i * span)).bind fun offset =>
    (int (begin_ + offset)).bind fun b =>
      (int (b + span)).bind fun e =>
        if i < slices.length then some (slices.set i (b, if e > end_ then end_ else e)) else none

/-- `span`, the total divided by `n` and rounded up, and the loop that sets `current_slices`. -/
def setSlices (begin_ end_ total n : Int) (slices : List (Int × Int)) :
    Option (List (Int × Int)) :=
  (int (total + n)).bind fun sum =>
    (int (sum - 1)).bind fun sum =>
      (List.range n.toNat).foldlM (setSlice int begin_ end_ (sum.tdiv n)) slices

/-- `parallel_for`, up to the loop that spawns: an empty range is done at once, otherwise the
    function, the slices and the first id are published. -/
def parallelFor (s : Machine Fn) (fn : Fn) (begin_ end_ : Int) : Machine Fn :=
  match int (end_ - begin_) with
  | none => { s with main := .undefined }
  | some total =>
    if total ≤ 0 then s
    else
      let n := workers s.workerCount total
      match setSlices int begin_ end_ total n s.currentSlices with
      | none => { s with main := .undefined }
      | some slices =>
        { s with
          currentRangeFn := some fn
          currentSlices := slices
          currentBaseId := s.threads.length
          main := .spawning fn n 0 }

/-- `fn(main_slice.begin, main_slice.end, arg)`. -/
def callMain (s : Machine Fn) (fn : Fn) (n : Int) : Machine Fn :=
  match s.currentSlices[(n - 1).toNat]? with
  | none => { s with main := .undefined }
  | some slice => { s with calls := s.calls ++ [(fn, slice)], main := .joining 0 }

/-- One round of `join`, which goes through all slots of the program, those of earlier calls too;
    `none` where `pthread_join` has to wait. -/
def join (s : Machine Fn) (i : Nat) : Option (Machine Fn) :=
  match s.threads[i]? with
  | none => some { s with main := .idle }
  | some t =>
    if t.status = .live then
      if t.returned then
        some { s with threads := s.threads.set i { t with status := .dead }, main := .joining (i + 1) }
      else none
    else some { s with main := .joining (i + 1) }

/-- `range_worker`, in the thread with this id: its slice is the one at `id - current_base_id - 1`,
    if that is below `worker_count`. -/
def rangeWorker (s : Machine Fn) (id : Int) : Machine Fn :=
  match (int (id - s.currentBaseId)).bind fun index => int (index - 1) with
  | none => { s with main := .undefined }
  | some index =>
    if 0 ≤ index ∧ index < s.workerCount then
      match s.currentSlices[index.toNat]?, s.currentRangeFn with
      | some slice, some fn => { s with calls := s.calls ++ [(fn, slice)] }
      | _, _ => { s with main := .undefined }
    else s

/-- One step; `none` where the thread can take none. -/
def step (s : Machine Fn) : Turn → Option (Machine Fn)
  | .main =>
    match s.main with
    | .idle =>
      match s.todo with
      | [] => none
      | (fn, begin_, end_) :: todo => some (parallelFor int { s with todo := todo } fn begin_ end_)
    | .spawning fn n i =>
      if i + 1 < n then
        match s.spawn with
        | none => some { s with main := .abort }
        | some s => some { s with main := .spawning fn n (i + 1) }
      else some (s.callMain fn n)
    | .joining i => s.join i
    | .undefined => none
    | .abort => none
  | .work k =>
    if s.main.stopped then none
    else
      match s.threads[k]? with
      | none => none
      | some t =>
        if t.returned then none
        else
          some (rangeWorker int { s with threads := s.threads.set k { t with returned := true } } t.id)

/-- Some thread takes a step. -/
def Step (s s' : Machine Fn) : Prop := ∃ turn, step int s turn = some s'

/-- The states of the program, under any interleaving. -/
def Reachable (workerCount : Int) (todo : List (Fn × Int × Int)) (s : Machine Fn) : Prop :=
  Relation.ReflTransGen (Step int) (start workerCount todo) s

end Machine
end Gpt
