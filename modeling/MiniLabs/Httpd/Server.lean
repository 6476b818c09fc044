/-
  httpd — the acceptor, the request queue, the workers and the log.

  1. **State** — the queue is the linked list of the source: a `request_t *` is a `Nat`, 0 is NULL,
     and `next` is a field of the node.  `log` and `answers` are not state of the program: `log` is
     what was printed, line by line, with the number of the request, and `answers` is what
     `handle_request` returned for each number.
  2. **Steps** — each critical section (of `enqueue`, `dequeue` and `ordered_log`) is one step of
     the acceptor or of one worker.  `pthread_cond_wait` is the guard of its step, and a step that
     no thread can take is `none`.  Any number of workers, any order of steps (`Reachable`).
  3. **What comes from outside** — `handle_request` takes any number of steps and returns any
     answer.  `malloc` may fail, and may hand out memory freed before.
  4. **What is idealised** — the numbers `next_seq` and `next_log_seq` are exact, and `turn_exact`
     says why that is none: two of them are compared only where they are closer together than there
     are workers.  `pthread_cond_wait` is taken to return once its condition holds: a wakeup for
     nothing tests the condition again, which is no step, and every request that is put in signals a
     worker.
-/
import Mathlib.Logic.Function.Basic
import Mathlib.Logic.Relation

set_option linter.unusedVariables false

namespace Httpd

/-- `request_t`. -/
structure Request where
  clientFd : Nat
  seq : Nat
  next : Nat
  deriving DecidableEq, Repr

/-- What `log_request` prints behind the time. -/
structure Entry where
  method : List UInt8
  path : List UInt8
  status : Nat
  deriving DecidableEq, Repr

/-- Where the main thread is: in `accept`, or in `enqueue` before `malloc` or before the lock. -/
inductive Acceptor
  | accept
  | malloc (clientFd : Nat)
  | insert (req : Nat)
  deriving DecidableEq, Repr

/-- Where a worker is. -/
inductive Worker
  | dequeue
  | handleRequest (req : Nat)
  | orderedLog (req : Nat) (entry : Entry)
  | free (req : Nat)
  deriving DecidableEq, Repr

/-- The server with `N` workers. -/
structure Server (N : Nat) where
  heap : Nat → Request
  live : Nat → Bool
  queueHead : Nat
  queueTail : Nat
  nextSeq : Nat
  nextLogSeq : Nat
  acceptor : Acceptor
  workers : Fin N → Worker
  log : List (Nat × Entry)
  answers : Nat → Option Entry

/-- What a thread does next. -/
inductive Event (N : Nat)
  /-- `accept` returns. -/
  | accept (clientFd : Nat)
  /-- `malloc` returns NULL, the connection is closed. -/
  | mallocFails
  /-- `malloc` returns `p`, whose `seq` is whatever was there; the other fields are set. -/
  | malloc (p junk : Nat)
  /-- The critical section of `enqueue`. -/
  | enqueue
  /-- The critical section of `dequeue`. -/
  | dequeue (w : Fin N)
  /-- `handle_request` goes on. -/
  | work (w : Fin N)
  /-- `handle_request` returns and the connection is closed. -/
  | respond (w : Fin N) (entry : Entry)
  /-- The critical section of `ordered_log`. -/
  | orderedLog (w : Fin N)
  /-- `free(req)`. -/
  | free (w : Fin N)
  deriving DecidableEq, Repr

namespace Server

variable {N : Nat}

/-- The server before the first connection. -/
def start (N : Nat) : Server N where
  heap _ := ⟨0, 0, 0⟩
  live _ := false
  queueHead := 0
  queueTail := 0
  nextSeq := 0
  nextLogSeq := 0
  acceptor := .accept
  workers _ := .dequeue
  log := []
  answers _ := none

/-- `enqueue` up to the lock, in memory that `malloc` found at `p`. -/
def malloc (s : Server N) (clientFd p junk : Nat) : Server N :=
  { s with
    live := Function.update s.live p true
    heap := Function.update s.heap p ⟨clientFd, junk, 0⟩
    acceptor := .insert p }

/-- `enqueue` behind `pthread_mutex_lock`: the node gets the next number and stands last in the
    queue. -/
def enqueue (s : Server N) (req : Nat) : Server N :=
  let heap := Function.update s.heap req { s.heap req with seq := s.nextSeq }
  { s with
    heap := if s.queueTail = 0 then heap
      else Function.update heap s.queueTail { heap s.queueTail with next := req }
    queueHead := if s.queueTail = 0 then req else s.queueHead
    queueTail := req
    nextSeq := s.nextSeq + 1
    acceptor := .accept }

/-- `dequeue` behind the wait: the first node leaves the queue, with the last one `queue_tail` is
    NULL. -/
def dequeue (s : Server N) (w : Fin N) : Server N :=
  let req := s.queueHead
  let head := (s.heap req).next
  { s with
    queueHead := head
    queueTail := if head = 0 then 0 else s.queueTail
    workers := Function.update s.workers w (.handleRequest req) }

/-- `handle_request` has returned. -/
def respond (s : Server N) (w : Fin N) (req : Nat) (entry : Entry) : Server N :=
  { s with
    answers := Function.update s.answers (s.heap req).seq (some entry)
    workers := Function.update s.workers w (.orderedLog req entry) }

/-- `ordered_log` behind the wait: the line is printed and the turn passed on. -/
def orderedLog (s : Server N) (w : Fin N) (req : Nat) (entry : Entry) : Server N :=
  { s with
    log := s.log ++ [((s.heap req).seq, entry)]
    nextLogSeq := s.nextLogSeq + 1
    workers := Function.update s.workers w (.free req) }

/-- `free(req)`. -/
def free (s : Server N) (w : Fin N) (req : Nat) : Server N :=
  { s with
    live := Function.update s.live req false
    workers := Function.update s.workers w .dequeue }

/-- One step. -/
def step (s : Server N) : Event N → Option (Server N)
  | .accept clientFd =>
    if s.acceptor = .accept then some { s with acceptor := .malloc clientFd } else none
  | .mallocFails =>
    match s.acceptor with
    | .malloc _ => some { s with acceptor := .accept }
    | _ => none
  | .malloc p junk =>
    match s.acceptor with
    | .malloc clientFd =>
      if p ≠ 0 ∧ s.live p = false then some (s.malloc clientFd p junk) else none
    | _ => none
  | .enqueue =>
    match s.acceptor with
    | .insert req => some (s.enqueue req)
    | _ => none
  | .dequeue w =>
    if s.workers w = .dequeue ∧ s.queueHead ≠ 0 then some (s.dequeue w) else none
  | .work w =>
    match s.workers w with
    | .handleRequest _ => some s
    | _ => none
  | .respond w entry =>
    match s.workers w with
    | .handleRequest req => some (s.respond w req entry)
    | _ => none
  | .orderedLog w =>
    match s.workers w with
    | .orderedLog req entry =>
      if (s.heap req).seq = s.nextLogSeq then some (s.orderedLog w req entry) else none
    | _ => none
  | .free w =>
    match s.workers w with
    | .free req => some (s.free w req)
    | _ => none

/-- Some thread takes a step. -/
def Step (s s' : Server N) : Prop := ∃ e, s.step e = some s'

/-- The states of the server, under any interleaving. -/
def Reachable (s : Server N) : Prop := Relation.ReflTransGen Step (start N) s

end Server
end Httpd
