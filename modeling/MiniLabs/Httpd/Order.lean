/-
  httpd — the log is in order and loses nothing, and the workers cannot jam.

  1. **Specification** — `Orderly`: the log has the entries of the requests 0, 1, … in this order,
     each what `handle_request` answered; a number that is out and not logged is in exactly one
     place, in the queue or with a worker; a worker that waits for its turn waits for one that does
     not.  `reachable_orderly` says it of every state under every interleaving.

  2. **The invariant (`Inv s q taken`)** — the queue holds the nodes `q`, numbered from `taken` on,
     and the numbers below are logged or held by one worker each: the numbers are `Tickets`.  Every
     step keeps it, each by a lemma of its own.

  3. **The counters** — they are exact here and 64 bits wide in the program.  No worker can tell
     (`turn_exact`): it compares numbers that are closer together than there are workers.  `sperf`
     compares its counter with one that may be any number of records old, so there the width
     matters and the counter is a `UInt64`.
-/
import MiniLabs.Httpd.Server
import MiniLabs.Lib.LinkQueue
import MiniLabs.Lib.Tickets
import Mathlib.Algebra.Order.Ring.Int
import Mathlib.Data.List.Nodup

set_option linter.unusedVariables false

namespace Httpd

open LinkQueue Function

/-- The request a worker has. -/
def Worker.req : Worker → Option Nat
  | .dequeue => none
  | .handleRequest req => some req
  | .orderedLog req _ => some req
  | .free req => some req

namespace Server

variable {N : Nat}

/-- `next` as a function. -/
def next (s : Server N) (p : Nat) : Nat := (s.heap p).next

/-- The number a worker has taken and not logged. -/
def number (s : Server N) (w : Fin N) : Option Nat :=
  match s.workers w with
  | .handleRequest req => some (s.heap req).seq
  | .orderedLog req _ => some (s.heap req).seq
  | _ => none

/-- The numbers as tickets, when those below `taken` have left the queue. -/
def tickets (s : Server N) (taken : Nat) : Tickets (Fin N) :=
  ⟨s.nextSeq, taken, s.number, s.nextLogSeq⟩

/-- The invariant. -/
structure Inv (s : Server N) (q : List Nat) (taken : Nat) : Prop where
  queue : Linked 0 s.next s.queueHead s.queueTail q
  numbers : q.map (fun p => (s.heap p).seq) = List.range' taken q.length
  issued : taken + q.length = s.nextSeq
  tickets : (s.tickets taken).Sound
  queue_live : ∀ p ∈ q, s.live p = true
  worker_live : ∀ w r, (s.workers w).req = some r → s.live r = true ∧ r ∉ q
  worker_apart : ∀ w w' r, (s.workers w).req = some r → (s.workers w').req = some r → w = w'
  insert_live : ∀ r, s.acceptor = .insert r → s.live r = true ∧ r ≠ 0 ∧ r ∉ q ∧ s.next r = 0 ∧
    ∀ w, (s.workers w).req ≠ some r
  log_numbers : s.log.map Prod.fst = List.range s.nextLogSeq
  log_answers : ∀ k e, (k, e) ∈ s.log → s.answers k = some e
  pending : ∀ w r e, s.workers w = .orderedLog r e → s.answers (s.heap r).seq = some e

/-- The invariant holds at the start. -/
theorem inv_start : Inv (start N) [] 0 where
  queue := ⟨rfl, rfl, List.Pairwise.nil⟩
  numbers := rfl
  issued := rfl
  tickets := Tickets.sound_start
  queue_live := fun p hp => absurd hp List.not_mem_nil
  worker_live := fun w r h => nomatch h
  worker_apart := fun w w' r h => nomatch h
  insert_live := fun r h => nomatch h
  log_numbers := rfl
  log_answers := fun k e h => absurd h List.not_mem_nil
  pending := fun w r e h => nomatch h

/-! ## What a step does -/

/-- The number of a worker hangs on its own node only. -/
theorem number_congr {s s' : Server N} (hw : s'.workers = s.workers)
    (hseq : ∀ w r, (s.workers w).req = some r → (s'.heap r).seq = (s.heap r).seq) :
    s'.number = s.number := by
  funext w
  have h := hseq w
  rw [number, number, hw]
  cases hs : s.workers w with
  | dequeue => rfl
  | handleRequest r => exact congrArg some (h r (by rw [hs]; rfl))
  | orderedLog r e => exact congrArg some (h r (by rw [hs]; rfl))
  | free r => rfl

/-- A step of a worker changes its own number only. -/
theorem number_update (s s' : Server N) (w : Fin N) {a : Worker} (hheap : s'.heap = s.heap)
    (hw : s'.workers = update s.workers w a) : s'.number = update s.number w (s'.number w) := by
  funext w'
  by_cases hww : w' = w
  · subst hww
    rw [update_self]
  · rw [update_of_ne hww, number, number, hw, update_of_ne hww, hheap]

/-- The new node has the next number. -/
theorem enqueue_seq (s : Server N) (r p : Nat) :
    ((s.enqueue r).heap p).seq = if p = r then s.nextSeq else (s.heap p).seq := by
  rw [enqueue]
  dsimp only
  by_cases htail : s.queueTail = 0
  · rw [if_pos htail]
    by_cases hp : p = r
    · subst hp
      rw [update_self, if_pos rfl]
    · rw [update_of_ne hp, if_neg hp]
  · rw [if_neg htail]
    by_cases hpt : p = s.queueTail
    · subst hpt
      rw [update_self]
      by_cases hp : s.queueTail = r
      · rw [if_pos hp, hp, update_self]
      · rw [if_neg hp, update_of_ne hp]
    · rw [update_of_ne hpt]
      by_cases hp : p = r
      · subst hp
        rw [update_self, if_pos rfl]
      · rw [update_of_ne hp, if_neg hp]

/-- The last node is linked to the new one. -/
theorem enqueue_next (s : Server N) (r : Nat) : (s.enqueue r).next =
    if s.queueTail = 0 then s.next else update s.next s.queueTail r := by
  funext p
  have hseq : (update s.heap r { s.heap r with seq := s.nextSeq } p).next = (s.heap p).next := by
    by_cases hp : p = r
    · subst hp
      rw [update_self]
    · rw [update_of_ne hp]
  rw [next, enqueue]
  dsimp only
  split
  · exact hseq
  · by_cases hpt : p = s.queueTail
    · subst hpt
      rw [update_self, update_self]
    · rw [update_of_ne hpt, update_of_ne hpt]
      exact hseq

/-! ## Every step keeps the invariant -/

namespace Inv

variable {s : Server N} {q : List Nat} {taken : Nat}

/-- The acceptor goes on without a node. -/
theorem acceptor (h : s.Inv q taken) {a : Acceptor} (ha : ∀ r, a ≠ .insert r) :
    Inv { s with acceptor := a } q taken :=
  ⟨h.queue, h.numbers, h.issued, h.tickets, h.queue_live, h.worker_live, h.worker_apart,
    fun r hr => absurd hr (ha r), h.log_numbers, h.log_answers, h.pending⟩

/-- A new node disturbs nobody. -/
theorem malloc (h : s.Inv q taken) {p : Nat} (hp : p ≠ 0) (hfree : s.live p = false)
    (clientFd junk : Nat) : (s.malloc clientFd p junk).Inv q taken := by
  -- the memory is nobody's
  have hq : ∀ x ∈ q, x ≠ p := by
    rintro x hx rfl
    rw [h.queue_live x hx] at hfree
    cases hfree
  have hw : ∀ w r, (s.workers w).req = some r → r ≠ p := by
    rintro w r hr rfl
    rw [(h.worker_live w r hr).1] at hfree
    cases hfree
  have hlive : ∀ x, s.live x = true → update s.live p true x = true := by
    intro x hx
    by_cases hxp : x = p
    · rw [hxp, update_self]
    · rw [update_of_ne hxp]
      exact hx
  have hheap : ∀ x, x ≠ p → (s.malloc clientFd p junk).heap x = s.heap x :=
    fun x hx => update_of_ne hx _ _
  have hnumber : (s.malloc clientFd p junk).number = s.number :=
    number_congr rfl fun w r hr => congrArg Request.seq (hheap r (hw w r hr))
  refine ⟨?_, ?_, h.issued, ?_, fun x hx => hlive x (h.queue_live x hx), ?_, h.worker_apart, ?_,
    h.log_numbers, h.log_answers, ?_⟩
  · exact h.queue.congr fun x hx => congrArg Request.next (hheap x (hq x hx))
  · rw [← h.numbers]
    exact List.map_congr_left fun x hx => congrArg Request.seq (hheap x (hq x hx))
  · rw [Server.tickets, hnumber]
    exact h.tickets
  · exact fun w r hr => ⟨hlive r (h.worker_live w r hr).1, (h.worker_live w r hr).2⟩
  · intro r hr
    cases hr
    refine ⟨update_self _ _ _, hp, fun hmem => hq p hmem rfl, ?_, fun w hr => hw w p hr rfl⟩
    rw [next, Server.malloc]
    dsimp only
    rw [update_self]
  · intro w r e hr
    have hreq : (s.workers w).req = some r := by
      rw [show s.workers w = .orderedLog r e from hr]
      rfl
    have hans := h.pending w r e hr
    rwa [← hheap r (hw w r hreq)] at hans

/-- **`enqueue` keeps the invariant**: the new node is the last one. -/
theorem enqueue (h : s.Inv q taken) {r : Nat} (hr : s.acceptor = .insert r) :
    (s.enqueue r).Inv (q ++ [r]) taken := by
  obtain ⟨hlive, hr0, hrq, hnext, hrw⟩ := h.insert_live r hr
  have hseq : ∀ x, x ≠ r → ((s.enqueue r).heap x).seq = (s.heap x).seq := by
    intro x hx
    rw [enqueue_seq, if_neg hx]
  have hworker : ∀ w x, (s.workers w).req = some x → x ≠ r := by
    rintro w x hx rfl
    exact hrw w hx
  have hnumber : (s.enqueue r).number = s.number :=
    number_congr rfl fun w x hx => hseq x (hworker w x hx)
  refine ⟨?_, ?_, ?_, ?_, ?_, ?_, h.worker_apart, ?_, h.log_numbers, h.log_answers, ?_⟩
  · rw [enqueue_next]
    exact h.queue.push hr0 hrq hnext
  · rw [List.map_append, List.length_append, List.length_singleton, List.range'_concat,
      ← h.numbers, List.map_singleton, enqueue_seq, if_pos rfl, Nat.one_mul, h.issued]
    congr 1
    exact List.map_congr_left fun x hx => hseq x fun hxr => hrq (hxr ▸ hx)
  · rw [List.length_append, ← Nat.add_assoc, h.issued]
    rfl
  · rw [Server.tickets, hnumber]
    exact h.tickets.issue
  · intro p hp
    rcases List.mem_append.mp hp with hp | hp
    · exact h.queue_live p hp
    · rw [List.mem_singleton.mp hp]
      exact hlive
  · intro w x hx
    refine ⟨(h.worker_live w x hx).1, ?_⟩
    rw [List.mem_append, List.mem_singleton]
    rintro (hmem | hxr)
    · exact (h.worker_live w x hx).2 hmem
    · exact hworker w x hx hxr
  · exact fun x hx => nomatch hx
  · intro w x e hx
    have hreq : (s.workers w).req = some x := by
      rw [show s.workers w = .orderedLog x e from hx]
      rfl
    have hans := h.pending w x e hx
    rwa [← hseq x (hworker w x hreq)] at hans

/-- **`dequeue` keeps the invariant**: its worker holds the first number that was waiting. -/
theorem dequeue (h : s.Inv q taken) {w : Fin N} (hw : s.workers w = .dequeue)
    (hhead : s.queueHead ≠ 0) : ∃ q', (s.dequeue w).Inv q' (taken + 1) := by
  cases q with
  | nil => exact absurd (h.queue.head_null.mpr rfl) hhead
  | cons x q =>
    have hx : s.queueHead = x := h.queue.chain.1
    have hnumbers := h.numbers
    rw [List.map_cons, List.length_cons, List.range'_succ] at hnumbers
    obtain ⟨hseq, hrest⟩ := List.cons.inj hnumbers
    have hxq : x ∉ q := (List.nodup_cons.mp h.queue.nodup).1
    have hxw : ∀ w', (s.workers w').req ≠ some x := fun w' hw' =>
      (h.worker_live w' x hw').2 List.mem_cons_self
    have hnumber : (s.dequeue w).number = update s.number w (some taken) := by
      refine (number_update s (s.dequeue w) w rfl rfl).trans (congrArg _ ?_)
      show (match update s.workers w (.handleRequest s.queueHead) w with
        | .handleRequest req => some (s.heap req).seq
        | .orderedLog req _ => some (s.heap req).seq
        | _ => none) = some taken
      rw [update_self, hx, ← hseq]
    have hcase : ∀ w' r, ((s.dequeue w).workers w').req = some r →
        (w' = w ∧ r = x) ∨ (w' ≠ w ∧ (s.workers w').req = some r) := by
      intro w' r hr
      by_cases hww : w' = w
      · subst hww
        have hr' : ((update s.workers w' (.handleRequest s.queueHead)) w').req = some r := hr
        rw [update_self, hx] at hr'
        cases hr'
        exact Or.inl ⟨rfl, rfl⟩
      · have hr' : ((update s.workers w (.handleRequest s.queueHead)) w').req = some r := hr
        rw [update_of_ne hww] at hr'
        exact Or.inr ⟨hww, hr'⟩
    refine ⟨q, ?_, hrest, ?_, ?_, ?_, ?_, ?_, ?_, h.log_numbers, h.log_answers, ?_⟩
    · have hpop := h.queue.pop
      rw [← hx] at hpop
      exact hpop
    · have hissued := h.issued
      rw [List.length_cons] at hissued
      show taken + 1 + q.length = s.nextSeq
      omega
    · rw [Server.tickets, hnumber]
      refine h.tickets.take ?_ ?_
      · show s.number w = none
        rw [number, hw]
      · show taken < s.nextSeq
        rw [← h.issued, List.length_cons]
        omega
    · exact fun p hp => h.queue_live p (List.mem_cons_of_mem x hp)
    · intro w' r hr
      rcases hcase w' r hr with ⟨-, rfl⟩ | ⟨-, hr⟩
      · exact ⟨h.queue_live r List.mem_cons_self, hxq⟩
      · exact ⟨(h.worker_live w' r hr).1, fun hm =>
          (h.worker_live w' r hr).2 (List.mem_cons_of_mem x hm)⟩
    · intro a b r ha hb
      rcases hcase a r ha with ⟨hwa, hra⟩ | ⟨-, hta⟩ <;>
        rcases hcase b r hb with ⟨hwb, hrb⟩ | ⟨-, htb⟩
      · rw [hwa, hwb]
      · exact absurd (hra ▸ htb) (hxw b)
      · exact absurd (hrb ▸ hta) (hxw a)
      · exact h.worker_apart a b r hta htb
    · intro r hr
      obtain ⟨hlive, hr0, hrq, hnext, hrw⟩ := h.insert_live r hr
      refine ⟨hlive, hr0, fun hm => hrq (List.mem_cons_of_mem x hm), hnext, fun w' hw' => ?_⟩
      rcases hcase w' r hw' with ⟨-, rfl⟩ | ⟨-, hw'⟩
      · exact hrq List.mem_cons_self
      · exact hrw w' hw'
    · intro w' r e hr
      have hr' : update s.workers w (.handleRequest s.queueHead) w' = .orderedLog r e := hr
      by_cases hww : w' = w
      · subst hww
        rw [update_self] at hr'
        cases hr'
      · rw [update_of_ne hww] at hr'
        exact h.pending w' r e hr'

/-- `handle_request` touches nothing of it. -/
theorem respond (h : s.Inv q taken) {w : Fin N} {r : Nat} (hw : s.workers w = .handleRequest r)
    (entry : Entry) : (s.respond w r entry).Inv q taken := by
  have hreq : (s.workers w).req = some r := by
    rw [hw]
    rfl
  have hheld : s.number w = some (s.heap r).seq := by rw [number, hw]
  have hreqs : ∀ w', ((s.respond w r entry).workers w').req = (s.workers w').req := by
    intro w'
    show (update s.workers w (.orderedLog r entry) w').req = _
    by_cases hww : w' = w
    · rw [hww, update_self, hreq]
      rfl
    · rw [update_of_ne hww]
  have hnumber : (s.respond w r entry).number = s.number := by
    rw [number_update s (s.respond w r entry) w rfl rfl]
    refine (congrArg _ ?_).trans (update_eq_self w s.number)
    rw [hheld, number]
    show (match update s.workers w (.orderedLog r entry) w with
      | .handleRequest req => some (s.heap req).seq
      | .orderedLog req _ => some (s.heap req).seq
      | _ => none) = _
    rw [update_self]
  -- the answer is new: the number is not logged and nobody else has it
  have hother : ∀ k, k ≠ (s.heap r).seq →
      (s.respond w r entry).answers k = s.answers k := fun k hk => update_of_ne hk _ _
  refine ⟨h.queue, h.numbers, h.issued, ?_, h.queue_live, ?_, ?_, ?_, h.log_numbers, ?_, ?_⟩
  · rw [Server.tickets, hnumber]
    exact h.tickets
  · intro w' x hx
    rw [hreqs] at hx
    exact h.worker_live w' x hx
  · intro a b x ha hb
    rw [hreqs] at ha hb
    exact h.worker_apart a b x ha hb
  · intro x hx
    obtain ⟨hlive, hx0, hxq, hnext, hxw⟩ := h.insert_live x hx
    refine ⟨hlive, hx0, hxq, hnext, fun w' hw' => ?_⟩
    rw [hreqs] at hw'
    exact hxw w' hw'
  · intro k e hk
    rw [hother k ?_]
    · exact h.log_answers k e hk
    · have hlt : k < s.nextLogSeq := by
        rw [← List.mem_range, ← h.log_numbers]
        exact List.mem_map_of_mem hk
      have hge := (h.tickets.bounds w _ hheld).1
      exact fun hkr => absurd (Nat.lt_of_lt_of_le hlt hge) (by rw [hkr]; exact Nat.lt_irrefl _)
  · intro w' x e hx
    have hx' : update s.workers w (.orderedLog r entry) w' = .orderedLog x e := hx
    by_cases hww : w' = w
    · rw [hww, update_self] at hx'
      cases hx'
      exact update_self _ _ _
    · rw [update_of_ne hww] at hx'
      have hheld' : s.number w' = some (s.heap x).seq := by rw [number, hx']
      refine (hother _ fun heq => hww ?_).trans (h.pending w' x e hx')
      exact h.tickets.unique w' w _ hheld' (heq ▸ hheld)

/-- **`ordered_log` keeps the invariant**: the number whose turn it is has been logged. -/
theorem orderedLog (h : s.Inv q taken) {w : Fin N} {r : Nat} {entry : Entry}
    (hw : s.workers w = .orderedLog r entry) (hturn : (s.heap r).seq = s.nextLogSeq) :
    (s.orderedLog w r entry).Inv q taken := by
  have hreq : (s.workers w).req = some r := by
    rw [hw]
    rfl
  have hheld : s.number w = some s.nextLogSeq := by rw [number, hw, ← hturn]
  have hreqs : ∀ w', ((s.orderedLog w r entry).workers w').req = (s.workers w').req := by
    intro w'
    show (update s.workers w (.free r) w').req = _
    by_cases hww : w' = w
    · rw [hww, update_self, hreq]
      rfl
    · rw [update_of_ne hww]
  have hnumber : (s.orderedLog w r entry).number = update s.number w none := by
    refine (number_update s (s.orderedLog w r entry) w rfl rfl).trans (congrArg _ ?_)
    show (match update s.workers w (.free r) w with
      | .handleRequest req => some (s.heap req).seq
      | .orderedLog req _ => some (s.heap req).seq
      | _ => none) = none
    rw [update_self]
  refine ⟨h.queue, h.numbers, h.issued, ?_, h.queue_live, ?_, ?_, ?_, ?_, ?_, ?_⟩
  · rw [Server.tickets, hnumber]
    exact h.tickets.finish hheld
  · intro w' x hx
    rw [hreqs] at hx
    exact h.worker_live w' x hx
  · intro a b x ha hb
    rw [hreqs] at ha hb
    exact h.worker_apart a b x ha hb
  · intro x hx
    obtain ⟨hlive, hx0, hxq, hnext, hxw⟩ := h.insert_live x hx
    refine ⟨hlive, hx0, hxq, hnext, fun w' hw' => ?_⟩
    rw [hreqs] at hw'
    exact hxw w' hw'
  · show (s.log ++ [((s.heap r).seq, entry)]).map Prod.fst = List.range (s.nextLogSeq + 1)
    rw [List.map_append, h.log_numbers, hturn, List.range_succ]
    rfl
  · intro k e hk
    rcases List.mem_append.mp hk with hk | hk
    · exact h.log_answers k e hk
    · cases List.mem_singleton.mp hk
      exact h.pending w r entry hw
  · intro w' x e hx
    have hx' : update s.workers w (.free r) w' = .orderedLog x e := hx
    by_cases hww : w' = w
    · rw [hww, update_self] at hx'
      cases hx'
    · rw [update_of_ne hww] at hx'
      exact h.pending w' x e hx'

/-- Freeing a node disturbs nobody, as its number has been logged. -/
theorem free (h : s.Inv q taken) {w : Fin N} {r : Nat} (hw : s.workers w = .free r) :
    (s.free w r).Inv q taken := by
  have hreq : (s.workers w).req = some r := by
    rw [hw]
    rfl
  have hreqs : ∀ w' x, ((s.free w r).workers w').req = some x →
      w' ≠ w ∧ (s.workers w').req = some x := by
    intro w' x hx
    have hx' : (update s.workers w .dequeue w').req = some x := hx
    by_cases hww : w' = w
    · rw [hww, update_self] at hx'
      cases hx'
    · rw [update_of_ne hww] at hx'
      exact ⟨hww, hx'⟩
  have hlive : ∀ x, x ≠ r → (s.free w r).live x = s.live x := fun x hx => update_of_ne hx _ _
  have hnumber : (s.free w r).number = s.number := by
    rw [number_update s (s.free w r) w rfl rfl]
    refine (congrArg _ ?_).trans (update_eq_self w s.number)
    rw [number, number, hw]
    show (match update s.workers w .dequeue w with
      | .handleRequest req => some (s.heap req).seq
      | .orderedLog req _ => some (s.heap req).seq
      | _ => none) = none
    rw [update_self]
  refine ⟨h.queue, h.numbers, h.issued, ?_, ?_, ?_, ?_, ?_, h.log_numbers, h.log_answers, ?_⟩
  · rw [Server.tickets, hnumber]
    exact h.tickets
  · intro p hp
    rw [hlive p fun hpr => (h.worker_live w r hreq).2 (hpr ▸ hp)]
    exact h.queue_live p hp
  · intro w' x hx
    obtain ⟨hne, hx⟩ := hreqs w' x hx
    rw [hlive x fun hxr => hne (h.worker_apart w' w r (hxr ▸ hx) hreq)]
    exact h.worker_live w' x hx
  · intro a b x ha hb
    exact h.worker_apart a b x (hreqs a x ha).2 (hreqs b x hb).2
  · intro x hx
    obtain ⟨hxlive, hx0, hxq, hnext, hxw⟩ := h.insert_live x hx
    rw [hlive x fun hxr => hxw w (hxr ▸ hreq)]
    exact ⟨hxlive, hx0, hxq, hnext, fun w' hw' => hxw w' (hreqs w' x hw').2⟩
  · intro w' x e hx
    have hx' : update s.workers w .dequeue w' = .orderedLog x e := hx
    by_cases hww : w' = w
    · rw [hww, update_self] at hx'
      cases hx'
    · rw [update_of_ne hww] at hx'
      exact h.pending w' x e hx'

/-- **Every step keeps the invariant.** -/
theorem step (h : s.Inv q taken) {e : Event N} {s' : Server N} (hs : s.step e = some s') :
    ∃ q' taken', s'.Inv q' taken' := by
  cases e with
  | accept clientFd =>
    simp only [Server.step, Option.ite_none_right_eq_some] at hs
    obtain ⟨-, hs⟩ := hs
    cases hs
    exact ⟨q, taken, h.acceptor fun r => Acceptor.noConfusion⟩
  | mallocFails =>
    rw [Server.step] at hs
    split at hs <;> cases hs
    exact ⟨q, taken, h.acceptor fun r => Acceptor.noConfusion⟩
  | malloc p junk =>
    rw [Server.step] at hs
    split at hs
    · rw [Option.ite_none_right_eq_some] at hs
      obtain ⟨⟨hp, hfree⟩, hs⟩ := hs
      cases hs
      exact ⟨q, taken, h.malloc hp hfree _ junk⟩
    · cases hs
  | enqueue =>
    rw [Server.step] at hs
    split at hs
    · rename_i req hreq
      cases hs
      exact ⟨q ++ [req], taken, h.enqueue hreq⟩
    · cases hs
  | dequeue w =>
    simp only [Server.step, Option.ite_none_right_eq_some] at hs
    obtain ⟨⟨hw, hhead⟩, hs⟩ := hs
    cases hs
    obtain ⟨q', hq'⟩ := h.dequeue hw hhead
    exact ⟨q', taken + 1, hq'⟩
  | work w =>
    rw [Server.step] at hs
    split at hs <;> cases hs
    exact ⟨q, taken, h⟩
  | respond w entry =>
    rw [Server.step] at hs
    split at hs
    · rename_i req hw
      cases hs
      exact ⟨q, taken, h.respond hw entry⟩
    · cases hs
  | orderedLog w =>
    rw [Server.step] at hs
    split at hs
    · rename_i req entry hw
      rw [Option.ite_none_right_eq_some] at hs
      obtain ⟨hturn, hs⟩ := hs
      cases hs
      exact ⟨q, taken, h.orderedLog hw hturn⟩
    · cases hs
  | free w =>
    rw [Server.step] at hs
    split at hs
    · rename_i req hw
      cases hs
      exact ⟨q, taken, h.free hw⟩
    · cases hs

end Inv

/-- Every reachable state has the invariant. -/
theorem Reachable.inv {s : Server N} (hs : s.Reachable) : ∃ q taken, s.Inv q taken := by
  induction hs with
  | refl => exact ⟨[], 0, inv_start⟩
  | tail _ hstep ih =>
    obtain ⟨e, he⟩ := hstep
    obtain ⟨q, taken, h⟩ := ih
    exact h.step he

/-! ## The result -/

/-- Where the number of a request can be: in the queue, or with a worker. -/
inductive Place (N : Nat)
  | queued (p : Nat)
  | held (w : Fin N)

/-- Number `k` is there. -/
def At (s : Server N) : Place N → Nat → Prop
  | .queued p, k => Met 0 s.next s.queueHead p ∧ (s.heap p).seq = k
  | .held w, k => s.number w = some k

/-- The worker waits in `ordered_log`. -/
def Blocked (s : Server N) (w : Fin N) : Prop :=
  ∃ req entry, s.workers w = .orderedLog req entry ∧ (s.heap req).seq ≠ s.nextLogSeq

/-- The log is in order, nothing is lost, and the server goes on. -/
structure Orderly (s : Server N) : Prop where
  /-- The log has the entries of the requests 0, 1, …, one each. -/
  log_numbers : s.log.map Prod.fst = List.range s.nextLogSeq
  /-- They are what `handle_request` answered. -/
  log_answers : ∀ k e, (k, e) ∈ s.log → s.answers k = some e
  /-- A number issued and not yet logged is in exactly one place. -/
  one_place : ∀ k, s.nextLogSeq ≤ k → k < s.nextSeq → ∃! place, s.At place k
  tail_null : s.queueTail = 0 ↔ s.queueHead = 0
  /-- A worker that waits for its turn waits for one that does not. -/
  blocked : ∀ w, s.Blocked w → ∃ w', w' ≠ w ∧ s.number w' = some s.nextLogSeq ∧ ¬ s.Blocked w'
  some_free : ∃ w, ¬ s.Blocked w
  /-- When `malloc` fails only the connection is gone. -/
  malloc_fails : ∀ s', s.step .mallocFails = some s' → s' = { s with acceptor := .accept }

section Places

variable {s : Server N} {q : List Nat} {taken : Nat}

/-- Where a number stands that is in the queue. -/
theorem Inv.queued_iff (h : s.Inv q taken) (p k : Nat) :
    s.At (.queued p) k ↔ p ∈ q ∧ (s.heap p).seq = k := by
  rw [At, h.queue.chain.met_iff]

/-- The numbers in the queue are those from `taken` on. -/
theorem Inv.queued_ge (h : s.Inv q taken) {p : Nat} (hp : p ∈ q) : taken ≤ (s.heap p).seq := by
  have hmem : (s.heap p).seq ∈ List.range' taken q.length := by
    rw [← h.numbers]
    exact List.mem_map_of_mem hp
  exact (List.mem_range'_1.mp hmem).1

/-- **A number that is out is in one place.**. -/
theorem Inv.one_place (h : s.Inv q taken) {k : Nat} (hlog : s.nextLogSeq ≤ k)
    (hseq : k < s.nextSeq) : ∃! place, s.At place k := by
  have hheld : ∀ w j, s.number w = some j → j < taken := fun w j hw => (h.tickets.bounds w j hw).2
  by_cases hk : k < taken
  · obtain ⟨w, hw⟩ := h.tickets.holder k hlog hk
    refine ⟨.held w, hw, ?_⟩
    rintro (p | w') hplace
    · obtain ⟨hp, hpk⟩ := (h.queued_iff p k).mp hplace
      have hge := h.queued_ge hp
      omega
    · rw [h.tickets.unique w' w k hplace hw]
  · have hmem : k ∈ q.map fun p => (s.heap p).seq := by
      rw [h.numbers, List.mem_range'_1, h.issued]
      exact ⟨Nat.le_of_not_lt hk, hseq⟩
    obtain ⟨p, hp, hpk⟩ := List.mem_map.mp hmem
    refine ⟨.queued p, (h.queued_iff p k).mpr ⟨hp, hpk⟩, ?_⟩
    rintro (p' | w) hplace
    · obtain ⟨hp', hpk'⟩ := (h.queued_iff p' k).mp hplace
      have hnodup : (q.map fun p => (s.heap p).seq).Nodup := by
        rw [h.numbers]
        exact List.nodup_range'
      rw [List.inj_on_of_nodup_map hnodup hp' hp (hpk'.trans hpk.symm)]
    · exact absurd (hheld w k hplace) hk

/-- **Who waits, waits for a worker that does not.**. -/
theorem Inv.blocked (h : s.Inv q taken) {w : Fin N} (hw : s.Blocked w) :
    ∃ w', w' ≠ w ∧ s.number w' = some s.nextLogSeq ∧ ¬ s.Blocked w' := by
  obtain ⟨req, entry, hworker, hne⟩ := hw
  have hnumber : s.number w = some (s.heap req).seq := by rw [number, hworker]
  obtain ⟨w', hww, hw'⟩ := h.tickets.front_held hnumber hne
  refine ⟨w', hww, hw', ?_⟩
  rintro ⟨req', entry', hworker', hne'⟩
  have hnumber' : s.number w' = some (s.heap req').seq := by rw [number, hworker']
  exact hne' (Option.some.inj (hnumber'.symm.trans hw'))

end Places

/-- **Ordered, loss-free logging that cannot jam**, in every reachable state. -/
theorem reachable_orderly (hN : 0 < N) {s : Server N} (hs : s.Reachable) : s.Orderly := by
  obtain ⟨q, taken, h⟩ := hs.inv
  refine ⟨h.log_numbers, h.log_answers, fun k => h.one_place, ?_, fun w => h.blocked, ?_, ?_⟩
  · rw [h.queue.tail_null, h.queue.head_null]
  · by_cases hw : s.Blocked ⟨0, hN⟩
    · obtain ⟨w', -, -, hfree⟩ := h.blocked hw
      exact ⟨w', hfree⟩
    · exact ⟨_, hw⟩
  · intro s' hs'
    rw [step] at hs'
    split at hs' <;> cases hs'
    rfl

/-- **The counters may wrap.**  `next_seq` and `next_log_seq` are of type `unsigned long`, and here
    they are exact.  What `ordered_log` compares are two numbers that lie closer together than
    there are workers, so with 64 bits it decides the same, however many requests there have
    been. -/
theorem turn_exact (hN : N ≤ 2 ^ 64) {s : Server N} (hs : s.Reachable) {w : Fin N} {req : Nat}
    {entry : Entry} (hw : s.workers w = .orderedLog req entry) :
    UInt64.ofNat (s.heap req).seq = UInt64.ofNat s.nextLogSeq ↔
      (s.heap req).seq = s.nextLogSeq := by
  obtain ⟨q, taken, h⟩ := hs.inv
  have hnumber : s.number w = some (s.heap req).seq := by rw [number, hw]
  obtain ⟨hge, hlt⟩ := h.tickets.bounds w _ hnumber
  have hwindow := h.tickets.window_le
  rw [Fintype.card_fin] at hwindow
  change s.nextLogSeq ≤ (s.heap req).seq at hge
  change (s.heap req).seq < taken at hlt
  change taken - s.nextLogSeq ≤ N at hwindow
  rw [← UInt64.toNat_inj, UInt64.toNat_ofNat', UInt64.toNat_ofNat']
  constructor
  · intro heq
    generalize (s.heap req).seq = k at *
    omega
  · exact fun heq => heq ▸ rfl

/-- The steps of a list of events. -/
def run (s : Server N) : List (Event N) → Option (Server N)
  | [] => some s
  | e :: es => (s.step e).bind fun s' => s'.run es

/-- What events lead to is reachable. -/
theorem run_reachable {s s' : Server N} (hs : s.Reachable) {es : List (Event N)}
    (hrun : s.run es = some s') : s'.Reachable := by
  induction es generalizing s with
  | nil =>
    cases hrun
    exact hs
  | cons e es ih =>
    obtain ⟨s₁, hstep, hrest⟩ := Option.bind_eq_some_iff.mp hrun
    exact ih (hs.tail ⟨e, hstep⟩) hrest

/-- Two requests, the second one answered first. -/
def overtaken : List (Event 2) :=
  [.accept 5, .malloc 1 9, .enqueue, .accept 6, .malloc 2 9, .enqueue, .dequeue 0, .dequeue 1,
   .respond 1 ⟨[71], [47], 200⟩]

/-- Its worker waits, and the server is orderly. -/
theorem reachable_orderly_overtaken :
    ∃ s, (start 2).run overtaken = some s ∧ s.Blocked 1 ∧ s.Orderly := by
  refine ⟨_, rfl, ⟨2, _, rfl, by decide⟩, reachable_orderly (by decide) ?_⟩
  have hrun : (start 2).run overtaken = some _ := rfl
  exact run_reachable .refl hrun

end Server
end Httpd
