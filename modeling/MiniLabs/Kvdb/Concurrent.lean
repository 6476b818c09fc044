/-
  kvdb — threads and processes on one database.

  1. **Program** — any number of threads of any number of processes call `kvdb_put` and `kvdb_get`,
     each call cut into steps (`Calls`).  `bySyscalls` are the steps that the code takes: one system
     call after the other, from the places of `Kvdb.Steps`, and a transfer byte by byte.
  2. **Specification** — `MapRun`: a map on which whole calls act at once, and on which a put whose
     process died either acted or did not.
  3. **The crux (`kvdb_linearizable`)** — under `lock_db` the calls come one after the other,
     whatever steps they are cut into (`linearizes`), and one call after the other the file is an
     image of the map (`Refines`).
       * `At` says where a call in steps can be: between two system calls of its run, or with some
         of the effects of one made;
       * `bySyscalls_implements` — so alone it makes the call, and half done a beginning of its
         effects.
  4. **What is idealised** — no system call of a call fails (`Schedule.quiet`): with failing ones
     the statement is false.  No two processes share an open file description (`Unshared`), and a
     process that dies has written what it had written.
-/
import MiniLabs.Kvdb.Crash
import MiniLabs.Kvdb.Locks
import MiniLabs.Kvdb.Scanners
import MiniLabs.Kvdb.Steps

set_option linter.unusedVariables false

namespace Kvdb

open RecordLog Sections World

/-! ## Calls in steps -/

/-- How the system calls of one call turn out, none of them with an error. -/
structure Schedule where
  env : Call → List Outcome
  quiet : (World.mk [] 0 env []).Quiet

/-- What a thread calls. -/
inductive Request
  | put (handle : Nat) (key value : CString) (sched : Schedule)
  | get (handle : Nat) (key : CString) (buf : Bool) (length : Nat) (sched : Schedule)

/-- The handle of the call. -/
def Request.handle : Request → Nat
  | .put h _ _ _ => h
  | .get h _ _ _ _ => h

/-- What the call returns and what it leaves, if nobody else is about. -/
def Request.run (d : Disk) : Request → Reply × World
  | .put h key value sched => (.put (d.put h key value sched.env).1, (d.put h key value sched.env).2)
  | .get h key buf length sched =>
    (.get (d.get h key buf length sched.env).1, (d.get h key buf length sched.env).2)

/-- A whole call. -/
def Request.whole (op : Request) (d : Disk) : Option (Reply × Disk) :=
  some ((op.run d).1, d.after op.handle (op.run d).2)

/-- A call half done: some of its effects on the file, and any offset of its own handle. -/
def Request.half (op : Request) (d d' : Disk) : Prop :=
  (∃ n, d'.file = applyAll ((op.run d).2.trace.take n) d.file) ∧
    ∀ h, h ≠ op.handle → d'.pos h = d.pos h

/-- The calls, cut into steps in some way. -/
structure Calls extends Code Request Disk Reply where
  implements : toCode.Implements Request.whole Request.half

/-! ## The map -/

/-- What a get answers on a map. -/
def Store.get (M : Store) (key : CString) (buf : Bool) (length : Nat) : GetResult :=
  if (buf = false ∧ length ≠ 0) ∨ key.strlen = 0 ∨ kvdbMaxKey < key.strlen then ⟨-1, []⟩
  else answer (M key.bytes) buf length

/-- **Calls on a map**, each at one moment. -/
inductive MapRun {T : Type} : Store → List (Sections.Event T Request Reply) → Store → Prop
  | nil (M : Store) : MapRun M [] M
  | put {M M' : Store} {t : T} {h : Nat} {key value : CString} {sched : Schedule}
      {es : List (Sections.Event T Request Reply)} (hacc : Accepts key.bytes value.bytes)
      (hes : MapRun (M.insert key.bytes value.bytes) es M') :
      MapRun M (.done t (.put h key value sched) (.put 0) :: es) M'
  | reject {M M' : Store} {t : T} {h : Nat} {key value : CString} {sched : Schedule}
      {es : List (Sections.Event T Request Reply)} (hacc : ¬ Accepts key.bytes value.bytes)
      (hes : MapRun M es M') :
      MapRun M (.done t (.put h key value sched) (.put (-1)) :: es) M'
  | get {M M' : Store} {t : T} {h : Nat} {key : CString} {buf : Bool} {length : Nat}
      {sched : Schedule} {es : List (Sections.Event T Request Reply)} (hes : MapRun M es M') :
      MapRun M (.done t (.get h key buf length sched) (.get (M.get key buf length)) :: es) M'
  /-- The process died in its put, which had no effect. -/
  | lost {M M' : Store} {t : T} {h : Nat} {key value : CString} {sched : Schedule}
      {es : List (Sections.Event T Request Reply)} (hes : MapRun M es M') :
      MapRun M (.cut t (.put h key value sched) :: es) M'
  /-- The process died in its put, which had its effect. -/
  | kept {M M' : Store} {t : T} {h : Nat} {key value : CString} {sched : Schedule}
      {es : List (Sections.Event T Request Reply)} (hacc : Accepts key.bytes value.bytes)
      (hes : MapRun (M.insert key.bytes value.bytes) es M') :
      MapRun M (.cut t (.put h key value sched) :: es) M'
  | cutGet {M M' : Store} {t : T} {h : Nat} {key : CString} {buf : Bool} {length : Nat}
      {sched : Schedule} {es : List (Sections.Event T Request Reply)} (hes : MapRun M es M') :
      MapRun M (.cut t (.get h key buf length sched) :: es) M'

/-! ## One call -/

section OneCall

variable {d d' : Disk} {M : Store} {h : Nat} {key value : CString}

/-- What a file that is an image says about the keys. -/
theorem Refines.lookup (hr : Refines d M) (key : List UInt8) : Kvdb.lookup key d.file = M key := by
  obtain ⟨img, hd, rfl⟩ := hr
  rw [hd]
  exact img.lookup_bytes key

/-- Only the file counts, not where the handles stand in it. -/
theorem Refines.congr (hr : Refines d M) (hfile : d'.file = d.file) : Refines d' M := by
  obtain ⟨img, hd, hM⟩ := hr
  exact ⟨img, hfile.trans hd, hM⟩

/-- A put that ends. -/
theorem Refines.put (hr : Refines d M) (sched : Schedule) :
    (Accepts key.bytes value.bytes ∧ (d.put h key value sched.env).1 = 0 ∧
      Refines (d.after h (d.put h key value sched.env).2) (M.insert key.bytes value.bytes)) ∨
    (¬ Accepts key.bytes value.bytes ∧ (d.put h key value sched.env).1 = -1 ∧
      Refines (d.after h (d.put h key value sched.env).2) M) := by
  have hstep := hr.step (e := .put h key value sched.env) sched.quiet
  by_cases hacc : Accepts key.bytes value.bytes
  · obtain ⟨img, hd, -⟩ := hr
    have h0 := (Disk.put_trace hd sched.quiet hacc (h := h)).1
    refine .inl ⟨hacc, h0, ?_⟩
    have hcommits : d.commits (.put h key value sched.env) = some (key.bytes, value.bytes) := if_pos h0
    rw [hcommits] at hstep
    exact hstep
  · have hrej : d.put h key value sched.env = (-1, d.world h sched.env) := Disk.put_rejects hacc
    have hrc : (d.put h key value sched.env).1 = -1 := by rw [hrej]
    refine .inr ⟨hacc, hrc, ?_⟩
    have hcommits : d.commits (.put h key value sched.env) = none := if_neg (by rw [hrc]; decide)
    rw [hcommits] at hstep
    exact hstep

/-- A put that its process did not survive. -/
theorem Refines.putHalf (hr : Refines d M) (sched : Schedule)
    (hhalf : (Request.put h key value sched).half d d') : Refines d' M ∨
      (Accepts key.bytes value.bytes ∧ Refines d' (M.insert key.bytes value.bytes)) := by
  obtain ⟨⟨n, hfile⟩, -⟩ := hhalf
  change d'.file = applyAll ((d.put h key value sched.env).2.trace.take n) d.file at hfile
  have hstep := hr.step (e := .crash h key value sched.env n) sched.quiet
  by_cases hacc : Accepts key.bytes value.bytes
  · cases hcommits : d.commits (.crash h key value sched.env n) with
    | none =>
      rw [hcommits] at hstep
      exact .inl (hstep.congr hfile)
    | some kv =>
      have hkv := hcommits
      rw [Disk.commits] at hkv
      obtain ⟨-, hkv⟩ := Option.ite_none_right_eq_some.mp hkv
      obtain rfl := Option.some.inj hkv
      rw [hcommits] at hstep
      exact .inr ⟨hacc, hstep.congr hfile⟩
  · rw [Disk.put_rejects hacc, show (d.world h sched.env).trace = [] from rfl, List.take_nil] at hfile
    exact .inl (hr.congr hfile)

/-- A get has no effects. -/
theorem get_trace (d : Disk) (h : Nat) (key : CString) (buf : Bool) (length : Nat)
    (sched : Schedule) : ((Request.get h key buf length sched).run d).2.trace = [] :=
  (kvdbGet_reads (w := d.world h sched.env) sched.quiet.1 (handleOf h) key buf length).trace

/-- A get that is cut off anywhere has written nothing. -/
theorem get_half_file {buf : Bool} {length : Nat} {sched : Schedule}
    (hhalf : (Request.get h key buf length sched).half d d') : d'.file = d.file := by
  obtain ⟨⟨n, hfile⟩, -⟩ := hhalf
  rwa [get_trace, List.take_nil] at hfile

/-- A get. -/
theorem Refines.get (hr : Refines d M) (buf : Bool) (length : Nat) (sched : Schedule) :
    (d.get h key buf length sched.env).1 = M.get key buf length ∧
      Refines (d.after h (d.get h key buf length sched.env).2) M := by
  have hreads := kvdbGet_reads (w := d.world h sched.env) sched.quiet.1 (handleOf h) key buf length
  refine ⟨?_, hr.congr hreads.file⟩
  rw [Store.get]
  by_cases hkey : key.IsKey
  · by_cases hbuf : buf = false ∧ length ≠ 0
    · rw [if_pos (.inl hbuf), Disk.get, kvdbGet]
      dsimp only
      rw [if_pos (.inr hbuf)]
    · have hlength : buf = false → length = 0 := fun hb => by_contra fun hl => hbuf ⟨hb, hl⟩
      have hspec := kvdbGet_spec (w := d.world h sched.env) sched.quiet
        (show 0 ≤ (handleOf h).fd from Int.natCast_nonneg h) hkey hlength
      have hlookup : Kvdb.lookup key.bytes (d.world h sched.env).file = M key.bytes :=
        hr.lookup key.bytes
      obtain ⟨hk0, hk1⟩ := hkey
      rw [if_neg (by rintro (hb | hk | hk) <;> [exact hbuf hb; omega; omega]), Disk.get, hspec.1,
        hlookup]
  · rw [if_pos, Disk.get, kvdbGet_rejects hkey]
    unfold CString.IsKey at hkey
    omega

end OneCall

/-- **A serial run of calls is a run on the map.** -/
theorem mapRun_of_serial {T : Type} {d d' : Disk} {es : List (Sections.Event T Request Reply)}
    (h : Serial Request.whole Request.half d es d') {M : Store} (hr : Refines d M) :
    ∃ M', MapRun M es M' ∧ Refines d' M' := by
  induction h generalizing M with
  | nil d => exact ⟨M, .nil M, hr⟩
  | @done d d₁ d' t op r es hop _ ih =>
    cases op with
    | put h key value sched =>
      obtain ⟨rfl, rfl⟩ := Prod.mk.inj (Option.some.inj hop)
      rcases @Refines.put _ _ h key value hr sched with
        ⟨hacc, hrc, hr'⟩ | ⟨hacc, hrc, hr'⟩
      · obtain ⟨M', hrun, hend⟩ := ih hr'
        refine ⟨M', ?_, hend⟩
        rw [show (Request.run d (.put h key value sched)).1 = .put 0 from congrArg Reply.put hrc]
        exact .put hacc hrun
      · obtain ⟨M', hrun, hend⟩ := ih hr'
        refine ⟨M', ?_, hend⟩
        rw [show (Request.run d (.put h key value sched)).1 = .put (-1) from congrArg Reply.put hrc]
        exact .reject hacc hrun
    | get h key buf length sched =>
      obtain ⟨rfl, rfl⟩ := Prod.mk.inj (Option.some.inj hop)
      obtain ⟨hget, hr'⟩ := @Refines.get _ _ h key hr buf length sched
      obtain ⟨M', hrun, hend⟩ := ih hr'
      refine ⟨M', ?_, hend⟩
      rw [show (Request.run d (.get h key buf length sched)).1 = .get (M.get key buf length) from
        congrArg Reply.get hget]
      exact .get hrun
  | @cut d d₁ d' t op es hhalf _ ih =>
    cases op with
    | put h key value sched =>
      rcases hr.putHalf sched hhalf with hr' | ⟨hacc, hr'⟩
      · obtain ⟨M', hrun, hend⟩ := ih hr'
        exact ⟨M', .lost hrun, hend⟩
      · obtain ⟨M', hrun, hend⟩ := ih hr'
        exact ⟨M', .kept hacc hrun, hend⟩
    | get h key buf length sched =>
      obtain ⟨M', hrun, hend⟩ := ih (hr.congr (get_half_file hhalf))
      exact ⟨M', .cutGet hrun, hend⟩

/-! ## System call by system call -/

/-- How the system calls of the call turn out. -/
def Request.env : Request → Call → List Outcome
  | .put _ _ _ sched => sched.env
  | .get _ _ _ _ sched => sched.env

/-- Where the code of the call begins. -/
def Request.start : Request → Place
  | .put _ key value _ => putStart key value
  | .get _ key buf length _ => getStart key buf length

/-- Where a call is: between two system calls, or among the effects of one.  `trace` notes what
    the call has done to the file; the code does not look at it. -/
inductive Progress
  | between (handle : Nat) (pc : Place) (env : Call → List Outcome) (trace : List Effect)
  | effects (handle : Nat) (es : List Effect) (pc : Place) (after : World)

/-- The next step: a system call is made on the file as it is now, its effects come one by one,
    and then the offset moves. -/
def Progress.step : Progress → Disk → Progress × Disk
  | .between h pc env trace, d =>
    let r := pc.step ⟨d.file, d.pos h, env, trace⟩
    (.effects h (r.2.trace.drop trace.length) r.1 r.2, d)
  | .effects h (e :: es) pc w, d => (.effects h es pc w, { d with file := e.apply d.file })
  | .effects h [] pc w, d =>
    (.between h pc w.env w.trace, { d with pos := fun h' => if h' = h then w.pos else d.pos h' })

def Progress.result : Progress → Option Reply
  | .between _ pc _ _ => pc.result
  | .effects _ _ _ _ => none

/-- **The calls in the steps that the code takes**: one system call after the other, and a
    transfer byte by byte. -/
def bySyscalls : Code Request Disk Reply where
  Local := Progress
  start op := .between op.handle op.start op.env []
  step := Progress.step
  result := Progress.result

section Syscalls

variable {op : Request} {d d' : Disk} {h : Nat} {pc : Place} {w : World}

/-- Alone, the code gets to what the call returns and leaves. -/
theorem start_runs (op : Request) (d : Disk) :
    Runs (op.start, d.world op.handle op.env) (.finished (op.run d).1, (op.run d).2) := by
  cases op with
  | put h key value sched => exact put_runs (Int.natCast_nonneg h) key value _
  | get h key buf length sched => exact get_runs (Int.natCast_nonneg h) key buf length _

/-- A call that has done nothing leaves the disk. -/
theorem after_world (d : Disk) (h : Nat) (env : Call → List Outcome) :
    d.after h (d.world h env) = d := by
  have hpos : (fun h' => if h' = h then d.pos h else d.pos h') = d.pos := by
    funext h'
    split
    · rename_i heq
      rw [heq]
    · rfl
  exact congrArg (Disk.mk d.file) hpos

/-- What the next system call sees. -/
theorem world_after (d : Disk) (h : Nat) (w : World) :
    World.mk (d.after h w).file ((d.after h w).pos h) w.env w.trace = w := by
  have hpos : (d.after h w).pos h = w.pos := if_pos rfl
  rw [hpos]
  rfl

/-- The offset moves when the effects are there. -/
theorem after_effects {es : List Effect} {w' : World} (hes : Wrote es w w') :
    Disk.mk (applyAll es w.file) (fun h' => if h' = h then w'.pos else (d.after h w).pos h') =
      d.after h w' := by
  rw [← hes.file]
  refine congrArg (Disk.mk w'.file) (funext fun h' => ?_)
  by_cases heq : h' = h
  · rw [if_pos heq, if_pos heq]
  · rw [if_neg heq, if_neg heq]
    exact if_neg heq

/-- Where a call can be that began on the disk `d`: between two system calls of its run, or in one
    of them with the effects `fs` made and `es` to come. -/
inductive At (op : Request) (d : Disk) : Progress → Disk → Prop
  | between {pc : Place} {w : World} (hrun : Runs (op.start, d.world op.handle op.env) (pc, w)) :
      At op d (.between op.handle pc w.env w.trace) (d.after op.handle w)
  | effects {pc : Place} {w : World} {fs es : List Effect}
      (hrun : Runs (op.start, d.world op.handle op.env) (pc, w)) (hpc : pc.result = none)
      (hes : Wrote (fs ++ es) w (pc.step w).2) :
      At op d (.effects op.handle es (pc.step w).1 (pc.step w).2)
        { d.after op.handle w with file := applyAll fs w.file }

/-- **It is nowhere else.** -/
theorem bySyscalls_at {l : bySyscalls.Local} (h : bySyscalls.Goes op d l d') : At op d l d' := by
  induction h with
  | start =>
    have hstart : At op d (.between op.handle op.start op.env [])
        (d.after op.handle (d.world op.handle op.env)) := .between (.refl _)
    rwa [after_world] at hstart
  | step _ hl ih =>
    cases ih with
    | @between pc w hrun =>
      have hpc : pc.result = none := hl
      obtain ⟨es, hes⟩ := step_wrote pc w
      have hnext := At.effects hrun hpc (show Wrote ([] ++ es) w (pc.step w).2 from hes)
      have hdrop : (pc.step w).2.trace.drop w.trace.length = es := by
        rw [hes.trace, List.drop_left]
      simp only [bySyscalls, Progress.step, world_after, hdrop]
      exact hnext
    | @effects pc w fs es hrun hpc hes =>
      cases es with
      | nil =>
        rw [List.append_nil] at hes
        have hon : Runs (op.start, d.world op.handle op.env) ((pc.step w).1, (pc.step w).2) :=
          hrun.trans (.one hpc rfl)
        have hnext := At.between hon
        rw [← after_effects hes] at hnext
        exact hnext
      | cons e es =>
        have hnext := At.effects hrun hpc
          (show Wrote ((fs ++ [e]) ++ es) w (pc.step w).2 by rwa [List.append_assoc])
        rw [applyAll_append] at hnext
        exact hnext

/-- The effects of a system call come one after the other. -/
theorem goes_effects {es : List Effect}
    (hgoes : bySyscalls.Goes op d (.effects h es pc w : Progress) d') :
    bySyscalls.Goes op d (.between h pc w.env w.trace : Progress)
      ⟨applyAll es d'.file, fun h' => if h' = h then w.pos else d'.pos h'⟩ := by
  induction es generalizing d' with
  | nil => exact hgoes.step rfl
  | cons e es ih => exact ih (hgoes.step rfl)

/-- **It gets along its run.** -/
theorem bySyscalls_reaches {b : Place × World}
    (hrun : Runs (op.start, d.world op.handle op.env) b) :
    bySyscalls.Goes op d (.between op.handle b.1 b.2.env b.2.trace : Progress)
      (d.after op.handle b.2) := by
  induction hrun with
  | refl =>
    rw [after_world]
    exact .start
  | @tail b c _ hstep ih =>
    obtain ⟨hpc, rfl⟩ := hstep
    obtain ⟨es, hes⟩ := step_wrote b.1 b.2
    have hdrop : (b.1.step b.2).2.trace.drop b.2.trace.length = es := by
      rw [hes.trace, List.drop_left]
    have hcall := ih.step hpc
    simp only [bySyscalls, Progress.step, world_after, hdrop] at hcall
    have hnext := goes_effects hcall
    rw [show (d.after op.handle b.2).file = b.2.file from rfl, after_effects hes] at hnext
    exact hnext

/-- What is left to do of a call, and what it has done. -/
theorem Runs.half {b : Place × World} (hrun : Runs (op.start, d.world op.handle op.env) b) :
    b.2.file = applyAll b.2.trace d.file ∧ b.2.trace <+: (op.run d).2.trace := by
  obtain ⟨es, hes⟩ := hrun.wrote
  obtain ⟨fs, hfs⟩ := Runs.wrote ((start_runs op d).onward rfl hrun)
  have htrace : b.2.trace = es := hes.trace.trans (List.nil_append es)
  rw [htrace]
  exact ⟨hes.file, fs, by rw [hfs.trace, htrace]⟩

/-- **The steps of the code make the calls.** -/
theorem bySyscalls_implements : bySyscalls.Implements Request.whole Request.half where
  half op d l d' h := by
    have hothers : ∀ (w : World) h', h' ≠ op.handle → (d.after op.handle w).pos h' = d.pos h' :=
      fun w h' hne => if_neg hne
    cases bySyscalls_at h with
    | @between pc w hrun =>
      obtain ⟨hfile, hbegins⟩ := hrun.half
      refine ⟨⟨w.trace.length, ?_⟩, hothers w⟩
      rw [← List.prefix_iff_eq_take.mp hbegins]
      exact hfile
    | @effects pc w fs es hrun hpc hes =>
      obtain ⟨hfile, -⟩ := hrun.half
      obtain ⟨-, hbegins⟩ := Runs.half (hrun.trans (.one hpc rfl))
      have hpart : w.trace ++ fs <+: (op.run d).2.trace := by
        refine List.IsPrefix.trans ⟨es, ?_⟩ hbegins
        rw [hes.trace, List.append_assoc]
      refine ⟨⟨(w.trace ++ fs).length, ?_⟩, hothers w⟩
      rw [← List.prefix_iff_eq_take.mp hpart, applyAll_append, ← hfile]
  whole op d l d' r h hr := by
    cases bySyscalls_at h with
    | @between pc w hrun =>
      obtain rfl : pc = .finished r := by
        cases pc <;> cases hr
        rfl
      have hend : Runs (.finished r, w) (.finished (op.run d).1, (op.run d).2) :=
        (start_runs op d).onward rfl hrun
      have hr' : (Place.finished r).result = some r := rfl
      obtain ⟨hreply, hworld⟩ := Prod.mk.inj (hend.of_result hr')
      rw [Request.whole, Place.finished.inj hreply, hworld]
    | effects => cases hr
  ends op d r d' h := by
    obtain ⟨rfl, rfl⟩ := Prod.mk.inj (Option.some.inj h)
    exact ⟨_, bySyscalls_reaches (start_runs op d), rfl⟩

end Syscalls

/-! ## The result -/

/-- **kvdb is a linearizable map.**  Any number of processes with any number of threads call on
    one database, in any interleaving of the steps of their calls and their locks, and processes
    die anywhere; no two processes share an open file description.  Then the calls come to the
    same as calls on a map that act at one moment each, in the order in which they unlocked the
    file: gets answer from the map, and a put that its process did not survive has acted or not.
    Whenever nobody is inside, the file reads as the map; during a put it reads as the map before
    it or behind it. -/
theorem kvdb_linearizable {Thread Process Handle Ofd : Type} [DecidableEq Thread]
    [DecidableEq Ofd] {S : Sharing Thread Process Handle Ofd} (hS : Unshared S) (calls : Calls)
    (pos : Nat → Nat) {es : List (Sections.Event Thread Request Reply)}
    {c : Config (locking S) Request calls.Local Reply Disk}
    (h : Exec (locking S) calls.toCode (Disk.init pos) es c) :
    ∃ M, MapRun Store.empty es M ∧
      ((∀ t, ¬ c.Inside t) → ∀ key, lookup key c.shared.file = M key) ∧
      ∀ t op l, c.phase t = .inside op l →
        (∀ key, lookup key c.shared.file = M key) ∨
        ∃ h key value sched, op = .put h key value sched ∧
          ∀ k, lookup k c.shared.file = M.insert key.bytes value.bytes k := by
  obtain ⟨d, hlin⟩ := linearizes hS.exclusive calls.implements h
  obtain ⟨M, hrun, hr⟩ := mapRun_of_serial hlin.serial (Refines.init pos)
  refine ⟨M, hrun, fun hquiet => ?_, fun t op l ht => ?_⟩
  · rw [hlin.quiet hquiet]
    exact hr.lookup
  · have hhalf := calls.implements.half op d l c.shared (hlin.busy t op l ht)
    cases op with
    | put h key value sched =>
      rcases hr.putHalf sched hhalf with hr' | ⟨-, hr'⟩
      · exact .inl hr'.lookup
      · exact .inr ⟨h, key, value, sched, rfl, hr'.lookup⟩
    | get h key buf length sched => exact .inl (hr.congr (get_half_file hhalf)).lookup

/-- Two processes, each with its thread, its handle and its description. -/
def twoProcesses : Sharing Bool Bool Bool Bool where
  process := id
  main := id
  process_main _ := rfl
  owner := id
  ofd := id

/-- A put of `k`, nothing interrupted. -/
def putOne : Request :=
  .put 0 ⟨[107], by decide⟩ ⟨[118], by decide⟩
    ⟨fun _ => [], ⟨fun _ _ => List.not_mem_nil, fun _ h => absurd h List.not_mem_nil⟩,
      List.not_mem_nil⟩

/-- A process dies in its put, right behind the lock. -/
theorem kvdb_linearizable_cut : ∃ (c : Config (locking twoProcesses) Request Progress Reply Disk)
    (M : Store), Exec (locking twoProcesses) bySyscalls (Disk.init fun _ => 0) [.cut true putOne] c ∧
      MapRun Store.empty [Sections.Event.cut true putOne] M ∧
      ∀ key, lookup key c.shared.file = M key := by
  let k₀ : Locks Bool Bool Bool Bool := ⟨fun _ => .idle, none, fun _ => False⟩
  have hmoves : Relation.ReflTransGen (Move twoProcesses true) k₀ (k₀.goto true (.flock true)) :=
    moves_flock rfl rfl (fun u _ hu => hu) fun u hu => hu
  let c₀ : Config (locking twoProcesses) Request bySyscalls.Local Reply Disk :=
    ⟨k₀, fun _ => .idle, Disk.init fun _ => 0⟩
  have hcall : Step (locking twoProcesses) bySyscalls c₀ []
      { c₀ with phase := Function.update c₀.phase true (.called putOne) } := .call rfl
  have hcalled := Exec.start.step hcall
  have hflock := hcalled.moves (t := true) (by
    rintro ⟨op, l, h⟩
    simp at h) hmoves
  have hinside := hflock.step (.enter (t := true) (show _ = Phase.called putOne by simp)
    (Enter.flock (goto_self _ _ _) fun o ho => by cases ho))
  obtain ⟨c, hc, hlock, hphase⟩ : ∃ c, Exec (locking twoProcesses) bySyscalls
      (Disk.init fun _ => 0) [] c ∧ Locks.flock c.lock = some true ∧
      c.phase = Function.update (fun _ => .idle) true (.inside putOne (bySyscalls.start putOne)) :=
    ⟨_, hinside, rfl, Function.update_idem ..⟩
  have hkill : Kill twoProcesses id c.lock
      ⟨fun t => if id t then .dead else c.lock.pc t, none, fun q => q = true ∨ c.lock.gone q⟩ :=
    .process (fun t => Iff.rfl) fun o => by
      rw [hlock]
      simp only [reduceCtorEq, Option.some.injEq, false_iff, not_and, not_not]
      rintro rfl h hofd
      exact .inl hofd
  have hcuts : ∀ t op, (t, op) ∈ [(true, putOne)] ↔
      id t = true ∧ ∃ l, c.phase t = .inside op l := by
    intro t op
    rw [List.mem_singleton, Prod.mk.injEq, hphase]
    constructor
    · rintro ⟨rfl, rfl⟩
      exact ⟨rfl, _, Function.update_self ..⟩
    · rintro ⟨ht, l, h⟩
      obtain rfl : t = true := ht
      rw [Function.update_self] at h
      exact ⟨rfl, (Phase.inside.inj h).1.symm⟩
  have hcut := hc.step (.kill hkill (List.nodup_singleton _) hcuts)
  obtain ⟨M, hrun, hquiet, -⟩ := kvdb_linearizable (fun h h' hofd => hofd)
    ⟨bySyscalls, bySyscalls_implements⟩ _ hcut
  refine ⟨_, M, hcut, hrun, hquiet ?_⟩
  rintro t ⟨op, l, h⟩
  rw [hphase] at h
  cases t <;> simp at h

end Kvdb
