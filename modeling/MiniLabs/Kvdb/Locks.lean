/-
  kvdb — `lock_db` and `unlock_db` among threads and processes.

  1. **Program** — a thread locks the `global_mutex` of its process, the mutex of the handle, and
     then the file, with `flock`; `Move`, `Enter` and `Leave` are the steps of `lock_db` and
     `unlock_db` from its program counter `Pc`, failing and interrupted calls included.
  2. **Specification** — at most one thread is between the two (`Exclusive`), and the locks never
     stop everybody (`locks_progress`).
  3. **The crux (`exclusive_iff`)** — the kernel grants `flock` to an open file description, not to
     a thread or a process: a second `flock` through the same description succeeds at once, and it
     is the mutexes that keep the threads of one process apart.  Nothing keeps apart two processes
     that share a description, as they do after a `fork`.
  4. **What is idealised** — when a process dies its memory goes, mutexes included, and its
     descriptions are closed unless another process has them open; a mutex is granted in one step
     and in no particular order; `pthread_mutex_lock` does not fail.
-/
import MiniLabs.Lib.Sections

set_option linter.unusedVariables false

namespace Kvdb

open Sections

/-- Whose memory a handle lies in, and through which open file description it reaches the file;
    every process has a thread. -/
structure Sharing (Thread Process Handle Ofd : Type) where
  process : Thread → Process
  main : Process → Thread
  process_main : ∀ p, process (main p) = p
  owner : Handle → Process
  ofd : Handle → Ofd

/-- Where a thread is in `lock_db`, in its section or in `unlock_db`. -/
inductive Pc (Handle : Type)
  | idle
  | lockGlobal (h : Handle)
  | lockMutex (h : Handle)
  | flock (h : Handle)
  | inside (h : Handle)
  | unlockMutex (h : Handle)
  | unlockGlobal (h : Handle)
  | dead

/-- The handle of the call. -/
def Pc.handle {Handle : Type} : Pc Handle → Option Handle
  | .lockGlobal h | .lockMutex h | .flock h | .inside h | .unlockMutex h | .unlockGlobal h => some h
  | .idle | .dead => none

/-- The thread has locked its `global_mutex`. -/
def Pc.Global {Handle : Type} : Pc Handle → Prop
  | .lockMutex _ | .flock _ | .inside _ | .unlockMutex _ | .unlockGlobal _ => True
  | .idle | .lockGlobal _ | .dead => False

/-- The thread has locked the mutex of this handle. -/
def Pc.Mutex {Handle : Type} (h : Handle) : Pc Handle → Prop
  | .flock h' | .inside h' | .unlockMutex h' => h' = h
  | .idle | .lockGlobal _ | .lockMutex _ | .unlockGlobal _ | .dead => False

/-- Where the threads are, the description that has the file locked, and the processes that are
    gone.  Who holds a mutex is where the threads are: past its lock, before its unlock. -/
structure Locks (Thread Process Handle Ofd : Type) where
  pc : Thread → Pc Handle
  flock : Option Ofd
  gone : Process → Prop

section Protocol

variable {Thread Process Handle Ofd : Type} [DecidableEq Thread] [DecidableEq Ofd]

/-- A thread goes on. -/
def Locks.goto (k : Locks Thread Process Handle Ofd) (t : Thread) (pc : Pc Handle) :
    Locks Thread Process Handle Ofd :=
  { k with pc := Function.update k.pc t pc }

variable (S : Sharing Thread Process Handle Ofd)

/-- A step of `lock_db` or `unlock_db` that does not enter or leave the section. -/
inductive Move (t : Thread) (k : Locks Thread Process Handle Ofd) :
    Locks Thread Process Handle Ofd → Prop
  | call {h : Handle} (hpc : k.pc t = .idle) (howner : S.owner h = S.process t) :
      Move t k (k.goto t (.lockGlobal h))
  | lockGlobal {h : Handle} (hpc : k.pc t = .lockGlobal h)
      (hfree : ∀ u, S.process u = S.process t → ¬ (k.pc u).Global) :
      Move t k (k.goto t (.lockMutex h))
  | lockMutex {h : Handle} (hpc : k.pc t = .lockMutex h) (hfree : ∀ u, ¬ (k.pc u).Mutex h) :
      Move t k (k.goto t (.flock h))
  /-- `flock` fails with `EINTR`. -/
  | interrupted {h : Handle} (hpc : k.pc t = .flock h) : Move t k (k.goto t (.flock h))
  /-- `flock` fails with another error. -/
  | failed {h : Handle} (hpc : k.pc t = .flock h) : Move t k (k.goto t (.unlockMutex h))
  | unlockMutex {h : Handle} (hpc : k.pc t = .unlockMutex h) :
      Move t k (k.goto t (.unlockGlobal h))
  | unlockGlobal {h : Handle} (hpc : k.pc t = .unlockGlobal h) : Move t k (k.goto t .idle)

/-- `flock(db->fd, LOCK_EX)` succeeds. -/
inductive Enter (t : Thread) (k : Locks Thread Process Handle Ofd) :
    Locks Thread Process Handle Ofd → Prop
  | flock {h : Handle} (hpc : k.pc t = .flock h) (hfree : ∀ o, k.flock = some o → o = S.ofd h) :
      Enter t k { k.goto t (.inside h) with flock := some (S.ofd h) }

/-- `flock(db->fd, LOCK_UN)`. -/
inductive Leave (t : Thread) (k : Locks Thread Process Handle Ofd) :
    Locks Thread Process Handle Ofd → Prop
  | flock {h : Handle} (hpc : k.pc t = .inside h) :
      Leave t k { k.goto t (.unlockMutex h) with
        flock := if k.flock = some (S.ofd h) then none else k.flock }

/-- Only the process `p` and processes that are gone have had the description open. -/
def Closed (k : Locks Thread Process Handle Ofd) (p : Process) (o : Ofd) : Prop :=
  ∀ h, S.ofd h = o → S.owner h = p ∨ k.gone (S.owner h)

/-- A process dies. -/
inductive Kill (dead : Thread → Bool) (k : Locks Thread Process Handle Ofd) :
    Locks Thread Process Handle Ofd → Prop
  | process {p : Process} {flock : Option Ofd} (hdead : ∀ t, dead t = true ↔ S.process t = p)
      (hflock : ∀ o, flock = some o ↔ k.flock = some o ∧ ¬ Closed S k p o) :
      Kill dead k
        { pc := fun t => if dead t then .dead else k.pc t
          flock := flock
          gone := fun q => q = p ∨ k.gone q }

/-- The locks of kvdb. -/
def locking : Protocol Thread where
  State := Locks Thread Process Handle Ofd
  init := ⟨fun _ => .idle, none, fun _ => False⟩
  move := Move S
  enter := Enter S
  leave := Leave S
  kill := Kill S

/-- No two processes share a description. -/
def Unshared : Prop := ∀ h h', S.ofd h = S.ofd h' → S.owner h = S.owner h'

/-! ## What the locks say about the threads -/

variable {S}

/-- What holds in every state. -/
structure LockInv (S : Sharing Thread Process Handle Ofd) (k : Locks Thread Process Handle Ofd)
    (I : Thread → Prop) : Prop where
  inside : ∀ t, I t ↔ ∃ h, k.pc t = .inside h
  owner : ∀ t h, (k.pc t).handle = some h → S.owner h = S.process t
  gone : ∀ t, k.gone (S.process t) → k.pc t = .dead
  global : ∀ t u, (k.pc t).Global → (k.pc u).Global → S.process t = S.process u → t = u
  flock : ∀ t h, k.pc t = .inside h → k.flock = some (S.ofd h)
  held : ∀ o, k.flock = some o → ∃ t h, k.pc t = .inside h ∧ S.ofd h = o

variable {k k' : Locks Thread Process Handle Ofd} {I I' : Thread → Prop} {t : Thread}

omit [DecidableEq Ofd] in
/-- The thread is where it went. -/
theorem goto_self (k : Locks Thread Process Handle Ofd) (t : Thread) (pc : Pc Handle) :
    (k.goto t pc).pc t = pc := Function.update_self ..

omit [DecidableEq Ofd] in
/-- The other threads are where they were. -/
theorem goto_ne (k : Locks Thread Process Handle Ofd) {t u : Thread} (pc : Pc Handle) (h : u ≠ t) :
    (k.goto t pc).pc u = k.pc u := Function.update_of_ne h ..

/-- Nobody holds anything before the first call. -/
theorem LockInv.init (hI : ∀ u, ¬ I u) : LockInv S (locking S).init I where
  inside t := ⟨fun h => absurd h (hI t), fun h => by obtain ⟨h, hpc⟩ := h; cases hpc⟩
  owner t h hh := by cases hh
  gone t h := h.elim
  global t u ht := ht.elim
  flock t h hpc := by cases hpc
  held o ho := by cases ho

omit [DecidableEq Ofd] in
/-- A thread outside its section goes on, but not into it. -/
theorem LockInv.goto (hi : LockInv S k I) {b : Pc Handle} (ht : ¬ I t) (hb : ∀ h, b ≠ .inside h)
    (hlive : k.pc t ≠ .dead) (howner : ∀ h, b.handle = some h → S.owner h = S.process t)
    (hglobal : b.Global →
      (k.pc t).Global ∨ ∀ u, S.process u = S.process t → ¬ (k.pc u).Global) :
    LockInv S (k.goto t b) I := by
  have hnot : ∀ h, k.pc t ≠ .inside h := fun h hpc => ht ((hi.inside t).mpr ⟨h, hpc⟩)
  -- a thread is inside before exactly if it is after
  have hpc : ∀ u h, (k.goto t b).pc u = .inside h ↔ k.pc u = .inside h := by
    intro u h
    by_cases hu : u = t
    · subst hu
      rw [goto_self]
      exact ⟨fun heq => absurd heq (hb h), fun heq => absurd heq (hnot h)⟩
    · rw [goto_ne k b hu]
  have hpast : ∀ u, ((k.goto t b).pc u).Global → S.process u = S.process t → u ≠ t →
      (b.Global → False) := by
    intro u hu hproc hut hbg
    rw [goto_ne k b hut] at hu
    rcases hglobal hbg with h | h
    · exact hut (hi.global u t hu h hproc)
    · exact h u hproc hu
  refine ⟨fun u => ?_, fun u h hu => ?_, fun u hu => ?_, fun u v hu hv hproc => ?_,
    fun u h hu => hi.flock u h ((hpc u h).mp hu), fun o ho => ?_⟩
  · exact (hi.inside u).trans (exists_congr fun h => (hpc u h).symm)
  · by_cases hut : u = t
    · subst hut
      rw [goto_self] at hu
      exact howner h hu
    · rw [goto_ne k b hut] at hu
      exact hi.owner u h hu
  · have hdead := hi.gone u hu
    have hut : u ≠ t := by
      rintro rfl
      exact hlive hdead
    rw [goto_ne k b hut]
    exact hdead
  · by_contra hne
    by_cases hut : u = t
    · subst hut
      rw [goto_self] at hu
      exact hpast v hv hproc.symm (Ne.symm hne) hu
    · by_cases hvt : v = t
      · subst hvt
        rw [goto_self] at hv
        exact hpast u hu hproc hut hv
      · rw [goto_ne k b hut] at hu
        rw [goto_ne k b hvt] at hv
        exact hne (hi.global u v hu hv hproc)
  · obtain ⟨u, h, hu, hofd⟩ := hi.held o ho
    exact ⟨u, h, (hpc u h).mpr hu, hofd⟩

omit [DecidableEq Ofd] in
/-- A step outside the section keeps the invariant. -/
theorem LockInv.move (hi : LockInv S k I) (ht : ¬ I t) (hmove : Move S t k k') :
    LockInv S k' I := by
  have howner := hi.owner t
  cases hmove with
  | call hpc ho =>
    refine hi.goto ht (fun h heq => by cases heq) (by simp [hpc]) (fun h hh => ?_) False.elim
    obtain rfl := Option.some.inj hh
    exact ho
  | lockGlobal hpc hfree =>
    rw [hpc] at howner
    exact hi.goto ht (fun h heq => by cases heq) (by simp [hpc]) howner fun _ => .inr hfree
  | lockMutex hpc hfree =>
    rw [hpc] at howner
    exact hi.goto ht (fun h heq => by cases heq) (by simp [hpc]) howner fun _ => .inl (by simp [hpc, Pc.Global])
  | interrupted hpc =>
    rw [hpc] at howner
    exact hi.goto ht (fun h heq => by cases heq) (by simp [hpc]) howner fun _ => .inl (by simp [hpc, Pc.Global])
  | failed hpc =>
    rw [hpc] at howner
    exact hi.goto ht (fun h heq => by cases heq) (by simp [hpc]) howner fun _ => .inl (by simp [hpc, Pc.Global])
  | unlockMutex hpc =>
    rw [hpc] at howner
    exact hi.goto ht (fun h heq => by cases heq) (by simp [hpc]) howner fun _ => .inl (by simp [hpc, Pc.Global])
  | unlockGlobal hpc =>
    exact hi.goto (b := .idle) ht (fun h heq => by cases heq) (by simp [hpc])
      (fun h hh => by cases hh) False.elim

omit [DecidableEq Thread] [DecidableEq Ofd] in
/-- Two threads are inside only through descriptions that differ. -/
theorem LockInv.alone (hi : LockInv S k I) (hS : Unshared S) {t u : Thread} (ht : I t) (hu : I u) :
    t = u := by
  obtain ⟨h, hpc⟩ := (hi.inside t).mp ht
  obtain ⟨h', hpc'⟩ := (hi.inside u).mp hu
  have hofd : S.ofd h = S.ofd h' :=
    Option.some.inj ((hi.flock t h hpc).symm.trans (hi.flock u h' hpc'))
  have howner := hi.owner t h (by rw [hpc]; rfl)
  have howner' := hi.owner u h' (by rw [hpc']; rfl)
  exact hi.global t u (by rw [hpc]; trivial) (by rw [hpc']; trivial)
    (howner.symm.trans ((hS h h' hofd).trans howner'))

omit [DecidableEq Ofd] in
/-- **Entering**: the thread has the lock of the file and nobody else does. -/
theorem LockInv.enter (hi : LockInv S k I) (henter : Enter S t k k')
    (hI : ∀ u, I' u ↔ u = t ∨ I u) (hS : Unshared S) : LockInv S k' I' := by
  cases henter with
  | @flock h hpc hfree =>
    have howner : S.owner h = S.process t := hi.owner t h (by rw [hpc]; rfl)
    have hpast : (k.pc t).Global := by rw [hpc]; trivial
    -- nobody is inside: the description would be this one, and the process too
    have hnone : ∀ u h', k.pc u ≠ .inside h' := by
      intro u h' hu
      have hofd := hfree _ (hi.flock u h' hu)
      have howner' := hi.owner u h' (by rw [hu]; rfl)
      have hut := hi.global t u hpast (by rw [hu]; trivial)
        (howner.symm.trans ((hS h h' hofd.symm).trans howner'))
      rw [← hut, hpc] at hu
      cases hu
    have hpc' : ∀ u h', (k.goto t (.inside h)).pc u = .inside h' ↔ u = t ∧ h' = h := by
      intro u h'
      by_cases hu : u = t
      · subst hu
        rw [goto_self]
        exact ⟨fun heq => ⟨rfl, (Pc.inside.inj heq).symm⟩, fun heq => heq.2 ▸ rfl⟩
      · rw [goto_ne k _ hu]
        exact ⟨fun heq => absurd heq (hnone u h'), fun heq => absurd heq.1 hu⟩
    have hglobal : ∀ u, ((k.goto t (.inside h)).pc u).Global → (k.pc u).Global := by
      intro u hu
      by_cases hut : u = t
      · exact hut ▸ hpast
      · rwa [goto_ne k _ hut] at hu
    refine ⟨fun u => ?_, fun u h' hu => ?_, fun u hu => ?_,
      fun u v hu hv => hi.global u v (hglobal u hu) (hglobal v hv), fun u h' hu => ?_,
      fun o ho => ⟨t, h, (hpc' t h).mpr ⟨rfl, rfl⟩, Option.some.inj ho⟩⟩
    · rw [hI, hi.inside]
      constructor
      · rintro (hut | ⟨h', hu⟩)
        · exact ⟨h, (hpc' u h).mpr ⟨hut, rfl⟩⟩
        · exact absurd hu (hnone u h')
      · rintro ⟨h', hu⟩
        exact .inl ((hpc' u h').mp hu).1
    · by_cases hut : u = t
      · subst hut
        change ((k.goto u (.inside h)).pc u).handle = some h' at hu
        rw [goto_self] at hu
        rw [← Option.some.inj hu]
        exact howner
      · change ((k.goto t (.inside h)).pc u).handle = some h' at hu
        rw [goto_ne k _ hut] at hu
        exact hi.owner u h' hu
    · have hdead := hi.gone u hu
      have hut : u ≠ t := by
        rintro rfl
        rw [hpc] at hdead
        cases hdead
      show (k.goto t (.inside h)).pc u = .dead
      rw [goto_ne k _ hut]
      exact hdead
    · rw [((hpc' u h').mp hu).2]

/-- **Leaving**: the lock of the file is free again, and nobody was inside but the thread. -/
theorem LockInv.leave (hi : LockInv S k I) (hleave : Leave S t k k')
    (hI : ∀ u, I' u ↔ I u ∧ u ≠ t) (hS : Unshared S) : LockInv S k' I' := by
  cases hleave with
  | @flock h hpc =>
    have hnone : ∀ u, u ≠ t → ∀ h', k.pc u ≠ .inside h' := by
      intro u hut h' hu
      exact hut (hi.alone hS ((hi.inside u).mpr ⟨h', hu⟩) ((hi.inside t).mpr ⟨h, hpc⟩))
    have hpc' : ∀ u h', (k.goto t (.unlockMutex h)).pc u ≠ .inside h' := by
      intro u h' hu
      by_cases hut : u = t
      · subst hut
        rw [goto_self] at hu
        cases hu
      · rw [goto_ne k _ hut] at hu
        exact hnone u hut h' hu
    have hglobal : ∀ u, ((k.goto t (.unlockMutex h)).pc u).Global → (k.pc u).Global := by
      intro u hu
      by_cases hut : u = t
      · subst hut
        rw [hpc]
        trivial
      · rwa [goto_ne k _ hut] at hu
    refine ⟨fun u => ?_, fun u h' hu => ?_, fun u hu => ?_,
      fun u v hu hv => hi.global u v (hglobal u hu) (hglobal v hv),
      fun u h' hu => absurd hu (hpc' u h'), fun o ho => ?_⟩
    · rw [hI, hi.inside]
      constructor
      · rintro ⟨⟨h', hu⟩, hut⟩
        exact absurd hu (hnone u hut h')
      · rintro ⟨h', hu⟩
        exact absurd hu (hpc' u h')
    · by_cases hut : u = t
      · subst hut
        change ((k.goto u (.unlockMutex h)).pc u).handle = some h' at hu
        rw [goto_self] at hu
        exact hi.owner u h' (by rw [hpc]; exact hu)
      · change ((k.goto t (.unlockMutex h)).pc u).handle = some h' at hu
        rw [goto_ne k _ hut] at hu
        exact hi.owner u h' hu
    · have hdead := hi.gone u hu
      have hut : u ≠ t := by
        rintro rfl
        rw [hpc] at hdead
        cases hdead
      show (k.goto t (.unlockMutex h)).pc u = .dead
      rw [goto_ne k _ hut]
      exact hdead
    · -- the file was locked through this description
      rw [if_pos (hi.flock t h hpc)] at ho
      cases ho

omit [DecidableEq Thread] [DecidableEq Ofd] in
/-- A process that is killed gives back what its threads held. -/
theorem LockInv.kill (hi : LockInv S k I) {dead : Thread → Bool} (hkill : Kill S dead k k')
    (hI : ∀ u, I' u ↔ I u ∧ dead u = false) (hS : Unshared S) : LockInv S k' I' := by
  cases hkill with
  | @process p flock hdead hflock =>
    -- a thread is dead or where it was
    have hpc : ∀ u, (dead u = true ∧ (if dead u then .dead else k.pc u : Pc Handle) = .dead) ∨
        (dead u = false ∧ (if dead u then .dead else k.pc u : Pc Handle) = k.pc u) := by
      intro u
      cases hd : dead u with
      | true => exact .inl ⟨rfl, if_pos rfl⟩
      | false => exact .inr ⟨rfl, if_neg Bool.false_ne_true⟩
    have hlives : ∀ u h, k.pc u = .inside h → dead u = false →
        S.owner h ≠ p ∧ ¬ k.gone (S.owner h) := by
      intro u h hu hd
      have howner := hi.owner u h (by rw [hu]; rfl)
      refine ⟨fun hp => ?_, fun hgone => ?_⟩
      · have htrue := (hdead u).mpr (howner.symm.trans hp)
        rw [hd] at htrue
        cases htrue
      · have hpcu := hi.gone u (howner ▸ hgone)
        rw [hu] at hpcu
        cases hpcu
    refine ⟨fun u => ?_, fun u h => ?_, fun u hu => ?_, fun u v => ?_, fun u h => ?_, fun o ho => ?_⟩
    · rw [hI, hi.inside]
      show _ ↔ ∃ h, (if dead u then .dead else k.pc u : Pc Handle) = .inside h
      rcases hpc u with ⟨hd, heq⟩ | ⟨hd, heq⟩ <;> rw [heq, hd] <;> simp
    · show (if dead u then .dead else k.pc u : Pc Handle).handle = some h → _
      rcases hpc u with ⟨-, heq⟩ | ⟨-, heq⟩ <;> rw [heq]
      · exact fun hh => by cases hh
      · exact hi.owner u h
    · show (if dead u then .dead else k.pc u : Pc Handle) = .dead
      rcases hpc u with ⟨-, heq⟩ | ⟨hd, heq⟩
      · exact heq
      · rw [heq]
        rcases hu with hp | hgone
        · rw [(hdead u).mpr hp] at hd
          cases hd
        · exact hi.gone u hgone
    · show (if dead u then .dead else k.pc u : Pc Handle).Global →
        (if dead v then .dead else k.pc v : Pc Handle).Global → _
      rcases hpc u with ⟨-, heq⟩ | ⟨-, heq⟩ <;> rw [heq]
      · exact False.elim
      · rcases hpc v with ⟨-, heq'⟩ | ⟨-, heq'⟩ <;> rw [heq']
        · exact fun _ => False.elim
        · exact hi.global u v
    · show (if dead u then .dead else k.pc u : Pc Handle) = .inside h → flock = _
      rcases hpc u with ⟨-, heq⟩ | ⟨hd, heq⟩ <;> rw [heq]
      · exact fun hh => by cases hh
      · intro hu
        obtain ⟨hp, hgone⟩ := hlives u h hu hd
        exact (hflock _).mpr ⟨hi.flock u h hu, fun hclosed => (hclosed h rfl).elim hp hgone⟩
    · obtain ⟨hk, hopen⟩ := (hflock o).mp ho
      obtain ⟨u, h, hu, rfl⟩ := hi.held o hk
      rcases hpc u with ⟨hd, -⟩ | ⟨-, heq⟩
      · -- nobody else has had the description open
        have howner := (hi.owner u h (by rw [hu]; rfl)).trans ((hdead u).mp hd)
        exact absurd (fun h' hofd => .inl ((hS h' h hofd).trans howner)) hopen
      · exact ⟨u, h, heq.trans hu, rfl⟩

/-- The invariant holds in every reachable state. -/
theorem Reach.inv (hS : Unshared S) {k : (locking S).State} (h : (locking S).Reach k I) :
    LockInv S k I := by
  induction h with
  | init hI => exact .init hI
  | move _ ht hmove ih => exact ih.move ht hmove
  | enter _ _ henter hI ih => exact ih.enter henter hI hS
  | leave _ _ hleave hI ih => exact ih.leave hleave hI hS
  | kill _ hkill hI ih => exact ih.kill hkill hI hS

/-! ## The results -/

omit [DecidableEq Ofd] in
/-- A thread whose process is idle gets as far as the file. -/
theorem moves_flock {x : Handle} (hidle : k.pc t = .idle) (howner : S.owner x = S.process t)
    (hglobal : ∀ u, S.process u = S.process t → ¬ (k.pc u).Global)
    (hmutex : ∀ u, ¬ (k.pc u).Mutex x) :
    Relation.ReflTransGen (Move S t) k (k.goto t (.flock x)) := by
  have hcall : Move S t k (k.goto t (.lockGlobal x)) := .call hidle howner
  have hfree : ∀ u, S.process u = S.process t → ¬ ((k.goto t (.lockGlobal x)).pc u).Global := by
    intro u hu
    by_cases hut : u = t
    · subst hut
      rw [goto_self]
      exact id
    · rw [goto_ne k _ hut]
      exact hglobal u hu
  have hlock := Move.lockGlobal (goto_self k t _) hfree
  have hfree' : ∀ u, ¬ (((k.goto t (.lockGlobal x)).goto t (.lockMutex x)).pc u).Mutex x := by
    intro u
    by_cases hut : u = t
    · subst hut
      rw [goto_self]
      exact id
    · rw [goto_ne _ _ hut, goto_ne k _ hut]
      exact hmutex u
  have hmutexed := Move.lockMutex (S := S) (goto_self _ t _) hfree'
  have hgoto : ((k.goto t (.lockGlobal x)).goto t (.lockMutex x)).goto t (.flock x) =
      k.goto t (.flock x) := by
    simp only [Locks.goto, Function.update_idem]
  rw [hgoto] at hmutexed
  exact ((Relation.ReflTransGen.single hcall).tail hlock).tail hmutexed

/-- **No two threads are inside at a time**, as long as no open file is shared. -/
theorem Unshared.exclusive (hS : Unshared S) : (locking S).Exclusive :=
  fun k I h t u ht hu => (LockInv.alone (Reach.inv hS h)) hS ht hu

/-- **The locks keep the sections apart exactly if no two processes share a description.** -/
theorem exclusive_iff (S : Sharing Thread Process Handle Ofd) :
    (locking S).Exclusive ↔ Unshared S := by
  constructor
  · intro hexcl x x' hofd
    by_contra hne
    -- the main threads of the two processes lock the file, one after the other
    let k₀ : Locks Thread Process Handle Ofd := ⟨fun _ => .idle, none, fun _ => False⟩
    let t := S.main (S.owner x)
    let t' := S.main (S.owner x')
    have hproc : S.process t' ≠ S.process t := fun heq =>
      hne ((S.process_main _).symm.trans (heq.symm.trans (S.process_main _)))
    have htt : t' ≠ t := fun heq => hproc (congrArg S.process heq)
    have h₀ : (locking S).Reach k₀ fun _ => False := .init fun _ h => h
    have h₁ := h₀.moves (t := t) id (moves_flock rfl (S.process_main _).symm (fun u _ hu => hu)
      (fun u hu => hu))
    have h₂ : (locking S).Reach _ fun u => u = t := h₁.enter id
      (Enter.flock (goto_self _ _ _) fun o ho => by cases ho) fun u => by simp
    have hother : ∀ u, u ≠ t → ((k₀.goto t (.flock x)).goto t (.inside x)).pc u = .idle := by
      intro u hu
      rw [goto_ne _ _ hu, goto_ne _ _ hu]
    have h₃ := h₂.moves (t := t') htt (moves_flock (hother t' htt) (S.process_main _).symm
      (fun u hu hpast => ?_) (fun u hpast => ?_))
    have h₄ : (locking S).Reach _ fun u => u = t' ∨ u = t := h₃.enter htt
      (Enter.flock (goto_self _ _ _) fun o ho => hofd ▸ (Option.some.inj ho).symm) fun u => Iff.rfl
    exact htt (hexcl _ _ h₄ _ _ (.inl rfl) (.inr rfl))
    · have hut : u ≠ t := fun heq => hproc (hu.symm.trans (congrArg S.process heq))
      rw [show _ = _ from hother u hut] at hpast
      exact hpast
    · by_cases hut : u = t
      · subst hut
        rw [show _ = _ from goto_self _ t (.inside x)] at hpast
        exact hne (congrArg S.owner hpast)
      · rw [show _ = _ from hother u hut] at hpast
        exact hpast
  · exact Unshared.exclusive

end Protocol

end Kvdb
