/-
  crepl — what a session leaves behind.

  1. **Specification** — `Leaves t files handles`: the effects `t` have removed every temporary file
     they made, once, but for `files`, and closed every handle they opened, once, but for
     `handles`; only the streams whose `fprintf` failed are open.  No more than two files are there
     at a time, and no more than 129 handles.

  2. **One command** — `Ends`: it comes to its end, with both files removed and the handles as
     `loaded` says (`Adds`), or it is broken off in typed code, with both files there (`Breaks`).

  3. **The session** — `Inv` holds between two commands.  `session_cleans_up`: a session that comes
     to its end leaves no file and no handle, and has answered every piece that is not blank; one
     that is broken off leaves the two files of the command it was in, if it was in one, and that
     command is the only one without an answer.
-/
import MiniLabs.Crepl.Code
import MiniLabs.Lib.Ledger

set_option linter.unusedVariables false

namespace Crepl

open Ledger State

/-! ## What the effects are about -/

/-- The temporary files. -/
def fileEvent : Effect → Option (Event Nat)
  | .mkstemp path => some (.acquire path)
  | .unlink path => some (.release path)
  | _ => none

/-- The handles. -/
def handleEvent : Effect → Option (Event Nat)
  | .dlopen handle => some (.acquire handle)
  | .dlclose handle => some (.release handle)
  | _ => none

/-- The streams. -/
def streamEvent : Effect → Option (Event Nat)
  | .fopen path => some (.acquire path)
  | .fclose path => some (.release path)
  | _ => none

/-- The streams whose text was not written. -/
def failedOf : Effect → Option Nat
  | .failed path => some path
  | _ => none

/-- What is printed. -/
def replyOf : Effect → Option Reply
  | .print r => some r
  | _ => none

/-- The pieces that were taken from the input. -/
def pieceOf : Effect → Option (List UInt8)
  | .fgets piece => some piece
  | _ => none

/-- The streams among the effects are closed, but for those whose text was not written. -/
def Written (δ : List Effect) : Prop :=
  ∀ held : Multiset Nat, Runs (held.card + 1) held (δ.filterMap streamEvent)
    ((δ.filterMap failedOf : List Nat) + held)

/-- Effects that open no stream. -/
theorem written_of_nil {δ : List Effect} (hstreams : δ.filterMap streamEvent = [])
    (hfailed : δ.filterMap failedOf = []) : Written δ := by
  intro held
  rw [hstreams, hfailed, Multiset.coe_nil, Multiset.zero_add]
  exact .nil (Nat.le_succ _)

/-! ## One command -/

section Command

variable {s s' : State} {δ : List Effect} {a : Answers} {line input : List UInt8}

/-- What a command adds before it prints its reply. -/
structure Adds (s s' : State) (δ : List Effect) : Prop where
  trace : s'.trace = s.trace ++ δ
  files : Runs 2 0 (δ.filterMap fileEvent) 0
  handles : Runs (maxHandles + 1) s.loaded (δ.filterMap handleEvent) s'.loaded
  room : s'.loaded.length ≤ maxHandles
  written : Written δ
  silent : δ.filterMap replyOf = []
  deaf : δ.filterMap pieceOf = []

/-- What a command adds that does not come back from typed code. -/
structure Breaks (s s' : State) (δ : List Effect) : Prop where
  trace : s'.trace = s.trace ++ δ
  files : ∃ source library, Runs 2 0 (δ.filterMap fileEvent) (library ::ₘ source ::ₘ 0)
  handles : ∃ held, Runs (maxHandles + 1) s.loaded (δ.filterMap handleEvent) held
  written : Written δ
  silent : δ.filterMap replyOf = []
  deaf : δ.filterMap pieceOf = []

/-- The bytes of the input that are taken. -/
def Outcome.taken {α : Type} : Outcome α → Nat
  | .returns taken _ => taken
  | .gone => 0

/-- Typed code that takes nothing of the input. -/
structure Answers.Quiet (a : Answers) : Prop where
  dlopen : a.dlopen.taken = 0
  function : a.function.taken = 0
  dlclose : a.dlclose.taken = 0

/-- **How a command ends**: it is broken off, or comes back with the table grown by `grows`. -/
inductive Ends {α : Type} (a : Answers) (s : State) (grows : α → Nat) : Outcome α × State → Prop
  | gone {s' : State} {δ : List Effect} (h : Breaks s s' δ) : Ends a s grows (.gone, s')
  | returns {s' : State} {δ : List Effect} {taken : Nat} {result : α} (h : Adds s s' δ)
      (hlength : s'.loaded.length = s.loaded.length + grows result)
      (htaken : a.Quiet → taken = 0) : Ends a s grows (.returns taken result, s')

/-- What `write_source` does is about its stream only. -/
structure Writes (s s' : State) (δ : List Effect) : Prop where
  state : s' = { s with trace := s.trace ++ δ }
  files : δ.filterMap fileEvent = []
  handles : δ.filterMap handleEvent = []
  replies : δ.filterMap replyOf = []
  pieces : δ.filterMap pieceOf = []
  written : Written δ

/-- **Writing the source** closes what it opens, unless `fprintf` fails. -/
theorem writeSource_writes (path : Nat) (line : List UInt8) (wrapper : Option (List UInt8))
    (a : Answers) (s : State) : ∃ δ, Writes s (writeSource path line wrapper a s).2 δ := by
  rw [writeSource]
  by_cases hopen : a.fopen = true
  · rw [if_pos hopen]
    by_cases hprint : a.fprintf = true
    · refine ⟨[.fopen path, .fprintf path (sourceText line wrapper), .fclose path], ?_, rfl, rfl,
        rfl, rfl, fun held => ?_⟩
      · simp [hprint, did]
      · show Runs _ _ [.acquire path, .release path] ((0 : Multiset Nat) + held)
        rw [Multiset.zero_add]
        exact .round (Nat.le_refl _)
    · refine ⟨[.fopen path, .failed path], ?_, rfl, rfl, rfl, rfl, fun held => ?_⟩
      · simp [hprint, did]
      · show Runs _ _ [.acquire path] ((([path] : List Nat) : Multiset Nat) + held)
        rw [← Multiset.cons_coe, Multiset.coe_nil, Multiset.cons_add, Multiset.zero_add]
        exact .one (Nat.le_refl _)
  · rw [if_neg hopen]
    exact ⟨[], by simp, rfl, rfl, rfl, rfl, written_of_nil rfl rfl⟩

/-- A command that gets no file. -/
theorem adds_of_none (n : Nat) (hroom : s.loaded.length ≤ maxHandles) :
    Adds s { s with exprCount := n } [] :=
  ⟨(List.append_nil _).symm, .nil (Nat.zero_le 2), .nil (Nat.le_succ_of_le hroom), hroom,
    written_of_nil rfl rfl, rfl, rfl⟩

/-- A command that gets one file only, and removes it. -/
theorem adds_of_one (n source : Nat) (hroom : s.loaded.length ≤ maxHandles) :
    Adds s ((({ s with exprCount := n } : State).did (.mkstemp source)).did (.unlink source))
      [.mkstemp source, .unlink source] :=
  ⟨by simp [did], .round (Nat.le_succ 1), .nil (Nat.le_succ_of_le hroom), hroom,
    written_of_nil rfl rfl, rfl, rfl⟩

/-- The work between `write_source` and the end of a command is about handles only. -/
def Work (work : List Effect) : Prop := ∀ e ∈ work, ∃ handle, e = .dlopen handle ∨ e = .dlclose handle

/-- Nothing has been done. -/
theorem Work.nil : Work [] := fun e he => absurd he List.not_mem_nil

/-- One more library, opened or closed. -/
theorem Work.cons {e : Effect} {work : List Effect} {handle : Nat}
    (he : e = .dlopen handle ∨ e = .dlclose handle) (h : Work work) : Work (e :: work) := by
  intro e' he'
  rcases List.mem_cons.mp he' with rfl | he'
  · exact ⟨handle, he⟩
  · exact h e' he'

/-- Work on libraries is nothing else. -/
theorem Work.filterMap {β : Type} {work : List Effect} (h : Work work) (f : Effect → Option β)
    (hopen : ∀ handle, f (.dlopen handle) = none) (hclose : ∀ handle, f (.dlclose handle) = none) :
    work.filterMap f = [] := by
  refine List.filterMap_eq_nil_iff.mpr fun e he => ?_
  obtain ⟨handle, rfl | rfl⟩ := h e he
  · exact hopen handle
  · exact hclose handle

/-- The streams of a command are those of `write_source`. -/
theorem Writes.written_work {s₀ s₁ : State} {w work : List Effect} (source library : Nat)
    (hw : Writes s₀ s₁ w) (hwork : Work work) :
    Written ([.mkstemp source, .mkstemp library] ++ w ++ work) := by
  intro held
  simp only [List.filterMap_append, hwork.filterMap streamEvent (fun _ => rfl) fun _ => rfl,
    hwork.filterMap failedOf (fun _ => rfl) fun _ => rfl]
  show Runs _ _ ([] ++ w.filterMap streamEvent ++ [])
    ((([] ++ w.filterMap failedOf ++ [] : List Nat) : Multiset Nat) + held)
  simp only [List.nil_append, List.append_nil]
  exact hw.written held

/-- A command that gets two files: it writes, does its work, and is broken off. -/
theorem breaks_of_two (source library : Nat) {s₀ s₁ : State} {w : List Effect}
    {held : Multiset Nat} (work : List Effect) (hw : Writes s₀ s₁ w)
    (htrace : s'.trace = s.trace ++ ([.mkstemp source, .mkstemp library] ++ w ++ work))
    (hwork : Work work)
    (hhandles : Runs (maxHandles + 1) s.loaded (work.filterMap handleEvent) held) :
    Breaks s s' ([.mkstemp source, .mkstemp library] ++ w ++ work) where
  trace := htrace
  files := by
    refine ⟨source, library, ?_⟩
    simp only [List.filterMap_append, hw.files, hwork.filterMap fileEvent (fun _ => rfl) fun _ => rfl]
    exact .two (Nat.le_refl 2)
  handles := by
    refine ⟨held, ?_⟩
    simp only [List.filterMap_append, hw.handles]
    exact hhandles
  written := hw.written_work source library hwork
  silent := by
    simp only [List.filterMap_append, hw.replies,
      hwork.filterMap replyOf (fun _ => rfl) fun _ => rfl]
    rfl
  deaf := by
    simp only [List.filterMap_append, hw.pieces,
      hwork.filterMap pieceOf (fun _ => rfl) fun _ => rfl]
    rfl

/-- The same, and it cleans up. -/
theorem adds_of_two {source library : Nat} {s₀ s₁ : State} {w : List Effect} (work : List Effect)
    (hw : Writes s₀ s₁ w)
    (htrace : s'.trace = s.trace ++ ([.mkstemp source, .mkstemp library] ++ w ++ work))
    (hwork : Work work)
    (hhandles : Runs (maxHandles + 1) s.loaded (work.filterMap handleEvent) s'.loaded)
    (hroom : s'.loaded.length ≤ maxHandles) :
    Adds s (cleanupFiles source library s')
      ([.mkstemp source, .mkstemp library] ++ w ++ work ++ [.unlink source, .unlink library]) where
  trace := by
    show s'.trace ++ [.unlink source] ++ [.unlink library] = _
    rw [htrace]
    simp
  files := by
    simp only [List.filterMap_append, hw.files, hwork.filterMap fileEvent (fun _ => rfl) fun _ => rfl]
    exact .rounds (Nat.le_refl 2)
  handles := by
    simp only [List.filterMap_append, hw.handles]
    show Runs _ _ ([] ++ [] ++ work.filterMap handleEvent ++ []) _
    rwa [List.nil_append, List.nil_append, List.append_nil]
  room := hroom
  written held := by
    rw [List.filterMap_append]
    have hnone : ∀ δ : List Effect,
        (δ ++ [Effect.unlink source, .unlink library]).filterMap failedOf =
          δ.filterMap failedOf := fun δ => by
      rw [List.filterMap_append]
      exact List.append_nil _
    rw [hnone]
    show Runs _ _ (_ ++ []) _
    rw [List.append_nil]
    exact hw.written_work source library hwork held
  silent := by
    simp only [List.filterMap_append, hw.replies,
      hwork.filterMap replyOf (fun _ => rfl) fun _ => rfl]
    rfl
  deaf := by
    simp only [List.filterMap_append, hw.pieces,
      hwork.filterMap pieceOf (fun _ => rfl) fun _ => rfl]
    rfl

/-- A command that gets two files and fails before it opens a handle. -/
theorem adds_of_idle {n source library : Nat} {s₀ s₁ : State} {w : List Effect}
    (hw : Writes s₀ s₁ w) (hroom : s.loaded.length ≤ maxHandles) :
    Adds s (cleanupFiles source library
        ⟨s.loaded, n, s.trace ++ ([.mkstemp source, .mkstemp library] ++ w)⟩)
      ([.mkstemp source, .mkstemp library] ++ w ++ [] ++ [.unlink source, .unlink library]) :=
  adds_of_two [] hw (by simp) .nil (.nil (Nat.le_succ_of_le hroom)) hroom

/-- It does not come back from the constructors in `dlopen`. -/
theorem breaks_of_idle {n source library : Nat} {s₀ s₁ : State} {w : List Effect}
    (hw : Writes s₀ s₁ w) (hroom : s.loaded.length ≤ maxHandles) :
    Breaks s ⟨s.loaded, n, s.trace ++ ([.mkstemp source, .mkstemp library] ++ w)⟩
      ([.mkstemp source, .mkstemp library] ++ w ++ []) :=
  breaks_of_two source library [] hw (by simp) .nil (.nil (Nat.le_succ_of_le hroom))

/-- A handle is opened, and closed at once. -/
theorem opens_closes (handle : Nat) (hroom : s.loaded.length ≤ maxHandles) :
    Runs (maxHandles + 1) s.loaded ([Effect.dlopen handle, .dlclose handle].filterMap handleEvent)
      s.loaded :=
  .round (Nat.succ_le_succ hroom)

/-- A handle that was opened is closed, and the files are removed. -/
theorem closeHandle_ends {α : Type} {n source library handle : Nat} {s₀ s₁ : State}
    {w : List Effect} (hw : Writes s₀ s₁ w) (hroom : s.loaded.length ≤ maxHandles) (a : Answers)
    {taken : Nat → Nat} {result : α} {grows : α → Nat} (hgrows : grows result = 0)
    (htaken : a.Quiet → taken 0 = 0) :
    Ends a s grows (closeHandle handle a.dlclose
      (State.did (.dlopen handle)
        ⟨s.loaded, n, s.trace ++ ([.mkstemp source, .mkstemp library] ++ w)⟩)
      fun m s' => (.returns (taken m) result, cleanupFiles source library s')) := by
  have hwork : Work [.dlopen handle, .dlclose handle] :=
    .cons (.inl rfl) (.cons (.inr rfl) .nil)
  have hquiet : a.Quiet → a.dlclose.taken = 0 := fun h => h.dlclose
  generalize a.dlclose = answer at hquiet ⊢
  cases answer with
  | gone =>
    exact .gone (breaks_of_two source library [.dlopen handle, .dlclose handle] hw (by simp [did])
      hwork (opens_closes handle hroom))
  | returns m =>
    refine .returns (adds_of_two [.dlopen handle, .dlclose handle] hw (by simp [did]) hwork
      (opens_closes handle hroom) hroom) ?_ fun h => ?_
    · rw [hgrows]
      rfl
    · have hm : m = 0 := hquiet h
      rw [hm]
      exact htaken h

/-- The state behind `write_source`, with what it did. -/
theorem writeSource_state (source library : Nat) (line : List UInt8)
    (wrapper : Option (List UInt8)) (a : Answers) (s : State) : ∃ (b : Bool) (w : List Effect),
    writeSource source line wrapper a ((s.did (.mkstemp source)).did (.mkstemp library)) =
      (b, { s with trace := s.trace ++ ([.mkstemp source, .mkstemp library] ++ w) }) ∧
    ∃ s₀ s₁, Writes s₀ s₁ w := by
  obtain ⟨w, hw⟩ := writeSource_writes source line wrapper a
    ((s.did (.mkstemp source)).did (.mkstemp library))
  refine ⟨(writeSource source line wrapper a _).1, w, Prod.ext rfl (hw.state.trans ?_), _, _, hw⟩
  simp [did]

/-- **A function**: its handle is kept if all went well. -/
theorem load_ends (line : List UInt8) (a : Answers) (hroom : s.loaded.length ≤ maxHandles) :
    Ends a s (fun done => if done = true then 1 else 0) (loadFunctionLine line a s) := by
  rw [loadFunctionLine]
  cases a.source with
  | none => exact .returns (adds_of_none _ hroom) rfl fun _ => rfl
  | some source =>
    cases a.library with
    | none => exact .returns (adds_of_one _ source hroom) rfl fun _ => rfl
    | some library =>
      obtain ⟨written, w, hres, _, _, hw⟩ := writeSource_state source library line none a s
      simp only [makeTempPath, hres]
      cases written with
      | false => exact .returns (adds_of_idle hw hroom) rfl fun _ => rfl
      | true =>
        by_cases hcompile : compileSharedObject a = false
        · simp only [if_pos hcompile]
          exact .returns (adds_of_idle hw hroom) rfl fun _ => rfl
        · simp only [if_neg hcompile]
          have hquiet : a.Quiet → a.dlopen.taken = 0 := fun h => h.dlopen
          generalize a.dlopen = opened at hquiet ⊢
          cases opened with
          | gone => exact .gone (breaks_of_idle hw hroom)
          | returns n answer =>
            cases answer with
            | none => exact .returns (adds_of_idle hw hroom) rfl hquiet
            | some handle =>
              have hlength : ∀ t, (State.did (.dlopen handle) ⟨s.loaded, s.exprCount, t⟩).loaded.length =
                  s.loaded.length := fun t => rfl
              simp only [hlength]
              by_cases hfull : s.loaded.length ≥ maxHandles
              · simp only [if_pos hfull]
                exact closeHandle_ends hw hroom a rfl hquiet
              · -- the handle is kept
                simp only [if_neg hfull]
                refine .returns (adds_of_two [.dlopen handle] hw (by simp [did])
                  (.cons (.inl rfl) .nil) ?_ ?_) ?_ hquiet
                · show Runs _ _ [.acquire handle] ((s.loaded ++ [handle] : List Nat) : Multiset Nat)
                  rw [← Multiset.coe_add, Multiset.add_comm]
                  exact .one (Nat.succ_le_succ hroom)
                · show (s.loaded ++ [handle]).length ≤ maxHandles
                  rw [List.length_append]
                  exact Nat.lt_of_not_ge hfull
                · exact List.length_append

/-- **An expression**: its handle is closed. -/
theorem eval_ends (line : List UInt8) (a : Answers) (hroom : s.loaded.length ≤ maxHandles) :
    Ends a s (fun _ => 0) (evalExpressionLine line a s) := by
  rw [evalExpressionLine]
  cases a.source with
  | none => exact .returns (adds_of_none _ hroom) rfl fun _ => rfl
  | some source =>
    cases a.library with
    | none => exact .returns (adds_of_one _ source hroom) rfl fun _ => rfl
    | some library =>
      obtain ⟨written, w, hres, _, _, hw⟩ := writeSource_state source library line
        (some (wrapperName s.exprCount)) a { s with exprCount := (s.exprCount + 1) % 2 ^ 64 }
      simp only [makeTempPath, hres]
      cases written with
      | false => exact .returns (adds_of_idle hw hroom) rfl fun _ => rfl
      | true =>
        by_cases hcompile : compileSharedObject a = false
        · simp only [if_pos hcompile]
          exact .returns (adds_of_idle hw hroom) rfl fun _ => rfl
        · simp only [if_neg hcompile]
          have hquiet : a.Quiet → a.dlopen.taken = 0 := fun h => h.dlopen
          generalize a.dlopen = opened at hquiet ⊢
          cases opened with
          | gone => exact .gone (breaks_of_idle hw hroom)
          | returns n answer =>
            cases answer with
            | none => exact .returns (adds_of_idle hw hroom) rfl hquiet
            | some handle =>
              by_cases hsymbol : a.dlsym = false
              · simp only [if_pos hsymbol]
                exact closeHandle_ends hw hroom a rfl hquiet
              · simp only [if_neg hsymbol]
                have hcall : a.Quiet → a.function.taken = 0 := fun h => h.function
                generalize a.function = called at hcall ⊢
                cases called with
                | gone =>
                  -- the handle of the wrapper stays open
                  exact .gone (breaks_of_two source library [.dlopen handle] hw (by simp [did])
                    (.cons (.inl rfl) .nil) (.one (Nat.succ_le_succ hroom)))
                | returns l result =>
                  refine closeHandle_ends hw hroom a rfl fun h => ?_
                  have hn : n = 0 := hquiet h
                  have hl : l = 0 := hcall h
                  rw [hn, hl]

end Command

/-! ## A session -/

section Session

variable {s s' : State} {δ t t' : List Effect} {files handles : Multiset Nat}

/-- **What is left** of the effects: these files and handles, and the streams whose text was not
    written. -/
structure Leaves (t : List Effect) (files handles : Multiset Nat) : Prop where
  files : Runs 2 0 (t.filterMap fileEvent) files
  handles : Runs (maxHandles + 1) 0 (t.filterMap handleEvent) handles
  streams : ∃ b, Runs b 0 (t.filterMap streamEvent) (t.filterMap failedOf : List Nat)
  oks : (t.filterMap replyOf).count .ok ≤ maxHandles

/-- The answers that have been given. -/
def replies (t : List Effect) : Nat := (t.filterMap replyOf).length

/-- The pieces that call for an answer. -/
def asked (t : List Effect) : Nat :=
  ((t.filterMap pieceOf).filter fun piece => inputOf piece ≠ []).length

/-- What holds between two commands. -/
structure Inv (s : State) : Prop where
  leaves : Leaves s.trace 0 s.loaded
  room : s.loaded.length ≤ maxHandles
  oks : (s.trace.filterMap replyOf).count .ok = s.loaded.length
  answered : replies s.trace = asked s.trace

/-- The invariant holds before the first command. -/
theorem Inv.init : Inv .init :=
  ⟨⟨.nil (Nat.zero_le 2), .nil (Nat.zero_le _), ⟨0, .nil (Nat.le_refl 0)⟩, Nat.zero_le _⟩,
    Nat.zero_le _, rfl, rfl⟩

/-- The effects of one more command. -/
theorem Leaves.append {files' handles' : Multiset Nat} (h : Leaves t 0 handles)
    (hfiles : Runs 2 0 (δ.filterMap fileEvent) files')
    (hhandles : Runs (maxHandles + 1) handles (δ.filterMap handleEvent) handles')
    (hwritten : Written δ) (hoks : ((t ++ δ).filterMap replyOf).count .ok ≤ maxHandles) :
    Leaves (t ++ δ) files' handles' where
  files := by
    rw [List.filterMap_append]
    exact h.files.append hfiles
  handles := by
    rw [List.filterMap_append]
    exact h.handles.append hhandles
  streams := by
    obtain ⟨b, hb⟩ := h.streams
    have hnext := hwritten (t.filterMap failedOf : List Nat)
    rw [List.filterMap_append, List.filterMap_append, ← Multiset.coe_add, Multiset.add_comm]
    exact ⟨_, (hb.mono (Nat.le_max_left _ _)).append (hnext.mono (Nat.le_max_right _ _))⟩
  oks := hoks

/-- Answers behind one another. -/
theorem replies_append (t δ : List Effect) : replies (t ++ δ) = replies t + replies δ := by
  rw [replies, List.filterMap_append, List.length_append]
  rfl

/-- Pieces behind one another. -/
theorem asked_append (t δ : List Effect) : asked (t ++ δ) = asked t + asked δ := by
  rw [asked, List.filterMap_append, List.filter_append, List.length_append]
  rfl

/-- A command that has ended prints its reply to a piece. -/
theorem Inv.print (h : Leaves s.trace 0 s.loaded)
    (hoks : (s.trace.filterMap replyOf).count .ok = s.loaded.length)
    (hasked : replies s.trace + 1 = asked s.trace) (hadds : Adds s s' δ) (r : Reply)
    (hlength : s'.loaded.length = s.loaded.length + if r = .ok then 1 else 0) :
    Inv (s'.did (.print r)) := by
  have htrace : (s'.did (.print r)).trace = s.trace ++ (δ ++ [.print r]) := by
    rw [← List.append_assoc]
    exact congrArg (· ++ [Effect.print r]) hadds.trace
  have hreplies : (s'.did (.print r)).trace.filterMap replyOf =
      s.trace.filterMap replyOf ++ [r] := by
    rw [htrace, List.filterMap_append, List.filterMap_append, hadds.silent]
    rfl
  have hcount : ((s'.did (.print r)).trace.filterMap replyOf).count .ok = s'.loaded.length := by
    rw [hreplies, List.count_append, hoks, List.count_singleton, hlength]
    cases r <;> rfl
  refine ⟨?_, hadds.room, hcount, ?_⟩
  · rw [htrace]
    refine h.append ?_ ?_ ?_ ?_
    · rw [List.filterMap_append]
      show Runs _ _ (_ ++ []) _
      rw [List.append_nil]
      exact hadds.files
    · rw [List.filterMap_append]
      show Runs _ _ (_ ++ []) _
      rw [List.append_nil]
      exact hadds.handles
    · intro held
      rw [List.filterMap_append, List.filterMap_append]
      show Runs _ _ (_ ++ []) (((_ ++ [] : List Nat) : Multiset Nat) + held)
      rw [List.append_nil, List.append_nil]
      exact hadds.written held
    · rw [← htrace, hcount]
      exact hadds.room
  · have hdeaf : asked (δ ++ [.print r]) = 0 := by
      rw [asked, List.filterMap_append, hadds.deaf]
      rfl
    have hone : replies (δ ++ [.print r]) = 1 := by
      rw [replies, List.filterMap_append, hadds.silent]
      rfl
    rw [htrace, replies_append, asked_append, hdeaf, hone, hasked]
    rfl

/-- What a session leaves that is broken off in a command: the two files of the command. -/
structure Broken (s : State) : Prop where
  leaves : ∃ source library held, Leaves s.trace (library ::ₘ source ::ₘ 0) held
  asked : replies s.trace + 1 = asked s.trace

/-- A command is broken off. -/
theorem Broken.of_breaks (h : Leaves s.trace 0 s.loaded)
    (hoks : (s.trace.filterMap replyOf).count .ok ≤ maxHandles)
    (hasked : replies s.trace + 1 = Crepl.asked s.trace) (hbreaks : Breaks s s' δ) : Broken s' := by
  obtain ⟨source, library, hfiles⟩ := hbreaks.files
  obtain ⟨held, hheld⟩ := hbreaks.handles
  have hreplies : (s.trace ++ δ).filterMap replyOf = s.trace.filterMap replyOf := by
    rw [List.filterMap_append, hbreaks.silent, List.append_nil]
  refine ⟨⟨source, library, held, ?_⟩, ?_⟩
  · rw [hbreaks.trace]
    refine h.append hfiles hheld hbreaks.written ?_
    rw [hreplies]
    exact hoks
  · have hdeaf : Crepl.asked δ = 0 := by
      rw [Crepl.asked, hbreaks.deaf]
      rfl
    rw [hbreaks.trace, asked_append, hdeaf, replies, hreplies]
    exact hasked

/-- How one piece, and how a session, can end. -/
def Held : Outcome Unit × State → Prop
  | (.returns _ _, s) => Inv s
  | (.gone, s) => Broken s

/-- **One piece keeps it**, and is answered unless it is blank. -/
theorem Inv.command (h : Inv s) (piece : List UInt8) (a : Answers) :
    Held (command (inputOf piece) a (s.did (.fgets piece))) := by
  have htaken : Leaves (s.did (.fgets piece)).trace 0 (s.did (.fgets piece)).loaded := by
    refine h.leaves.append (.nil (Nat.zero_le 2)) (.nil (Nat.le_succ_of_le h.room))
      (written_of_nil rfl rfl) ?_
    rw [List.filterMap_append]
    show (_ ++ []).count _ ≤ _
    rw [List.append_nil]
    exact h.leaves.oks
  have hoks : ((s.did (.fgets piece)).trace.filterMap replyOf).count .ok =
      (s.did (.fgets piece)).loaded.length := by
    show ((s.trace ++ [_]).filterMap replyOf).count _ = s.loaded.length
    rw [List.filterMap_append]
    show (_ ++ []).count _ = _
    rw [List.append_nil]
    exact h.oks
  have hreplies : replies (s.did (.fgets piece)).trace = replies s.trace := replies_append _ _
  have hasked : asked (s.did (.fgets piece)).trace =
      asked s.trace + if inputOf piece = [] then 0 else 1 := by
    refine (asked_append _ _).trans (congrArg _ ?_)
    show ([piece].filter _).length = _
    by_cases hblank : inputOf piece = []
    · simp [hblank]
    · simp [hblank]
  rw [Crepl.command]
  by_cases hblank : inputOf piece = []
  · rw [if_pos hblank] at hasked ⊢
    exact ⟨htaken, h.room, hoks, hreplies.trans (h.answered.trans hasked.symm)⟩
  · rw [if_neg hblank] at hasked ⊢
    have hnext : replies (s.did (.fgets piece)).trace + 1 = asked (s.did (.fgets piece)).trace := by
      rw [hreplies, hasked, h.answered]
    by_cases hdef : isFunctionDefinition (inputOf piece) = true
    · rw [if_pos hdef]
      have hends := load_ends (s := s.did (.fgets piece)) (inputOf piece) a h.room
      generalize loadFunctionLine (inputOf piece) a _ = res at hends ⊢
      cases hends with
      | gone hbreaks => exact Broken.of_breaks htaken htaken.oks hnext hbreaks
      | @returns s' δ taken done hadds hlength _ =>
        cases done with
        | true => exact Inv.print htaken hoks hnext hadds .ok hlength
        | false => exact Inv.print htaken hoks hnext hadds .error hlength
    · rw [if_neg hdef]
      have hends := eval_ends (s := s.did (.fgets piece)) (inputOf piece) a h.room
      generalize evalExpressionLine (inputOf piece) a _ = res at hends ⊢
      cases hends with
      | gone hbreaks => exact Broken.of_breaks htaken htaken.oks hnext hbreaks
      | @returns s' δ taken result hadds hlength _ =>
        cases result with
        | some n => exact Inv.print htaken hoks hnext hadds (.value n) hlength
        | none => exact Inv.print htaken hoks hnext hadds .error hlength

/-- **The loop keeps it.** -/
theorem Inv.mainLoop (answers : Nat → Answers) (k : Nat) (stdin : List UInt8) (h : Inv s) :
    Held (mainLoop answers k stdin s) := by
  fun_induction Crepl.mainLoop answers k stdin s with
  | case1 k stdin s got hend => exact h
  | case2 k stdin s got hne hlt s' hgone =>
    have hheld := h.command got.line (answers k)
    rw [hgone] at hheld
    exact hheld
  | case3 k stdin s got hne hlt taken s' hreturns ih =>
    have hheld := h.command got.line (answers k)
    rw [hreturns] at hheld
    exact ih hheld

/-- The handles that are left are closed one after the other, as far as it goes. -/
theorem closeAll_leaves (closing : Nat → Outcome Unit) (k : Nat) (loaded : List Nat) {s : State}
    (h : Leaves s.trace 0 loaded) (hroom : loaded.length ≤ maxHandles) :
    ∃ held, Leaves (closeAll closing k loaded s).2.trace 0 held ∧
      ((closeAll closing k loaded s).1 ≠ .gone → held = 0) ∧
      replies (closeAll closing k loaded s).2.trace = replies s.trace ∧
      asked (closeAll closing k loaded s).2.trace = asked s.trace ∧
      (closeAll closing k loaded s).2.trace.filterMap pieceOf = s.trace.filterMap pieceOf := by
  induction loaded generalizing k s with
  | nil => exact ⟨0, h, fun _ => rfl, rfl, rfl, rfl⟩
  | cons handle loaded ih =>
    have hpieces : (s.did (.dlclose handle)).trace.filterMap pieceOf =
        s.trace.filterMap pieceOf := by
      show (s.trace ++ [_]).filterMap pieceOf = _
      rw [List.filterMap_append]
      exact List.append_nil _
    have hclosed : Leaves (s.did (.dlclose handle)).trace 0 loaded := by
      refine h.append (.nil (Nat.zero_le 2)) ?_ (written_of_nil rfl rfl) ?_
      · show Runs _ _ [.release handle] _
        rw [← Multiset.cons_coe]
        exact .release (by simpa using Nat.le_succ_of_le hroom)
          (.nil (Nat.le_succ_of_le (Nat.le_of_succ_le hroom)))
      · rw [List.filterMap_append]
        show (_ ++ []).count _ ≤ _
        rw [List.append_nil]
        exact h.oks
    rw [closeAll]
    cases closing k with
    | gone =>
      exact ⟨loaded, hclosed, fun hne => absurd rfl hne, replies_append _ _, asked_append _ _,
        hpieces⟩
    | returns taken =>
      obtain ⟨held, hleaves, hzero, hreplies, hasked, hlast⟩ :=
        ih (k + 1) hclosed (Nat.le_of_succ_le hroom)
      exact ⟨held, hleaves, hzero, hreplies.trans (replies_append _ _),
        hasked.trans (asked_append _ _), hlast.trans hpieces⟩

/-- Where typed code takes nothing of the input, a command takes no piece and no bytes. -/
theorem command_pieces (input : List UInt8) {a : Answers} (ha : a.Quiet)
    (hroom : s.loaded.length ≤ maxHandles) {taken : Nat}
    (h : command input a s = (.returns taken (), s')) :
    taken = 0 ∧ s'.trace.filterMap pieceOf = s.trace.filterMap pieceOf := by
  have hdone : ∀ {s₁ : State} {δ : List Effect} (r : Reply), Adds s s₁ δ →
      (s₁.did (.print r)).trace.filterMap pieceOf = s.trace.filterMap pieceOf := by
    intro s₁ δ r hadds
    show (s₁.trace ++ [_]).filterMap pieceOf = _
    rw [hadds.trace, List.filterMap_append, List.filterMap_append, hadds.deaf, List.append_nil]
    exact List.append_nil _
  rw [Crepl.command] at h
  split at h
  · cases h
    exact ⟨rfl, rfl⟩
  · split at h
    · have hends := load_ends (s := s) input a hroom
      generalize loadFunctionLine input a s = res at hends h
      cases hends with
      | gone hbreaks => cases h
      | @returns s₁ δ n done hadds hlength htaken =>
        cases done <;> cases h <;> exact ⟨htaken ha, hdone _ hadds⟩
    · have hends := eval_ends (s := s) input a hroom
      generalize evalExpressionLine input a s = res at hends h
      cases hends with
      | gone hbreaks => cases h
      | @returns s₁ δ n result hadds hlength htaken =>
        cases result <;> cases h <;> exact ⟨htaken ha, hdone _ hadds⟩

/-- **The pieces are those of the input**, if nobody else takes any of it. -/
theorem mainLoop_pieces {answers : Nat → Answers} (hquiet : ∀ k, (answers k).Quiet) (k : Nat)
    (stdin : List UInt8) (h : Inv s) {taken : Nat}
    (hend : mainLoop answers k stdin s = (.returns taken (), s')) :
    s'.trace.filterMap pieceOf = s.trace.filterMap pieceOf ++ pieces stdin := by
  fun_induction Crepl.mainLoop answers k stdin s with
  | case1 k stdin s got hnil =>
    cases hend
    rw [pieces, dif_pos hnil, List.append_nil]
  | case2 k stdin s got hne hlt s₁ hgone => cases hend
  | case3 k stdin s got hne hlt n s₁ hreturns ih =>
    have hheld := h.command got.line (answers k)
    obtain ⟨hn, hsame⟩ := command_pieces (s := s.did (.fgets got.line)) _ (hquiet k) h.room hreturns
    rw [hreturns] at hheld
    have hpieces : pieces stdin = got.line :: pieces got.rest := by
      rw [pieces, dif_neg hne]
    rw [ih hheld hend, hn, List.drop_zero, hsame, hpieces]
    show (s.trace ++ [_]).filterMap pieceOf ++ _ = _
    rw [List.filterMap_append, List.append_assoc]
    rfl

/-- **A session cleans up**, whatever is typed and whatever the calls answer.

    If it comes to its end, no file and no handle is left, and every piece that is not blank has
    been answered, once; the pieces are those of the input, if typed code takes nothing of it.

    If typed code does not come back, nothing else is left than the two files of the command it is
    in, and only that command has no answer; or it is a destructor at the end, and no file is left.

    In both cases no file is removed and no handle is closed that is not there, at most two files
    and 129 handles are there at a time, the streams left open are those whose `fprintf` failed,
    and `OK.` is said 128 times at most. -/
theorem session_cleans_up (answers : Nat → Answers) (closing : Nat → Outcome Unit)
    (stdin : List UInt8) : ∃ files handles,
    Leaves (main answers closing stdin).2.trace files handles ∧
    match main answers closing stdin with
    | (.returns _ (), s) => files = 0 ∧ handles = 0 ∧ replies s.trace = asked s.trace ∧
        ((∀ k, (answers k).Quiet) → s.trace.filterMap pieceOf = pieces stdin)
    | (.gone, s) => files = 0 ∧ replies s.trace = asked s.trace ∨
        files.card = 2 ∧ replies s.trace + 1 = asked s.trace := by
  have hheld := Inv.init.mainLoop answers 0 stdin
  rw [main]
  cases hloop : mainLoop answers 0 stdin .init with
  | mk outcome s =>
    rw [hloop] at hheld
    cases outcome with
    | gone =>
      obtain ⟨source, library, held, hleaves⟩ := hheld.leaves
      exact ⟨_, held, hleaves, Or.inr ⟨rfl, hheld.asked⟩⟩
    | returns taken =>
      obtain ⟨held, hleaves, hzero, hreplies, hasked, hpieces⟩ :=
        closeAll_leaves closing 0 s.loaded hheld.leaves hheld.room
      have hanswered := hreplies.trans (hheld.answered.trans hasked.symm)
      refine ⟨0, held, hleaves, ?_⟩
      dsimp only
      cases hclose : closeAll closing 0 s.loaded s with
      | mk outcome s' =>
        rw [hclose] at hzero hanswered hpieces
        cases outcome with
        | gone => exact Or.inl ⟨rfl, hanswered⟩
        | returns n =>
          refine ⟨rfl, hzero (fun h => by cases h), hanswered, fun hquiet => ?_⟩
          exact hpieces.trans (mainLoop_pieces hquiet 0 stdin .init hloop)

end Session

end Crepl
