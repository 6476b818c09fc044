/-
  Sections — calls that run under a lock, one step at a time, among other threads.

  * `Protocol`  — a lock: what threads do outside their sections, how they enter and leave, and
                  what is left when some of them are killed.
  * `Code`      — a call cut into steps on the shared state; `Implements f mid` says what the
                  steps come to if nobody comes between them, and what they may leave half done.
  * `Step`      — one step of one thread, with the events of that step.

  `linearizes`: under a lock that lets in one thread at a time, the shared state and the results
  are those of running whole calls one after the other, in the order in which they left their
  sections; a section whose thread was killed counts as a call that was left half done.
-/
import Mathlib.Logic.Function.Basic
import Mathlib.Data.List.Nodup
import Mathlib.Logic.Relation
import MiniLabs.Lib.Stepping

set_option linter.unusedVariables false

namespace Sections

open Stepping

/-! ## Locks -/

/-- A **lock** among the threads `T`. -/
structure Protocol (T : Type) where
  State : Type
  init : State
  /-- A step of a thread that is not inside. -/
  move : T → State → State → Prop
  enter : T → State → State → Prop
  leave : T → State → State → Prop
  /-- Some threads die, all at once. -/
  kill : (T → Bool) → State → State → Prop

namespace Protocol

variable {T : Type} (P : Protocol T)

/-- The states of the lock, with the threads that are inside. -/
inductive Reach : P.State → (T → Prop) → Prop
  | init {I : T → Prop} (hI : ∀ u, ¬ I u) : Reach P.init I
  | move {k k' : P.State} {I : T → Prop} {t : T} (h : Reach k I) (ht : ¬ I t)
      (hmove : P.move t k k') : Reach k' I
  | enter {k k' : P.State} {I I' : T → Prop} {t : T} (h : Reach k I) (ht : ¬ I t)
      (henter : P.enter t k k') (hI : ∀ u, I' u ↔ u = t ∨ I u) : Reach k' I'
  | leave {k k' : P.State} {I I' : T → Prop} {t : T} (h : Reach k I) (ht : I t)
      (hleave : P.leave t k k') (hI : ∀ u, I' u ↔ I u ∧ u ≠ t) : Reach k' I'
  | kill {k k' : P.State} {I I' : T → Prop} {dead : T → Bool} (h : Reach k I)
      (hkill : P.kill dead k k') (hI : ∀ u, I' u ↔ I u ∧ dead u = false) : Reach k' I'

/-- At most one thread is inside. -/
def Exclusive : Prop := ∀ k I, P.Reach k I → ∀ t u, I t → I u → t = u

end Protocol

/-! ## Calls in steps -/

/-- What the steps of a call do to the shared state `S`; a call is over when it has a result. -/
structure Code (Op S R : Type) where
  Local : Type
  start : Op → Local
  step : Local → S → Local × S
  result : Local → Option R

section Calls

variable {T Op S R : Type} [DecidableEq T]

/-- Where a call that nobody disturbs can get, from the shared state `s`. -/
inductive Code.Goes (code : Code Op S R) (op : Op) (s : S) : code.Local → S → Prop
  | start : code.Goes op s (code.start op) s
  | step {l : code.Local} {s' : S} (h : code.Goes op s l s') (hl : code.result l = none) :
      code.Goes op s (code.step l s').1 (code.step l s').2

/-- The steps **implement** `f`, which may not return; half done they leave what `mid` says. -/
structure Code.Implements (code : Code Op S R) (f : Op → S → Option (R × S))
    (mid : Op → S → S → Prop) : Prop where
  half : ∀ op s l s', code.Goes op s l s' → mid op s s'
  whole : ∀ op s l s' r, code.Goes op s l s' → code.result l = some r → f op s = some (r, s')
  ends : ∀ op s r s', f op s = some (r, s') → ∃ l, code.Goes op s l s' ∧ code.result l = some r

omit [DecidableEq T] in
/-- A call that nobody disturbs runs like a machine of its own. -/
theorem Code.goes_iff {code : Code Op S R} {op : Op} {s s' : S} {l : code.Local} :
    code.Goes op s l s' ↔ Runs code.step code.result (code.start op, s) (l, s') := by
  constructor
  · intro h
    induction h with
    | start => exact .refl _
    | step _ hl ih => exact ih.trans (.one hl rfl)
  · intro h
    generalize hb : (l, s') = b at h
    induction h generalizing l s' with
    | refl =>
      obtain ⟨rfl, rfl⟩ := Prod.mk.inj hb
      exact .start
    | @tail a b _ hstep ih =>
      obtain ⟨hl, rfl⟩ := hstep
      obtain ⟨rfl, rfl⟩ := Prod.mk.inj hb
      exact .step (ih rfl) hl

omit [DecidableEq T] in
/-- **Steps that get to what `f` returns**, and into a circle where it does not return, implement
    it. -/
theorem Code.implements_of_runs {code : Code Op S R} {f : Op → S → Option (R × S)}
    (hends : ∀ op s r s', f op s = some (r, s') →
      ∃ l, Runs code.step code.result (code.start op, s) (l, s') ∧ code.result l = some r)
    (hcircle : ∀ op s, f op s = none →
      ∃ l s', Runs code.step code.result (code.start op, s) (l, s') ∧ code.result l = none ∧
        code.step l s' = (l, s')) :
    code.Implements f fun _ _ _ => True where
  half _ _ _ _ _ := trivial
  whole op s l s' r h hr := by
    have hrun := Code.goes_iff.mp h
    cases hf : f op s with
    | none =>
      obtain ⟨l', s'', hrun', hnone, hstep⟩ := hcircle op s hf
      have hstuck := hrun'.circle hnone hstep hrun
      exact absurd (hr.symm.trans hstuck) (Option.some_ne_none r)
    | some res =>
      obtain ⟨l', hrun', hr'⟩ := hends op s res.1 res.2 hf
      obtain ⟨rfl, rfl⟩ := Prod.mk.inj ((hrun'.onward hr' hrun).of_result hr)
      rw [hr] at hr'
      rw [Option.some.inj hr']
  ends op s r s' hf := by
    obtain ⟨l, hrun, hr⟩ := hends op s r s' hf
    exact ⟨l, Code.goes_iff.mpr hrun, hr⟩

/-- What a thread is about. -/
inductive Phase (Op L R : Type)
  | idle
  | called (op : Op)
  | inside (op : Op) (l : L)
  /-- The call has left its section, or has given up waiting. -/
  | left (r : Option R)

/-- A section that was left, or whose thread was killed. -/
inductive Event (T Op R : Type)
  | done (t : T) (op : Op) (r : R)
  | cut (t : T) (op : Op)

/-- The lock, the threads and the shared state. -/
structure Config (P : Protocol T) (Op L R S : Type) where
  lock : P.State
  phase : T → Phase Op L R
  shared : S

/-- The thread is in its section. -/
def Config.Inside {P : Protocol T} {L : Type} (c : Config P Op L R S) (t : T) : Prop :=
  ∃ op l, c.phase t = .inside op l

/-- **A step of one thread**, or the end of several. -/
inductive Step (P : Protocol T) (code : Code Op S R) :
    Config P Op code.Local R S → List (Event T Op R) → Config P Op code.Local R S → Prop
  | call {c : Config P Op code.Local R S} {t : T} {op : Op} (h : c.phase t = .idle) :
      Step P code c [] { c with phase := Function.update c.phase t (.called op) }
  | move {c : Config P Op code.Local R S} {t : T} {k : P.State} (h : ¬ c.Inside t)
      (hmove : P.move t c.lock k) : Step P code c [] { c with lock := k }
  | giveUp {c : Config P Op code.Local R S} {t : T} {op : Op} (h : c.phase t = .called op) :
      Step P code c [] { c with phase := Function.update c.phase t (.left none) }
  | enter {c : Config P Op code.Local R S} {t : T} {op : Op} {k : P.State}
      (h : c.phase t = .called op) (henter : P.enter t c.lock k) :
      Step P code c []
        { c with lock := k, phase := Function.update c.phase t (.inside op (code.start op)) }
  | work {c : Config P Op code.Local R S} {t : T} {op : Op} {l : code.Local}
      (h : c.phase t = .inside op l) (hl : code.result l = none) :
      Step P code c []
        { c with
          phase := Function.update c.phase t (.inside op (code.step l c.shared).1)
          shared := (code.step l c.shared).2 }
  | leave {c : Config P Op code.Local R S} {t : T} {op : Op} {l : code.Local} {r : R}
      {k : P.State} (h : c.phase t = .inside op l) (hl : code.result l = some r)
      (hleave : P.leave t c.lock k) :
      Step P code c [.done t op r]
        { c with lock := k, phase := Function.update c.phase t (.left (some r)) }
  | ret {c : Config P Op code.Local R S} {t : T} {r : Option R} (h : c.phase t = .left r) :
      Step P code c [] { c with phase := Function.update c.phase t .idle }
  | kill {c : Config P Op code.Local R S} {dead : T → Bool} {cuts : List (T × Op)} {k : P.State}
      (hkill : P.kill dead c.lock k) (hnodup : cuts.Nodup)
      (hcuts : ∀ t op, (t, op) ∈ cuts ↔ dead t = true ∧ ∃ l, c.phase t = .inside op l) :
      Step P code c (cuts.map fun a => .cut a.1 a.2)
        { c with lock := k, phase := fun t => if dead t then .idle else c.phase t }

/-- The configurations of all runs, with the events so far. -/
inductive Exec (P : Protocol T) (code : Code Op S R) (s₀ : S) :
    List (Event T Op R) → Config P Op code.Local R S → Prop
  | start : Exec P code s₀ [] ⟨P.init, fun _ => .idle, s₀⟩
  | step {es es' : List (Event T Op R)} {c c' : Config P Op code.Local R S}
      (h : Exec P code s₀ es c) (hstep : Step P code c es' c') : Exec P code s₀ (es ++ es') c'

/-- Whole calls, one after the other. -/
inductive Serial (f : Op → S → Option (R × S)) (mid : Op → S → S → Prop) :
    S → List (Event T Op R) → S → Prop
  | nil (s : S) : Serial f mid s [] s
  | done {s s' s'' : S} {t : T} {op : Op} {r : R} {es : List (Event T Op R)}
      (h : f op s = some (r, s')) (hs : Serial f mid s' es s'') :
      Serial f mid s (.done t op r :: es) s''
  | cut {s s' s'' : S} {t : T} {op : Op} {es : List (Event T Op R)} (h : mid op s s')
      (hs : Serial f mid s' es s'') : Serial f mid s (.cut t op :: es) s''

variable {P : Protocol T} {code : Code Op S R} {f : Op → S → Option (R × S)}
  {mid : Op → S → S → Prop} {s₀ s s' : S} {es es' : List (Event T Op R)}
  {c c' : Config P Op code.Local R S}

omit [DecidableEq T] in
/-- Calls behind one another. -/
theorem Serial.append (h : Serial f mid s₀ es s) (h' : Serial f mid s es' s') :
    Serial f mid s₀ (es ++ es') s' := by
  induction h with
  | nil s => exact h'
  | done hf _ ih => exact .done hf (ih h')
  | cut hm _ ih => exact .cut hm (ih h')

/-! ## Who is inside -/

omit [DecidableEq T] in
/-- Only who is inside counts. -/
theorem Protocol.Reach.congr {k : P.State} {I I' : T → Prop} (h : P.Reach k I)
    (hI : ∀ u, I' u ↔ I u) : P.Reach k I' := by
  rwa [show I' = I from funext fun u => propext (hI u)]

omit [DecidableEq T] in
/-- A thread outside its section takes some steps. -/
theorem Protocol.Reach.moves {k k' : P.State} {I : T → Prop} {t : T} (h : P.Reach k I)
    (ht : ¬ I t) (hmoves : Relation.ReflTransGen (P.move t) k k') : P.Reach k' I := by
  induction hmoves with
  | refl => exact h
  | tail _ hmove ih => exact ih.move ht hmove

/-- A thread outside its section may make its moves. -/
theorem Exec.moves {t : T} {k : P.State} (h : Exec P code s₀ es c) (ht : ¬ c.Inside t)
    (hmoves : Relation.ReflTransGen (P.move t) c.lock k) :
    Exec P code s₀ es { c with lock := k } := by
  induction hmoves with
  | refl => exact h
  | tail _ hmove ih =>
    have hnext := ih.step (.move (t := t) ht hmove)
    rwa [List.append_nil] at hnext

/-- Who is inside after one thread has moved. -/
theorem inside_update {t u : T} {φ : Phase Op code.Local R} {lock : P.State} {shared : S} :
    (Config.Inside ⟨lock, Function.update c.phase t φ, shared⟩ u) ↔
      (u = t ∧ ∃ op l, φ = .inside op l) ∨ (u ≠ t ∧ c.Inside u) := by
  by_cases hu : u = t
  · subst hu
    simp [Config.Inside]
  · simp [Config.Inside, hu]

/-- A thread that was inside exactly if it is now. -/
theorem inside_kept {t : T} {φ : Phase Op code.Local R} {lock : P.State} {shared : S}
    (ht : c.Inside t ↔ ∃ op l, φ = .inside op l) (u : T) :
    (Config.Inside ⟨lock, Function.update c.phase t φ, shared⟩ u) ↔ c.Inside u := by
  rw [inside_update]
  by_cases hu : u = t
  · subst hu
    simp [ht]
  · simp [hu]

/-- The lock is in a state that it can reach with these threads inside. -/
theorem Exec.reach (h : Exec P code s₀ es c) : P.Reach c.lock c.Inside := by
  induction h with
  | start => exact .init fun u hu => by simp [Config.Inside] at hu
  | step _ hstep ih =>
    cases hstep with
    | call ht => exact ih.congr (inside_kept (by simp [Config.Inside, ht]))
    | move ht hmove => exact ih.move ht hmove
    | giveUp ht => exact ih.congr (inside_kept (by simp [Config.Inside, ht]))
    | @enter t op k ht henter =>
      refine ih.enter (by simp [Config.Inside, ht]) henter fun u => ?_
      rw [inside_update]
      by_cases hu : u = t <;> simp [hu]
    | work ht hl => exact ih.congr (inside_kept (by simp [Config.Inside, ht]))
    | leave ht hl hleave =>
      refine ih.leave ⟨_, _, ht⟩ hleave fun u => ?_
      rw [inside_update]
      simp [and_comm]
    | ret ht => exact ih.congr (inside_kept (by simp [Config.Inside, ht]))
    | @kill dead cuts k hkill hnodup hcuts =>
      refine ih.kill hkill fun u => ?_
      cases hu : dead u <;> simp [Config.Inside, hu]

/-! ## One call after the other -/

/-- The shared state `s` is what whole calls have made of it; the thread that is inside, if there
    is one, has got on from there. -/
structure Linearized (code : Code Op S R) (f : Op → S → Option (R × S)) (mid : Op → S → S → Prop)
    (s₀ : S) (es : List (Event T Op R)) (c : Config P Op code.Local R S) (s : S) : Prop where
  serial : Serial f mid s₀ es s
  busy : ∀ t op l, c.phase t = .inside op l → code.Goes op s l c.shared
  quiet : (∀ t, ¬ c.Inside t) → c.shared = s

/-- A change of phase of a thread that is not inside, before or after. -/
theorem Linearized.outside {t : T} {φ : Phase Op code.Local R} {lock : P.State}
    (h : Linearized code f mid s₀ es c s) (ht : ¬ c.Inside t) (hφ : ∀ op l, φ ≠ .inside op l) :
    Linearized code f mid s₀ es
      (⟨lock, Function.update c.phase t φ, c.shared⟩ : Config P Op code.Local R S) s where
  serial := h.serial
  busy u op l hu := by
    have hne : u ≠ t := by
      rintro rfl
      exact hφ op l (by simpa using hu)
    exact h.busy u op l (by simpa [hne] using hu)
  quiet hnone := h.quiet fun u hu => hnone u ((inside_kept (by simp [ht, hφ]) u).mpr hu)

/-- **One step keeps it**: the events of the step are what has happened to the state. -/
theorem Linearized.step (hs : Linearized code f mid s₀ es c s) (hP : P.Exclusive)
    (hcode : code.Implements f mid) (hexec : Exec P code s₀ es c) (hstep : Step P code c es' c') :
    ∃ s', Serial f mid s es' s' ∧ Linearized code f mid s₀ (es ++ es') c' s' := by
  have halone := hP _ _ (hexec.step hstep).reach
  have hbefore := hP _ _ hexec.reach
  cases hstep with
  | call ht =>
    rw [List.append_nil]
    exact ⟨s, .nil s, hs.outside (by simp [Config.Inside, ht]) (by simp)⟩
  | move ht hmove =>
    rw [List.append_nil]
    exact ⟨s, .nil s, hs.serial, hs.busy, hs.quiet⟩
  | giveUp ht =>
    rw [List.append_nil]
    exact ⟨s, .nil s, hs.outside (by simp [Config.Inside, ht]) (by simp)⟩
  | ret ht =>
    rw [List.append_nil]
    exact ⟨s, .nil s, hs.outside (by simp [Config.Inside, ht]) (by simp)⟩
  | @enter t op k ht henter =>
    rw [List.append_nil]
    -- nobody is inside with `t`, so the state is the one between two calls
    have hnone : ∀ u, ¬ c.Inside u := by
      intro u hu
      have hne : u ≠ t := by
        rintro rfl
        simp [Config.Inside, ht] at hu
      exact hne (halone u t (inside_update.mpr (.inr ⟨hne, hu⟩))
        (inside_update.mpr (.inl ⟨rfl, _, _, rfl⟩)))
    refine ⟨s, .nil s, hs.serial, fun u op' l hu => ?_, fun hquiet => ?_⟩
    · by_cases hut : u = t
      · subst hut
        simp only [Function.update_self, Phase.inside.injEq] at hu
        obtain ⟨rfl, rfl⟩ := hu
        rw [hs.quiet hnone]
        exact .start
      · exact absurd ⟨op', l, by simpa [hut] using hu⟩ (hnone u)
    · exact absurd (inside_update.mpr (.inl ⟨rfl, _, _, rfl⟩)) (hquiet t)
  | @work t op l ht hl =>
    rw [List.append_nil]
    refine ⟨s, .nil s, hs.serial, fun u op' l' hu => ?_, fun hquiet => ?_⟩
    · have hut : u = t := halone u t ⟨op', l', hu⟩ (inside_update.mpr (.inl ⟨rfl, _, _, rfl⟩))
      subst hut
      simp only [Function.update_self, Phase.inside.injEq] at hu
      obtain ⟨rfl, rfl⟩ := hu
      exact .step (hs.busy u op l ht) hl
    · exact absurd (inside_update.mpr (.inl ⟨rfl, _, _, rfl⟩)) (hquiet t)
  | @leave t op l r k ht hl hleave =>
    have hf := hcode.whole op s l c.shared r (hs.busy t op l ht) hl
    refine ⟨c.shared, .done hf (.nil _), hs.serial.append (.done hf (.nil _)), fun u op' l' hu => ?_, fun _ => rfl⟩
    have hut : u ≠ t := by
      rintro rfl
      simp at hu
    have hin : c.phase u = .inside op' l' := by simpa [hut] using hu
    exact absurd (hbefore u t ⟨op', l', hin⟩ ⟨op, l, ht⟩) hut
  | @kill dead cuts k hkill hnodup hcuts =>
    cases cuts with
    | nil =>
      have hlive : ∀ u op l, c.phase u = .inside op l → dead u = false := by
        intro u op l hu
        cases hd : dead u with
        | false => rfl
        | true => exact absurd ((hcuts u op).mpr ⟨hd, l, hu⟩) List.not_mem_nil
      rw [List.map_nil, List.append_nil]
      refine ⟨s, .nil s, hs.serial, fun u op l hu => ?_, fun hquiet => ?_⟩
      · cases hd : dead u <;> simp [hd] at hu
        exact hs.busy u op l hu
      · refine hs.quiet fun u hu => hquiet u ?_
        obtain ⟨op, l, hu⟩ := hu
        exact ⟨op, l, by simp [hlive u op l hu, hu]⟩
    | cons a cuts =>
      obtain ⟨t, op⟩ := a
      obtain ⟨htdead, l, ht⟩ := (hcuts t op).mp List.mem_cons_self
      have hnil : cuts = [] := by
        rw [List.eq_nil_iff_forall_not_mem]
        rintro ⟨u, op'⟩ hu
        obtain ⟨-, l', hin⟩ := (hcuts u op').mp (List.mem_cons_of_mem _ hu)
        obtain rfl := hbefore u t ⟨op', l', hin⟩ ⟨op, l, ht⟩
        rw [ht, Phase.inside.injEq] at hin
        obtain ⟨rfl, -⟩ := hin
        exact (List.nodup_cons.mp hnodup).1 hu
      subst hnil
      have hhalf := hcode.half op s l c.shared (hs.busy t op l ht)
      refine ⟨c.shared, .cut hhalf (.nil _), hs.serial.append (.cut hhalf (.nil _)),
        fun u op' l' hu => ?_, fun _ => rfl⟩
      cases hd : dead u <;> simp [hd] at hu
      obtain rfl := hbefore u t ⟨op', l', hu⟩ ⟨op, l, ht⟩
      rw [htdead] at hd
      cases hd

/-- **Calls under a lock are linearizable.**  In every run, under a lock that lets in one thread at
    a time, the calls come to the same as whole calls one after the other, in the order in which
    they left their sections, with the same results. -/
theorem linearizes (hP : P.Exclusive) (hcode : code.Implements f mid)
    (h : Exec P code s₀ es c) : ∃ s, Linearized code f mid s₀ es c s := by
  induction h with
  | start => exact ⟨s₀, .nil s₀, fun t op l ht => by simp at ht, fun _ => rfl⟩
  | step hexec hstep ih =>
    obtain ⟨s, hs⟩ := ih
    obtain ⟨s', -, hs'⟩ := hs.step hP hcode hexec hstep
    exact ⟨s', hs'⟩

end Calls

end Sections
