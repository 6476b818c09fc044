/-
  Threads over one memory, access by access.

  `Interleave ps m es m'` says that the threads `ps`, started in the memory `m`, can make the
  accesses `es` in this order and leave `m'`: whenever a thread has an access left, it may be the
  next.  Three kinds of fact hold of every such run:

  * footprints  — threads within `R` and `W` read in `R` and write in `W` (`Interleave.within`);
  * definedness — `p.Defines D D'`: on every path of `p`, what is read lies in `D` or was written
                  before, and in the end so does all of `D'`; one rule for each constructor, for
                  sequences and for loops.  Threads that define what they read do so in every
                  interleaving (`Interleave.sourced`, `Interleave.written`);
  * atomicity   — threads that spare each other leave the memory that they leave one after the
                  other (`Interleave.serial`).
-/
import MiniLabs.Lib.Access

set_option linter.unusedVariables false

namespace Access

/-- One access: a cell is read or written. -/
inductive Event (A : Type)
  | rd (x : A)
  | wr (x : A)
  deriving DecidableEq, Repr

namespace Event

variable {A B : Type}

/-- The cell that is accessed. -/
def cell : Event A → A
  | rd x => x
  | wr x => x

/-- The same access, of another cell. -/
def map (f : A → B) : Event A → Event B
  | rd x => rd (f x)
  | wr x => wr (f x)

@[simp] theorem cell_map (f : A → B) (e : Event A) : (e.map f).cell = f e.cell := by
  cases e <;> rfl

end Event

/-! ## What is read was written -/

section Sourced

variable {A : Type} {D D' : A → Prop} {es fs : List (Event A)} {x : A}

/-- Every read is of a cell in `D` or of one written before. -/
def Sourced (D : A → Prop) (es : List (Event A)) : Prop :=
  ∀ pre x post, es = pre ++ .rd x :: post → D x ∨ .wr x ∈ pre

/-- No accesses read nothing. -/
theorem sourced_nil : Sourced D [] := by
  intro pre x post h
  exact absurd h (by simp)

/-- A read of a cell that has a value. -/
theorem Sourced.rd (hx : D x) (h : Sourced D es) : Sourced D (.rd x :: es) := by
  intro pre y post hes
  cases pre with
  | nil =>
    obtain ⟨hxy, -⟩ := List.cons.inj hes
    cases hxy
    exact Or.inl hx
  | cons e pre =>
    obtain ⟨-, hes⟩ := List.cons.inj hes
    exact (h pre y post hes).imp_right (List.mem_cons_of_mem e)

/-- A write gives its cell a value for what follows. -/
theorem Sourced.wr (h : Sourced (fun y => y = x ∨ D y) es) : Sourced D (.wr x :: es) := by
  intro pre y post hes
  cases pre with
  | nil => cases (List.cons.inj hes).1
  | cons e pre =>
    obtain ⟨he, htail⟩ := List.cons.inj hes
    rcases h pre y post htail with (rfl | hy) | hy
    · exact Or.inr (he ▸ List.mem_cons_self)
    · exact Or.inl hy
    · exact Or.inr (List.mem_cons_of_mem _ hy)

/-- One run behind the other: the second may read what the first has written. -/
theorem Sourced.append (h : Sourced D es) (h' : Sourced D' fs)
    (hD : ∀ x, D' x → D x ∨ .wr x ∈ es) : Sourced D (es ++ fs) := by
  intro pre x post hes
  rcases List.append_eq_append_iff.mp hes with ⟨mid, rfl, hfs⟩ | ⟨mid, rfl, hpost⟩
  · rcases h' mid x post hfs with hx | hx
    · exact (hD x hx).imp_right (List.mem_append_left mid)
    · exact Or.inr (List.mem_append_right es hx)
  · cases mid with
    | nil =>
      rcases h' [] x post (by simpa using hpost.symm) with hx | hx
      · simpa using hD x hx
      · exact absurd hx List.not_mem_nil
    | cons e mid =>
      obtain ⟨rfl, -⟩ := List.cons.inj hpost
      exact h pre x mid rfl

/-- Every read is of a cell in `D` or of one written before, and in the end `D'` is written
    where it was not in `D`. -/
def Supplied (D : A → Prop) (es : List (Event A)) (D' : A → Prop) : Prop :=
  Sourced D es ∧ ∀ x, D' x → D x ∨ .wr x ∈ es

/-- No accesses supply what was there. -/
theorem supplied_nil : Supplied D [] D := ⟨sourced_nil, fun x hx => Or.inl hx⟩

/-- Accesses behind one another. -/
theorem Supplied.append {M : A → Prop} (h : Supplied D es M) (h' : Supplied M fs D') :
    Supplied D (es ++ fs) D' := by
  refine ⟨h.1.append h'.1 h.2, fun x hx => ?_⟩
  rcases h'.2 x hx with hx | hx
  · exact (h.2 x hx).imp_right (List.mem_append_left fs)
  · exact Or.inr (List.mem_append_right es hx)

end Sourced

namespace Prog

variable {A V α β σ : Type}

/-! ## Definedness -/

/-- With the cells `D` defined, every read is of a defined cell, and in the end the cells `D'`
    are defined. -/
def Defines : Prog A V α → (A → Prop) → (A → Prop) → Prop
  | .ret _, D, D' => ∀ x, D' x → D x
  | .get x k, D, D' => D x ∧ ∀ v, (k v).Defines D D'
  | .put x _ k, D, D' => k.Defines (fun y => y = x ∨ D y) D'

section Defines

variable {D D' E E' M : A → Prop} {p : Prog A V α}

/-- More may be there in front, and less be asked for behind. -/
theorem Defines.conseq (h : p.Defines D D') (hD : ∀ x, D x → E x) (hD' : ∀ x, E' x → D' x) :
    p.Defines E E' := by
  induction p generalizing D E with
  | ret a => exact fun x hx => hD x (h x (hD' x hx))
  | get x k ih => exact ⟨hD x h.1, fun v => ih v (h.2 v) hD⟩
  | put x v k ih => exact ih h fun y hy => hy.imp_right (hD y)

/-- What is defined stays so. -/
theorem Defines.frame (h : p.Defines D D') (K : A → Prop) :
    p.Defines (fun x => D x ∨ K x) (fun x => D' x ∨ K x) := by
  induction p generalizing D with
  | ret a => exact fun x hx => hx.imp_left (h x)
  | get x k ih => exact ⟨Or.inl h.1, fun v => ih v (h.2 v)⟩
  | put x v k ih => exact (ih h).conseq (fun y hy => or_assoc.mp hy) fun y hy => hy

/-- **Rules for `Defines`**, one for each constructor, for sequences and for loops. -/
theorem defines_pure (a : α) : (pure a : Prog A V α).Defines D D := fun x hx => hx

/-- What is read must have a value. -/
theorem defines_read {x : A} (h : D x) : (read x : Prog A V V).Defines D D := ⟨h, fun v y hy => hy⟩

/-- What is written has a value from then on. -/
theorem defines_write (x : A) (v : V) :
    (write x v : Prog A V Unit).Defines D fun y => y = x ∨ D y := fun y hy => hy

/-- A write, where the cell need not be remembered. -/
theorem defines_write_keep (x : A) (v : V) : (write x v : Prog A V Unit).Defines D D :=
  fun y hy => Or.inr hy

/-- A sequence defines what its parts do. -/
theorem defines_bind {f : α → Prog A V β} (hp : p.Defines D M) (hf : ∀ a, (f a).Defines M D') :
    (p >>= f).Defines D D' := by
  show (p.andThen f).Defines D D'
  induction p generalizing D with
  | ret a => exact (hf a).conseq hp fun x hx => hx
  | get x k ih => exact ⟨hp.1, fun v => ih v (hp.2 v)⟩
  | put x v k ih => exact ih hp

/-- A loop, by what is defined before each round. -/
theorem defines_loop (I : Nat → A → Prop) {n : Nat} (s : σ) {f : Nat → σ → Prog A V σ}
    (h : ∀ i, i < n → ∀ s, (f i s).Defines (I i) (I (i + 1))) :
    (loop n s f).Defines (I 0) (I n) := by
  induction n with
  | zero => exact defines_pure s
  | succ n ih =>
    exact defines_bind (ih fun i hi => h i (Nat.lt_succ_of_lt hi)) (h n (Nat.lt_succ_self n))

/-- A loop whose rounds need nothing new. -/
theorem defines_loop_keep {n : Nat} (s : σ) {f : Nat → σ → Prog A V σ}
    (h : ∀ i, i < n → ∀ s, (f i s).Defines D D) : (loop n s f).Defines D D :=
  defines_loop (fun _ => D) s h

end Defines

/-! ## Interleavings -/

section Interleave

variable [DecidableEq A]

/-- The threads can make these accesses in this order. -/
inductive Interleave : List (Prog A V Unit) → (A → V) → List (Event A) → (A → V) → Prop
  | done {ps : List (Prog A V Unit)} {m : A → V} (h : ∀ p ∈ ps, p = .ret ()) :
      Interleave ps m [] m
  | get {ps qs : List (Prog A V Unit)} {x : A} {k : V → Prog A V Unit} {m m' : A → V}
      {es : List (Event A)} (h : Interleave (ps ++ k (m x) :: qs) m es m') :
      Interleave (ps ++ .get x k :: qs) m (.rd x :: es) m'
  | put {ps qs : List (Prog A V Unit)} {x : A} {v : V} {k : Prog A V Unit} {m m' : A → V}
      {es : List (Event A)}
      (h : Interleave (ps ++ k :: qs) (fun y => if y = x then v else m y) es m') :
      Interleave (ps ++ .put x v k :: qs) m (.wr x :: es) m'

omit [DecidableEq A] in
/-- The other threads, and the one that has moved on. -/
theorem forall_moved {P : Prog A V Unit → Prop} {ps qs : List (Prog A V Unit)}
    {p q : Prog A V Unit} (h : ∀ r ∈ ps ++ p :: qs, P r) (hq : P q) : ∀ r ∈ ps ++ q :: qs, P r := by
  intro r hr
  rcases List.mem_append.mp hr with hr | hr
  · exact h r (List.mem_append_left _ hr)
  rcases List.mem_cons.mp hr with rfl | hr
  · exact hq
  · exact h r (List.mem_append_right _ (List.mem_cons_of_mem p hr))

variable {ps : List (Prog A V Unit)} {m m' : A → V} {es : List (Event A)} {R W D D' : A → Prop}

/-- Threads within `R` and `W` read in `R` and write in `W`. -/
theorem Interleave.within (h : Interleave ps m es m') (hps : ∀ p ∈ ps, p.Within R W) :
    ∀ e ∈ es, match e with
      | .rd x => R x
      | .wr x => W x := by
  induction h with
  | done => exact fun e he => absurd he List.not_mem_nil
  | @get ps qs x k m m' es _ ih =>
    have hp := hps (.get x k) (List.mem_append_right _ List.mem_cons_self)
    exact List.forall_mem_cons.mpr ⟨hp.1, ih (forall_moved hps (hp.2 (m x)))⟩
  | @put ps qs x v k m m' es _ ih =>
    have hp := hps (.put x v k) (List.mem_append_right _ List.mem_cons_self)
    exact List.forall_mem_cons.mpr ⟨hp.1, ih (forall_moved hps hp.2)⟩

/-- **Threads that define what they read do so in every interleaving.** -/
theorem Interleave.sourced (h : Interleave ps m es m')
    (hps : ∀ p ∈ ps, p.Defines D fun _ => False) : Sourced D es := by
  induction h generalizing D with
  | done => exact sourced_nil
  | @get ps qs x k m m' es _ ih =>
    have hp := hps (.get x k) (List.mem_append_right _ List.mem_cons_self)
    exact (ih (forall_moved hps (hp.2 (m x)))).rd hp.1
  | @put ps qs x v k m m' es _ ih =>
    have hp := hps (.put x v k) (List.mem_append_right _ List.mem_cons_self)
    have hkeep : ∀ p ∈ ps ++ .put x v k :: qs, p.Defines (fun y => y = x ∨ D y) fun _ => False :=
      fun p hp => (hps p hp).conseq (fun y => Or.inr) fun y => id
    exact (ih (forall_moved hkeep hp)).wr

/-- What a thread defines is defined or written in the end. -/
theorem Interleave.written (h : Interleave ps m es m') {p : Prog A V Unit} (hp : p ∈ ps)
    (hd : p.Defines D D') {x : A} (hx : D' x) : D x ∨ .wr x ∈ es := by
  induction h generalizing D p with
  | done hdone =>
    rw [hdone p hp] at hd
    exact Or.inl (hd x hx)
  | @get ps qs y k m m' es _ ih =>
    -- either this thread has moved, or it stands where it was
    have hmoved : ∃ q ∈ ps ++ k (m y) :: qs, q.Defines D D' := by
      rcases List.mem_append.mp hp with hp | hp
      · exact ⟨p, List.mem_append_left _ hp, hd⟩
      rcases List.mem_cons.mp hp with rfl | hp
      · exact ⟨k (m y), List.mem_append_right _ List.mem_cons_self, hd.2 (m y)⟩
      · exact ⟨p, List.mem_append_right _ (List.mem_cons_of_mem _ hp), hd⟩
    obtain ⟨q, hq, hqd⟩ := hmoved
    exact (ih hq hqd).imp_right (List.mem_cons_of_mem _)
  | @put ps qs y v k m m' es _ ih =>
    have hmoved : ∃ q ∈ ps ++ k :: qs, q.Defines (fun z => z = y ∨ D z) D' := by
      have hkeep : p.Defines (fun z => z = y ∨ D z) D' := hd.conseq (fun z => Or.inr) fun z => id
      rcases List.mem_append.mp hp with hp | hp
      · exact ⟨p, List.mem_append_left _ hp, hkeep⟩
      rcases List.mem_cons.mp hp with rfl | hp
      · exact ⟨k, List.mem_append_right _ List.mem_cons_self, hd⟩
      · exact ⟨p, List.mem_append_right _ (List.mem_cons_of_mem _ hp), hkeep⟩
    obtain ⟨q, hq, hqd⟩ := hmoved
    rcases ih hq hqd with (rfl | hD) | hw
    · exact Or.inr List.mem_cons_self
    · exact Or.inl hD
    · exact Or.inr (List.mem_cons_of_mem _ hw)

/-- Any threads can run: one after the other, for example. -/
theorem interleave_exists (ps : List (Prog A V Unit)) (m : A → V) :
    ∃ es m', Interleave ps m es m' := by
  suffices h : ∀ done : List (Prog A V Unit), (∀ p ∈ done, p = .ret ()) → ∀ m : A → V,
      ∃ es m', Interleave (done ++ ps) m es m' by
    exact h [] (fun p hp => absurd hp List.not_mem_nil) m
  induction ps with
  | nil =>
    intro done hdone m
    rw [List.append_nil]
    exact ⟨[], m, .done hdone⟩
  | cons p ps ih =>
    intro done hdone m
    induction p generalizing m with
    | ret a =>
      have hcut : done ++ .ret a :: ps = (done ++ [.ret a]) ++ ps := by simp
      rw [hcut]
      refine ih _ (fun q hq => ?_) m
      rcases List.mem_append.mp hq with hq | hq
      · exact hdone q hq
      · exact List.mem_singleton.mp hq
    | get x k ihk =>
      obtain ⟨es, m', h⟩ := ihk (m x) m
      exact ⟨_, m', .get h⟩
    | put x v k ihk =>
      obtain ⟨es, m', h⟩ := ihk fun y => if y = x then v else m y
      exact ⟨_, m', .put h⟩

/-! ## Atomicity -/

/-- The memory after the threads, one after the other. -/
def runThreads (ps : List (Prog A V Unit)) (m : A → V) : A → V :=
  ps.foldl (fun m p => (p.run m).2) m

/-- Some threads and then the others. -/
theorem runThreads_append (ps qs : List (Prog A V Unit)) (m : A → V) :
    runThreads (ps ++ qs) m = runThreads qs (runThreads ps m) := List.foldl_append

/-- One thread and then the others. -/
theorem runThreads_cons (p : Prog A V Unit) (ps : List (Prog A V Unit)) (m : A → V) :
    runThreads (p :: ps) m = runThreads ps (p.run m).2 := rfl

/-- A cell that no thread writes keeps its value. -/
theorem runThreads_frame {x : A} (h : ∀ p ∈ ps, ¬ p.Writes x) (m : A → V) :
    runThreads ps m x = m x := by
  induction ps generalizing m with
  | nil => rfl
  | cons p ps ih =>
    rw [runThreads_cons, ih fun q hq => h q (List.mem_cons_of_mem p hq)]
    exact (within_self p).run_frame m (h p List.mem_cons_self)

/-- A write to a cell that no thread reads or writes may come before or behind them. -/
theorem runThreads_update {x : A} (h : ∀ p ∈ ps, ¬ p.Reads x ∧ ¬ p.Writes x) (v : V) (m : A → V) :
    runThreads ps (fun y => if y = x then v else m y) =
      fun y => if y = x then v else runThreads ps m y := by
  induction ps generalizing m with
  | nil => rfl
  | cons p ps ih =>
    have hp := h p List.mem_cons_self
    have hpw : p.Spares (write x v : Prog A V Unit) := by
      refine fun y hy => ⟨id, ?_⟩
      rintro (rfl | hw)
      · exact hp.2 hy
      · exact hw
    have hwp : (write x v : Prog A V Unit).Spares p := by
      rintro y (rfl | hy)
      · exact hp
      · exact hy.elim
    rw [runThreads_cons, runThreads_cons, ← ih fun q hq => h q (List.mem_cons_of_mem p hq)]
    exact congrArg (runThreads ps) (run_comm hwp hpw m)

/-- The threads spare each other. -/
def Isolated (ps : List (Prog A V Unit)) : Prop := ps.Pairwise fun p q => p.Spares q ∧ q.Spares p

omit [DecidableEq A] in
/-- A thread that has moved on touches no more than before. -/
theorem Isolated.moved {qs : List (Prog A V Unit)} {p q : Prog A V Unit}
    (h : Isolated (ps ++ p :: qs)) (hr : ∀ x, q.Reads x → p.Reads x)
    (hw : ∀ x, q.Writes x → p.Writes x) : Isolated (ps ++ q :: qs) := by
  have hto : ∀ r : Prog A V Unit, r.Spares p → r.Spares q := fun r hrp x hx =>
    ⟨fun h => (hrp x hx).1 (hr x h), fun h => (hrp x hx).2 (hw x h)⟩
  have hfrom : ∀ r : Prog A V Unit, p.Spares r → q.Spares r := fun r hpr x hx => hpr x (hw x hx)
  rw [Isolated, List.pairwise_append, List.pairwise_cons] at h ⊢
  obtain ⟨hps, ⟨hp, hqs⟩, hcross⟩ := h
  refine ⟨hps, ⟨fun r hr => (hp r hr).imp (hfrom r) (hto r), hqs⟩, fun r hmem s hs => ?_⟩
  rcases List.mem_cons.mp hs with rfl | hs
  · exact (hcross r hmem p List.mem_cons_self).imp (hto r) (hfrom r)
  · exact hcross r hmem s (List.mem_cons_of_mem p hs)

omit [DecidableEq A] in
/-- A thread in front of another one spares it, and is spared. -/
theorem Isolated.before {qs : List (Prog A V Unit)} {p r : Prog A V Unit}
    (h : Isolated (ps ++ p :: qs)) (hr : r ∈ ps) : r.Spares p ∧ p.Spares r :=
  (List.pairwise_append.mp h).2.2 r hr p List.mem_cons_self

/-- **Atomicity.**  Threads that spare each other leave, in every interleaving, the memory that
    they leave one after the other. -/
theorem Interleave.serial (h : Interleave ps m es m') (hps : Isolated ps) : m' = runThreads ps m := by
  induction h with
  | @done ps m hdone =>
    induction ps with
    | nil => rfl
    | cons p ps ih =>
      rw [runThreads_cons, hdone p List.mem_cons_self]
      exact ih (fun q hq => hdone q (List.mem_cons_of_mem p hq)) (List.pairwise_cons.mp hps).2
  | @get ps qs x k m m' es _ ih =>
    -- what the thread reads, no thread in front of it writes
    have hread : runThreads ps m x = m x :=
      runThreads_frame (fun p hp hw => ((hps.before hp).1 x hw).1 (Or.inl rfl)) m
    rw [ih (hps.moved (fun y hy => Or.inr ⟨m x, hy⟩) fun y hy => ⟨m x, hy⟩), runThreads_append,
      runThreads_append, runThreads_cons, runThreads_cons, ← hread]
    rfl
  | @put ps qs x v k m m' es _ ih =>
    have hspared : ∀ p ∈ ps, ¬ p.Reads x ∧ ¬ p.Writes x := fun p hp =>
      (hps.before hp).2 x (Or.inl rfl)
    rw [ih (hps.moved (fun y hy => hy) fun y hy => Or.inr hy), runThreads_append,
      runThreads_append, runThreads_cons, runThreads_cons, runThreads_update hspared]
    rfl

end Interleave

end Prog
end Access
