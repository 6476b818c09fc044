/-
  Access programs — code that reads and writes an array of cells, one cell at a time.

  A `Prog A V α` reads and writes cells addressed by `A` that hold a `V`, and returns an `α`.
  Because every access is a constructor, the cells a program may touch can be read off its text,
  and three kinds of fact follow for all programs at once:

  * footprints — `Within R W p`: all reads in `R`, all writes in `W`.  Cells outside `W` keep
                 their value (`run_frame`), and runs from two memories that agree on `R` stay as
                 equal as they were (`run_agree`);
  * reordering — bodies whose footprints do not meet commute, so a family of such bodies may
                 run in any order (`runAll_perm`);
  * relations  — `Rel K p q K'`: from memories that agree along `K`, two programs return the same
                 value and leave memories that agree along `K'`; one rule for each constructor,
                 for sequences and for loops.
-/
import Mathlib.Data.List.Perm.Basic

set_option linter.unusedVariables false

namespace Access

/-- A program over cells `A` with contents `V`. -/
inductive Prog (A V α : Type) : Type
  | ret (a : α)
  | get (x : A) (k : V → Prog A V α)
  | put (x : A) (v : V) (k : Prog A V α)

namespace Prog

variable {A V α β σ : Type}

/-- First `p`, then `f` of its result. -/
def andThen : Prog A V α → (α → Prog A V β) → Prog A V β
  | .ret a, f => f a
  | .get x k, f => .get x fun v => (k v).andThen f
  | .put x v k, f => .put x v (k.andThen f)

instance : Monad (Prog A V) where
  pure := .ret
  bind := andThen

/-- Read a cell. -/
def read (x : A) : Prog A V V := .get x .ret

/-- Write a cell. -/
def write (x : A) (v : V) : Prog A V Unit := .put x v (.ret ())

/-- `for (i = 0; i < n; i++)` with a state. -/
def loop : Nat → σ → (Nat → σ → Prog A V σ) → Prog A V σ
  | 0, s, _ => pure s
  | n + 1, s, f => loop n s f >>= f n

/-- `for (i = 0; i < n; i++)` without a state. -/
def forRange (n : Nat) (f : Nat → Prog A V Unit) : Prog A V Unit := loop n () fun i _ => f i

section Run

variable [DecidableEq A]

/-- The result and the memory after the program. -/
def run : Prog A V α → (A → V) → α × (A → V)
  | .ret a, m => (a, m)
  | .get x k, m => (k (m x)).run m
  | .put x v k, m => k.run fun y => if y = x then v else m y

@[simp] theorem run_pure (a : α) (m : A → V) : (pure a : Prog A V α).run m = (a, m) := rfl

@[simp] theorem run_bind (p : Prog A V α) (f : α → Prog A V β) (m : A → V) :
    (p >>= f).run m = (f (p.run m).1).run (p.run m).2 := by
  show (p.andThen f).run m = _
  induction p generalizing m with
  | ret a => rfl
  | get x k ih => exact ih (m x) m
  | put x v k ih => exact ih _

@[simp] theorem run_read (x : A) (m : A → V) : (read x).run m = (m x, m) := rfl

@[simp] theorem run_write (x : A) (v : V) (m : A → V) :
    (write x v).run m = ((), fun y => if y = x then v else m y) := rfl

@[simp] theorem run_loop_zero (s : σ) (f : Nat → σ → Prog A V σ) (m : A → V) :
    (loop 0 s f).run m = (s, m) := rfl

@[simp] theorem run_loop_succ (n : Nat) (s : σ) (f : Nat → σ → Prog A V σ) (m : A → V) :
    (loop (n + 1) s f).run m = (f n ((loop n s f).run m).1).run ((loop n s f).run m).2 :=
  run_bind _ _ _

end Run

/-! ## Footprints -/

/-- On some path the program reads the cell. -/
def Reads : Prog A V α → A → Prop
  | .ret _, _ => False
  | .get y k, x => x = y ∨ ∃ v, (k v).Reads x
  | .put _ _ k, x => k.Reads x

/-- On some path the program writes the cell. -/
def Writes : Prog A V α → A → Prop
  | .ret _, _ => False
  | .get _ k, x => ∃ v, (k v).Writes x
  | .put y _ k, x => x = y ∨ k.Writes x

/-- All reads are in `R`, all writes in `W`. -/
def Within (R W : A → Prop) : Prog A V α → Prop
  | .ret _ => True
  | .get x k => R x ∧ ∀ v, (k v).Within R W
  | .put x _ k => W x ∧ k.Within R W

section Within

variable {R W R' W' : A → Prop} {p : Prog A V α}

/-- What a program within its bounds reads. -/
theorem Within.reads (h : p.Within R W) {x : A} (hx : p.Reads x) : R x := by
  induction p with
  | ret a => exact hx.elim
  | get y k ih =>
    rcases hx with rfl | ⟨v, hv⟩
    · exact h.1
    · exact ih v (h.2 v) hv
  | put y v k ih => exact ih h.2 hx

/-- What a program within its bounds writes. -/
theorem Within.writes (h : p.Within R W) {x : A} (hx : p.Writes x) : W x := by
  induction p with
  | ret a => exact hx.elim
  | get y k ih =>
    obtain ⟨v, hv⟩ := hx
    exact ih v (h.2 v) hv
  | put y v k ih =>
    rcases hx with rfl | hx
    · exact h.1
    · exact ih h.2 hx

/-- Bounds may be widened. -/
theorem Within.mono (h : p.Within R W) (hR : ∀ x, R x → R' x) (hW : ∀ x, W x → W' x) :
    p.Within R' W' := by
  induction p with
  | ret a => trivial
  | get y k ih => exact ⟨hR _ h.1, fun v => ih v (h.2 v)⟩
  | put y v k ih => exact ⟨hW _ h.1, ih h.2⟩

/-- **Rules for `Within`**, one for each constructor, for sequences and for loops. -/
theorem within_pure (a : α) : (pure a : Prog A V α).Within R W := trivial

theorem within_read {x : A} (h : R x) : (read x : Prog A V V).Within R W :=
  ⟨h, fun _ => trivial⟩

theorem within_write {x : A} (h : W x) (v : V) : (write x v : Prog A V Unit).Within R W :=
  ⟨h, trivial⟩

/-- A sequence is within the bounds of its parts. -/
theorem within_bind {f : α → Prog A V β} (hp : p.Within R W)
    (hf : ∀ a, (f a).Within R W) : (p >>= f).Within R W := by
  show (p.andThen f).Within R W
  induction p with
  | ret a => exact hf a
  | get x k ih => exact ⟨hp.1, fun v => ih v (hp.2 v)⟩
  | put x v k ih => exact ⟨hp.1, ih hp.2⟩

/-- A loop is within the bounds of its rounds. -/
theorem within_loop {n : Nat} {f : Nat → σ → Prog A V σ} (s : σ)
    (h : ∀ i, i < n → ∀ s, (f i s).Within R W) : (loop n s f).Within R W := by
  induction n with
  | zero => trivial
  | succ n ih =>
    exact within_bind (ih fun i hi => h i (Nat.lt_succ_of_lt hi)) (h n (Nat.lt_succ_self n))

theorem within_forRange {n : Nat} {f : Nat → Prog A V Unit}
    (h : ∀ i, i < n → (f i).Within R W) : (forRange n f).Within R W :=
  within_loop () fun i hi _ => h i hi

/-- A program stays within what it reads and writes. -/
theorem within_self (p : Prog A V α) : p.Within p.Reads p.Writes := by
  induction p with
  | ret a => trivial
  | get x k ih =>
    refine ⟨Or.inl rfl, fun v => (ih v).mono ?_ ?_⟩
    · exact fun y hy => Or.inr ⟨v, hy⟩
    · exact fun y hy => ⟨v, hy⟩
  | put x v k ih => exact ⟨Or.inl rfl, ih.mono (fun y hy => hy) fun y hy => Or.inr hy⟩

variable [DecidableEq A]

/-- What is not written keeps its value. -/
theorem Within.run_frame (h : p.Within R W) (m : A → V) {x : A} (hx : ¬ W x) :
    (p.run m).2 x = m x := by
  induction p generalizing m with
  | ret a => rfl
  | get y k ih => exact ih _ (h.2 _) m
  | put y v k ih =>
    refine (ih h.2 _).trans (if_neg ?_)
    rintro rfl
    exact hx h.1

/-- From memories that agree on the reads, a program returns the same value, and cells that were
    equal before are equal after. -/
theorem Within.run_agree (h : p.Within R W) {m m' : A → V} (hR : ∀ x, R x → m x = m' x) :
    (p.run m).1 = (p.run m').1 ∧ ∀ x, m x = m' x → (p.run m).2 x = (p.run m').2 x := by
  induction p generalizing m m' with
  | ret a => exact ⟨rfl, fun x hx => hx⟩
  | get y k ih =>
    have hk := ih (m y) (h.2 _) hR
    have hrun : (get y k).run m' = (k (m y)).run m' := by
      rw [hR y h.1]
      rfl
    rw [hrun]
    exact hk
  | put y v k ih =>
    have hstep : ∀ x, m x = m' x →
        (if x = y then v else m x) = if x = y then v else m' x := by
      intro x hx
      rw [hx]
    have hread : ∀ x, R x → (if x = y then v else m x) = if x = y then v else m' x :=
      fun x hx => hstep x (hR x hx)
    obtain ⟨hval, hmem⟩ := ih h.2 hread
    exact ⟨hval, fun x hx => hmem x (hstep x hx)⟩

end Within

/-! ## Other addresses -/

section Relocate

variable {B : Type}

/-- The same program, with every cell `x` at `f x`. -/
def relocate (f : A → B) : Prog A V α → Prog B V α
  | .ret a => .ret a
  | .get x k => .get (f x) fun v => (k v).relocate f
  | .put x v k => .put (f x) v (k.relocate f)

variable (f : A → B)

@[simp] theorem relocate_pure (a : α) : (pure a : Prog A V α).relocate f = pure a := rfl

@[simp] theorem relocate_read (x : A) : (read x : Prog A V V).relocate f = read (f x) := rfl

@[simp] theorem relocate_write (x : A) (v : V) : (write x v).relocate f = write (f x) v := rfl

@[simp] theorem relocate_bind (p : Prog A V α) (g : α → Prog A V β) :
    (p >>= g).relocate f = p.relocate f >>= fun a => (g a).relocate f := by
  show (p.andThen g).relocate f = (p.relocate f).andThen fun a => (g a).relocate f
  induction p with
  | ret a => rfl
  | get x k ih => exact congrArg (get (f x)) (funext fun v => ih v)
  | put x v k ih => exact congrArg (put (f x) v) ih

@[simp] theorem relocate_loop (n : Nat) (s : σ) (g : Nat → σ → Prog A V σ) :
    (loop n s g).relocate f = loop n s fun i s => (g i s).relocate f := by
  induction n with
  | zero => rfl
  | succ n ih => rw [loop, loop, relocate_bind, ih]

@[simp] theorem relocate_forRange (n : Nat) (g : Nat → Prog A V Unit) :
    (forRange n g).relocate f = forRange n fun i => (g i).relocate f := relocate_loop f n () _

@[simp] theorem relocate_ite {c : Prop} [Decidable c] (p q : Prog A V α) :
    (if c then p else q).relocate f = if c then p.relocate f else q.relocate f := by
  split <;> rfl

end Relocate

/-! ## Reordering -/

/-- No cell that `p` may write is one that `q` may read or write. -/
def Spares (p : Prog A V α) (q : Prog A V β) : Prop :=
  ∀ x, p.Writes x → ¬ q.Reads x ∧ ¬ q.Writes x

/-- Programs whose footprints do not meet spare each other. -/
theorem Within.spares {R W R' W' : A → Prop} {p : Prog A V α} {q : Prog A V β}
    (hp : p.Within R W) (hq : q.Within R' W') (h : ∀ x, W x → ¬ R' x ∧ ¬ W' x) : p.Spares q := by
  intro x hx
  obtain ⟨hr, hw⟩ := h x (hp.writes hx)
  exact ⟨fun hqr => hr (hq.reads hqr), fun hqw => hw (hq.writes hqw)⟩

section Reorder

variable [DecidableEq A]

/-- Programs that spare each other may change places. -/
theorem run_comm {p : Prog A V α} {q : Prog A V β} (hpq : p.Spares q) (hqp : q.Spares p)
    (m : A → V) : (q.run (p.run m).2).2 = (p.run (q.run m).2).2 := by
  have hp := within_self p
  have hq := within_self q
  funext x
  by_cases hx : p.Writes x
  · -- `q` leaves `x` alone, and what `p` reads it finds as before
    rw [hq.run_frame _ (hpq x hx).2]
    refine (hp.run_agree fun y hy => ?_).2 x ?_
    · exact (hq.run_frame m fun hw => (hqp y hw).1 hy).symm
    · exact (hq.run_frame m (hpq x hx).2).symm
  · rw [hp.run_frame _ hx]
    refine (hq.run_agree fun y hy => ?_).2 x ?_
    · exact hp.run_frame m fun hw => (hpq y hw).1 hy
    · exact hp.run_frame m hx

/-- The memory after the bodies of a list of indices, one after the other. -/
def runAll (body : Nat → Prog A V Unit) (is : List Nat) (m : A → V) : A → V :=
  is.foldl (fun m i => ((body i).run m).2) m

/-- Some bodies and then the others. -/
theorem runAll_append (body : Nat → Prog A V Unit) (is js : List Nat) (m : A → V) :
    runAll body (is ++ js) m = runAll body js (runAll body is m) := List.foldl_append

/-- A loop is the run of its indices in order. -/
theorem run_forRange (body : Nat → Prog A V Unit) (n : Nat) (m : A → V) :
    ((forRange n body).run m).2 = runAll body (List.range n) m := by
  induction n with
  | zero => rfl
  | succ n ih =>
    rw [List.range_succ, runAll_append, ← ih]
    exact congrArg Prod.snd (run_loop_succ n () (fun i _ => body i) m)

/-- Rounds that do not write a cell leave it. -/
theorem run_forRange_tail {body : Nat → Prog A V Unit} {n k : Nat} (hnk : n ≤ k) (m : A → V)
    {x : A} (h : ∀ i, n ≤ i → i < k → ¬ (body i).Writes x) :
    ((forRange k body).run m).2 x = ((forRange n body).run m).2 x := by
  induction hnk with
  | refl => rfl
  | @step k hnk ih =>
    rw [← ih fun i hi hik => h i hi (Nat.lt_succ_of_lt hik)]
    apply (congrArg (fun r => r.2 x) (run_loop_succ k () (fun i _ => body i) m)).trans
    exact (within_self (body k)).run_frame _ (h k hnk (Nat.lt_succ_self k))

/-- **Reordering.**  Bodies that spare each other may run in any order. -/
theorem runAll_perm {body : Nat → Prog A V Unit} {is js : List Nat} (hperm : is.Perm js)
    (hspare : ∀ i ∈ is, ∀ j ∈ is, i ≠ j → (body i).Spares (body j)) (m : A → V) :
    runAll body is m = runAll body js m := by
  refine hperm.foldl_eq' ?_ m
  intro i hi j hj m
  by_cases hij : i = j
  · rw [hij]
  · exact (run_comm (hspare i hi j hj hij) (hspare j hj i hi (Ne.symm hij)) m)

end Reorder

/-! ## Relations between two programs -/

section Relation

variable {B : Type} [DecidableEq A] [DecidableEq B]

/-- The memories have equal contents along `K`. -/
def Agree (K : A → B → Prop) (m : A → V) (m' : B → V) : Prop := ∀ x y, K x y → m x = m' y

/-- From memories that agree along `K` the programs return the same value and leave memories
    that agree along `K'`. -/
def Rel (K : A → B → Prop) (p : Prog A V α) (q : Prog B V α) (K' : A → B → Prop) : Prop :=
  ∀ m m', Agree K m m' → (p.run m).1 = (q.run m').1 ∧ Agree K' (p.run m).2 (q.run m').2

variable {K K' L L' M : A → B → Prop}

/-- More may be asked for in front, and less behind. -/
theorem Rel.conseq {p : Prog A V α} {q : Prog B V α} (h : Rel K p q K')
    (hK : ∀ x y, K x y → L x y) (hK' : ∀ x y, L' x y → K' x y) : Rel L p q L' := by
  intro m m' hm
  obtain ⟨hval, hmem⟩ := h m m' fun x y hxy => hm x y (hK x y hxy)
  exact ⟨hval, fun x y hxy => hmem x y (hK' x y hxy)⟩

/-- **Rules for `Rel`**, one for each constructor, for sequences and for loops. -/
theorem rel_pure (a : α) : Rel K (pure a : Prog A V α) (pure a : Prog B V α) K :=
  fun _ _ hm => ⟨rfl, hm⟩

/-- Related cells hold the same value. -/
theorem rel_read {x : A} {y : B} (h : K x y) :
    Rel K (read x : Prog A V V) (read y : Prog B V V) K :=
  fun _ _ hm => ⟨hm x y h, hm⟩

/-- Two writes of one value add a pair, provided no pair of `K` has just one end there. -/
theorem rel_write {x : A} {y : B} (h : ∀ x' y', K x' y' → (x' = x ↔ y' = y)) (v : V) :
    Rel K (write x v) (write y v) fun a b => K a b ∨ (a = x ∧ b = y) := by
  refine fun m m' hm => ⟨rfl, ?_⟩
  intro a b hab
  rw [run_write, run_write]
  dsimp only
  rcases hab with hab | ⟨rfl, rfl⟩
  · by_cases ha : a = x
    · rw [if_pos ha, if_pos ((h a b hab).mp ha)]
    · rw [if_neg ha, if_neg fun hb => ha ((h a b hab).mpr hb)]
      exact hm a b hab
  · rw [if_pos rfl, if_pos rfl]

/-- Two sequences are related part by part. -/
theorem rel_bind {p : Prog A V α} {q : Prog B V α} {f : α → Prog A V β} {g : α → Prog B V β}
    (hpq : Rel K p q M) (hfg : ∀ a, Rel M (f a) (g a) K') :
    Rel K (p >>= f) (q >>= g) K' := by
  intro m m' hm
  obtain ⟨hval, hmem⟩ := hpq m m' hm
  rw [run_bind, run_bind, hval]
  exact hfg _ _ _ hmem

/-- Two loops of the same length, by an invariant for each round. -/
theorem rel_loop (I : Nat → A → B → Prop) {n : Nat} (s : σ) {f : Nat → σ → Prog A V σ}
    {g : Nat → σ → Prog B V σ} (h : ∀ i, i < n → ∀ s, Rel (I i) (f i s) (g i s) (I (i + 1))) :
    Rel (I 0) (loop n s f) (loop n s g) (I n) := by
  induction n with
  | zero => exact rel_pure s
  | succ n ih =>
    exact rel_bind (ih fun i hi => h i (Nat.lt_succ_of_lt hi)) (h n (Nat.lt_succ_self n))

/-- Two loops whose rounds keep what is known. -/
theorem rel_loop_keep {n : Nat} (s : σ) {f : Nat → σ → Prog A V σ} {g : Nat → σ → Prog B V σ}
    (h : ∀ i, i < n → ∀ s, Rel K (f i s) (g i s) K) : Rel K (loop n s f) (loop n s g) K :=
  rel_loop (fun _ => K) s h

/-- Two loops with a common part of `n` rounds; the rounds behind it write beside what is known. -/
theorem rel_tails (I : Nat → A → B → Prop) {n n₁ n₂ : Nat} (h₁ : n ≤ n₁) (h₂ : n ≤ n₂)
    {f : Nat → Prog A V Unit} {g : Nat → Prog B V Unit}
    (h : ∀ i, i < n → Rel (I i) (f i) (g i) (I (i + 1)))
    (hf : ∀ i, n ≤ i → i < n₁ → ∀ x y, I n x y → ¬ (f i).Writes x)
    (hg : ∀ i, n ≤ i → i < n₂ → ∀ x y, I n x y → ¬ (g i).Writes y) :
    Rel (I 0) (forRange n₁ f) (forRange n₂ g) (I n) := by
  have hcommon : Rel (I 0) (forRange n f) (forRange n g) (I n) := rel_loop I () fun i hi _ => h i hi
  intro m m' hm
  refine ⟨rfl, fun x y hxy => ?_⟩
  rw [run_forRange_tail h₁ m fun i hi hin => hf i hi hin x y hxy,
    run_forRange_tail h₂ m' fun i hi hin => hg i hi hin x y hxy]
  exact (hcommon m m' hm).2 x y hxy

end Relation

end Prog
end Access
