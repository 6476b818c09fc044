/-
  What an access program computes — the result and the memory of a run, written down.

  A run is known when `p.run m = (a, m')` is.  A loop is then `rounds`, the same loop on values,
  and the memory it leaves is one of a family that is known round by round (`run_loop_track`).
  `fill cell v n m` is `m` with the values `v 0 … v (n - 1)` in the cells `cell 0 … cell (n - 1)`.

  Bodies that spare each other compute in a row what each computes alone (`runAll_alone`).
-/
import MiniLabs.Lib.Access

set_option linter.unusedVariables false

namespace Access

variable {A V α β σ : Type}

/-- `for (i = 0; i < n; i++)` on values. -/
def rounds : Nat → σ → (Nat → σ → σ) → σ
  | 0, s, _ => s
  | n + 1, s, f => f n (rounds n s f)

@[simp] theorem rounds_zero (s : σ) (f : Nat → σ → σ) : rounds 0 s f = s := rfl

@[simp] theorem rounds_succ (n : Nat) (s : σ) (f : Nat → σ → σ) :
    rounds (n + 1) s f = f n (rounds n s f) := rfl

/-- Loops with the same rounds. -/
theorem rounds_congr {n : Nat} (s : σ) {f g : Nat → σ → σ}
    (h : ∀ i, i < n → ∀ s, f i s = g i s) : rounds n s f = rounds n s g := by
  induction n with
  | zero => rfl
  | succ n ih =>
    rw [rounds_succ, rounds_succ, ih fun i hi => h i (Nat.lt_succ_of_lt hi)]
    exact h n (Nat.lt_succ_self n) _

/-! ## What is written on some path -/

namespace Prog
section Writes

variable {x : A}

theorem writes_write (x : A) (v : V) : (write x v : Prog A V Unit).Writes x := Or.inl rfl

theorem writes_bind_left {p : Prog A V α} (f : α → Prog A V β) (h : p.Writes x) :
    (p >>= f).Writes x := by
  show (p.andThen f).Writes x
  induction p with
  | ret a => exact h.elim
  | get y k ih => exact h.imp fun v hv => ih v hv
  | put y v k ih => exact h.imp_right ih

/-- A path through `p` goes on, as there are contents. -/
theorem writes_bind_right (v : V) (p : Prog A V α) {f : α → Prog A V β}
    (h : ∀ a, (f a).Writes x) : (p >>= f).Writes x := by
  show (p.andThen f).Writes x
  induction p with
  | ret a => exact h a
  | get y k ih => exact ⟨v, ih v⟩
  | put y w k ih => exact Or.inr ih

theorem writes_loop (v : V) {n i : Nat} (hi : i < n) (s : σ) {f : Nat → σ → Prog A V σ}
    (h : ∀ s, (f i s).Writes x) : (loop n s f).Writes x := by
  induction n with
  | zero => exact absurd hi (Nat.not_lt_zero i)
  | succ n ih =>
    by_cases hin : i = n
    · exact writes_bind_right v _ (hin ▸ h)
    · exact writes_bind_left _ (ih (by omega))

theorem writes_forRange (v : V) {n i : Nat} (hi : i < n) {f : Nat → Prog A V Unit}
    (h : (f i).Writes x) : (forRange n f).Writes x := writes_loop v hi () fun _ => h

end Writes
end Prog

/-! ## Memories -/

variable [DecidableEq A]

/-- `m` with one cell changed. -/
def store (x : A) (v : V) (m : A → V) : A → V := fun y => if y = x then v else m y

@[simp] theorem store_self (x : A) (v : V) (m : A → V) : store x v m x = v := if_pos rfl

/-- The other cells keep their value. -/
theorem store_off {x y : A} (h : y ≠ x) (v : V) (m : A → V) : store x v m y = m y := if_neg h

/-- `m` with the values `v` in the first `n` cells. -/
def fill (cell : Nat → A) (v : Nat → V) : Nat → (A → V) → A → V
  | 0, m => m
  | n + 1, m => store (cell n) (v n) (fill cell v n m)

section Fill

variable {cell : Nat → A} {v w : Nat → V} {n k : Nat} {m : A → V}

/-- The last cell is filled last. -/
theorem fill_succ : fill cell v (n + 1) m = store (cell n) (v n) (fill cell v n m) := rfl

/-- The other cells are as before. -/
theorem fill_off {x : A} (h : ∀ i, i < n → x ≠ cell i) : fill cell v n m x = m x := by
  induction n with
  | zero => rfl
  | succ n ih =>
    rw [fill_succ, store_off (h n (Nat.lt_succ_self n))]
    exact ih fun i hi => h i (Nat.lt_succ_of_lt hi)

/-- The cells hold the values. -/
theorem fill_at (hinj : ∀ i j, cell i = cell j → i = j) {i : Nat} (hi : i < n) :
    fill cell v n m (cell i) = v i := by
  induction n with
  | zero => exact absurd hi (Nat.not_lt_zero i)
  | succ n ih =>
    rw [fill_succ]
    by_cases hin : i = n
    · rw [hin, store_self]
    · rw [store_off fun h => hin (hinj i n h)]
      exact ih (by omega)

/-- Filled again. -/
theorem fill_fill (hinj : ∀ i j, cell i = cell j → i = j) (hk : k ≤ n) :
    fill cell w n (fill cell v k m) = fill cell w n m := by
  funext x
  by_cases hx : ∃ i, i < n ∧ x = cell i
  · obtain ⟨i, hi, rfl⟩ := hx
    rw [fill_at hinj hi, fill_at hinj hi]
  · have hoff : ∀ i, i < n → x ≠ cell i := fun i hi h => hx ⟨i, hi, h⟩
    rw [fill_off hoff, fill_off hoff]
    exact fill_off fun i hi => hoff i (Nat.lt_of_lt_of_le hi hk)

/-- Only the values of the cells that are filled count. -/
theorem fill_congr (h : ∀ i, i < n → v i = w i) : fill cell v n m = fill cell w n m := by
  induction n with
  | zero => rfl
  | succ n ih =>
    rw [fill_succ, fill_succ, ih fun i hi => h i (Nat.lt_succ_of_lt hi), h n (Nat.lt_succ_self n)]

end Fill

namespace Prog

section Known

variable {m m' : A → V}

/-- A write, as a value. -/
theorem run_store (x : A) (v : V) (m : A → V) : (write x v).run m = ((), store x v m) := rfl

/-- A sequence whose first part is known. -/
theorem run_seq {p : Prog A V α} {f : α → Prog A V β} {a : α} (h : p.run m = (a, m')) :
    (p >>= f).run m = (f a).run m' := by
  rw [run_bind, h]

/-- A loop whose rounds lead from one known memory to the next. -/
theorem run_loop_track (M : Nat → A → V) {n : Nat} (s : σ) {f : Nat → σ → Prog A V σ}
    {g : Nat → σ → σ} (h : ∀ i, i < n → ∀ s, (f i s).run (M i) = (g i s, M (i + 1))) :
    (loop n s f).run (M 0) = (rounds n s g, M n) := by
  induction n with
  | zero => rfl
  | succ n ih =>
    rw [run_loop_succ, ih fun i hi => h i (Nat.lt_succ_of_lt hi)]
    exact h n (Nat.lt_succ_self n) _

/-- A loop that only reads. -/
theorem run_loop_reads {n : Nat} (s : σ) {f : Nat → σ → Prog A V σ} {g : Nat → σ → σ}
    (h : ∀ i, i < n → ∀ s, (f i s).run m = (g i s, m)) :
    (loop n s f).run m = (rounds n s g, m) := run_loop_track (fun _ => m) s h

/-- A loop that fills cell after cell. -/
theorem run_loop_fill (cell : Nat → A) (v : Nat → V) {n : Nat} (s : σ)
    {f : Nat → σ → Prog A V σ} {g : Nat → σ → σ}
    (h : ∀ i, i < n → ∀ s, (f i s).run (fill cell v i m) = (g i s, fill cell v (i + 1) m)) :
    (loop n s f).run m = (rounds n s g, fill cell v n m) :=
  run_loop_track (fun i => fill cell v i m) s h

/-- A loop for its effects, tracked round by round. -/
theorem run_forRange_track (M : Nat → A → V) {n : Nat} {f : Nat → Prog A V Unit}
    (h : ∀ i, i < n → (f i).run (M i) = ((), M (i + 1))) :
    (forRange n f).run (M 0) = ((), M n) :=
  run_loop_track M () fun i hi _ => h i hi

/-- A loop that fills cell after cell. -/
theorem run_forRange_fill (cell : Nat → A) (v : Nat → V) {n : Nat} {f : Nat → Prog A V Unit}
    (h : ∀ i, i < n → (f i).run (fill cell v i m) = ((), fill cell v (i + 1) m)) :
    (forRange n f).run m = ((), fill cell v n m) :=
  run_forRange_track (fun i => fill cell v i m) h

end Known

/-! ## Many bodies -/

section Alone

variable {body : Nat → Prog A V Unit} {is : List Nat} {x : A}

/-- A cell that no body writes keeps its value. -/
theorem runAll_off (h : ∀ i ∈ is, ¬ (body i).Writes x) (m : A → V) :
    runAll body is m x = m x := by
  induction is generalizing m with
  | nil => rfl
  | cons i is ih =>
    apply (ih (fun j hj => h j (List.mem_cons_of_mem i hj)) _).trans
    exact (within_self (body i)).run_frame m (h i List.mem_cons_self)

/-- **Each body runs as if it were alone**: in the cells that it writes the others leave what it
    computes from the memory they all start with. -/
theorem runAll_alone (hnodup : is.Nodup)
    (hspare : ∀ i ∈ is, ∀ j ∈ is, i ≠ j → (body i).Spares (body j)) {i : Nat} (hi : i ∈ is)
    (hx : (body i).Writes x) (m : A → V) : runAll body is m x = ((body i).run m).2 x := by
  have hperm : is.Perm (i :: is.erase i) := List.perm_cons_erase hi
  rw [runAll_perm hperm hspare]
  -- `i` first; the others do not write the cell
  show runAll body (is.erase i) ((body i).run m).2 x = ((body i).run m).2 x
  apply runAll_off
  intro j hj hw
  have hji : j ≠ i := by
    rintro rfl
    exact (List.nodup_cons.mp (hperm.nodup_iff.mp hnodup)).1 hj
  exact (hspare i hi j (List.mem_of_mem_erase hj) (Ne.symm hji) x hx).2 hw

end Alone

end Prog
end Access
