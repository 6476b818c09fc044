/-
  gpt — what one index of a kernel computes.

  1. **Program** — the access program of one index, from `Gpt.Kernels`.
  2. **Specification** — the memory it leaves, in terms of the network's functions: `xxx_run` is the
     run of one index from any memory in which the cells it writes are apart from those it reads.
  3. **The crux (`cells_inj`, `fill_cell`)** — a loop that writes cell after cell leaves, in each,
     what its round computed; attention is four such loops over the positions up to its own, one
     behind the other (`scores_run`, `exps_run`, `normalise_run`, `weigh_run`).
-/
import MiniLabs.Gpt.Footprint
import MiniLabs.Gpt.Network

set_option linter.unusedVariables false

namespace Gpt

open Access Access.Prog

variable {F : Type} (ops : FloatOps F) {m : Mem F}

/-- The cells from a pointer on are different ones. -/
theorem cells_inj (p : Loc) (i j : Nat) (h : p + i = p + j) : i = j := Loc.add_inj.mp h

/-- Filling a segment leaves what is apart from it. -/
theorem fill_apart {p q : Loc} {n k i j : Nat} {v : Nat → F} (h : Apart ⟨p, n⟩ ⟨q, k⟩)
    (hi : i ≤ n) (hj : j < k) : fill (p + ·) v i m (q + j) = m (q + j) := by
  apply fill_off
  intro r hr heq
  exact h (p + r) (span_cell (Nat.lt_of_lt_of_le hr hi)) (heq ▸ span_cell hj)

/-- A segment that was filled holds what it was filled with. -/
theorem fill_cell {p : Loc} {n i : Nat} {v : Nat → F} (hi : i < n) :
    fill (p + ·) v n m (p + i) = v i := fill_at (cells_inj p) hi

/-- A cell that is still to be filled again. -/
theorem fill_ahead {p : Loc} {n i : Nat} {v w : Nat → F} (hi : i < n) :
    fill (p + ·) w i (fill (p + ·) v n m) (p + i) = v i := by
  rw [fill_off, fill_cell hi]
  intro r hr heq
  exact Nat.ne_of_gt hr (Loc.add_inj.mp heq)

/-! ## encoder -/

/-- A row of the encoder is written cell by cell, and none is read. -/
theorem encoderRow_run (a : EncoderArg) (row : Nat)
    (hwte : Apart ⟨a.out + row * a.C, a.C⟩ ⟨a.wte + a.inp row * a.C, a.C⟩)
    (hwpe : Apart ⟨a.out + row * a.C, a.C⟩ ⟨a.wpe + row % a.T * a.C, a.C⟩) :
    (encoderRow ops a row).run m = ((), fill (a.out + row * a.C + ·)
      (fun i => ops.add (m (a.wte + a.inp row * a.C + i)) (m (a.wpe + row % a.T * a.C + i)))
      a.C m) := by
  simp only [encoderRow, row_ptr, Nat.div_add_mod']
  refine run_forRange_fill _ _ fun i hi => ?_
  rw [run_seq (run_read _ _), run_seq (run_read _ _), run_store,
    fill_apart hwte (Nat.le_of_lt hi) hi, fill_apart hwpe (Nat.le_of_lt hi) hi]
  rfl

/-! ## layernorm -/

/-- **A row of layernorm**: mean and variance come first, then the row and the two numbers. -/
theorem layernormRow_run (a : LayernormArg) (row : Nat)
    (hinp : Apart ⟨a.out + row * a.C, a.C⟩ ⟨a.inp + row * a.C, a.C⟩)
    (hweight : Apart ⟨a.out + row * a.C, a.C⟩ ⟨a.weight, a.C⟩)
    (hbias : Apart ⟨a.out + row * a.C, a.C⟩ ⟨a.bias, a.C⟩) :
    (layernormRow ops a row).run m =
      let x i := m (a.inp + row * a.C + i)
      ((), store (a.rstd + row) (rstd ops a.C x) (store (a.mean + row) (mean ops a.C x)
        (fill (a.out + row * a.C + ·) (layernorm ops a.C (fun i => m (a.weight + i))
          (fun i => m (a.bias + i)) x) a.C m))) := by
  simp only [layernormRow, row_ptr, Nat.div_add_mod']
  -- the two sums only read
  rw [run_seq (run_loop_reads (g := fun i s => ops.add s (m (a.inp + row * a.C + i))) _
    fun i hi s => rfl)]
  rw [run_seq (run_loop_reads (g := fun i s => ops.add s
    (ops.mul (ops.sub (m (a.inp + row * a.C + i)) (mean ops a.C fun i => m (a.inp + row * a.C + i)))
      (ops.sub (m (a.inp + row * a.C + i)) (mean ops a.C fun i => m (a.inp + row * a.C + i))))) _
    fun i hi s => rfl)]
  rw [run_seq (run_forRange_fill (a.out + row * a.C + ·)
    (layernorm ops a.C (fun i => m (a.weight + i)) (fun i => m (a.bias + i))
      fun i => m (a.inp + row * a.C + i)) fun i hi => ?_)]
  · rfl
  · rw [run_seq (run_read _ _), run_seq (run_read _ _), run_seq (run_read _ _), run_store,
      fill_apart hinp (Nat.le_of_lt hi) hi, fill_apart hweight (Nat.le_of_lt hi) hi,
      fill_apart hbias (Nat.le_of_lt hi) hi]
    rfl

/-! ## matmul -/

/-- `bias[o]`, or 0. -/
def biasValue (m : Mem F) : Option Loc → Nat → F
  | some bias, o => m (bias + o)
  | none, _ => ops.zero

/-- The bias is read, and is zero where there is none. -/
theorem biasAt_run (bias : Option Loc) (o : Nat) :
    (biasAt ops bias o).run m = (biasValue ops m bias o, m) := by
  cases bias <;> rfl

/-- **A cell of matmul** is a scalar product, summed from the bias on. -/
theorem matmulCell_run (a : MatmulArg) (idx : Nat) :
    (matmulCell ops a idx).run m = ((), store (a.out + idx)
      (linear ops a.C (fun o i => m (a.weight + o * a.C + i)) (biasValue ops m a.bias)
        (fun i => m (a.inp + idx / a.OC * a.C + i)) (idx % a.OC)) m) := by
  simp only [matmulCell, cell_ptr]
  rw [run_seq (biasAt_run ops a.bias (idx % a.OC))]
  rw [run_seq (run_loop_reads (g := fun i s => ops.add s
    (ops.mul (m (a.inp + idx / a.OC * a.C + i)) (m (a.weight + idx % a.OC * a.C + i)))) _
    fun i hi s => rfl)]
  rfl

/-! ## softmax -/

/-- **A row of softmax**: the largest entry, the exponentials and their sum, and the division. -/
theorem softmaxRow_run (a : SoftmaxArg) (row : Nat)
    (hlogits : Apart ⟨a.probs + row * a.V, a.V⟩ ⟨a.logits + row * a.V, a.V⟩) :
    (softmaxRow ops a row).run m = ((), fill (a.probs + row * a.V + ·)
      (softmax ops a.V fun i => m (a.logits + row * a.V + i)) a.V m) := by
  simp only [softmaxRow, row_ptr]
  generalize hf : (fun i : Nat => m (a.logits + row * a.V + i)) = f
  have hread : ∀ i, m (a.logits + row * a.V + i) = f i := fun i => congrFun hf i
  rw [run_seq (run_loop_reads (g := fun i a => if ops.gt (f i) a then f i else a) _
    fun i hi s => by rw [run_seq (run_read _ _), hread]; rfl)]
  rw [run_seq (run_loop_fill (a.probs + row * a.V + ·)
    (fun i => ops.expf (ops.sub (f i) (largest ops a.V f)))
    (g := fun i s => ops.add s (ops.expf (ops.sub (f i) (largest ops a.V f)))) _
    fun i hi s => ?_)]
  · -- each cell is divided where it stands
    refine (run_forRange_fill (a.probs + row * a.V + ·) (softmax ops a.V f) fun i hi => ?_).trans
      (congrArg (Prod.mk ()) (fill_fill (cells_inj _) (Nat.le_refl a.V)))
    rw [run_seq (run_read _ _), run_store, fill_ahead hi]
    rfl
  · rw [run_seq (run_read _ _), fill_apart hlogits (Nat.le_of_lt hi) hi, hread]
    rfl

/-! ## attention

  The five loops of a unit, each from a memory in which what it reads is known. -/

section Attention

variable {n hs : Nat}

/-- No cell `x` is one of the first `n` from `p` on. -/
theorem fill_beside {p x : Loc} {i n : Nat} {v : Nat → F} (h : ¬ Span p n x) (hi : i ≤ n) :
    fill (p + ·) v i m x = m x := by
  apply fill_off
  rintro r hr rfl
  exact h (span_cell (Nat.lt_of_lt_of_le hr hi))

/-- The head a column belongs to. -/
theorem head_of {h i : Nat} (hi : i < hs) : (h * hs + i) / hs = h := by
  rw [Nat.mul_comm, Nat.mul_add_div (Nat.lt_of_le_of_lt (Nat.zero_le i) hi),
    Nat.div_eq_of_lt hi, Nat.add_zero]

/-- **The scores** of one row, and the largest of them. -/
theorem scores_run {q : Nat → Loc} {k : Nat → Nat → Loc} {P : Loc} {scale : F} {s : Nat → F}
    (hq : ∀ i, i < hs → ¬ Span P n (q i))
    (hk : ∀ t2, t2 < n → ∀ i, i < hs → ¬ Span P n (k t2 i))
    (hsc : ∀ t2, t2 < n → s t2 = ops.mul
      (sumFrom ops ops.zero hs fun i => ops.mul (m (q i)) (m (k t2 i))) scale) :
    (loop n ops.lowest fun t2 maxval => do
      let val ← loop hs ops.zero fun i val => do
        let x ← read (q i)
        let y ← read (k t2 i)
        pure (ops.add val (ops.mul x y))
      write (P + t2) (ops.mul val scale)
      pure (if ops.gt (ops.mul val scale) maxval then ops.mul val scale else maxval)).run m =
    (largest ops n s, fill (P + ·) s n m) := by
  refine run_loop_fill (P + ·) s _ fun t2 ht2 maxval => ?_
  have hdot : (loop hs ops.zero fun i val => do
      let x ← read (q i)
      let y ← read (k t2 i)
      pure (ops.add val (ops.mul x y))).run (fill (P + ·) s t2 m) =
      (sumFrom ops ops.zero hs fun i => ops.mul (m (q i)) (m (k t2 i)),
        fill (P + ·) s t2 m) := by
    refine run_loop_reads _ fun i hi s => ?_
    rw [run_seq (run_read _ _), run_seq (run_read _ _), fill_beside (hq i hi) (Nat.le_of_lt ht2),
      fill_beside (hk t2 ht2 i hi) (Nat.le_of_lt ht2)]
    rfl
  rw [run_seq hdot, run_seq (run_store _ _ _), ← hsc t2 ht2]
  rfl

/-- **The exponentials** of the scores, and their sum. -/
theorem exps_run {P A : Loc} {sc : Nat → F} {maxval : F} (hP : ∀ t2, t2 < n → m (P + t2) = sc t2)
    (hAP : Apart ⟨A, n⟩ ⟨P, n⟩) :
    (loop n ops.zero fun t2 expsum => do
      let p ← read (P + t2)
      write (A + t2) (ops.expf (ops.sub p maxval))
      pure (ops.add expsum (ops.expf (ops.sub p maxval)))).run m =
    (sumFrom ops ops.zero n fun t2 => ops.expf (ops.sub (sc t2) maxval),
      fill (A + ·) (fun t2 => ops.expf (ops.sub (sc t2) maxval)) n m) := by
  refine run_loop_fill (A + ·) _ _ fun t2 ht2 expsum => ?_
  rw [run_seq (run_read _ _), fill_apart hAP (Nat.le_of_lt ht2) ht2, hP t2 ht2]
  rfl

/-- **The weights** are divided by the sum up to the own position, and zero behind it. -/
theorem normalise_run {A : Loc} {t T : Nat} (ht : t < T) {e : Nat → F} {inv : F} :
    (forRange T fun t2 =>
      if t2 ≤ t then do
        let w ← read (A + t2)
        write (A + t2) (ops.mul w inv)
      else write (A + t2) ops.zero).run (fill (A + ·) e (t + 1) m) =
    ((), fill (A + ·) (fun t2 => if t2 ≤ t then ops.mul (e t2) inv else ops.zero) T m) := by
  refine (run_forRange_fill (A + ·) (fun t2 => if t2 ≤ t then ops.mul (e t2) inv else ops.zero)
    fun t2 ht2 => ?_).trans (congrArg (Prod.mk ()) (fill_fill (cells_inj A) ht))
  by_cases hle : t2 ≤ t
  · rw [if_pos hle, run_seq (run_read _ _), run_store, fill_ahead (Nat.lt_succ_of_le hle),
      fill_succ (n := t2), if_pos hle]
  · rw [if_neg hle, run_store, fill_succ (n := t2), if_neg hle]

/-- `out` after the values of the first `t2` positions. -/
theorem weigh_run {A O : Loc} {v : Nat → Nat → Loc} {w : Nat → F} {u : Nat → Nat → F}
    (hA : ∀ t2, t2 < n → m (A + t2) = w t2) (hOA : Apart ⟨O, hs⟩ ⟨A, n⟩)
    (hv : ∀ t2, t2 < n → ∀ i, i < hs → ¬ Span O hs (v t2 i) ∧ m (v t2 i) = u t2 i) :
    (forRange n fun t2 => do
      let x ← read (A + t2)
      forRange hs fun i => do
        let o ← read (O + i)
        let y ← read (v t2 i)
        write (O + i) (ops.add o (ops.mul x y))).run (fill (O + ·) (fun _ => ops.zero) hs m) =
    ((), fill (O + ·)
      (fun i => sumFrom ops ops.zero n fun t2 => ops.mul (w t2) (u t2 i)) hs m) := by
  refine run_forRange_track (fun t2 => fill (O + ·)
    (fun i => sumFrom ops ops.zero t2 fun t2 => ops.mul (w t2) (u t2 i)) hs m) fun t2 ht2 => ?_
  rw [run_seq (run_read _ _), fill_apart hOA (Nat.le_refl hs) ht2, hA t2 ht2]
  refine (run_forRange_fill (O + ·)
    (fun i => sumFrom ops ops.zero (t2 + 1) fun t2 => ops.mul (w t2) (u t2 i))
    fun i hi => ?_).trans (congrArg (Prod.mk ()) (fill_fill (cells_inj O) (Nat.le_refl hs)))
  obtain ⟨hbeside, hval⟩ := hv t2 ht2 i hi
  rw [run_seq (run_read _ _), fill_ahead hi, run_seq (run_read _ _),
    fill_beside hbeside (Nat.le_of_lt hi), fill_beside hbeside (Nat.le_refl hs), hval]
  rfl

/-- The queries, keys and values of batch `b`. -/
def qkvOf (a : AttentionArg) (m : Mem F) (b t j : Nat) : F :=
  m (a.inp + ((b * a.T + t) * (a.C * 3) + j))

/-- **One unit of attention** is these four loops. -/
theorem attentionUnit_run (a : AttentionArg) (hT : 0 < a.T) (hNH : 0 < a.NH) (unit : Nat)
    {b t h : Nat} (hb : b = unit / (a.T * a.NH)) (ht : t = unit % (a.T * a.NH) / a.NH)
    (hh : h = unit % (a.T * a.NH) % a.NH) {P A O : Loc}
    (hP : P = a.preatt + ((b * a.NH + h) * a.T + t) * a.T)
    (hA : A = a.att + ((b * a.NH + h) * a.T + t) * a.T)
    (hO : O = a.out + ((b * a.T + t) * a.C + h * (a.C / a.NH)))
    (hinp : ∀ t2, t2 ≤ t → ∀ j, j < a.C * 3 →
      ¬ Span P a.T (a.inp + ((b * a.T + t2) * (a.C * 3) + j)) ∧
      ¬ Span A a.T (a.inp + ((b * a.T + t2) * (a.C * 3) + j)) ∧
      ¬ Span O (a.C / a.NH) (a.inp + ((b * a.T + t2) * (a.C * 3) + j)))
    (hAP : Apart ⟨A, a.T⟩ ⟨P, a.T⟩) (hOA : Apart ⟨O, a.C / a.NH⟩ ⟨A, a.T⟩) :
    (attentionUnit ops a unit).run m =
      let hs := a.C / a.NH
      let qkv := qkvOf a m b
      ((), fill (O + ·) (fun i => attend ops a.C hs qkv t (h * hs + i)) hs
        (fill (A + ·) (attWeight ops a.C hs qkv h t) a.T
          (fill (P + ·) (score ops a.C hs qkv h t) (t + 1) m))) := by
  have htT : t < a.T := ht ▸ unit_t_lt hT hNH unit
  have hhNH : h < a.NH := hh ▸ Nat.mod_lt _ hNH
  simp only [attentionUnit, preatt_ptr]
  simp only [out_ptr, ← hb, ← ht, ← hh, ← hP, ← hA, ← hO]
  generalize hhs : a.C / a.NH = hs at *
  -- the cell of a query, key or value
  have hcell : ∀ t2 j q, t2 ≤ t → j < a.C * 3 → q = (b * a.T + t2) * (a.C * 3) + j →
      ¬ Span P a.T (a.inp + q) ∧ ¬ Span A a.T (a.inp + q) ∧ ¬ Span O hs (a.inp + q) ∧
        m (a.inp + q) = qkvOf a m b t2 j := by
    rintro t2 j q ht2 hj rfl
    obtain ⟨hp, ha, ho⟩ := hinp t2 ht2 j hj
    exact ⟨hp, ha, ho, rfl⟩
  have hcol : ∀ i, i < hs → h * hs + i < a.C := by
    intro i hi
    have hlt := head_lt hhNH (hhs.symm ▸ hi)
    rwa [hhs] at hlt
  have hshort : ∀ {p x : Loc}, Span p (t + 1) x → Span p a.T x :=
    fun hx => hx.imp fun j hj => ⟨Nat.lt_of_lt_of_le hj.1 htT, hj.2⟩
  simp only [Loc.add_assoc]
  refine (run_seq (scores_run ops (s := score ops a.C hs (qkvOf a m b) h t) (fun i hi => ?_)
    (fun t2 ht2 i hi => ?_) fun t2 ht2 => ?_)).trans ?_
  · have hi' := hcol i hi
    exact mt hshort (hcell t (h * hs + i) _ (Nat.le_refl t) (by omega) (by omega)).1
  · have hi' := hcol i hi
    exact mt hshort (hcell t2 (h * hs + a.C + i) _ (by omega) (by omega) (by omega)).1
  · rw [score]
    congr 1
    apply sumFrom_congr
    intro i hi
    have hi' := hcol i hi
    rw [(hcell t (h * hs + i) _ (Nat.le_refl t) (by omega) (Nat.add_assoc _ _ _)).2.2.2,
      (hcell t2 (h * hs + a.C + i) _ (by omega) (by omega) (by omega)).2.2.2]
  have hAP' : Apart ⟨A, t + 1⟩ ⟨P, t + 1⟩ := hAP.part (fun x => hshort) fun x => hshort
  refine (run_seq (exps_run ops (fun t2 ht2 => fill_cell ht2) hAP')).trans ?_
  refine (run_seq (normalise_run ops htT)).trans ?_
  refine (run_seq (run_forRange_fill (O + ·) (fun _ => ops.zero) fun i hi => rfl)).trans ?_
  refine (weigh_run ops (w := attWeight ops a.C hs (qkvOf a m b) h t)
    (u := fun t2 i => qkvOf a m b t2 (a.C * 2 + (h * hs + i))) (fun t2 ht2 => ?_)
    (hOA.part (fun x hx => hx) fun x => hshort) fun t2 ht2 i hi => ?_).trans ?_
  · exact fill_cell (Nat.lt_of_lt_of_le ht2 htT)
  · have hi' := hcol i hi
    obtain ⟨hp, ha, ho, hval⟩ := hcell t2 (a.C * 2 + (h * hs + i))
      ((b * a.T + t2) * (a.C * 3) + h * hs + a.C * 2 + i) (by omega) (by omega) (by omega)
    refine ⟨ho, ?_⟩
    rw [fill_beside ha (Nat.le_refl _), fill_beside hp htT, hval]
  · refine congrArg (Prod.mk ()) (fill_congr fun i hi => ?_)
    rw [attend, head_of hi]

end Attention

end Gpt
