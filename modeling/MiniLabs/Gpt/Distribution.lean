/-
  gpt — in exact arithmetic the rows are distributions.

  1. **Specification** — `forward_distributions`: after a forward pass the rows of `probs` are
     positive, sum to 1 and are the exponentials of the logits in proportion; so are the weights of
     attention up to their own position, and behind it they are zero; and what attention puts out
     lies between the values it may look at.

  2. **What is idealised** — `ExactOps` are operations on an ordered field with an exponential that
     is positive and takes sums to products; the reals are the example (`realOps_exact`).  The
     floats of the program are neither exact nor unbounded.  In `softmax_range` the largest logit is
     looked for from `-10000.0f` on: where all logits of a row lie far below, every `expf` there is
     0 and the row is `0/0`.  Here `expf` is never 0.

  3. **The crux (`ExactOps.shifted`)** — whatever is taken off every entry cancels, so neither the
     largest entry nor the `-10000` it starts from plays a part.  Through `forward_upto` the rows of
     the network become the cells of the memory.
-/
import Mathlib
import MiniLabs.Gpt.Refines

set_option linter.unusedVariables false

namespace Gpt

open Access Finset

/-- A weighted mean lies between the bounds of what it is taken of. -/
theorem mean_between {K : Type} [Field K] [LinearOrder K] [IsStrictOrderedRing K] {n : Nat}
    {w x : Nat → K} {lo hi : K} (hw : ∀ i, 0 ≤ w i) (hsum : ∑ i ∈ range n, w i = 1)
    (hx : ∀ i, i < n → lo ≤ x i ∧ x i ≤ hi) :
    lo ≤ ∑ i ∈ range n, w i * x i ∧ ∑ i ∈ range n, w i * x i ≤ hi := by
  constructor
  · calc lo = ∑ i ∈ range n, w i * lo := by rw [← sum_mul, hsum, one_mul]
      _ ≤ ∑ i ∈ range n, w i * x i := sum_le_sum fun i hi =>
        mul_le_mul_of_nonneg_left (hx i (mem_range.mp hi)).1 (hw i)
  · calc ∑ i ∈ range n, w i * x i ≤ ∑ i ∈ range n, w i * hi := sum_le_sum fun i hi =>
        mul_le_mul_of_nonneg_left (hx i (mem_range.mp hi)).2 (hw i)
      _ = hi := by rw [← sum_mul, hsum, one_mul]

/-- Exact arithmetic: the operations of an ordered field, and an exponential. -/
structure ExactOps {K : Type} [Field K] [LinearOrder K] [IsStrictOrderedRing K]
    (ops : FloatOps K) : Prop where
  add : ∀ x y, ops.add x y = x + y
  sub : ∀ x y, ops.sub x y = x - y
  mul : ∀ x y, ops.mul x y = x * y
  div : ∀ x y, ops.div x y = x / y
  eq : ∀ x y, ops.eq x y = true ↔ x = y
  gt : ∀ x y, ops.gt x y = true ↔ y < x
  zero : ops.zero = 0
  one : ops.one = 1
  half : ops.half = 1 / 2
  expf_pos : ∀ x, 0 < ops.expf x
  expf_add : ∀ x y, ops.expf (x + y) = ops.expf x * ops.expf y

section Rows

variable {K : Type} [Field K] [LinearOrder K] [IsStrictOrderedRing K] {ops : FloatOps K}

/-- The loop of the kernels sums up. -/
theorem ExactOps.sumFrom (h : ExactOps ops) (b : K) (n : Nat) (f : Nat → K) :
    sumFrom ops b n f = b + ∑ i ∈ range n, f i := by
  induction n with
  | zero => exact (add_zero b).symm
  | succ n ih =>
    rw [Gpt.sumFrom] at ih ⊢
    rw [rounds_succ, ih, h.add, sum_range_succ, add_assoc]

/-- From zero on it is the sum. -/
theorem ExactOps.sum (h : ExactOps ops) (n : Nat) (f : Nat → K) :
    Gpt.sumFrom ops ops.zero n f = ∑ i ∈ range n, f i := by
  rw [h.sumFrom, h.zero, zero_add]

/-- What is taken off an exponent is a factor. -/
theorem ExactOps.expf_sub (h : ExactOps ops) (x y : K) :
    ops.expf (ops.sub x y) = ops.expf x / ops.expf y := by
  rw [h.sub, eq_div_iff (h.expf_pos y).ne', ← h.expf_add, sub_add_cancel]

/-- A sum of exponentials is positive. -/
theorem ExactOps.sum_expf_pos (h : ExactOps ops) {n : Nat} (hn : 0 < n) (f : Nat → K) :
    0 < ∑ i ∈ range n, ops.expf (f i) :=
  sum_pos (fun i _ => h.expf_pos (f i)) ⟨0, mem_range.mpr hn⟩

/-- What is taken off every entry cancels. -/
theorem ExactOps.shifted (h : ExactOps ops) (n : Nat) (f : Nat → K) (x : K) (i : Nat) :
    ops.expf (ops.sub (f i) x) / ∑ j ∈ range n, ops.expf (ops.sub (f j) x) =
      ops.expf (f i) / ∑ j ∈ range n, ops.expf (f j) := by
  have hx := (h.expf_pos x).ne'
  simp only [h.expf_sub, ← sum_div]
  rw [div_div_div_cancel_right₀ hx]

/-! ## `softmax` -/

/-- **`softmax` is the quotient**, whatever was taken off the entries. -/
theorem softmax_exact (h : ExactOps ops) (V : Nat) (f : Nat → K) (i : Nat) :
    softmax ops V f i = ops.expf (f i) / ∑ j ∈ range V, ops.expf (f j) := by
  rw [softmax]
  dsimp only
  rw [h.div, h.sum, h.shifted]

/-- The entries of a row are positive. -/
theorem softmax_pos (h : ExactOps ops) {V : Nat} (hV : 0 < V) (f : Nat → K) (i : Nat) :
    0 < softmax ops V f i := by
  rw [softmax_exact h]
  exact div_pos (h.expf_pos _) (h.sum_expf_pos hV f)

/-- The entries of a row sum to 1. -/
theorem softmax_sum (h : ExactOps ops) {V : Nat} (hV : 0 < V) (f : Nat → K) :
    ∑ i ∈ range V, softmax ops V f i = 1 := by
  simp only [softmax_exact h, ← sum_div]
  exact div_self (h.sum_expf_pos hV f).ne'

/-! ## Attention -/

section Attention

variable (C hs : Nat) (qkv : Nat → Nat → K) (hd t : Nat)

/-- **The weights of attention are the quotient** up to their own position. -/
theorem attWeight_exact (h : ExactOps ops) {t2 : Nat} (ht2 : t2 ≤ t) :
    attWeight ops C hs qkv hd t t2 = ops.expf (score ops C hs qkv hd t t2) /
      ∑ i ∈ range (t + 1), ops.expf (score ops C hs qkv hd t i) := by
  have hpos : 0 < ∑ i ∈ range (t + 1), expScore ops C hs qkv hd t i :=
    h.sum_expf_pos (Nat.succ_pos t) fun i => ops.sub (score ops C hs qkv hd t i) _
  rw [attWeight, if_pos ht2, expsumInv, h.sum, h.zero, if_neg (mt (h.eq _ _).mp hpos.ne'), h.mul, h.div, h.one, mul_one_div]
  exact h.shifted (t + 1) (score ops C hs qkv hd t) _ t2

/-- A position behind the own one has no weight. -/
theorem attWeight_behind (h : ExactOps ops) {t2 : Nat} (ht2 : t < t2) :
    attWeight ops C hs qkv hd t t2 = 0 := by
  rw [attWeight, if_neg (Nat.not_le_of_lt ht2), h.zero]

/-- No weight is negative. -/
theorem attWeight_nonneg (h : ExactOps ops) (t2 : Nat) : 0 ≤ attWeight ops C hs qkv hd t t2 := by
  by_cases ht2 : t2 ≤ t
  · rw [attWeight_exact C hs qkv hd t h ht2]
    exact (div_pos (h.expf_pos _) (h.sum_expf_pos (Nat.succ_pos t) _)).le
  · rw [attWeight_behind C hs qkv hd t h (Nat.lt_of_not_le ht2)]

/-- The weights sum to 1. -/
theorem attWeight_sum (h : ExactOps ops) :
    ∑ t2 ∈ range (t + 1), attWeight ops C hs qkv hd t t2 = 1 := by
  rw [sum_congr rfl fun t2 ht2 =>
    attWeight_exact C hs qkv hd t h (Nat.le_of_lt_succ (mem_range.mp ht2)), ← sum_div]
  exact div_self (h.sum_expf_pos (Nat.succ_pos t) _).ne'

/-- A row of weights, up to any position behind `t`. -/
theorem attWeight_row (h : ExactOps ops) {T : Nat} (ht : t < T) :
    ∑ t2 ∈ range T, attWeight ops C hs qkv hd t t2 = 1 := by
  rw [← attWeight_sum C hs qkv hd t h]
  refine (sum_subset (range_subset_range.mpr ht) fun t2 _ hout => ?_).symm
  exact attWeight_behind C hs qkv hd t h (Nat.lt_of_not_le fun hle =>
    hout (mem_range.mpr (Nat.lt_succ_of_le hle)))

/-- What attention puts out is the mean of the values. -/
theorem attend_exact (h : ExactOps ops) (j : Nat) : attend ops C hs qkv t j =
    ∑ t2 ∈ range (t + 1), attWeight ops C hs qkv (j / hs) t t2 * qkv t2 (C * 2 + j) := by
  rw [attend, h.sum]
  exact sum_congr rfl fun t2 _ => h.mul _ _

/-- What attention puts out lies between the bounds of the values it looks at. -/
theorem attend_between (h : ExactOps ops) {j : Nat} {lo hi : K}
    (hvalues : ∀ t2, t2 ≤ t → lo ≤ qkv t2 (C * 2 + j) ∧ qkv t2 (C * 2 + j) ≤ hi) :
    lo ≤ attend ops C hs qkv t j ∧ attend ops C hs qkv t j ≤ hi := by
  rw [attend_exact C hs qkv t h]
  exact mean_between (attWeight_nonneg C hs qkv (j / hs) t h) (attWeight_sum C hs qkv (j / hs) t h)
    fun t2 ht2 => hvalues t2 (Nat.le_of_lt_succ ht2)

end Attention
end Rows

/-! ## The result -/

/-- **The rows of a forward pass are distributions**, in exact arithmetic, for sequences no longer
    than `max_seq_len`, tokens of the vocabulary and `int`s in range: the probabilities of each
    position are positive, sum to 1 and are the exponentials of the logits in proportion; the
    attention weights of each layer, head and position sum to 1 and look at no later position; and
    what attention puts out lies between the bounds of the values looked at. -/
theorem forward_distributions {K : Type} [Field K] [LinearOrder K] [IsStrictOrderedRing K]
    {ops : FloatOps K} (hops : ExactOps ops) (c : Model) {inputs : Nat → Nat} {B T w : Nat}
    (hT : 1 ≤ T) (hmax : T ≤ c.maxSeqLen) (hin : ∀ i, i < B * T → inputs i < c.vocabSize)
    (hints : IntsFit c.toGPT2Config inputs B T w) {m : Mem K} {r : Option (Mem K)}
    (hrun : RunForward c.toGPT2Config inputs B T ops w m r) :
    ∃ m', r = some m' ∧ ∀ b, b < B → ∀ t, t < T →
    let cell tensor l w i := m' (slot c.toGPT2Config B T tensor l + ((b * T + t) * w + i))
    let prob := cell .probs 0 c.vocabSize
    let logit := cell .logits 0 c.vocabSize
    ((∀ v, v < c.vocabSize → 0 < prob v ∧
        prob v = ops.expf (logit v) / ∑ u ∈ range c.vocabSize, ops.expf (logit u)) ∧
      ∑ v ∈ range c.vocabSize, prob v = 1) ∧
    ∀ l, l < c.numLayers → ∀ h, h < c.numHeads →
      let weight t2 := m' (slot c.toGPT2Config B T .att l +
        (((b * c.numHeads + h) * T + t) * T + t2))
      (∀ t2, t2 < T → 0 ≤ weight t2 ∧ (t < t2 → weight t2 = 0)) ∧
      ∑ t2 ∈ range T, weight t2 = 1 ∧
      ∀ i, i < c.channels / c.numHeads → ∀ lo hi,
        (∀ t2, t2 ≤ t →
          let value := m' (slot c.toGPT2Config B T .qkv l + ((b * T + t2) * (3 * c.channels) +
            (c.channels * 2 + (h * (c.channels / c.numHeads) + i))))
          lo ≤ value ∧ value ≤ hi) →
        let out := cell .atty l c.channels (h * (c.channels / c.numHeads) + i)
        lo ≤ out ∧ out ≤ hi := by
  obtain ⟨m', rfl, hcalls⟩ := hrun.calls hints
  have hend := forward_upto ops c inputs hT hcalls
  refine ⟨m', rfl, fun b hb t ht => ?_⟩
  have hholds := hend.tensors
  dsimp only
  refine ⟨?_, fun l hl h hh => ?_⟩
  · have hprob : ∀ v, v < c.vocabSize → m' (slot c.toGPT2Config B T .probs 0 +
        ((b * T + t) * c.vocabSize + v)) = softmax ops c.vocabSize (fun u =>
          m' (slot c.toGPT2Config B T .logits 0 + ((b * T + t) * c.vocabSize + u))) v := by
      intro v hv
      rw [slot_zero, slot_zero, hend.probs hb ht hv]
      exact softmax_congr ops (fun u hu => (hend.logits hb ht hu).symm) hv
    refine ⟨fun v hv => ?_, ?_⟩
    · rw [hprob v hv]
      exact ⟨softmax_pos hops c.vocabSize_pos _ v, softmax_exact hops _ _ v⟩
    · rw [sum_congr rfl fun v hv => hprob v (mem_range.mp hv)]
      exact softmax_sum hops c.vocabSize_pos _
  · have hatt := hholds .att l hl (by decide)
    have hatty := (holds_position (by decide)).mp (hholds .atty l hl (by decide)) b hb t ht
    have hqkv := fun t2 (ht2 : t2 ≤ t) => (holds_position (by decide)).mp
      (hholds .qkv l hl (by decide)) b hb t2 (Nat.lt_of_le_of_lt ht2 ht)
    have hweight : ∀ t2, t2 < T → _ := fun t2 ht2 => hatt b hb h hh t ht t2 ht2
    refine ⟨fun t2 ht2 => ?_, ?_, fun i hi lo hi' hvalues => ?_⟩
    · rw [hweight t2 ht2]
      exact ⟨attWeight_nonneg _ _ _ _ _ hops t2, attWeight_behind _ _ _ _ _ hops⟩
    · rw [sum_congr rfl fun t2 ht2 => hweight t2 (mem_range.mp ht2)]
      exact attWeight_row _ _ _ _ _ hops ht
    · have hcol := head_lt hh hi
      have hout : m' (slot c.toGPT2Config B T .atty l +
          ((b * T + t) * c.channels + (h * (c.channels / c.numHeads) + i))) = _ := hatty _ hcol
      rw [hout]
      refine attend_between _ _ _ _ hops fun t2 ht2 => ?_
      have hthird : c.channels * 2 + (h * (c.channels / c.numHeads) + i) < 3 * c.channels := by
        omega
      have hvalue : m' (slot c.toGPT2Config B T .qkv l + ((b * T + t2) * (3 * c.channels) +
          (c.channels * 2 + (h * (c.channels / c.numHeads) + i)))) = _ := hqkv t2 ht2 _ hthird
      have hbounds := hvalues t2 ht2
      rw [hvalue] at hbounds
      exact hbounds

/-! ## The reals -/

/-- Real numbers for floats. -/
noncomputable def realOps : FloatOps ℝ where
  add := (· + ·)
  sub := (· - ·)
  mul := (· * ·)
  div := (· / ·)
  gt a b := decide (a > b)
  eq a b := decide (a = b)
  sqrtf := Real.sqrt
  expf := Real.exp
  tanhf := Real.tanh
  ofInt n := n
  recip x := 1 / x
  zero := 0
  one := 1
  half := 1 / 2
  eps := 1 / 100000
  lowest := -10000
  cubic := 44715 / 1000000
  twoOverPi := 2 / Real.pi

/-- The reals are exact. -/
theorem realOps_exact : ExactOps realOps where
  add _ _ := rfl
  sub _ _ := rfl
  mul _ _ := rfl
  div _ _ := rfl
  eq _ _ := decide_eq_true_iff
  gt _ _ := decide_eq_true_iff
  zero := rfl
  one := rfl
  half := rfl
  expf_pos := Real.exp_pos
  expf_add := Real.exp_add

/-- The tiny model over the reals, every parameter and every activation 1. -/
theorem forward_distributions_real : ∃ m' : Mem ℝ,
    RunForward tinyModel.toGPT2Config (· % 2) 1 2 realOps 4 (fun _ => 1) (some m') ∧
    ∑ v ∈ range 2, m' (slot tinyModel.toGPT2Config 1 2 .probs 0 + ((0 * 2 + 1) * 2 + v)) = 1 := by
  have hclash := gpt2Forward_noClash realOps tinyModel.toGPT2Config 1 2 (· % 2) (by decide)
    tinyModel.numHeads_pos tinyModel.numLayers_pos
  have hrange : IntRange tinyModel.toGPT2Config 1 2 4 :=
    ⟨by decide, by decide, by decide, by decide, by decide, by decide, by decide⟩
  have htokens : ∀ i, i < 1 * 2 → i % 2 < tinyModel.vocabSize := fun i hi => mod_two_lt i _ hi
  have hints := hrange.fits (by decide) (by decide) htokens
  have hrun := (runForward_iff hclash hints (fun _ => 1) _).mpr rfl
  obtain ⟨m', hr, hrows⟩ := forward_distributions realOps_exact tinyModel (by decide) (by decide)
    htokens hints hrun
  rw [hr] at hrun
  exact ⟨m', hrun, (hrows 0 (by decide) 1 (by decide)).1.2⟩

end Gpt
