/-
  gpt — the weights that a memory holds, and how much of them the network looks at.

  1. **Program** — `weightsOf` reads the parameters where the passes look for them.  It is a total
     function, and behind the last entry of a tensor it reads what lies there: the next tensor, or
     whatever is behind all of them.

  2. **Specification** — `Loaded c m W`: within the bounds of each tensor `m` holds the weights
     `W`.  Of the embeddings these are the tokens of the vocabulary and the positions below
     `max_seq_len`; `W` may be anything else elsewhere, so what is proved for every such `W` does
     not depend on what lies behind a tensor.

  3. **The crux (`Weights.Agree`)** — two networks whose weights agree within these bounds compute
     the same for tokens of the vocabulary at positions below `max_seq_len`: the embedding takes
     one row of each table, a layer has as many rows and columns as its tensors, and the head goes
     through the vocabulary.  `Rows n t x y` is carried from each step to the next, where attention
     needs it at all positions up to its own.
-/
import MiniLabs.Gpt.Footprint
import MiniLabs.Gpt.Network

set_option linter.unusedVariables false

namespace Gpt

section Agree

variable {F : Type}

/-- The parameters of a layer agree, each within the bounds of its tensor. -/
structure LayerWeights.Agree (c : GPT2Config) (V V' : LayerWeights F) : Prop where
  ln1w : ∀ i, i < c.channels → V.ln1w i = V'.ln1w i
  ln1b : ∀ i, i < c.channels → V.ln1b i = V'.ln1b i
  qkvw : ∀ o, o < 3 * c.channels → ∀ i, i < c.channels → V.qkvw o i = V'.qkvw o i
  qkvb : ∀ o, o < 3 * c.channels → V.qkvb o = V'.qkvb o
  attprojw : ∀ o, o < c.channels → ∀ i, i < c.channels → V.attprojw o i = V'.attprojw o i
  attprojb : ∀ o, o < c.channels → V.attprojb o = V'.attprojb o
  ln2w : ∀ i, i < c.channels → V.ln2w i = V'.ln2w i
  ln2b : ∀ i, i < c.channels → V.ln2b i = V'.ln2b i
  fcw : ∀ o, o < 4 * c.channels → ∀ i, i < c.channels → V.fcw o i = V'.fcw o i
  fcb : ∀ o, o < 4 * c.channels → V.fcb o = V'.fcb o
  fcprojw : ∀ o, o < c.channels → ∀ i, i < 4 * c.channels → V.fcprojw o i = V'.fcprojw o i
  fcprojb : ∀ o, o < c.channels → V.fcprojb o = V'.fcprojb o

/-- The parameters agree, each within the bounds of its tensor. -/
structure Weights.Agree (c : GPT2Config) (W W' : Weights F) : Prop where
  wte : ∀ v, v < c.vocabSize → ∀ i, i < c.channels → W.wte v i = W'.wte v i
  wpe : ∀ t, t < c.maxSeqLen → ∀ i, i < c.channels → W.wpe t i = W'.wpe t i
  layer : ∀ l, l < c.numLayers → (W.layer l).Agree c (W'.layer l)
  lnfw : ∀ i, i < c.channels → W.lnfw i = W'.lnfw i
  lnfb : ∀ i, i < c.channels → W.lnfb i = W'.lnfb i

/-- The weights of a layer agree with themselves. -/
theorem LayerWeights.Agree.refl (c : GPT2Config) (V : LayerWeights F) : V.Agree c V :=
  ⟨fun _ _ => rfl, fun _ _ => rfl, fun _ _ _ _ => rfl, fun _ _ => rfl, fun _ _ _ _ => rfl,
    fun _ _ => rfl, fun _ _ => rfl, fun _ _ => rfl, fun _ _ _ _ => rfl, fun _ _ => rfl,
    fun _ _ _ _ => rfl, fun _ _ => rfl⟩

/-- Weights agree with themselves. -/
theorem Weights.Agree.refl (c : GPT2Config) (W : Weights F) : W.Agree c W :=
  ⟨fun _ _ _ _ => rfl, fun _ _ _ _ => rfl, fun l _ => .refl c (W.layer l), fun _ _ => rfl,
    fun _ _ => rfl⟩

/-- **The tensors of the memory hold the weights**: as many of them as each tensor has. -/
def Loaded (c : GPT2Config) (m : Mem F) (W : Weights F) : Prop := (weightsOf c m).Agree c W

/-- Some weights are always there. -/
theorem loaded_weightsOf (c : GPT2Config) (m : Mem F) : Loaded c m (weightsOf c m) :=
  .refl c (weightsOf c m)

end Agree

/-- The rows up to `t` agree in their first `n` entries. -/
def Rows {F : Type} (n t : Nat) (x y : Nat → Nat → F) : Prop :=
  ∀ p, p ≤ t → ∀ i, i < n → x p i = y p i

/-! ## A layer -/

section Layer

variable {F : Type} (ops : FloatOps F) {c : GPT2Config} {V V' : LayerWeights F} {t : Nat}
  {x y : Nat → Nat → F}

namespace LayerWeights.Agree

/-- The first norm looks at its own row. -/
theorem ln1_rows (h : V.Agree c V') (hx : Rows c.channels t x y) :
    Rows c.channels t (V.ln1 ops c x) (V'.ln1 ops c y) :=
  fun p hp i hi => layernorm_congr ops (h.ln1w i hi) (h.ln1b i hi) (hx p hp) hi

/-- Queries, keys and values look at their own row. -/
theorem qkv_rows (h : V.Agree c V') (hx : Rows c.channels t x y) :
    Rows (3 * c.channels) t (V.qkv ops c x) (V'.qkv ops c y) :=
  fun p hp o ho => linear_congr ops (h.qkvw o ho) (h.qkvb o ho) (h.ln1_rows ops hx p hp)

/-- All queries, keys and values up to `p`. -/
theorem qkv_upto (h : V.Agree c V') (hx : Rows c.channels t x y) {p : Nat} (hp : p ≤ t) :
    ∀ q, q ≤ p → ∀ j, j < c.channels * 3 → V.qkv ops c x q j = V'.qkv ops c y q j :=
  fun q hq j hj => h.qkv_rows ops hx q (Nat.le_trans hq hp) j (by omega)

/-- The columns of a head. -/
theorem head_cols {hd : Nat} (hhd : hd < c.numHeads) :
    ∀ i, i < c.channels / c.numHeads → hd * (c.channels / c.numHeads) + i < c.channels :=
  fun i hi => head_lt hhd hi

/-- **Attention looks at the rows up to its own**, and at the columns of its head. -/
theorem atty_rows (hdvd : c.numHeads ∣ c.channels) (h : V.Agree c V')
    (hx : Rows c.channels t x y) : Rows c.channels t (V.atty ops c x) (V'.atty ops c y) := by
  intro p hp j hj
  have hwidth : c.channels = c.channels / c.numHeads * c.numHeads :=
    (Nat.div_mul_cancel hdvd).symm
  have hhead : j / (c.channels / c.numHeads) < c.numHeads :=
    Nat.div_lt_of_lt_mul (hwidth ▸ hj)
  exact attend_congr ops (h.qkv_upto ops hx hp) (head_cols hhead) hj

/-- The projection looks at its own row. -/
theorem attproj_rows (hdvd : c.numHeads ∣ c.channels) (h : V.Agree c V')
    (hx : Rows c.channels t x y) : Rows c.channels t (V.attproj ops c x) (V'.attproj ops c y) :=
  fun p hp o ho =>
    linear_congr ops (h.attprojw o ho) (h.attprojb o ho) (h.atty_rows ops hdvd hx p hp)

/-- The first residual adds what goes into the layer. -/
theorem residual2_rows (hdvd : c.numHeads ∣ c.channels) (h : V.Agree c V')
    (hx : Rows c.channels t x y) :
    Rows c.channels t (V.residual2 ops c x) (V'.residual2 ops c y) :=
  fun p hp i hi => congrArg₂ ops.add (hx p hp i hi) (h.attproj_rows ops hdvd hx p hp i hi)

theorem ln2_rows (hdvd : c.numHeads ∣ c.channels) (h : V.Agree c V')
    (hx : Rows c.channels t x y) : Rows c.channels t (V.ln2 ops c x) (V'.ln2 ops c y) :=
  fun p hp i hi =>
    layernorm_congr ops (h.ln2w i hi) (h.ln2b i hi) (h.residual2_rows ops hdvd hx p hp) hi

/-- The first half of the feed-forward step. -/
theorem fch_rows (hdvd : c.numHeads ∣ c.channels) (h : V.Agree c V')
    (hx : Rows c.channels t x y) : Rows (4 * c.channels) t (V.fch ops c x) (V'.fch ops c y) :=
  fun p hp o ho => linear_congr ops (h.fcw o ho) (h.fcb o ho) (h.ln2_rows ops hdvd hx p hp)

theorem fchGelu_rows (hdvd : c.numHeads ∣ c.channels) (h : V.Agree c V')
    (hx : Rows c.channels t x y) :
    Rows (4 * c.channels) t (V.fchGelu ops c x) (V'.fchGelu ops c y) :=
  fun p hp i hi => congrArg (gelu ops) (h.fch_rows ops hdvd hx p hp i hi)

/-- The second half of it. -/
theorem fcproj_rows (hdvd : c.numHeads ∣ c.channels) (h : V.Agree c V')
    (hx : Rows c.channels t x y) : Rows c.channels t (V.fcproj ops c x) (V'.fcproj ops c y) :=
  fun p hp o ho =>
    linear_congr ops (h.fcprojw o ho) (h.fcprojb o ho) (h.fchGelu_rows ops hdvd hx p hp)

/-- **Layers whose parameters agree** take rows that agree to rows that agree. -/
theorem residual3_rows (hdvd : c.numHeads ∣ c.channels) (h : V.Agree c V')
    (hx : Rows c.channels t x y) :
    Rows c.channels t (V.residual3 ops c x) (V'.residual3 ops c y) :=
  fun p hp i hi => congrArg₂ ops.add (h.residual2_rows ops hdvd hx p hp i hi)
    (h.fcproj_rows ops hdvd hx p hp i hi)

end LayerWeights.Agree
end Layer

/-! ## The network -/

section Network

variable {F : Type} (ops : FloatOps F) {c : GPT2Config} {W W' : Weights F} {tokens : Nat → Nat}
  {t : Nat}

namespace Weights.Agree

/-- **The embedding reads one row of each table**, at a token of the vocabulary and a position below
    `max_seq_len`. -/
theorem encoded_rows (h : W.Agree c W') (ht : t < c.maxSeqLen)
    (htokens : ∀ p, p ≤ t → tokens p < c.vocabSize) :
    Rows c.channels t (W.encoded ops tokens) (W'.encoded ops tokens) :=
  fun p hp i hi => congrArg₂ ops.add (h.wte _ (htokens p hp) i hi)
    (h.wpe p (Nat.lt_of_le_of_lt hp ht) i hi)

/-- What a layer is given, layer after layer. -/
theorem residual_rows (hdvd : c.numHeads ∣ c.channels) (h : W.Agree c W') (ht : t < c.maxSeqLen)
    (htokens : ∀ p, p ≤ t → tokens p < c.vocabSize) {l : Nat} (hl : l ≤ c.numLayers) :
    Rows c.channels t (W.residual ops c tokens l) (W'.residual ops c tokens l) := by
  induction l with
  | zero => exact h.encoded_rows ops ht htokens
  | succ l ih => exact (h.layer l hl).residual3_rows ops hdvd (ih (Nat.le_of_succ_le hl))

/-- The last norm looks at its own row. -/
theorem lnf_rows (hdvd : c.numHeads ∣ c.channels) (h : W.Agree c W') (ht : t < c.maxSeqLen)
    (htokens : ∀ p, p ≤ t → tokens p < c.vocabSize) :
    Rows c.channels t (W.lnf ops c tokens) (W'.lnf ops c tokens) :=
  fun p hp i hi => layernorm_congr ops (h.lnfw i hi) (h.lnfb i hi)
    (h.residual_rows ops hdvd ht htokens (Nat.le_refl _) p hp) hi

/-- **The head goes through the vocabulary.**. -/
theorem logits_rows (hdvd : c.numHeads ∣ c.channels) (h : W.Agree c W') (ht : t < c.maxSeqLen)
    (htokens : ∀ p, p ≤ t → tokens p < c.vocabSize) :
    Rows c.vocabSize t (W.logits ops c tokens) (W'.logits ops c tokens) :=
  fun p hp v hv => linear_congr ops (h.wte v hv) rfl (h.lnf_rows ops hdvd ht htokens p hp)

/-- **Networks whose weights agree** have the same distributions. -/
theorem probs_rows (hdvd : c.numHeads ∣ c.channels) (h : W.Agree c W') (ht : t < c.maxSeqLen)
    (htokens : ∀ p, p ≤ t → tokens p < c.vocabSize) :
    Rows c.vocabSize t (W.probs ops c tokens) (W'.probs ops c tokens) :=
  fun p hp v hv => softmax_congr ops (h.logits_rows ops hdvd ht htokens p hp) hv

end Weights.Agree
end Network

end Gpt
