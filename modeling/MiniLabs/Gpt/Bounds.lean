/-
  gpt — every access stays in its tensor.

  1. **Pointers with a tensor** — a `Cell` is a `float *` that remembers the tensor it was made
     from.  The forward pass over such pointers is the one of `gpt2_forward`; where it goes,
     `Cell.place` says for the memory.
  2. **Specification** — `Covers S p n`: the `n` cells from `p` are in `S`.  A call whose arguments
     are covered stays in `S` (`Stays`).
  3. **The crux (`forwardPass_stays`)** — all pointers of the pass are covered by the cells inside
     of their tensors: a layer starts at its own multiple of the layer's length (`covers_layer`),
     and the embeddings are read at tokens and positions below the bounds of their tables.
-/
import MiniLabs.Gpt.Footprint

set_option linter.unusedVariables false

namespace Gpt

open Access Access.Prog

/-! ## The calls -/

section Calls

variable {F P : Type} [HAdd P Nat P] [Ptr P] (ops : FloatOps F) {S : P → Prop}

/-- The cells `p` to `p + (n - 1)` are in `S`. -/
def Covers (S : P → Prop) (p : P) (n : Nat) : Prop := ∀ x, Span p n x → S x

omit [Ptr P] in
/-- A cell of what is covered. -/
theorem Covers.cell {p : P} {n i : Nat} (h : Covers S p n) (hi : i < n) : S (p + i) :=
  h _ (span_cell hi)

/-- A row of what is covered. -/
theorem Covers.row {p : P} {r rows w : Nat} (h : Covers S p (rows * w)) (hr : r < rows) :
    Covers S (p + r * w) w := fun x hx => h x (span_row hr hx)

/-- Every index of the call stays in `S`. -/
def Stays (S : P → Prop) (c : RangeCall F P) : Prop :=
  ∀ i, i < c.total → (c.body i).Within S S

/-- The embeddings are read at tokens of the vocabulary and positions below `maxT`. -/
theorem encoderForward_stays {out wte wpe : P} {inp : Nat → Nat} {B T C V maxT : Nat}
    (hout : Covers S out (B * T * C)) (hwte : Covers S wte (V * C))
    (hwpe : Covers S wpe (maxT * C)) (hmax : T ≤ maxT) (hinp : ∀ i, i < B * T → inp i < V) :
    Stays S (encoderForward ops out inp wte wpe B T C) := by
  intro i hi
  have hT : 0 < T := Nat.pos_of_ne_zero fun h => by
    rw [h] at hi
    exact Nat.not_lt_zero i hi
  refine (encoder_within ops _ i).mono ?_ fun x hx => hout.row hi x hx
  rintro x (hx | hx)
  · exact hwte.row (hinp i hi) x hx
  · exact hwpe.row (Nat.lt_of_lt_of_le (Nat.mod_lt i hT) hmax) x hx

/-- A row of the input, its mean and its deviation, and the two vectors of the layer. -/
theorem layernormForward_stays {out mean rstd inp weight bias : P} {B T C : Nat}
    (hout : Covers S out (B * T * C)) (hmean : Covers S mean (B * T))
    (hrstd : Covers S rstd (B * T)) (hinp : Covers S inp (B * T * C))
    (hweight : Covers S weight C) (hbias : Covers S bias C) :
    Stays S (layernormForward ops out mean rstd inp weight bias B T C) := by
  intro i hi
  refine (layernorm_within ops _ i).mono ?_ ?_
  · rintro x (hx | hx | hx)
    · exact hinp.row hi x hx
    · exact hweight x hx
    · exact hbias x hx
  · rintro x (hx | rfl | rfl)
    · exact hout.row hi x hx
    · exact hmean.cell hi
    · exact hrstd.cell hi

/-- A row of the input and a row of the weights for every cell; the bias if there is one. -/
theorem matmulForward_stays {out inp weight : P} {bias : Option P} {B T C OC : Nat}
    (hout : Covers S out (B * T * OC)) (hinp : Covers S inp (B * T * C))
    (hweight : Covers S weight (OC * C)) (hbias : ∀ b, bias = some b → Covers S b OC) :
    Stays S (matmulForward ops out inp weight bias B T C OC) := by
  intro i hi
  have hOC : 0 < OC := Nat.pos_of_ne_zero fun h => by
    rw [h] at hi
    exact Nat.not_lt_zero i hi
  refine (matmul_within ops ⟨out, inp, weight, bias, T, C, OC⟩ i hOC).mono ?_ ?_
  · rintro x (⟨b, hb, hx⟩ | hx | hx)
    · exact hbias b hb x hx
    · exact hinp.row (Nat.div_lt_of_lt_mul (Nat.mul_comm OC _ ▸ hi)) x hx
    · exact hweight.row (Nat.mod_lt i hOC) x hx
  · rintro x rfl
    exact hout.cell hi

/-- Of the queries, keys and values only positions up to the own one are read. -/
theorem attentionForward_stays {out preatt att inp : P} {B T C NH : Nat} (hT : 0 < T)
    (hNH : 0 < NH) (hout : Covers S out (B * T * C)) (hpreatt : Covers S preatt (B * NH * T * T))
    (hatt : Covers S att (B * NH * T * T)) (hinp : Covers S inp (B * T * (3 * C))) :
    Stays S (attentionForward ops out preatt att inp B T C NH) := by
  intro i hi
  have hwrites : ∀ x, attWrites ⟨out, preatt, att, inp, T, C, NH⟩ i x → S x := by
    rintro x (hx | hx | hx)
    · exact hpreatt.row (attRow_lt hT hNH hi) x hx
    · exact hatt.row (attRow_lt hT hNH hi) x hx
    · exact hout x (attOut_span hT hNH hi hx)
  refine (attention_within ops _ hT hNH i).mono ?_ hwrites
  rintro x (hx | hx)
  · exact hinp x (attReads_span hT hNH hi hx)
  · exact hwrites x hx

omit [Ptr P] in
theorem geluForward_stays {out inp : P} {N : Nat} (hout : Covers S out N)
    (hinp : Covers S inp N) : Stays S (geluForward ops out inp N) := by
  intro i hi
  refine (gelu_within ops _ i).mono ?_ ?_
  · rintro x rfl
    exact hinp.cell hi
  · rintro x rfl
    exact hout.cell hi

omit [Ptr P] in
theorem residualForward_stays {out inp1 inp2 : P} {N : Nat} (hout : Covers S out N)
    (hinp1 : Covers S inp1 N) (hinp2 : Covers S inp2 N) :
    Stays S (residualForward ops out inp1 inp2 N) := by
  intro i hi
  refine (residual_within ops _ i).mono ?_ ?_
  · rintro x (rfl | rfl)
    · exact hinp1.cell hi
    · exact hinp2.cell hi
  · rintro x rfl
    exact hout.cell hi

theorem softmaxForward_stays {probs logits : P} {B T V : Nat} (hprobs : Covers S probs (B * T * V))
    (hlogits : Covers S logits (B * T * V)) :
    Stays S (softmaxForward ops probs logits B T V) := by
  intro i hi
  refine (softmax_within ops _ i).mono ?_ fun x hx => hprobs.row hi x hx
  rintro x (hx | hx)
  · exact hlogits.row hi x hx
  · exact hprobs.row hi x hx

end Calls

/-! ## Pointers that remember their tensor -/

/-- A tensor of the model. -/
inductive Tensor
  | par (t : ParameterTensor)
  | act (t : ActivationTensor)
  deriving DecidableEq, Repr

/-- Its size, as `param_sizes` or `act_sizes` has it. -/
def Tensor.size (c : GPT2Config) (B T : Nat) : Tensor → Nat
  | .par t => paramSizes c t
  | .act t => actSizes c B T t

/-- A `float *` that remembers its tensor: the tensor, and how far it points into it. -/
structure Cell where
  tensor : Tensor
  index : Nat
  deriving DecidableEq, Repr

namespace Cell

instance : HAdd Cell Nat Cell := ⟨fun p i => ⟨p.tensor, p.index + i⟩⟩

@[simp] theorem tensor_add (p : Cell) (i : Nat) : (p + i).tensor = p.tensor := rfl
@[simp] theorem index_add (p : Cell) (i : Nat) : (p + i).index = p.index + i := rfl

instance : Ptr Cell where
  add_assoc p i j := congrArg (Cell.mk p.tensor) (Nat.add_assoc p.index i j)
  add_zero p := rfl

/-- `model->params`. -/
def params (t : ParameterTensor) : Cell := ⟨.par t, 0⟩

/-- `model->acts`. -/
def acts (t : ActivationTensor) : Cell := ⟨.act t, 0⟩

/-- The cell lies inside of its tensor. -/
def Inside (c : GPT2Config) (B T : Nat) (x : Cell) : Prop := x.index < x.tensor.size c B T

instance (c : GPT2Config) (B T : Nat) : DecidablePred (Inside c B T) :=
  fun x => inferInstanceAs (Decidable (x.index < x.tensor.size c B T))

/-- Where the cell lies in memory. -/
def place (c : GPT2Config) (B T : Nat) (x : Cell) : Loc :=
  match x.tensor with
  | .par t => pointParameters c t + x.index
  | .act t => pointActivations c B T t + x.index

end Cell

/-! ## The forward pass -/

section Pass

variable {F : Type} (ops : FloatOps F) (c : GPT2Config) {B T : Nat}

/-- A part of a parameter tensor. -/
theorem covers_par {t : ParameterTensor} {k n : Nat} (h : k + n ≤ paramSizes c t) :
    Covers (Cell.Inside c B T) (Cell.params t + k) n := by
  rintro x ⟨i, hi, rfl⟩
  show 0 + k + i < paramSizes c t
  omega

/-- A whole parameter tensor. -/
theorem covers_params (t : ParameterTensor) :
    Covers (Cell.Inside c B T) (Cell.params t) (paramSizes c t) := by
  rintro x ⟨i, hi, rfl⟩
  show 0 + i < paramSizes c t
  omega

/-- A layer of an activation tensor. -/
theorem covers_slot {t : ActivationTensor} {l : Nat} (hl : l < layersOf c t) :
    Covers (Cell.Inside c B T) (slotPtr c B T Cell.acts t l) (perLayer c B T t) := by
  have hwhole : Covers (Cell.Inside c B T) (Cell.acts t) (layersOf c t * perLayer c B T t) := by
    rintro x ⟨i, hi, rfl⟩
    rw [← actSizes_eq] at hi
    show 0 + i < actSizes c B T t
    omega
  exact hwhole.row hl

/-- Layer `l` of a tensor with `n` cells a layer. -/
theorem layer_le {l L n : Nat} (hl : l < L) : l * n + n ≤ L * n :=
  calc l * n + n = (l + 1) * n := (Nat.succ_mul l n).symm
    _ ≤ L * n := Nat.mul_le_mul_right n hl

/-- The residual a layer starts from is that of a layer that there is. -/
theorem residualSlot_lt {l : Nat} (hl : l ≤ c.numLayers) :
    (residualSlot l).2 < layersOf c (residualSlot l).1 := by
  rw [residualSlot]
  split
  · exact Nat.one_pos
  · show l - 1 < c.numLayers
    omega

/-- A parameter of layer `l`, however its size is written. -/
theorem covers_layer {t : ParameterTensor} {l k n w : Nat} (hl : l < c.numLayers)
    (hk : k = l * w) (hn : n = w) (hsize : paramSizes c t = c.numLayers * w) :
    Covers (Cell.Inside c B T) (Cell.params t + k) n := by
  apply covers_par c
  rw [hk, hn, hsize]
  exact layer_le hl

/-- **A layer stays inside of its tensors.**. -/
theorem layerPass_stays (hT : 0 < T) (hNH : 0 < c.numHeads) {l : Nat} (hl : l < c.numLayers) :
    ∀ call ∈ layerPass ops c Cell.params Cell.acts B T l, Stays (Cell.Inside c B T) call := by
  have hslot : ∀ t, l < layersOf c t → Covers (Cell.Inside c B T)
      (slotPtr c B T Cell.acts t l) (perLayer c B T t) := fun t => covers_slot c
  have hres : Covers (Cell.Inside c B T) (slotPtr c B T Cell.acts (residualSlot l).1
      (residualSlot l).2) (B * T * c.channels) := by
    rw [← residual_len c B T l]
    exact covers_slot c (residualSlot_lt c (Nat.le_of_lt hl))
  rw [layerPass_eq]
  simp only [List.forall_mem_cons]
  refine ⟨?ln1, ?qkv, ?attention, ?attproj, ?residual2, ?ln2, ?fch, ?gelu, ?fcproj, ?residual3, ?_⟩
  case ln1 =>
    refine layernormForward_stays ops (hslot .ln1 hl) (hslot .ln1Mean hl) (hslot .ln1Rstd hl) hres
      ?_ ?_
    · exact covers_layer c hl rfl rfl rfl
    · exact covers_layer c hl rfl rfl rfl
  case qkv =>
    refine matmulForward_stays ops (hslot .qkv hl) (hslot .ln1 hl) ?_ ?_
    · refine covers_layer c hl (w := 3 * c.channels * c.channels) ?_ rfl ?_ <;>
        simp only [paramSizes, Nat.mul_assoc]
    · rintro b ⟨⟩
      exact covers_layer c hl (Nat.mul_assoc l 3 c.channels) rfl rfl
  case attention =>
    exact attentionForward_stays ops hT hNH (hslot .atty hl) (hslot .preatt hl) (hslot .att hl)
      (hslot .qkv hl)
  case attproj =>
    refine matmulForward_stays ops (hslot .attproj hl) (hslot .atty hl) ?_ ?_
    · refine covers_layer c hl (w := c.channels * c.channels) ?_ rfl ?_ <;>
        simp only [paramSizes, Nat.mul_assoc]
    · rintro b ⟨⟩
      exact covers_layer c hl rfl rfl rfl
  case residual2 =>
    exact residualForward_stays ops (hslot .residual2 hl) hres (hslot .attproj hl)
  case ln2 =>
    refine layernormForward_stays ops (hslot .ln2 hl) (hslot .ln2Mean hl) (hslot .ln2Rstd hl)
      (hslot .residual2 hl) ?_ ?_
    · exact covers_layer c hl rfl rfl rfl
    · exact covers_layer c hl rfl rfl rfl
  case fch =>
    refine matmulForward_stays ops (hslot .fch hl) (hslot .ln2 hl) ?_ ?_
    · refine covers_layer c hl (w := 4 * c.channels * c.channels) ?_ rfl ?_ <;>
        simp only [paramSizes, Nat.mul_assoc]
    · rintro b ⟨⟩
      exact covers_layer c hl (Nat.mul_assoc l 4 c.channels) rfl rfl
  case gelu =>
    rw [Nat.mul_assoc (B * T)]
    exact geluForward_stays ops (hslot .fchGelu hl) (hslot .fch hl)
  case fcproj =>
    refine matmulForward_stays ops (hslot .fcproj hl) (hslot .fchGelu hl) ?_ ?_
    · refine covers_layer c hl (w := c.channels * (4 * c.channels)) ?_ rfl ?_ <;>
        simp only [paramSizes, Nat.mul_assoc]
    · rintro b ⟨⟩
      exact covers_layer c hl rfl rfl rfl
  case residual3 =>
    exact residualForward_stays ops (hslot .residual3 hl) (hslot .residual2 hl) (hslot .fcproj hl)
  intro call hcall
  exact absurd hcall List.not_mem_nil

/-- **The head stays inside of its tensors.**. -/
theorem headPass_stays (hL : 0 < c.numLayers) :
    ∀ call ∈ headPass ops c Cell.params Cell.acts B T, Stays (Cell.Inside c B T) call := by
  have hslot : ∀ t, layersOf c t = 1 → Covers (Cell.Inside c B T)
      (slotPtr c B T Cell.acts t 0) (perLayer c B T t) :=
    fun t ht => covers_slot c (ht ▸ Nat.one_pos)
  rw [headPass_eq]
  simp only [List.forall_mem_cons]
  refine ⟨?lnf, ?logits, ?probs, ?_⟩
  case lnf =>
    refine layernormForward_stays ops (hslot .lnf rfl) (hslot .lnfMean rfl) (hslot .lnfRstd rfl)
      ?_ (covers_params c .lnfw) (covers_params c .lnfb)
    exact covers_slot c (t := .residual3) (Nat.sub_lt hL Nat.one_pos)
  case logits =>
    apply matmulForward_stays ops (hslot .logits rfl) (hslot .lnf rfl) (covers_params c .wte)
    rintro b ⟨⟩
  case probs =>
    exact softmaxForward_stays ops (hslot .probs rfl) (hslot .logits rfl)
  intro call hcall
  exact absurd hcall List.not_mem_nil

/-- **No call of the forward pass leaves a tensor.** -/
theorem forwardPass_stays (hT : 0 < T) (hmax : T ≤ c.maxSeqLen) (hNH : 0 < c.numHeads)
    (hL : 0 < c.numLayers) {inputs : Nat → Nat} (hin : ∀ i, i < B * T → inputs i < c.vocabSize) :
    ∀ call ∈ forwardPass ops c Cell.params Cell.acts inputs B T,
      Stays (Cell.Inside c B T) call := by
  intro call hcall
  rcases List.mem_cons.mp hcall with rfl | hcall
  · refine encoderForward_stays ops ?_ (covers_params c .wte) (covers_params c .wpe) hmax hin
    rw [← slotPtr_zero c B T Cell.acts]
    exact covers_slot c (t := .encoded) Nat.one_pos
  rcases List.mem_append.mp hcall with hcall | hcall
  · obtain ⟨l, hl, hcall⟩ := List.mem_flatMap.mp hcall
    exact layerPass_stays ops c hT hNH (List.mem_range.mp hl) call hcall
  · exact headPass_stays ops c hL call hcall

end Pass
end Gpt
