/-
  gpt — the tensors of the model and `gpt2_forward`.

  1. **Tensors** — `malloc_and_point_parameters` and `malloc_and_point_activations` lay the tensors
     one behind the other in one array; `point` is their loop over `ptrs`.  The fields of
     `ParameterTensors` and `ActivationTensors` are enumerations, so that `params .wte` is the
     pointer `params.wte`.
  2. **Program** — `forwardPass` is the list of the `parallel_for` calls the function makes, in
     order, for any pointers to the tensors; `gpt2Forward` is that list in the memory the loops have
     laid out.
  3. **What is idealised** — the two allocations succeed; the sizes are exact, and `Gpt.IntRange`
     says when the source's are.  The slot of the losses is laid out and never written.
-/
import MiniLabs.Gpt.Kernels

set_option linter.unusedVariables false

namespace Gpt

/-! ## The tensors -/

/-- `GPT2Config`. -/
structure GPT2Config where
  maxSeqLen : Nat
  vocabSize : Nat
  numLayers : Nat
  numHeads : Nat
  channels : Nat
  deriving DecidableEq, Repr

/-- A **model with positive dimensions**: the channels are a multiple of the heads. -/
structure Model extends GPT2Config where
  maxSeqLen_pos : 0 < maxSeqLen
  vocabSize_pos : 0 < vocabSize
  numLayers_pos : 0 < numLayers
  numHeads_pos : 0 < numHeads
  channels_pos : 0 < channels
  heads_dvd : numHeads ∣ channels

/-- The fields of `ParameterTensors`. -/
inductive ParameterTensor
  | wte | wpe | ln1w | ln1b | qkvw | qkvb | attprojw | attprojb
  | ln2w | ln2b | fcw | fcb | fcprojw | fcprojb | lnfw | lnfb
  deriving DecidableEq, Repr

/-- The fields of `ActivationTensors`. -/
inductive ActivationTensor
  | encoded | ln1 | ln1Mean | ln1Rstd | qkv | atty | preatt | att | attproj | residual2
  | ln2 | ln2Mean | ln2Rstd | fch | fchGelu | fcproj | residual3
  | lnf | lnfMean | lnfRstd | logits | probs | losses
  deriving DecidableEq, Repr

/-- `ptrs` of `malloc_and_point_parameters`. -/
def ParameterTensor.ptrs : List ParameterTensor :=
  [.wte, .wpe, .ln1w, .ln1b, .qkvw, .qkvb, .attprojw, .attprojb,
   .ln2w, .ln2b, .fcw, .fcb, .fcprojw, .fcprojb, .lnfw, .lnfb]

/-- `ptrs` of `malloc_and_point_activations`. -/
def ActivationTensor.ptrs : List ActivationTensor :=
  [.encoded, .ln1, .ln1Mean, .ln1Rstd, .qkv, .atty, .preatt, .att, .attproj, .residual2,
   .ln2, .ln2Mean, .ln2Rstd, .fch, .fchGelu, .fcproj, .residual3,
   .lnf, .lnfMean, .lnfRstd, .logits, .probs, .losses]

/-- The loop over `ptrs`: a tensor gets the iterator, which then moves on by its size. -/
def point {κ : Type} [DecidableEq κ] (sizes : κ → Nat) : List κ → Nat → κ → Nat
  | [], it, _ => it
  | k :: ks, it, t => if t = k then it else point sizes ks (it + sizes k) t

section Sizes

variable (c : GPT2Config)

/-- `param_sizes`, from the configuration. -/
def paramSizes : ParameterTensor → Nat :=
  let maxT := c.maxSeqLen
  let V := c.vocabSize
  let L := c.numLayers
  let C := c.channels
  fun
  | .wte => V * C
  | .wpe => maxT * C
  | .ln1w => L * C
  | .ln1b => L * C
  | .qkvw => L * (3 * C) * C
  | .qkvb => L * (3 * C)
  | .attprojw => L * C * C
  | .attprojb => L * C
  | .ln2w => L * C
  | .ln2b => L * C
  | .fcw => L * (4 * C) * C
  | .fcb => L * (4 * C)
  | .fcprojw => L * C * (4 * C)
  | .fcprojb => L * C
  | .lnfw => C
  | .lnfb => C

/-- `act_sizes`, from the configuration and the shape of the batch. -/
def actSizes (B T : Nat) : ActivationTensor → Nat :=
  let V := c.vocabSize
  let L := c.numLayers
  let NH := c.numHeads
  let C := c.channels
  fun
  | .encoded => B * T * C
  | .ln1 => L * B * T * C
  | .ln1Mean => L * B * T
  | .ln1Rstd => L * B * T
  | .qkv => L * B * T * 3 * C
  | .atty => L * B * T * C
  | .preatt => L * B * NH * T * T
  | .att => L * B * NH * T * T
  | .attproj => L * B * T * C
  | .residual2 => L * B * T * C
  | .ln2 => L * B * T * C
  | .ln2Mean => L * B * T
  | .ln2Rstd => L * B * T
  | .fch => L * B * T * 4 * C
  | .fchGelu => L * B * T * 4 * C
  | .fcproj => L * B * T * C
  | .residual3 => L * B * T * C
  | .lnf => B * T * C
  | .lnfMean => B * T
  | .lnfRstd => B * T
  | .logits => B * T * V
  | .probs => B * T * V
  | .losses => B * T

/-- `malloc_and_point_parameters`. -/
def pointParameters (t : ParameterTensor) : Loc :=
  .par (point (paramSizes c) ParameterTensor.ptrs 0 t)

/-- `malloc_and_point_activations`. -/
def pointActivations (B T : Nat) (t : ActivationTensor) : Loc :=
  .act (point (actSizes c B T) ActivationTensor.ptrs 0 t)

end Sizes

/-! ## `gpt2_forward` -/

section Pass

variable {F P : Type} [HAdd P Nat P] (ops : FloatOps F) (c : GPT2Config)
  (params : ParameterTensor → P) (acts : ActivationTensor → P) (inputs : Nat → Nat) (B T : Nat)

/-- `residual` in layer `l`: the embedding in the first layer, and what the layer before has put out
    in the others. -/
def residualIn (l : Nat) : P :=
  if l = 0 then acts .encoded else acts .residual3 + (l - 1) * B * T * c.channels

/-- The calls of layer `l`: norm, queries with keys and values, attention, projection, residual;
    norm, two feed-forward steps with `gelu` between them, residual. -/
def layerPass (l : Nat) : List (RangeCall F P) :=
  let NH := c.numHeads
  let C := c.channels
  let residual := residualIn c acts B T l
  let lLn1w := params .ln1w + l * C
  let lLn1b := params .ln1b + l * C
  let lQkvw := params .qkvw + l * 3 * C * C
  let lQkvb := params .qkvb + l * 3 * C
  let lAttprojw := params .attprojw + l * C * C
  let lAttprojb := params .attprojb + l * C
  let lLn2w := params .ln2w + l * C
  let lLn2b := params .ln2b + l * C
  let lFcw := params .fcw + l * 4 * C * C
  let lFcb := params .fcb + l * 4 * C
  let lFcprojw := params .fcprojw + l * C * 4 * C
  let lFcprojb := params .fcprojb + l * C
  let lLn1 := acts .ln1 + l * B * T * C
  let lLn1Mean := acts .ln1Mean + l * B * T
  let lLn1Rstd := acts .ln1Rstd + l * B * T
  let lQkv := acts .qkv + l * B * T * 3 * C
  let lAtty := acts .atty + l * B * T * C
  let lPreatt := acts .preatt + l * B * NH * T * T
  let lAtt := acts .att + l * B * NH * T * T
  let lAttproj := acts .attproj + l * B * T * C
  let lResidual2 := acts .residual2 + l * B * T * C
  let lLn2 := acts .ln2 + l * B * T * C
  let lLn2Mean := acts .ln2Mean + l * B * T
  let lLn2Rstd := acts .ln2Rstd + l * B * T
  let lFch := acts .fch + l * B * T * 4 * C
  let lFchGelu := acts .fchGelu + l * B * T * 4 * C
  let lFcproj := acts .fcproj + l * B * T * C
  let lResidual3 := acts .residual3 + l * B * T * C
  [layernormForward ops lLn1 lLn1Mean lLn1Rstd residual lLn1w lLn1b B T C,
   matmulForward ops lQkv lLn1 lQkvw (some lQkvb) B T C (3 * C),
   attentionForward ops lAtty lPreatt lAtt lQkv B T C NH,
   matmulForward ops lAttproj lAtty lAttprojw (some lAttprojb) B T C C,
   residualForward ops lResidual2 residual lAttproj (B * T * C),
   layernormForward ops lLn2 lLn2Mean lLn2Rstd lResidual2 lLn2w lLn2b B T C,
   matmulForward ops lFch lLn2 lFcw (some lFcb) B T C (4 * C),
   geluForward ops lFchGelu lFch (B * T * 4 * C),
   matmulForward ops lFcproj lFchGelu lFcprojw (some lFcprojb) B T (4 * C) C,
   residualForward ops lResidual3 lResidual2 lFcproj (B * T * C)]

/-- The calls behind the loop: the last norm, the logits against the embeddings of the tokens, and
    their `softmax`. -/
def headPass : List (RangeCall F P) :=
  let V := c.vocabSize
  let L := c.numLayers
  let C := c.channels
  let residual := acts .residual3 + (L - 1) * B * T * C
  [layernormForward ops (acts .lnf) (acts .lnfMean) (acts .lnfRstd) residual
     (params .lnfw) (params .lnfb) B T C,
   matmulForward ops (acts .logits) (acts .lnf) (params .wte) none B T C V,
   softmaxForward ops (acts .probs) (acts .logits) B T V]

/-- The forward pass, over the pointers of `model->params` and `model->acts`. -/
def forwardPass : List (RangeCall F P) :=
  encoderForward ops (acts .encoded) inputs (params .wte) (params .wpe) B T c.channels ::
    ((List.range c.numLayers).flatMap (layerPass ops c params acts B T) ++
      headPass ops c params acts B T)

end Pass

section Forward

variable {F : Type} (ops : FloatOps F) (c : GPT2Config) (inputs : Nat → Nat) (B T : Nat)

/-- The calls of layer `l`, in memory. -/
def layerForward (l : Nat) : List (RangeCall F) :=
  layerPass ops c (pointParameters c) (pointActivations c B T) B T l

/-- The calls behind the loop, in memory. -/
def headForward : List (RangeCall F) :=
  headPass ops c (pointParameters c) (pointActivations c B T) B T

/-- `gpt2_forward`, with the pointers that `malloc_and_point_parameters` and
    `malloc_and_point_activations` set. -/
def gpt2Forward : List (RangeCall F) :=
  forwardPass ops c (pointParameters c) (pointActivations c B T) inputs B T

end Forward
end Gpt
