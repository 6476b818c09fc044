/-
  gpt — the `int`s of a forward pass, and whether they are in range.

  1. **Program** — the kernels and the passes compute with exact numbers; the source computes with
     `int`.  `IntsFit` goes through the source once more and says of every `int` that is computed
     there that it is at most `INT_MAX`: the products for `param_sizes` and `act_sizes`, the
     offsets and arguments of every layer, `total + n`, the span and the slices of every
     `parallel_for`, and the products in every index of every kernel.

  2. **What happens otherwise** — a signed overflow is undefined, so the whole pass is.
     `RunForward` is `gpt2_forward` with both: a memory it can leave if the `int`s fit, and no
     memory if they do not.

  3. **The crux (`intsFit_iff`)** — all of them are bounded by a few: four sizes, the attention
     matrices, and the two widest ranges with the number of slices added (`total + n` is computed
     before 1 is taken off).  So `IntRange` is the same condition in closed form.

  Nothing here is negative: all dimensions, positions and tokens are natural numbers.  The number
  of all activations is a `size_t`; the conversions to `int` of the two totals are read by nothing
  in a forward pass.
-/
import MiniLabs.Gpt.Forward
import Mathlib.Tactic.GCongr
import Mathlib.Algebra.Order.Ring.Int

set_option linter.unusedVariables false

namespace Gpt

/-- `INT_MAX`. -/
def intMax : Nat := 2147483647

/-- The values fit an `int`. -/
def Fit (xs : List Nat) : Prop := ∀ x ∈ xs, x ≤ intMax

instance (xs : List Nat) : Decidable (Fit xs) := inferInstanceAs (Decidable (∀ x ∈ xs, x ≤ intMax))

@[simp] theorem fit_nil : Fit [] := fun x hx => absurd hx List.not_mem_nil

@[simp] theorem fit_cons {x : Nat} {xs : List Nat} : Fit (x :: xs) ↔ x ≤ intMax ∧ Fit xs :=
  List.forall_mem_cons

@[simp] theorem fit_append {xs ys : List Nat} : Fit (xs ++ ys) ↔ Fit xs ∧ Fit ys :=
  List.forall_mem_append

/-! ## The kernels, at one index -/

/-- `encoder_range`, at one row. -/
def encoderInts (inp : Nat → Nat) (T C row : Nat) : List Nat :=
  let b := row / T
  let t := row % T
  let ix := inp (b * T + t)
  [b * T, b * T * C, t * C, b * T + t, ix, ix * C]

/-- `layernorm_range`, at one row. -/
def layernormInts (T C row : Nat) : List Nat :=
  let b := row / T
  let t := row % T
  [b * T, b * T * C, t * C, b * T + t]

/-- `matmul_range`, at one index. -/
def matmulInts (C OC idx : Nat) : List Nat :=
  let row := idx / OC
  let o := idx % OC
  [row * OC, row * C, o * C]

/-- `attention_range`, at one unit. -/
def attentionInts (T C NH unit : Nat) : List Nat :=
  let C3 := C * 3
  let hs := C / NH
  let b := unit / (T * NH)
  let rem := unit % (T * NH)
  let t := rem / NH
  let h := rem % NH
  [C3, T * NH, b * T, b * T * C3, t * C3, h * hs, b * NH, b * NH * T, b * NH * T * T, h * T,
    h * T * T, t * T, b * T * C, t * C, C * 2] ++ (List.range (t + 1)).map (· * C3)

/-- `softmax_range`, at one row. -/
def softmaxInts (T V row : Nat) : List Nat :=
  let b := row / T
  let t := row % T
  [b * T, b * T * V, t * V]

/-! ## The calls -/

/-- The `int`s of a call: those on the way to its bound, the bound, and those of each index. -/
structure CallInts where
  bound : List Nat
  total : Nat
  body : Nat → List Nat

/-- `parallel_for(0, total, fn, arg)`. -/
def sliceInts (w total : Nat) : List Nat :=
  let n := sliceCount w total
  let span := (total + n - 1) / n
  [total, total + n, total + n - 1] ++
    (List.range n).flatMap fun i => [i * span, 0 + i * span, 0 + i * span + span]

/-- The `int`s of a call fit. -/
structure CallInts.Fits (w : Nat) (call : CallInts) : Prop where
  bound : Fit call.bound
  slices : Fit (sliceInts w call.total)
  body : ∀ i, i < call.total → Fit (call.body i)

/-- `encoder_forward`. -/
def encoderForwardInts (inp : Nat → Nat) (B T C : Nat) : CallInts :=
  ⟨[B * T], B * T, encoderInts inp T C⟩

/-- `layernorm_forward`. -/
def layernormForwardInts (B T C : Nat) : CallInts := ⟨[B * T], B * T, layernormInts T C⟩

/-- `matmul_forward`. -/
def matmulForwardInts (B T C OC : Nat) : CallInts :=
  ⟨[B * T, B * T * OC], B * T * OC, matmulInts C OC⟩

/-- `attention_forward`. -/
def attentionForwardInts (B T C NH : Nat) : CallInts :=
  ⟨[B * T, B * T * NH], B * T * NH, attentionInts T C NH⟩

/-- `gelu_forward` and `residual_forward`. -/
def cellsForwardInts (N : Nat) : CallInts := ⟨[N], N, fun _ => []⟩

/-- `softmax_forward`. -/
def softmaxForwardInts (B T V : Nat) : CallInts := ⟨[B * T], B * T, softmaxInts T V⟩

/-! ## `gpt2_build_from_checkpoint` and `gpt2_forward` -/

section Pass

variable (c : GPT2Config) (inputs : Nat → Nat) (B T : Nat)

/-- The products for `param_sizes`. -/
def paramInts : List Nat :=
  let maxT := c.maxSeqLen
  let V := c.vocabSize
  let L := c.numLayers
  let C := c.channels
  [V * C, maxT * C, L * C, 3 * C, L * (3 * C), L * (3 * C) * C, L * C * C, 4 * C, L * (4 * C),
    L * (4 * C) * C, L * C * (4 * C), C]

/-- The products for `act_sizes`. -/
def actInts : List Nat :=
  let V := c.vocabSize
  let L := c.numLayers
  let NH := c.numHeads
  let C := c.channels
  [B * T, B * T * C, L * B, L * B * T, L * B * T * C, L * B * T * 3, L * B * T * 3 * C,
    L * B * NH, L * B * NH * T, L * B * NH * T * T, L * B * T * 4, L * B * T * 4 * C, B * T * V]

/-- The offsets and the arguments in layer `l`. -/
def layerInts (l : Nat) : List Nat :=
  let NH := c.numHeads
  let C := c.channels
  [(l - 1) * B, (l - 1) * B * T, (l - 1) * B * T * C,
    l * C, l * 3, l * 3 * C, l * 3 * C * C, l * C * C, l * 4, l * 4 * C, l * 4 * C * C,
    l * C * 4, l * C * 4 * C,
    l * B, l * B * T, l * B * T * C, l * B * T * 3, l * B * T * 3 * C,
    l * B * NH, l * B * NH * T, l * B * NH * T * T, l * B * T * 4, l * B * T * 4 * C,
    3 * C, B * T, B * T * C, 4 * C, B * T * 4, B * T * 4 * C]

/-- The calls of a layer. -/
def layerCallInts : List CallInts :=
  let NH := c.numHeads
  let C := c.channels
  [layernormForwardInts B T C, matmulForwardInts B T C (3 * C), attentionForwardInts B T C NH,
    matmulForwardInts B T C C, cellsForwardInts (B * T * C), layernormForwardInts B T C,
    matmulForwardInts B T C (4 * C), cellsForwardInts (B * T * 4 * C),
    matmulForwardInts B T (4 * C) C, cellsForwardInts (B * T * C)]

/-- The offset behind the loop. -/
def headInts : List Nat :=
  let L := c.numLayers
  [(L - 1) * B, (L - 1) * B * T, (L - 1) * B * T * c.channels]

/-- The calls behind the loop. -/
def headCallInts : List CallInts :=
  [layernormForwardInts B T c.channels, matmulForwardInts B T c.channels c.vocabSize,
    softmaxForwardInts B T c.vocabSize]

/-- **The `int`s of a forward pass fit**, with `w` workers. -/
structure IntsFit (w : Nat) : Prop where
  params : Fit (paramInts c)
  acts : Fit (actInts c B T)
  encoder : (encoderForwardInts inputs B T c.channels).Fits w
  layer : ∀ l, l < c.numLayers → Fit (layerInts c B T l)
  layerCalls : ∀ call ∈ layerCallInts c B T, call.Fits w
  head : Fit (headInts c B T)
  headCalls : ∀ call ∈ headCallInts c B T, call.Fits w

/-- **`gpt2_forward`**: a memory that it can leave, or none where an `int` overflows. -/
inductive RunForward {F : Type} (ops : FloatOps F) (w : Nat) (m : Mem F) : Option (Mem F) → Prop
  | run {m' : Mem F} (hints : IntsFit c inputs B T w)
      (hrun : RunCalls w (gpt2Forward ops c inputs B T) m m') : RunForward ops w m (some m')
  | undefined (hints : ¬ IntsFit c inputs B T w) : RunForward ops w m none

end Pass

/-! ## In closed form -/

/-- The largest of the `int`s are in range. -/
structure IntRange (c : GPT2Config) (B T w : Nat) : Prop where
  wte : c.vocabSize * c.channels ≤ intMax
  wpe : c.maxSeqLen * c.channels ≤ intMax
  weights : c.numLayers * (4 * c.channels) * c.channels ≤ intMax
  acts : c.numLayers * B * T * 4 * c.channels ≤ intMax
  att : c.numLayers * B * c.numHeads * T * T ≤ intMax
  hidden : B * T * (4 * c.channels) + sliceCount w (B * T * (4 * c.channels)) ≤ intMax
  logits : B * T * c.vocabSize + sliceCount w (B * T * c.vocabSize) ≤ intMax

/-- A longer range has no fewer slices, and neither has one for more workers. -/
theorem sliceCount_mono {w w' total total' : Nat} (hw : w' ≤ w) (h : total' ≤ total) :
    sliceCount w' total' ≤ sliceCount w total := by
  have hlimit : ∀ k, (if (if k < 1 then 1 else k) > maxWorkers then maxWorkers
      else if k < 1 then 1 else k) = min (max k 1) maxWorkers := fun k => by
    split <;> split <;> simp only [maxWorkers] at * <;> omega
  have hmin : ∀ n t : Nat, (if n > t then t else n) = min n t := fun n t => by
    split <;> omega
  simp only [sliceCount, hlimit, hmin]
  omega

/-- The slices are in range where the total with the number of slices is. -/
theorem sliceInts_fit {w total : Nat} (h : total + sliceCount w total ≤ intMax) :
    Fit (sliceInts w total) := by
  intro x hx
  simp only [sliceInts, List.mem_append, List.mem_cons, List.not_mem_nil, or_false,
    List.mem_flatMap, List.mem_range] at hx
  generalize sliceCount w total = n at h hx
  rcases hx with (rfl | rfl | rfl) | ⟨i, hi, hx⟩
  · omega
  · exact h
  · omega
  · -- the last slice ends before `total + n`
    have hspan : n * ((total + n - 1) / n) ≤ total + n - 1 := Nat.mul_div_le _ _
    have hend : (i + 1) * ((total + n - 1) / n) ≤ n * ((total + n - 1) / n) :=
      Nat.mul_le_mul_right _ hi
    rw [Nat.succ_mul] at hend
    generalize (total + n - 1) / n = span at hspan hend hx
    rcases hx with rfl | rfl | rfl <;> omega

section Kernels

variable {B T C M : Nat}

/-- Where the row of a kernel lies. -/
theorem row_bounds {row : Nat} (hrow : row < B * T) : row / T < B ∧ row % T < T ∧ 1 ≤ B := by
  have hT : 0 < T := Nat.pos_of_ne_zero fun h => by simp [h] at hrow
  have hB : 0 < B := Nat.pos_of_ne_zero fun h => by simp [h] at hrow
  exact ⟨Nat.div_lt_of_lt_mul (Nat.mul_comm T B ▸ hrow), Nat.mod_lt row hT, hB⟩

/-- The offsets of a row of `C` cells. -/
theorem row_offsets {row : Nat} (hC : 1 ≤ C) (hrow : row < B * T) (hsize : B * T * C ≤ M) :
    row / T * T ≤ M ∧ row / T * T * C ≤ M ∧ row % T * C ≤ M ∧ row / T * T + row % T ≤ M := by
  obtain ⟨hb, ht, hB⟩ := row_bounds hrow
  have hpos : B * T * 1 ≤ B * T * C := Nat.mul_le_mul_left _ hC
  refine ⟨?_, ?_, ?_, ?_⟩
  · have hle : row / T * T ≤ B * T := Nat.mul_le_mul_right T hb.le
    omega
  · have hle : row / T * T * C ≤ B * T * C := by gcongr
    omega
  · have hle : 1 * (row % T) * C ≤ B * T * C := by gcongr
    rw [Nat.one_mul] at hle
    omega
  · rw [Nat.div_add_mod']
    omega

/-- The offsets of a row of the encoder are bounded by the output and by the table of tokens. -/
theorem encoderInts_fit {inp : Nat → Nat} {row : Nat} (hC : 1 ≤ C) (hrow : row < B * T)
    (hsize : B * T * C ≤ intMax) (hix : inp row * C ≤ intMax) :
    Fit (encoderInts inp T C row) := by
  obtain ⟨h₁, h₂, h₃, h₄⟩ := row_offsets hC hrow hsize
  have hone : inp row * 1 ≤ inp row * C := Nat.mul_le_mul_left _ hC
  simp only [encoderInts, fit_cons, Nat.div_add_mod'] at h₄ ⊢
  exact ⟨h₁, h₂, h₃, h₄, by omega, hix, fit_nil⟩

/-- The offsets of a row are bounded by the output. -/
theorem layernormInts_fit {row : Nat} (hC : 1 ≤ C) (hrow : row < B * T)
    (hsize : B * T * C ≤ intMax) : Fit (layernormInts T C row) := by
  obtain ⟨h₁, h₂, h₃, h₄⟩ := row_offsets hC hrow hsize
  simp only [layernormInts, fit_cons]
  exact ⟨h₁, h₂, h₃, h₄, fit_nil⟩

/-- The offsets of a row are bounded by the logits. -/
theorem softmaxInts_fit {V row : Nat} (hV : 1 ≤ V) (hrow : row < B * T)
    (hsize : B * T * V ≤ intMax) : Fit (softmaxInts T V row) := by
  obtain ⟨h₁, h₂, h₃, -⟩ := row_offsets hV hrow hsize
  simp only [softmaxInts, fit_cons]
  exact ⟨h₁, h₂, h₃, fit_nil⟩

/-- The offsets of a cell are bounded by the output, the input and the weight. -/
theorem matmulInts_fit {OC idx : Nat} (hidx : idx < B * T * OC) (hout : B * T * OC ≤ intMax)
    (hinp : B * T * C ≤ intMax) (hweight : OC * C ≤ intMax) : Fit (matmulInts C OC idx) := by
  have hOC : 0 < OC := Nat.pos_of_ne_zero fun h => by simp [h] at hidx
  have hrow : idx / OC < B * T := Nat.div_lt_of_lt_mul (Nat.mul_comm OC (B * T) ▸ hidx)
  have ho : idx % OC < OC := Nat.mod_lt idx hOC
  have h₁ : idx / OC * OC ≤ B * T * OC := Nat.mul_le_mul_right OC hrow.le
  have h₂ : idx / OC * C ≤ B * T * C := Nat.mul_le_mul_right C hrow.le
  have h₃ : idx % OC * C ≤ OC * C := Nat.mul_le_mul_right C ho.le
  simp only [matmulInts, fit_cons]
  exact ⟨h₁.trans hout, h₂.trans hinp, h₃.trans hweight, fit_nil⟩

/-- The offsets of a unit: into the queries, keys and values, and into the matrices. -/
theorem unit_offsets {NH b t h : Nat} (hC : 1 ≤ C) (hNH : 1 ≤ NH) (hb : b < B) (ht : t < T)
    (hh : h < NH) (hqkv : B * T * (C * 3) ≤ M) (hatt : B * NH * T * T ≤ M) :
    (b * T * (C * 3) ≤ M ∧ t * (C * 3) ≤ M ∧ b * T ≤ M ∧ b * T * C ≤ M ∧ t * C ≤ M ∧ C * 3 ≤ M) ∧
      T * NH ≤ M ∧ b * NH ≤ M ∧ b * NH * T ≤ M ∧ b * NH * T * T ≤ M ∧ h * T ≤ M ∧
      h * T * T ≤ M ∧ t * T ≤ M := by
  have hB : 1 ≤ B := Nat.one_le_of_lt hb
  have hT : 1 ≤ T := Nat.one_le_of_lt ht
  have hC3 : 1 ≤ C * 3 := by omega
  have hCC : C ≤ C * 3 := by omega
  -- a factor that is missing is 1
  have hq : ∀ {x y z : Nat}, x ≤ B → y ≤ T → z ≤ C * 3 → x * y * z ≤ M :=
    fun hx hy hz => (Nat.mul_le_mul (Nat.mul_le_mul hx hy) hz).trans hqkv
  have ha : ∀ {x y z u : Nat}, x ≤ B → y ≤ NH → z ≤ T → u ≤ T → x * y * z * u ≤ M :=
    fun hx hy hz hu => (Nat.mul_le_mul (Nat.mul_le_mul (Nat.mul_le_mul hx hy) hz) hu).trans hatt
  refine ⟨⟨hq hb.le le_rfl le_rfl, ?_, ?_, hq hb.le le_rfl hCC, ?_, ?_⟩, ?_, ?_, ?_,
    ha hb.le le_rfl le_rfl le_rfl, ?_, ?_, ?_⟩
  · simpa using hq hB ht.le le_rfl
  · simpa using hq hb.le le_rfl hC3
  · simpa using hq hB ht.le hCC
  · simpa using hq hB hT le_rfl
  · simpa [Nat.mul_comm] using ha hB le_rfl le_rfl hT
  · simpa using ha hb.le le_rfl hT hT
  · simpa using ha hb.le le_rfl le_rfl hT
  · simpa using ha hB hh.le le_rfl hT
  · simpa using ha hB hh.le le_rfl le_rfl
  · simpa using ha hB hNH ht.le le_rfl

/-- The offsets of a unit are bounded by the queries, keys and values and by the matrices. -/
theorem attentionInts_fit {NH unit : Nat} (hC : 1 ≤ C) (hunit : unit < B * T * NH)
    (hqkv : B * T * (C * 3) ≤ intMax) (hatt : B * NH * T * T ≤ intMax) :
    Fit (attentionInts T C NH unit) := by
  have hNH : 0 < NH := Nat.pos_of_ne_zero fun h => by simp [h] at hunit
  have hT : 0 < T := Nat.pos_of_ne_zero fun h => by simp [h] at hunit
  have hb : unit / (T * NH) < B := Nat.div_lt_of_lt_mul (by
    rw [Nat.mul_comm, ← Nat.mul_assoc]
    exact hunit)
  have hrem : unit % (T * NH) < T * NH := Nat.mod_lt _ (Nat.mul_pos hT hNH)
  have ht : unit % (T * NH) / NH < T := Nat.div_lt_of_lt_mul (Nat.mul_comm T NH ▸ hrem)
  have hh : unit % (T * NH) % NH < NH := Nat.mod_lt _ hNH
  obtain ⟨⟨h₁, h₂, h₃, h₄, h₅, h₆⟩, h₇, h₈, h₉, h₁₀, h₁₁, h₁₂, h₁₃⟩ :=
    unit_offsets hC hNH hb ht hh hqkv hatt
  have hhead : unit % (T * NH) % NH * (C / NH) ≤ C :=
    (Nat.mul_le_mul_right _ hh.le).trans (Nat.mul_div_le C NH)
  simp only [attentionInts, fit_append, fit_cons]
  refine ⟨⟨h₆, h₇, h₃, h₁, h₂, by omega, h₈, h₉, h₁₀, h₁₁, h₁₂, h₁₃, h₄, h₅, by omega, fit_nil⟩, ?_⟩
  intro x hx
  obtain ⟨t2, ht2, rfl⟩ := List.mem_map.mp hx
  have hle : t2 * (C * 3) ≤ unit % (T * NH) / NH * (C * 3) :=
    Nat.mul_le_mul_right _ (Nat.le_of_lt_succ (List.mem_range.mp ht2))
  exact hle.trans h₂

end Kernels

/-! ## A forward pass -/

section Range

variable {c : GPT2Config} {inputs : Nat → Nat} {B T w : Nat}

/-- **What is computed bounds the sizes.**. -/
theorem IntsFit.range (h : IntsFit c inputs B T w) : IntRange c B T w where
  wte := h.params _ (by simp [paramInts])
  wpe := h.params _ (by simp [paramInts])
  weights := h.params _ (by simp [paramInts])
  acts := h.acts _ (by simp [actInts])
  att := h.acts _ (by simp [actInts])
  hidden := (h.layerCalls (matmulForwardInts B T c.channels (4 * c.channels))
    (by simp [layerCallInts])).slices _ (by simp [sliceInts, matmulForwardInts])
  logits := (h.headCalls (matmulForwardInts B T c.channels c.vocabSize)
    (by simp [headCallInts])).slices _ (by simp [sliceInts, matmulForwardInts])

/-- Fewer workers compute smaller numbers. -/
theorem CallInts.Fits.fewer {call : CallInts} {w' : Nat} (h : call.Fits w) (hw : w' ≤ w) :
    call.Fits w' where
  bound := h.bound
  slices := by
    have hsum : call.total + sliceCount w call.total ≤ intMax := h.slices _ (by simp [sliceInts])
    exact sliceInts_fit ((Nat.add_le_add_left (sliceCount_mono hw le_rfl) _).trans hsum)
  body := h.body

/-- What fits with some workers fits with fewer. -/
theorem IntsFit.fewer {w' : Nat} (h : IntsFit c inputs B T w) (hw : w' ≤ w) :
    IntsFit c inputs B T w' where
  params := h.params
  acts := h.acts
  encoder := h.encoder.fewer hw
  layer := h.layer
  layerCalls call hcall := (h.layerCalls call hcall).fewer hw
  head := h.head
  headCalls call hcall := (h.headCalls call hcall).fewer hw

end Range

section Bounds

variable {c : Model} {inputs : Nat → Nat} {B T w : Nat}

/-- A product of no more than the factors of a size; a factor that is missing is 1. -/
theorem IntRange.acts_le (h : IntRange c.toGPT2Config B T w) {x y z u v : Nat}
    (hx : x ≤ c.numLayers) (hy : y ≤ B) (hz : z ≤ T) (hu : u ≤ 4) (hv : v ≤ c.channels) :
    x * y * z * u * v ≤ intMax :=
  (Nat.mul_le_mul (Nat.mul_le_mul (Nat.mul_le_mul (Nat.mul_le_mul hx hy) hz) hu) hv).trans h.acts

/-- A product that is at most the size of the matrices. -/
theorem IntRange.att_le (h : IntRange c.toGPT2Config B T w) {x y z u v : Nat}
    (hx : x ≤ c.numLayers) (hy : y ≤ B) (hz : z ≤ c.numHeads) (hu : u ≤ T) (hv : v ≤ T) :
    x * y * z * u * v ≤ intMax :=
  (Nat.mul_le_mul (Nat.mul_le_mul (Nat.mul_le_mul (Nat.mul_le_mul hx hy) hz) hu) hv).trans h.att

/-- A product that is at most the size of the largest weights. -/
theorem IntRange.weights_le (h : IntRange c.toGPT2Config B T w) {x y z u : Nat}
    (hx : x ≤ c.numLayers) (hy : y ≤ 4) (hz : z ≤ c.channels) (hu : u ≤ c.channels) :
    x * (y * z) * u ≤ intMax :=
  (Nat.mul_le_mul (Nat.mul_le_mul hx (Nat.mul_le_mul hy hz)) hu).trans h.weights

/-- The sizes of the parameters are in range. -/
theorem IntRange.params (h : IntRange c.toGPT2Config B T w) : Fit (paramInts c.toGPT2Config) := by
  have hL := c.numLayers_pos
  have hC := c.channels_pos
  simp only [paramInts, fit_cons]
  refine ⟨h.wte, h.wpe, ?_, ?_, ?_, ?_, ?_, ?_, ?_, h.weights, ?_, ?_, fit_nil⟩
  · simpa using h.weights_le le_rfl (show 1 ≤ 4 by decide) le_rfl hC
  · simpa using h.weights_le hL (show 3 ≤ 4 by decide) le_rfl hC
  · simpa using h.weights_le le_rfl (show 3 ≤ 4 by decide) le_rfl hC
  · exact h.weights_le le_rfl (by decide) le_rfl le_rfl
  · simpa using h.weights_le le_rfl (show 1 ≤ 4 by decide) le_rfl le_rfl
  · simpa using h.weights_le hL le_rfl le_rfl hC
  · simpa using h.weights_le le_rfl le_rfl le_rfl hC
  · simpa [Nat.mul_assoc, Nat.mul_comm, Nat.mul_left_comm] using h.weights
  · simpa using h.weights_le hL (show 1 ≤ 4 by decide) le_rfl hC

/-- The offsets that reach into layer `l`, or to the end of the layers. -/
theorem IntRange.offsets (h : IntRange c.toGPT2Config B T w) (hB : 1 ≤ B) (hT : 1 ≤ T) {l : Nat}
    (hl : l ≤ c.numLayers) : Fit [l * B, l * B * T, l * B * T * c.channels, l * B * T * 3,
      l * B * T * 3 * c.channels, l * B * c.numHeads, l * B * c.numHeads * T,
      l * B * c.numHeads * T * T, l * B * T * 4, l * B * T * 4 * c.channels] := by
  have hC := c.channels_pos
  simp only [fit_cons]
  refine ⟨?_, ?_, ?_, ?_, h.acts_le hl le_rfl le_rfl (by decide) le_rfl, ?_, ?_,
    h.att_le hl le_rfl le_rfl le_rfl le_rfl, ?_, h.acts_le hl le_rfl le_rfl le_rfl le_rfl, fit_nil⟩
  · simpa using h.acts_le hl le_rfl hT (show 1 ≤ 4 by decide) hC
  · simpa using h.acts_le hl le_rfl le_rfl (show 1 ≤ 4 by decide) hC
  · simpa using h.acts_le hl le_rfl le_rfl (show 1 ≤ 4 by decide) le_rfl
  · simpa using h.acts_le hl le_rfl le_rfl (show 3 ≤ 4 by decide) hC
  · simpa using h.att_le hl le_rfl le_rfl hT hT
  · simpa using h.att_le hl le_rfl le_rfl le_rfl hT
  · simpa using h.acts_le hl le_rfl le_rfl le_rfl hC

/-- The sizes of the widest tensors of one layer. -/
theorem IntRange.sizes (h : IntRange c.toGPT2Config B T w) (hB : 1 ≤ B) (hT : 1 ≤ T) :
    B * T * (4 * c.channels) ≤ intMax ∧ B * T * c.vocabSize ≤ intMax ∧
      B * c.numHeads * T * T ≤ intMax := by
  refine ⟨(Nat.le_add_right _ _).trans h.hidden, (Nat.le_add_right _ _).trans h.logits, ?_⟩
  simpa using h.att_le c.numLayers_pos le_rfl le_rfl le_rfl le_rfl

/-- The slices of the narrower ranges are in range. -/
theorem IntRange.slices (h : IntRange c.toGPT2Config B T w) {total : Nat}
    (htotal : total ≤ B * T * (4 * c.channels)) : Fit (sliceInts w total) :=
  sliceInts_fit ((Nat.add_le_add htotal (sliceCount_mono le_rfl htotal)).trans h.hidden)

/-- The call of layernorm. -/
theorem IntRange.layernorm (h : IntRange c.toGPT2Config B T w) (hB : 1 ≤ B) (hT : 1 ≤ T) :
    (layernormForwardInts B T c.channels).Fits w := by
  have hC := c.channels_pos
  obtain ⟨hhidden, -, -⟩ := h.sizes hB hT
  have hrows : B * T ≤ B * T * (4 * c.channels) := Nat.le_mul_of_pos_right _ (by omega)
  have hrow : B * T * c.channels ≤ B * T * (4 * c.channels) := Nat.mul_le_mul_left _ (by omega)
  refine ⟨?_, h.slices hrows, fun i hi => layernormInts_fit hC hi (hrow.trans hhidden)⟩
  exact fit_cons.mpr ⟨hrows.trans hhidden, fit_nil⟩

/-- The call of matmul, for any number of columns. -/
theorem IntRange.matmul (h : IntRange c.toGPT2Config B T w) (hB : 1 ≤ B) (hT : 1 ≤ T)
    {C OC : Nat} (hslices : Fit (sliceInts w (B * T * OC))) (hinp : B * T * C ≤ intMax)
    (hweight : OC * C ≤ intMax) : (matmulForwardInts B T C OC).Fits w := by
  have hC := c.channels_pos
  obtain ⟨hhidden, -, -⟩ := h.sizes hB hT
  have hrows : B * T ≤ B * T * (4 * c.channels) := Nat.le_mul_of_pos_right _ (by omega)
  have hout : B * T * OC ≤ intMax := hslices _ (by simp [sliceInts])
  refine ⟨?_, hslices, fun i hi => matmulInts_fit hi hout hinp hweight⟩
  exact fit_cons.mpr ⟨hrows.trans hhidden, fit_cons.mpr ⟨hout, fit_nil⟩⟩

/-- The calls of gelu and of the residuals. -/
theorem IntRange.cells (h : IntRange c.toGPT2Config B T w) {N : Nat}
    (hN : N ≤ B * T * (4 * c.channels)) : (cellsForwardInts N).Fits w := by
  have hslices := h.slices hN
  exact ⟨fit_cons.mpr ⟨hslices _ (by simp [sliceInts]), fit_nil⟩, hslices, fun i hi => fit_nil⟩

/-- The call of attention. -/
theorem IntRange.attention (h : IntRange c.toGPT2Config B T w) (hB : 1 ≤ B) (hT : 1 ≤ T) :
    (attentionForwardInts B T c.channels c.numHeads).Fits w := by
  have hC := c.channels_pos
  obtain ⟨hhidden, -, hatt⟩ := h.sizes hB hT
  have hheads : c.numHeads ≤ c.channels := Nat.le_of_dvd hC c.heads_dvd
  have hunits : B * T * c.numHeads ≤ B * T * (4 * c.channels) := Nat.mul_le_mul_left _ (by omega)
  have hrows : B * T ≤ B * T * (4 * c.channels) := Nat.le_mul_of_pos_right _ (by omega)
  have hqkv : B * T * (c.channels * 3) ≤ B * T * (4 * c.channels) :=
    Nat.mul_le_mul_left _ (by omega)
  refine ⟨?_, h.slices hunits, fun i hi => attentionInts_fit hC hi (hqkv.trans hhidden) hatt⟩
  exact fit_cons.mpr ⟨hrows.trans hhidden, fit_cons.mpr ⟨hunits.trans hhidden, fit_nil⟩⟩

/-- **The closed form is enough**, where all tokens are of the vocabulary. -/
theorem IntRange.fits (h : IntRange c.toGPT2Config B T w) (hB : 1 ≤ B) (hT : 1 ≤ T)
    (htokens : ∀ i, i < B * T → inputs i < c.vocabSize) : IntsFit c.toGPT2Config inputs B T w := by
  have hL := c.numLayers_pos
  have hC := c.channels_pos
  have hV := c.vocabSize_pos
  obtain ⟨hhidden, hlogits, hatt⟩ := h.sizes hB hT
  -- the ranges but for the logits are no longer than that of the hidden layer
  have hrows : B * T ≤ B * T * (4 * c.channels) := Nat.le_mul_of_pos_right _ (by omega)
  have hrow : ∀ k, k ≤ 4 → B * T * (k * c.channels) ≤ B * T * (4 * c.channels) := fun k hk =>
    Nat.mul_le_mul_left _ (Nat.mul_le_mul_right _ hk)
  have hone : B * T * c.channels ≤ B * T * (4 * c.channels) := by simpa using hrow 1 (by decide)
  have hfour : B * T * 4 * c.channels = B * T * (4 * c.channels) := Nat.mul_assoc _ _ _
  have hsquare : ∀ k, k ≤ 4 → k * c.channels * c.channels ≤ intMax := fun k hk => by
    simpa using h.weights_le hL hk le_rfl le_rfl
  have hoffsets : ∀ {l}, l ≤ c.numLayers → _ := fun hl => h.offsets hB hT hl
  refine ⟨h.params, ?acts, ?encoder, fun l hl => ?layer, ?layerCalls, ?head, ?headCalls⟩
  case acts =>
    have hlayers := hoffsets le_rfl
    simp only [actInts, fit_cons] at hlayers ⊢
    obtain ⟨h₁, h₂, h₃, h₄, h₅, h₆, h₇, h₈, h₉, h₁₀, -⟩ := hlayers
    exact ⟨hrows.trans hhidden, hone.trans hhidden, h₁, h₂, h₃, h₄, h₅, h₆, h₇, h₈, h₉, h₁₀,
      hlogits, fit_nil⟩
  case encoder =>
    refine ⟨fit_cons.mpr ⟨hrows.trans hhidden, fit_nil⟩, h.slices hrows, fun i hi => ?_⟩
    refine encoderInts_fit hC hi (hone.trans hhidden) ?_
    exact (Nat.mul_le_mul_right _ (htokens i hi).le).trans h.wte
  case layer =>
    have hlayer := hoffsets hl.le
    have hbefore := hoffsets (show l - 1 ≤ c.numLayers by omega)
    simp only [layerInts, fit_cons] at hlayer hbefore ⊢
    obtain ⟨h₁, h₂, h₃, h₄, h₅, h₆, h₇, h₈, h₉, h₁₀, -⟩ := hlayer
    obtain ⟨g₁, g₂, g₃, -⟩ := hbefore
    have hw := fun {x y z u : Nat} => @IntRange.weights_le c B T w h x y z u
    refine ⟨g₁, g₂, g₃, ?_, ?_, ?_, ?_, ?_, ?_, ?_, ?_, ?_, ?_, h₁, h₂, h₃, h₄, h₅, h₆, h₇, h₈, h₉,
      h₁₀, ?_, hrows.trans hhidden, hone.trans hhidden, ?_, ?_, hfour ▸ hhidden, fit_nil⟩
    · simpa using hw hl.le (show 1 ≤ 4 by decide) le_rfl hC
    · simpa using hw hl.le (show 3 ≤ 4 by decide) hC hC
    · simpa [Nat.mul_assoc] using hw hl.le (show 3 ≤ 4 by decide) le_rfl hC
    · simpa [Nat.mul_assoc] using hw hl.le (show 3 ≤ 4 by decide) le_rfl le_rfl
    · simpa using hw hl.le (show 1 ≤ 4 by decide) le_rfl le_rfl
    · simpa using hw hl.le le_rfl hC hC
    · simpa [Nat.mul_assoc] using hw hl.le le_rfl le_rfl hC
    · simpa [Nat.mul_assoc] using hw hl.le le_rfl le_rfl le_rfl
    · simpa [Nat.mul_assoc, Nat.mul_comm, Nat.mul_left_comm] using hw hl.le le_rfl (le_refl c.channels) hC
    · simpa [Nat.mul_assoc, Nat.mul_comm, Nat.mul_left_comm] using
        hw hl.le le_rfl (le_refl c.channels) (le_refl c.channels)
    · simpa using hw hL (show 3 ≤ 4 by decide) le_rfl hC
    · simpa using hw hL le_rfl le_rfl hC
    · exact (Nat.mul_le_mul_left _ (Nat.le_mul_of_pos_right 4 hC)).trans hhidden
  case layerCalls =>
    have hmatmul : ∀ {C OC : Nat}, B * T * OC ≤ B * T * (4 * c.channels) →
        B * T * C ≤ B * T * (4 * c.channels) → OC * C ≤ intMax →
        (matmulForwardInts B T C OC).Fits w := fun hout hinp hweight =>
      h.matmul hB hT (h.slices hout) (hinp.trans hhidden) hweight
    simp only [layerCallInts, List.forall_mem_cons]
    refine ⟨h.layernorm hB hT, hmatmul (hrow 3 (by decide)) hone (hsquare 3 (by decide)),
      h.attention hB hT, hmatmul hone hone ?_, h.cells hone, h.layernorm hB hT,
      hmatmul le_rfl hone (hsquare 4 le_rfl), h.cells hfour.le, hmatmul hone le_rfl ?_,
      h.cells hone, fun call hcall => absurd hcall List.not_mem_nil⟩
    · simpa using hsquare 1 (by decide)
    · rw [Nat.mul_comm]
      exact hsquare 4 le_rfl
  case head =>
    have hlast := hoffsets (Nat.sub_le c.numLayers 1)
    simp only [headInts, fit_cons] at hlast ⊢
    exact ⟨hlast.1, hlast.2.1, hlast.2.2.1, fit_nil⟩
  case headCalls =>
    simp only [headCallInts, List.forall_mem_cons]
    refine ⟨h.layernorm hB hT,
      h.matmul hB hT (sliceInts_fit h.logits) (hone.trans hhidden) h.wte, ?_,
      fun call hcall => absurd hcall List.not_mem_nil⟩
    exact ⟨fit_cons.mpr ⟨hrows.trans hhidden, fit_nil⟩, h.slices hrows,
      fun i hi => softmaxInts_fit hV hi hlogits⟩

/-- Shorter sequences and fewer workers need no more. -/
theorem IntRange.mono {c : GPT2Config} {B T T' w w' : Nat} (h : IntRange c B T w) (hT : T' ≤ T)
    (hw : w' ≤ w) : IntRange c B T' w' where
  wte := h.wte
  wpe := h.wpe
  weights := h.weights
  acts := le_trans (by gcongr) h.acts
  att := le_trans (by gcongr) h.att
  hidden := by
    have hle : B * T' * (4 * c.channels) ≤ B * T * (4 * c.channels) := by gcongr
    exact (Nat.add_le_add hle (sliceCount_mono hw hle)).trans h.hidden
  logits := by
    have hle : B * T' * c.vocabSize ≤ B * T * c.vocabSize := by gcongr
    exact (Nat.add_le_add hle (sliceCount_mono hw hle)).trans h.logits

/-- **The closed form is the condition.** -/
theorem intsFit_iff (hB : 1 ≤ B) (hT : 1 ≤ T) (htokens : ∀ i, i < B * T → inputs i < c.vocabSize) :
    IntsFit c.toGPT2Config inputs B T w ↔ IntRange c.toGPT2Config B T w :=
  ⟨fun h => h.range, fun h => h.fits hB hT htokens⟩

end Bounds

end Gpt
