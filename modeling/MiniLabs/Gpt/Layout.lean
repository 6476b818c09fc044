/-
  gpt — where the tensors lie.

  1. **Specification** — two layers of two tensors have no cell in common (`slot_apart`), and none
     with the parameters.
  2. **The crux (`point_disjoint`)** — the tensors lie one behind the other, and inside a tensor the
     layers do: `slot m B T t l` is layer `l` of tensor `t`, and `slotSeg` the cells of it.
  3. **The pointers of the source** — `layerForward_eq` and `headForward_eq` write the pointer
     arithmetic of `gpt2_forward` as slots, so that what follows speaks of slots only.
-/
import MiniLabs.Gpt.Forward

set_option linter.unusedVariables false

namespace Gpt

/-! ## Cells and spans -/

/-- Pointers add up: moving one twice moves it by the sum. -/
class Ptr (P : Type) [HAdd P Nat P] : Prop where
  add_assoc : ∀ (p : P) (i j : Nat), p + i + j = p + (i + j)
  add_zero : ∀ p : P, p + 0 = p

namespace Loc

/-- Moving a pointer twice. -/
theorem add_assoc (p : Loc) (i j : Nat) : p + i + j = p + (i + j) := by
  cases p with
  | act a => exact congrArg Loc.act (Nat.add_assoc a i j)
  | par a => exact congrArg Loc.par (Nat.add_assoc a i j)

@[simp] theorem add_zero (p : Loc) : p + 0 = p := by
  cases p <;> rfl

@[simp] theorem add_inj {p : Loc} {i j : Nat} : p + i = p + j ↔ i = j := by
  constructor
  · intro h
    cases p with
    | act a => exact Nat.add_left_cancel (Loc.act.inj h)
    | par a => exact Nat.add_left_cancel (Loc.par.inj h)
  · rintro rfl
    rfl

end Loc

instance : Ptr Loc := ⟨Loc.add_assoc, Loc.add_zero⟩

section Spans

variable {P : Type} [HAdd P Nat P]

/-- The pointer to row `b`, `t` of a tensor with rows of `w` cells. -/
theorem row_ptr [Ptr P] (p : P) (row T w : Nat) :
    p + row / T * T * w + row % T * w = p + row * w := by
  rw [Ptr.add_assoc, ← Nat.add_mul, Nat.div_add_mod']

/-- Cells `p` to `p + (n - 1)`. -/
def Span (p : P) (n : Nat) (x : P) : Prop := ∃ i, i < n ∧ x = p + i

/-- A cell of a segment. -/
theorem span_cell {p : P} {i n : Nat} (h : i < n) : Span p n (p + i) := ⟨i, h, rfl⟩

/-- A row lies in its tensor. -/
theorem span_row [Ptr P] {p : P} {r rows w : Nat} (hr : r < rows) {x : P}
    (hx : Span (p + r * w) w x) : Span p (rows * w) x := by
  obtain ⟨i, hi, rfl⟩ := hx
  refine ⟨r * w + i, ?_, Ptr.add_assoc p _ i⟩
  calc r * w + i < r * w + w := Nat.add_lt_add_left hi _
    _ = (r + 1) * w := (Nat.succ_mul r w).symm
    _ ≤ rows * w := Nat.mul_le_mul_right w hr

end Spans

/-- A cell tells its row. -/
theorem row_unique {r s w i j : Nat} (hi : i < w) (hj : j < w) (h : r * w + i = s * w + j) :
    r = s ∧ i = j := by
  have hw : 0 < w := Nat.lt_of_le_of_lt (Nat.zero_le i) hi
  have hr : (r * w + i) / w = r := by
    rw [Nat.mul_comm, Nat.mul_add_div hw, Nat.div_eq_of_lt hi, Nat.add_zero]
  have hs : (s * w + j) / w = s := by
    rw [Nat.mul_comm, Nat.mul_add_div hw, Nat.div_eq_of_lt hj, Nat.add_zero]
  have hrs : r = s := by rw [← hr, h, hs]
  subst hrs
  exact ⟨rfl, Nat.add_left_cancel h⟩

/-- Two rows have no cell in common. -/
theorem rows_disjoint {p : Loc} {r s w : Nat} (hrs : r ≠ s) {x : Loc}
    (hx : Span (p + r * w) w x) : ¬ Span (p + s * w) w x := by
  rintro ⟨j, hj, hxj⟩
  obtain ⟨i, hi, rfl⟩ := hx
  rw [Loc.add_assoc, Loc.add_assoc, Loc.add_inj] at hxj
  exact hrs (row_unique hi hj hxj).1

/-- A segment of memory: a pointer and a number of cells. -/
structure Seg where
  ptr : Loc
  len : Nat

/-- No cell in common. -/
def Apart (s t : Seg) : Prop := ∀ x, Span s.ptr s.len x → ¬ Span t.ptr t.len x

/-- Being apart is symmetric. -/
theorem Apart.symm {s t : Seg} (h : Apart s t) : Apart t s := fun x ht hs => h x hs ht

/-- Parts of what is apart are apart. -/
theorem Apart.part {s t s' t' : Seg} (h : Apart s t)
    (hs : ∀ x, Span s'.ptr s'.len x → Span s.ptr s.len x)
    (ht : ∀ x, Span t'.ptr t'.len x → Span t.ptr t.len x) : Apart s' t' :=
  fun x hx hy => h x (hs x hx) (ht x hy)

/-- Activations are no parameters. -/
theorem apart_act_par (a b n m : Nat) : Apart ⟨.act a, n⟩ ⟨.par b, m⟩ := by
  rintro x ⟨i, -, rfl⟩ ⟨j, -, h⟩
  cases h

/-! ## One tensor behind the other -/

section Point

variable {κ : Type} [DecidableEq κ] {sizes : κ → Nat}

/-- No tensor lies in front of the memory. -/
theorem le_point (sizes : κ → Nat) (ks : List κ) (it : Nat) (t : κ) : it ≤ point sizes ks it t := by
  induction ks generalizing it with
  | nil => exact Nat.le_refl it
  | cons k ks ih =>
    rw [point]
    split
    · exact Nat.le_refl it
    · exact Nat.le_trans (Nat.le_add_right it _) (ih _)

/-- **Two tensors have no cell in common.** -/
theorem point_disjoint {ks : List κ} {t u : κ} (ht : t ∈ ks) (hu : u ∈ ks) (hne : t ≠ u)
    (it : Nat) {i j : Nat} (hi : i < sizes t) (hj : j < sizes u) :
    point sizes ks it t + i ≠ point sizes ks it u + j := by
  induction ks generalizing it with
  | nil => exact absurd ht List.not_mem_nil
  | cons k ks ih =>
    rw [point, point]
    by_cases htk : t = k
    · subst htk
      rw [if_pos rfl, if_neg (Ne.symm hne)]
      have hle := le_point sizes ks (it + sizes t) u
      omega
    · by_cases huk : u = k
      · subst huk
        rw [if_neg htk, if_pos rfl]
        have hle := le_point sizes ks (it + sizes u) t
        omega
      · rw [if_neg htk, if_neg huk]
        exact ih (List.mem_of_ne_of_mem htk ht) (List.mem_of_ne_of_mem huk hu) _

end Point

/-- Every tensor is among the pointers. -/
theorem mem_ptrs (t : ActivationTensor) : t ∈ ActivationTensor.ptrs := by
  cases t <;> decide

/-! ## Slots -/

section Slots

variable (c : GPT2Config) (B T : Nat)

/-- The number of layers of a tensor. -/
def layersOf : ActivationTensor → Nat
  | .encoded | .lnf | .lnfMean | .lnfRstd | .logits | .probs | .losses => 1
  | _ => c.numLayers

/-- The size of one layer of a tensor. -/
def perLayer : ActivationTensor → Nat
  | .encoded | .ln1 | .atty | .attproj | .residual2 | .ln2 | .fcproj | .residual3 | .lnf =>
    B * T * c.channels
  | .ln1Mean | .ln1Rstd | .ln2Mean | .ln2Rstd | .lnfMean | .lnfRstd | .losses => B * T
  | .qkv => B * T * (3 * c.channels)
  | .preatt | .att => B * c.numHeads * T * T
  | .fch | .fchGelu => B * T * (4 * c.channels)
  | .logits | .probs => B * T * c.vocabSize

/-- The size of a tensor is that of its layers. -/
theorem actSizes_eq (t : ActivationTensor) :
    actSizes c B T t = layersOf c t * perLayer c B T t := by
  cases t <;> simp only [actSizes, layersOf, perLayer, Nat.mul_assoc, Nat.one_mul]

/-- Layer `l` of a tensor. -/
def slot (t : ActivationTensor) (l : Nat) : Loc :=
  pointActivations c B T t + l * perLayer c B T t

/-- The cells of a slot. -/
def slotSeg (t : ActivationTensor) (l : Nat) : Seg := ⟨slot c B T t l, perLayer c B T t⟩

variable {c B T}

/-- **Two slots have no cell in common.** -/
theorem slot_apart {t u : ActivationTensor} {l k : Nat} (hl : l < layersOf c t)
    (hk : k < layersOf c u) (hne : t ≠ u ∨ l ≠ k) :
    Apart (slotSeg c B T t l) (slotSeg c B T u k) := by
  intro x hx hy
  by_cases htu : t = u
  · subst htu
    exact rows_disjoint (hne.resolve_left fun h => h rfl) hx hy
  · have hx' : Span (pointActivations c B T t) (layersOf c t * perLayer c B T t) x := span_row hl hx
    have hy' : Span (pointActivations c B T u) (layersOf c u * perLayer c B T u) x := span_row hk hy
    rw [← actSizes_eq] at hx' hy'
    obtain ⟨i, hi, rfl⟩ := hx'
    obtain ⟨j, hj, hxy⟩ := hy'
    exact point_disjoint (mem_ptrs t) (mem_ptrs u) htu 0 hi hj (Loc.act.inj hxy)

/-- Slots are no parameters. -/
theorem slot_apart_par (t : ActivationTensor) (l : Nat) (p : ParameterTensor) (k n : Nat) :
    Apart (slotSeg c B T t l) ⟨pointParameters c p + k, n⟩ := apart_act_par _ _ _ _

/-! ## The pointers of `gpt2_forward` -/

variable (c B T)

/-- The slot `residual` points to in layer `l`. -/
def residualSlot (l : Nat) : ActivationTensor × Nat :=
  if l = 0 then (.encoded, 0) else (.residual3, l - 1)

/-- A residual has a row for each position. -/
theorem residual_len (l : Nat) : perLayer c B T (residualSlot l).1 = B * T * c.channels := by
  rw [residualSlot]
  split <;> rfl

section Pass

variable {F P : Type} [HAdd P Nat P] [Ptr P] (ops : FloatOps F) (params : ParameterTensor → P)
  (acts : ActivationTensor → P)

/-- Layer `l` of a tensor, from the pointer to the tensor. -/
def slotPtr (t : ActivationTensor) (l : Nat) : P := acts t + l * perLayer c B T t

/-- The first layer lies where the tensor does. -/
theorem slotPtr_zero (t : ActivationTensor) : slotPtr c B T acts t 0 = acts t := by
  rw [slotPtr, Nat.zero_mul, Ptr.add_zero]

/-- The residual a layer starts from, as a slot. -/
theorem residualIn_eq (l : Nat) : residualIn c acts B T l =
    slotPtr c B T acts (residualSlot l).1 (residualSlot l).2 := by
  rw [residualIn, residualSlot]
  split
  · exact (slotPtr_zero c B T acts .encoded).symm
  · simp only [slotPtr, perLayer, Nat.mul_assoc]

/-- The calls of a layer, slot by slot. -/
theorem layerPass_eq (l : Nat) : layerPass ops c params acts B T l =
    let C := c.channels
    let par := params
    let act := fun t => slotPtr c B T acts t l
    let residual := slotPtr c B T acts (residualSlot l).1 (residualSlot l).2
    [layernormForward ops (act .ln1) (act .ln1Mean) (act .ln1Rstd) residual
       (par .ln1w + l * C) (par .ln1b + l * C) B T C,
     matmulForward ops (act .qkv) (act .ln1) (par .qkvw + l * 3 * C * C)
       (some (par .qkvb + l * 3 * C)) B T C (3 * C),
     attentionForward ops (act .atty) (act .preatt) (act .att) (act .qkv) B T C c.numHeads,
     matmulForward ops (act .attproj) (act .atty) (par .attprojw + l * C * C)
       (some (par .attprojb + l * C)) B T C C,
     residualForward ops (act .residual2) residual (act .attproj) (B * T * C),
     layernormForward ops (act .ln2) (act .ln2Mean) (act .ln2Rstd) (act .residual2)
       (par .ln2w + l * C) (par .ln2b + l * C) B T C,
     matmulForward ops (act .fch) (act .ln2) (par .fcw + l * 4 * C * C)
       (some (par .fcb + l * 4 * C)) B T C (4 * C),
     geluForward ops (act .fchGelu) (act .fch) (B * T * 4 * C),
     matmulForward ops (act .fcproj) (act .fchGelu) (par .fcprojw + l * C * 4 * C)
       (some (par .fcprojb + l * C)) B T (4 * C) C,
     residualForward ops (act .residual3) (act .residual2) (act .fcproj) (B * T * C)] := by
  simp only [layerPass, residualIn_eq, slotPtr, perLayer, Nat.mul_assoc]

/-- The calls behind the loop, slot by slot. -/
theorem headPass_eq : headPass ops c params acts B T =
    let C := c.channels
    let V := c.vocabSize
    let par := params
    let act := fun t => slotPtr c B T acts t 0
    [layernormForward ops (act .lnf) (act .lnfMean) (act .lnfRstd)
       (slotPtr c B T acts .residual3 (c.numLayers - 1)) (par .lnfw) (par .lnfb) B T C,
     matmulForward ops (act .logits) (act .lnf) (par .wte) none B T C V,
     softmaxForward ops (act .probs) (act .logits) B T V] := by
  simp only [headPass, slotPtr_zero]
  simp only [slotPtr, perLayer, Nat.mul_assoc]

end Pass

variable {F : Type} (ops : FloatOps F)

/-- The first slot of a tensor lies where the tensor does. -/
theorem slot_zero (t : ActivationTensor) : slot c B T t 0 = pointActivations c B T t :=
  slotPtr_zero c B T (pointActivations c B T) t

/-- The calls of a layer in memory, slot by slot. -/
theorem layerForward_eq (l : Nat) : layerForward ops c B T l =
    let C := c.channels
    let par := pointParameters c
    let act := fun t => slot c B T t l
    let residual := slot c B T (residualSlot l).1 (residualSlot l).2
    [layernormForward ops (act .ln1) (act .ln1Mean) (act .ln1Rstd) residual
       (par .ln1w + l * C) (par .ln1b + l * C) B T C,
     matmulForward ops (act .qkv) (act .ln1) (par .qkvw + l * 3 * C * C)
       (some (par .qkvb + l * 3 * C)) B T C (3 * C),
     attentionForward ops (act .atty) (act .preatt) (act .att) (act .qkv) B T C c.numHeads,
     matmulForward ops (act .attproj) (act .atty) (par .attprojw + l * C * C)
       (some (par .attprojb + l * C)) B T C C,
     residualForward ops (act .residual2) residual (act .attproj) (B * T * C),
     layernormForward ops (act .ln2) (act .ln2Mean) (act .ln2Rstd) (act .residual2)
       (par .ln2w + l * C) (par .ln2b + l * C) B T C,
     matmulForward ops (act .fch) (act .ln2) (par .fcw + l * 4 * C * C)
       (some (par .fcb + l * 4 * C)) B T C (4 * C),
     geluForward ops (act .fchGelu) (act .fch) (B * T * 4 * C),
     matmulForward ops (act .fcproj) (act .fchGelu) (par .fcprojw + l * C * 4 * C)
       (some (par .fcprojb + l * C)) B T (4 * C) C,
     residualForward ops (act .residual3) (act .residual2) (act .fcproj) (B * T * C)] := by
  exact layerPass_eq c B T ops (pointParameters c) (pointActivations c B T) l

/-- The calls behind the loop in memory, slot by slot. -/
theorem headForward_eq : headForward ops c B T =
    let C := c.channels
    let V := c.vocabSize
    let par := pointParameters c
    let act := fun t => slot c B T t 0
    [layernormForward ops (act .lnf) (act .lnfMean) (act .lnfRstd)
       (slot c B T .residual3 (c.numLayers - 1)) (par .lnfw) (par .lnfb) B T C,
     matmulForward ops (act .logits) (act .lnf) (par .wte) none B T C V,
     softmaxForward ops (act .probs) (act .logits) B T V] :=
  headPass_eq c B T ops (pointParameters c) (pointActivations c B T)

end Slots
end Gpt
