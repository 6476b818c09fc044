/-
  gpt — the forward pass in memory.

  1. **Specification** — `forward_in_bounds`: every access of `gpt2_forward` lies in the array its
     pointer was made from, and no activation is read before it is written.
  2. **The crux (`gpt2Forward_relocate`)** — `gpt2Forward` is the pass over pointers that remember
     their tensor, with every cell put where `malloc_and_point_parameters` and
     `malloc_and_point_activations` have placed it.  No two cells inside of their tensors get one
     place (`place_inj`), so a kernel that stays inside of its tensors does so in memory.
  3. **Two halves** — `Gpt.Bounds` has the first clause and `Gpt.Written` the second; here they
     meet.
-/
import MiniLabs.Gpt.Written

set_option linter.unusedVariables false

namespace Gpt

open Access Access.Prog

/-! ## Kernels at other addresses -/

section Relocate

variable {F P Q : Type} [HAdd P Nat P] [HAdd Q Nat Q] (ops : FloatOps F)

/-- A call, with every cell `x` at `f x`. -/
def RangeCall.relocate (f : P → Q) (c : RangeCall F P) : RangeCall F Q :=
  ⟨c.total, fun i => (c.body i).relocate f⟩

variable {f : P → Q} (hf : ∀ (p : P) (i : Nat), f (p + i) = f p + i)

include hf

/-- A call moves with its pointers. -/
theorem encoderForward_relocate (out : P) (inp : Nat → Nat) (wte wpe : P) (B T C : Nat) :
    (encoderForward ops out inp wte wpe B T C).relocate f =
      encoderForward ops (f out) inp (f wte) (f wpe) B T C := by
  simp only [RangeCall.relocate, encoderForward, RangeCall.mk.injEq, true_and]
  funext row
  simp only [encoderRow, relocate_forRange, relocate_bind, relocate_read, relocate_write, hf]

theorem layernormForward_relocate (out mean rstd inp weight bias : P) (B T C : Nat) :
    (layernormForward ops out mean rstd inp weight bias B T C).relocate f =
      layernormForward ops (f out) (f mean) (f rstd) (f inp) (f weight) (f bias) B T C := by
  simp only [RangeCall.relocate, layernormForward, RangeCall.mk.injEq, true_and]
  funext row
  simp only [layernormRow, relocate_loop, relocate_forRange, relocate_bind, relocate_pure,
    relocate_read, relocate_write, hf]

theorem matmulForward_relocate (out inp weight : P) (bias : Option P) (B T C OC : Nat) :
    (matmulForward ops out inp weight bias B T C OC).relocate f =
      matmulForward ops (f out) (f inp) (f weight) (bias.map f) B T C OC := by
  have hbias : ∀ o, (biasAt ops bias o).relocate f = biasAt ops (bias.map f) o := by
    intro o
    cases bias with
    | none => rfl
    | some b => exact congrArg Prog.read (hf b o)
  simp only [RangeCall.relocate, matmulForward, RangeCall.mk.injEq, true_and]
  funext idx
  simp only [matmulCell, relocate_loop, relocate_bind, relocate_pure, relocate_read,
    relocate_write, hbias, hf]

theorem attentionForward_relocate (out preatt att inp : P) (B T C NH : Nat) :
    (attentionForward ops out preatt att inp B T C NH).relocate f =
      attentionForward ops (f out) (f preatt) (f att) (f inp) B T C NH := by
  simp only [RangeCall.relocate, attentionForward, RangeCall.mk.injEq, true_and]
  funext unit
  simp only [attentionUnit, relocate_loop, relocate_forRange, relocate_bind, relocate_pure,
    relocate_read, relocate_write, relocate_ite, hf]

theorem geluForward_relocate (out inp : P) (N : Nat) :
    (geluForward ops out inp N).relocate f = geluForward ops (f out) (f inp) N := by
  simp only [RangeCall.relocate, geluForward, RangeCall.mk.injEq, true_and]
  funext i
  simp only [geluCell, relocate_bind, relocate_read, relocate_write, hf]

theorem residualForward_relocate (out inp1 inp2 : P) (N : Nat) :
    (residualForward ops out inp1 inp2 N).relocate f =
      residualForward ops (f out) (f inp1) (f inp2) N := by
  simp only [RangeCall.relocate, residualForward, RangeCall.mk.injEq, true_and]
  funext i
  simp only [residualCell, relocate_bind, relocate_read, relocate_write, hf]

theorem softmaxForward_relocate (probs logits : P) (B T V : Nat) :
    (softmaxForward ops probs logits B T V).relocate f =
      softmaxForward ops (f probs) (f logits) B T V := by
  simp only [RangeCall.relocate, softmaxForward, RangeCall.mk.injEq, true_and]
  funext row
  simp only [softmaxRow, relocate_loop, relocate_forRange, relocate_bind, relocate_pure,
    relocate_read, relocate_write, hf]

/-- **The forward pass goes wherever its pointers go.** -/
theorem forwardPass_relocate (c : GPT2Config) (params : ParameterTensor → P)
    (acts : ActivationTensor → P) (inputs : Nat → Nat) (B T : Nat) :
    (forwardPass ops c params acts inputs B T).map (RangeCall.relocate f) =
      forwardPass ops c (fun t => f (params t)) (fun t => f (acts t)) inputs B T := by
  have hresidual : ∀ l, f (residualIn c acts B T l) =
      residualIn c (fun t => f (acts t)) B T l := by
    intro l
    rw [residualIn, residualIn]
    split
    · rfl
    · exact hf _ _
  have hlayer : ∀ l, (layerPass ops c params acts B T l).map (RangeCall.relocate f) =
      layerPass ops c (fun t => f (params t)) (fun t => f (acts t)) B T l := by
    intro l
    simp only [layerPass, List.map_cons, List.map_nil, layernormForward_relocate ops hf,
      matmulForward_relocate ops hf, attentionForward_relocate ops hf,
      residualForward_relocate ops hf, geluForward_relocate ops hf, Option.map_some, hresidual, hf]
  have hhead : (headPass ops c params acts B T).map (RangeCall.relocate f) =
      headPass ops c (fun t => f (params t)) (fun t => f (acts t)) B T := by
    simp only [headPass, List.map_cons, List.map_nil, layernormForward_relocate ops hf,
      matmulForward_relocate ops hf, softmaxForward_relocate ops hf, Option.map_none, hf]
  rw [forwardPass, List.map_cons, List.map_append, List.map_flatMap, hhead, forwardPass,
    encoderForward_relocate ops hf]
  simp only [hlayer]

end Relocate

/-! ## Places -/

section Places

variable (c : GPT2Config) (B T : Nat)

/-- The cells of a tensor lie one behind the other. -/
theorem place_add (p : Cell) (i : Nat) : (p + i).place c B T = p.place c B T + i := by
  obtain ⟨t, k⟩ := p
  cases t with
  | par t => exact (Loc.add_assoc (pointParameters c t) k i).symm
  | act t => exact (Loc.add_assoc (pointActivations c B T t) k i).symm

/-- `gpt2_forward` is the pass over pointers that remember their tensor, put in its place. -/
theorem gpt2Forward_relocate {F : Type} (ops : FloatOps F) (inputs : Nat → Nat) :
    gpt2Forward ops c inputs B T = (forwardPass ops c Cell.params Cell.acts inputs B T).map
      (RangeCall.relocate (Cell.place c B T)) := by
  rw [forwardPass_relocate ops (place_add c B T)]
  rfl

/-- Every parameter is among the pointers. -/
theorem mem_parameter_ptrs (t : ParameterTensor) : t ∈ ParameterTensor.ptrs := by
  cases t <;> decide

variable {c B T}

/-- **No two cells of the tensors get one place.** -/
theorem place_inj {x y : Cell} (hx : x.Inside c B T) (hy : y.Inside c B T)
    (h : x.place c B T = y.place c B T) : x = y := by
  obtain ⟨t, i⟩ := x
  obtain ⟨u, j⟩ := y
  cases t with
  | par t =>
    cases u with
    | par u =>
      by_cases htu : t = u
      · subst htu
        rw [Loc.add_inj.mp (show pointParameters c t + i = pointParameters c t + j from h)]
      · exact absurd (Loc.par.inj h)
          (point_disjoint (mem_parameter_ptrs t) (mem_parameter_ptrs u) htu 0 hx hy)
    | act u => cases h
  | act t =>
    cases u with
    | par u => cases h
    | act u =>
      by_cases htu : t = u
      · subst htu
        rw [Loc.add_inj.mp
          (show pointActivations c B T t + i = pointActivations c B T t + j from h)]
      · exact absurd (Loc.act.inj h) (point_disjoint (mem_ptrs t) (mem_ptrs u) htu 0 hx hy)

end Places

/-! ## The result -/

/-- **The forward pass stays in bounds and reads no unwritten activation.**  `gpt2_forward` is the
    pass over pointers that remember their tensor, put in its place.  Through such a pointer it
    reads and writes only inside of that tensor; and in every run, whatever number of workers and
    however they are interleaved, a cell of an activation tensor is written before it is read. -/
theorem forward_in_bounds {F : Type} (ops : FloatOps F) (c : Model) {B T : Nat}
    (hT : 1 ≤ T) (hmax : T ≤ c.maxSeqLen) {inputs : Nat → Nat}
    (hin : ∀ i, i < B * T → inputs i < c.vocabSize) :
    gpt2Forward ops c.toGPT2Config inputs B T =
      (forwardPass ops c.toGPT2Config Cell.params Cell.acts inputs B T).map
        (RangeCall.relocate (Cell.place c.toGPT2Config B T)) ∧
    (∀ call ∈ forwardPass ops c.toGPT2Config Cell.params Cell.acts inputs B T,
      ∀ i, i < call.total → ∀ x, (call.body i).Reads x ∨ (call.body i).Writes x →
        x.index < x.tensor.size c.toGPT2Config B T) ∧
    (∀ w (m m' : Cell → F) es,
      Traced w (forwardPass ops c.toGPT2Config Cell.params Cell.acts inputs B T) m es m' →
      ∀ pre t k post, es = pre ++ .rd ⟨.act t, k⟩ :: post → .wr ⟨.act t, k⟩ ∈ pre) ∧
    ∀ w (m m' : Mem F) es, Traced w (gpt2Forward ops c.toGPT2Config inputs B T) m es m' →
      ∀ pre a post, es = pre ++ .rd (.act a) :: post → .wr (.act a) ∈ pre := by
  refine ⟨gpt2Forward_relocate c.toGPT2Config B T ops inputs, ?inside, ?cells, ?memory⟩
  case inside =>
    intro call hcall i hi x hx
    have hstays := forwardPass_stays ops c.toGPT2Config hT hmax c.numHeads_pos c.numLayers_pos
      hin call hcall i hi
    rcases hx with hx | hx
    · exact hstays.reads hx
    · exact hstays.writes hx
  case cells =>
    intro w m m' es hrun pre t k post hes
    have hestablish : Establishes (Ready c.toGPT2Config B T Cell.params Cell.acts [])
        (forwardPass ops c.toGPT2Config Cell.params Cell.acts inputs B T)
        (Ready c.toGPT2Config B T Cell.params Cell.acts [(.probs, 0)]) :=
      forwardPass_establishes ops hT c.numHeads_pos c.heads_dvd c.numLayers_pos inputs
    apply ((hestablish w m es m' hrun).1 pre _ post hes).resolve_left
    rintro (⟨p, i, h⟩ | ⟨s, hs, -⟩)
    · exact absurd (congrArg Cell.tensor h) (by simp [Cell.params])
    · exact absurd hs List.not_mem_nil
  case memory =>
    intro w m m' es hrun pre a post hes
    have hestablish : Establishes
        (Ready c.toGPT2Config B T (pointParameters c.toGPT2Config)
          (pointActivations c.toGPT2Config B T) [])
        (gpt2Forward ops c.toGPT2Config inputs B T)
        (Ready c.toGPT2Config B T (pointParameters c.toGPT2Config)
          (pointActivations c.toGPT2Config B T) [(.probs, 0)]) :=
      forwardPass_establishes ops hT c.numHeads_pos c.heads_dvd c.numLayers_pos inputs
    apply ((hestablish w m es m' hrun).1 pre _ post hes).resolve_left
    rintro (⟨p, i, h⟩ | ⟨s, hs, -⟩)
    · cases h
    · exact absurd hs List.not_mem_nil

/-- Two sequences of two tokens on the tiny model, with four workers. -/
theorem forward_in_bounds_tiny :
    (∀ call ∈ forwardPass intOps tinyModel.toGPT2Config Cell.params Cell.acts (· % 2) 2 2,
      ∀ i, i < call.total → ∀ x, (call.body i).Reads x ∨ (call.body i).Writes x →
        x.index < x.tensor.size tinyModel.toGPT2Config 2 2) ∧
    ∃ es m', Traced 4 (gpt2Forward intOps tinyModel.toGPT2Config (· % 2) 2 2) (fun _ => 1) es m' ∧
      ∀ pre a post, es = pre ++ .rd (.act a) :: post → .wr (.act a) ∈ pre := by
  have hin : ∀ i, i < 2 * 2 → i % 2 < tinyModel.vocabSize := fun i _ => Nat.mod_lt i (by decide)
  obtain ⟨-, hinside, -, hwritten⟩ :=
    forward_in_bounds intOps tinyModel (B := 2) (T := 2) (by decide) (by decide) hin
  obtain ⟨es, m', hrun⟩ := traced_exists 4
    (gpt2Forward intOps tinyModel.toGPT2Config (· % 2) 2 2) fun _ => 1
  exact ⟨hinside, es, m', hrun, hwritten 4 _ m' es hrun⟩

end Gpt
