/-
  gpt — every activation that is read was written before.

  1. **Specification** — the activations come from `malloc`, so a cell of theirs has no value until
     the pass has written it.  `Establishes` says of a list of calls that it reads only what is
     written, and what is written then.
  2. **Kernel by kernel** — each defines its output from its inputs (`xxx_defines`).  Attention
     reads back the scores and weights it has just written, within one index, and of the keys and
     values only those up to its own position.
  3. **The crux (`layer_establishes`)** — a layer needs the residual it is given and leaves the next
     one.  Slots that are written and never read again, the means for example, are left out of
     `Ready`.
-/
import MiniLabs.Gpt.Bounds
import MiniLabs.Gpt.Trace

set_option linter.unusedVariables false

namespace Gpt

open Access Access.Prog

/-! ## The kernels -/

section Kernels

variable {F P : Type} [HAdd P Nat P] [Ptr P] (ops : FloatOps F) {D : P → Prop}

omit [Ptr P] in
/-- A loop that writes one cell behind the other. -/
theorem defines_fill {σ : Type} (p : P) {n : Nat} (s : σ) {f : Nat → σ → Prog P F σ}
    (h : ∀ i, i < n → ∀ s, (f i s).Defines D fun x => x = p + i ∨ D x) :
    (loop n s f).Defines D fun x => Span p n x ∨ D x := by
  refine (defines_loop (fun k x => Span p k x ∨ D x) s fun i hi s => ?_).conseq ?_ fun x hx => hx
  · apply ((h i hi s).frame (Span p i)).conseq (fun x hx => hx.symm)
    rintro x (⟨k, hk, rfl⟩ | hx)
    · by_cases hki : k = i
      · exact Or.inl (Or.inl (by rw [hki]))
      · exact Or.inr (span_cell (by omega))
    · exact Or.inl (Or.inr hx)
  · rintro x (⟨k, hk, -⟩ | hx)
    · exact absurd hk (Nat.not_lt_zero k)
    · exact hx

/-- The two embeddings define the row. -/
theorem encoder_defines (a : EncoderArg P) (row : Nat)
    (hwte : Covers D (a.wte + a.inp row * a.C) a.C)
    (hwpe : Covers D (a.wpe + row % a.T * a.C) a.C) :
    (encoderRow ops a row).Defines D fun x => Span (a.out + row * a.C) a.C x ∨ D x := by
  simp only [encoderRow, row_ptr, Nat.div_add_mod']
  refine defines_fill _ () fun i hi _ => ?_
  refine defines_bind (defines_read (hwte.cell hi)) fun x => ?_
  refine defines_bind (defines_read (hwpe.cell hi)) fun y => ?_
  exact defines_write _ _

/-- The row of the input, the weight and the bias define the row. -/
theorem layernorm_defines (a : LayernormArg P) (row : Nat)
    (hinp : Covers D (a.inp + row * a.C) a.C) (hweight : Covers D a.weight a.C)
    (hbias : Covers D a.bias a.C) :
    (layernormRow ops a row).Defines D fun x => Span (a.out + row * a.C) a.C x ∨ D x := by
  simp only [layernormRow, row_ptr, Nat.div_add_mod']
  refine defines_bind (defines_loop_keep _ fun i hi m => ?_) fun m => ?_
  · exact defines_bind (defines_read (hinp.cell hi)) fun xi => defines_pure _
  refine defines_bind (defines_loop_keep _ fun i hi v => ?_) fun v => ?_
  · exact defines_bind (defines_read (hinp.cell hi)) fun xi => defines_pure _
  refine defines_bind (defines_fill (a.out + row * a.C) () fun i hi _ => ?_) fun _ => ?_
  · refine defines_bind (defines_read (hinp.cell hi)) fun xi => ?_
    refine defines_bind (defines_read (hweight.cell hi)) fun w => ?_
    refine defines_bind (defines_read (hbias.cell hi)) fun b => ?_
    exact defines_write _ _
  exact defines_bind (defines_write_keep _ _) fun _ => defines_write_keep _ _

/-- The row of the input, the row of the weights and the bias define the cell. -/
theorem matmul_defines (a : MatmulArg P) (idx : Nat) (hOC : 0 < a.OC)
    (hinp : Covers D (a.inp + idx / a.OC * a.C) a.C)
    (hweight : Covers D (a.weight + idx % a.OC * a.C) a.C)
    (hbias : ∀ b, a.bias = some b → Covers D b a.OC) :
    (matmulCell ops a idx).Defines D fun x => x = a.out + idx ∨ D x := by
  simp only [matmulCell, cell_ptr]
  refine defines_bind (M := D) ?_ fun val => ?_
  · cases hb : a.bias with
    | none => exact defines_pure _
    | some b => exact defines_read ((hbias b hb).cell (Nat.mod_lt idx hOC))
  refine defines_bind (defines_loop_keep _ fun i hi val => ?_) fun val => ?_
  · refine defines_bind (defines_read (hinp.cell hi)) fun x => ?_
    exact defines_bind (defines_read (hweight.cell hi)) fun w => defines_pure _
  · exact defines_write _ _

/-- A unit reads only what it has written to `preatt`, `att` and `out` itself: of the rows of
    `preatt` and `att` no more than the causal triangle. -/
theorem attention_defines (a : AttentionArg P) (hT : 0 < a.T) (hNH : 0 < a.NH) (unit : Nat)
    (hinp : ∀ x, attReads a unit x → D x) :
    (attentionUnit ops a unit).Defines D fun x =>
      Span (a.out + attOut a.T a.C a.NH unit) (a.C / a.NH) x ∨ D x := by
  have hh := Nat.mod_lt (unit % (a.T * a.NH)) hNH
  -- a query, key or value cell: column `k * C + h * hs + i` of a row up to `t`
  have hcell : ∀ t2 k i, t2 ≤ unit % (a.T * a.NH) / a.NH → k ≤ 2 → i < a.C / a.NH →
      ∀ q, q = (unit / (a.T * a.NH) * a.T + t2) * (a.C * 3) +
        (unit % (a.T * a.NH) % a.NH * (a.C / a.NH) + k * a.C + i) → D (a.inp + q) := by
    rintro t2 k i ht2 hk hi q rfl
    refine hinp _ ⟨t2, ht2, _, ?_, (Ptr.add_assoc _ _ _).symm⟩
    have hcol := head_lt hh hi
    have hkC : k * a.C ≤ 2 * a.C := Nat.mul_le_mul_right a.C hk
    omega
  simp only [attentionUnit, preatt_ptr]
  simp only [out_ptr]
  refine defines_bind (defines_fill (a.preatt + attRow a.T a.NH unit * a.T) _
    fun t2 ht2 maxval => ?_) fun maxval => ?_
  · refine defines_bind (M := D) (defines_loop_keep _ fun i hi val => ?_) fun val => ?_
    · refine defines_bind (defines_read ?_) fun q => ?_
      · rw [Ptr.add_assoc]
        apply hcell _ 0 i (Nat.le_refl _) (by omega) hi _
        omega
      refine defines_bind (defines_read ?_) fun k => defines_pure _
      rw [Ptr.add_assoc, Ptr.add_assoc]
      apply hcell t2 1 i (Nat.le_of_lt_succ ht2) (by omega) hi _
      omega
    · exact defines_bind (defines_write _ _) fun _ => defines_pure _
  refine defines_bind (defines_fill (a.att + attRow a.T a.NH unit * a.T) _
    fun t2 ht2 expsum => ?_) fun expsum => ?_
  · refine defines_bind (defines_read (Or.inl (span_cell ht2))) fun p => ?_
    exact defines_bind (defines_write _ _) fun _ => defines_pure _
  refine defines_bind (defines_loop_keep () fun t2 ht2 _ => ?_) fun _ => ?_
  · dsimp only
    by_cases hle : t2 ≤ unit % (a.T * a.NH) / a.NH
    · rw [if_pos hle]
      refine defines_bind (defines_read (Or.inl (span_cell (Nat.lt_succ_of_le hle)))) fun w => ?_
      exact defines_write_keep _ _
    · rw [if_neg hle]
      exact defines_write_keep _ _
  refine defines_bind (defines_fill (a.out + attOut a.T a.C a.NH unit) ()
    fun i hi _ => defines_write _ _) fun _ => ?_
  refine (defines_loop_keep () fun t2 ht2 _ => ?weigh).conseq (fun x hx => hx) ?drop
  case drop => exact fun x hx => hx.imp_right fun h => Or.inr (Or.inr h)
  refine defines_bind (defines_read (Or.inr (Or.inl (span_cell ht2)))) fun w => ?_
  refine defines_loop_keep () fun i hi _ => ?_
  refine defines_bind (defines_read (Or.inl (span_cell hi))) fun o => ?_
  refine defines_bind (defines_read (Or.inr (Or.inr (Or.inr ?_)))) fun v =>
    defines_write_keep _ _
  rw [Ptr.add_assoc, Ptr.add_assoc]
  apply hcell t2 2 i (Nat.le_of_lt_succ ht2) (by omega) hi _
  omega

omit [Ptr P] in
/-- The cell of the input defines the cell. -/
theorem gelu_defines (a : GeluArg P) (i : Nat) (hinp : D (a.inp + i)) :
    (geluCell ops a i).Defines D fun x => x = a.out + i ∨ D x :=
  defines_bind (defines_read hinp) fun x => defines_write _ _

omit [Ptr P] in
/-- The cells of the inputs define the cell. -/
theorem residual_defines (a : ResidualArg P) (i : Nat) (hinp1 : D (a.inp1 + i))
    (hinp2 : D (a.inp2 + i)) :
    (residualCell ops a i).Defines D fun x => x = a.out + i ∨ D x :=
  defines_bind (defines_read hinp1) fun x =>
    defines_bind (defines_read hinp2) fun y => defines_write _ _

/-- The row of the logits defines the row. -/
theorem softmax_defines (a : SoftmaxArg P) (row : Nat)
    (hlogits : Covers D (a.logits + row * a.V) a.V) :
    (softmaxRow ops a row).Defines D fun x => Span (a.probs + row * a.V) a.V x ∨ D x := by
  simp only [softmaxRow, row_ptr]
  refine defines_bind (defines_loop_keep _ fun i hi maxval => ?_) fun maxval => ?_
  · exact defines_bind (defines_read (hlogits.cell hi)) fun l => defines_pure _
  refine defines_bind (defines_fill (a.probs + row * a.V) _ fun i hi sum => ?_) fun sum => ?_
  · refine defines_bind (defines_read (hlogits.cell hi)) fun l => ?_
    exact defines_bind (defines_write _ _) fun _ => defines_pure _
  refine defines_loop_keep () fun i hi _ => ?_
  refine defines_bind (defines_read (Or.inl (span_cell hi))) fun p => ?_
  exact defines_write_keep _ _

end Kernels

/-! ## The calls -/

section Calls

variable {F P : Type} [HAdd P Nat P] [Ptr P] (ops : FloatOps F) {D : P → Prop}

/-- From `D`, the call reads what it may and defines the `n` cells from `out`. -/
def Fills (D : P → Prop) (c : RangeCall F P) (out : P) (n : Nat) : Prop :=
  ∃ E : Nat → P → Prop, (∀ i, i < c.total → (c.body i).Defines D (E i)) ∧
    ∀ x, Span out n x → ∃ i, i < c.total ∧ E i x

/-- A call that defines every row fills its output. -/
theorem fills_rows {c : RangeCall F P} {out : P} {w : Nat} (h : ∀ i, i < c.total →
    (c.body i).Defines D fun x => Span (out + i * w) w x ∨ D x) : Fills D c out (c.total * w) := by
  refine ⟨_, h, ?_⟩
  rintro x ⟨k, hk, rfl⟩
  have hw : 0 < w := Nat.pos_of_ne_zero fun h0 => by
    rw [h0] at hk
    exact Nat.not_lt_zero k hk
  refine ⟨k / w, Nat.div_lt_of_lt_mul (Nat.mul_comm w _ ▸ hk), Or.inl ?_⟩
  exact ⟨k % w, Nat.mod_lt k hw, by rw [Ptr.add_assoc, Nat.div_add_mod']⟩

omit [Ptr P] in
/-- A call that defines every cell fills its output. -/
theorem fills_cells {c : RangeCall F P} {out : P} (h : ∀ i, i < c.total →
    (c.body i).Defines D fun x => x = out + i ∨ D x) : Fills D c out c.total := by
  refine ⟨_, h, ?_⟩
  rintro x ⟨k, hk, rfl⟩
  exact ⟨k, hk, Or.inl rfl⟩

theorem encoderForward_fills {out wte wpe : P} {inp : Nat → Nat} {B T C : Nat}
    (hwte : ∀ k : Nat, Covers D (wte + k) C) (hwpe : ∀ k : Nat, Covers D (wpe + k) C) :
    Fills D (encoderForward ops out inp wte wpe B T C) out (B * T * C) :=
  fills_rows fun i _ => encoder_defines ops _ i (hwte _) (hwpe _)

theorem layernormForward_fills {out mean rstd inp weight bias : P} {B T C : Nat}
    (hinp : Covers D inp (B * T * C)) (hweight : Covers D weight C) (hbias : Covers D bias C) :
    Fills D (layernormForward ops out mean rstd inp weight bias B T C) out (B * T * C) :=
  fills_rows fun i hi => layernorm_defines ops _ i (hinp.row hi) hweight hbias

theorem matmulForward_fills {out inp weight : P} {bias : Option P} {B T C OC : Nat}
    (hinp : Covers D inp (B * T * C)) (hweight : Covers D weight (OC * C))
    (hbias : ∀ b, bias = some b → Covers D b OC) :
    Fills D (matmulForward ops out inp weight bias B T C OC) out (B * T * OC) := by
  refine fills_cells fun i hi => ?_
  have hOC : 0 < OC := Nat.pos_of_ne_zero fun h => by
    rw [h] at hi
    exact Nat.not_lt_zero i hi
  refine matmul_defines ops ⟨out, inp, weight, bias, T, C, OC⟩ i hOC ?_ ?_ hbias
  · exact hinp.row (Nat.div_lt_of_lt_mul (Nat.mul_comm OC _ ▸ hi))
  · exact hweight.row (Nat.mod_lt i hOC)

/-- The units fill the rows of `out` from left to right, if the heads divide the channels. -/
theorem attOut_eq {C NH : Nat} (hNH : 0 < NH) (hdvd : NH ∣ C) (T u : Nat) :
    attOut T C NH u = u * (C / NH) := by
  obtain ⟨hs, rfl⟩ := hdvd
  have hrow : (u / (T * NH) * T + u % (T * NH) / NH) * NH + u % (T * NH) % NH = u := by
    rw [Nat.add_mul, Nat.mul_assoc, Nat.add_assoc, Nat.div_add_mod', Nat.div_add_mod']
  rw [attOut, Nat.mul_div_cancel_left hs hNH, ← Nat.mul_assoc, ← Nat.add_mul, hrow]

/-- The heads of a position make up a row of the output, as their number divides the channels. -/
theorem attentionForward_fills {out preatt att inp : P} {B T C NH : Nat} (hT : 0 < T)
    (hNH : 0 < NH) (hdvd : NH ∣ C) (hinp : Covers D inp (B * T * (3 * C))) :
    Fills D (attentionForward ops out preatt att inp B T C NH) out (B * T * C) := by
  have hwidth : B * T * C = B * T * NH * (C / NH) := by
    rw [Nat.mul_assoc (B * T), Nat.mul_div_cancel' hdvd]
  rw [hwidth]
  refine fills_rows fun i hi => ?_
  rw [← attOut_eq hNH hdvd T i]
  exact attention_defines ops _ hT hNH i fun x hx => hinp x (attReads_span hT hNH hi hx)

omit [Ptr P] in
theorem geluForward_fills {out inp : P} {N : Nat} (hinp : Covers D inp N) :
    Fills D (geluForward ops out inp N) out N :=
  fills_cells fun i hi => gelu_defines ops _ i (hinp.cell hi)

omit [Ptr P] in
theorem residualForward_fills {out inp1 inp2 : P} {N : Nat} (hinp1 : Covers D inp1 N)
    (hinp2 : Covers D inp2 N) : Fills D (residualForward ops out inp1 inp2 N) out N :=
  fills_cells fun i hi => residual_defines ops _ i (hinp1.cell hi) (hinp2.cell hi)

theorem softmaxForward_fills {probs logits : P} {B T V : Nat}
    (hlogits : Covers D logits (B * T * V)) :
    Fills D (softmaxForward ops probs logits B T V) probs (B * T * V) :=
  fills_rows fun i hi => softmax_defines ops _ i (hlogits.row hi)

end Calls

/-! ## Lists of calls -/

section Lists

variable {F P : Type} [DecidableEq P] {D M D' : P → Prop} {c : RangeCall F P}
  {cs ds : List (RangeCall F P)}

/-- Every run of the calls, from `D`, is supplied, and leaves `D'`. -/
def Establishes (D : P → Prop) (cs : List (RangeCall F P)) (D' : P → Prop) : Prop :=
  ∀ w m es m', Traced w cs m es m' → Supplied D es D'

/-- No calls need nothing. -/
theorem Establishes.nil : Establishes D ([] : List (RangeCall F P)) D := by
  intro w m es m' h
  cases h
  exact supplied_nil

/-- One more call. -/
theorem Establishes.cons [HAdd P Nat P] {out : P} {n : Nat} (h : Fills D c out n)
    (hM : ∀ x, M x → Span out n x ∨ D x) (hs : Establishes M cs D') :
    Establishes D (c :: cs) D' := by
  obtain ⟨E, hdef, hout⟩ := h
  intro w m es m' hrun
  cases hrun with
  | cons hc hcs =>
    obtain ⟨hsourced, hwritten⟩ := hc.defines hdef
    refine Supplied.append ⟨hsourced, fun x hx => ?_⟩ (hs w _ _ _ hcs)
    rcases hM x hx with hx | hx
    · exact hwritten x (hout x hx)
    · exact Or.inl hx

/-- Calls behind one another. -/
theorem Establishes.append (h : Establishes D cs M) (hs : Establishes M ds D') :
    Establishes D (cs ++ ds) D' := by
  intro w m es m' hrun
  obtain ⟨es₁, m₁, es₂, hcs, hds, rfl⟩ := traced_append hrun
  exact (h w m es₁ m₁ hcs).append (hs w m₁ es₂ m' hds)

end Lists

/-! ## A layer -/

section Layer

variable {F P : Type} [HAdd P Nat P] [Ptr P] [DecidableEq P] (ops : FloatOps F) {c : GPT2Config}
  {B T : Nat} (params : ParameterTensor → P) (acts : ActivationTensor → P)

/-- The parameters, and the slots listed. -/
def Ready (c : GPT2Config) (B T : Nat) (params : ParameterTensor → P) (acts : ActivationTensor → P)
    (slots : List (ActivationTensor × Nat)) (x : P) : Prop :=
  (∃ t, ∃ i : Nat, x = params t + i) ∨
    ∃ s ∈ slots, Span (slotPtr c B T acts s.1 s.2) (perLayer c B T s.1) x

variable {params acts} {slots slots' : List (ActivationTensor × Nat)}

omit [DecidableEq P] in
/-- The parameters are ready. -/
theorem ready_par (t : ParameterTensor) (k n : Nat) :
    Covers (Ready c B T params acts slots) (params t + k) n := by
  rintro x ⟨i, -, rfl⟩
  exact Or.inl ⟨t, k + i, Ptr.add_assoc _ _ _⟩

omit [DecidableEq P] [Ptr P] in
/-- So is each of them from its start. -/
theorem ready_params (t : ParameterTensor) (n : Nat) :
    Covers (Ready c B T params acts slots) (params t) n := by
  rintro x ⟨i, -, rfl⟩
  exact Or.inl ⟨t, i, rfl⟩

omit [DecidableEq P] [Ptr P] in
/-- A slot on the list is ready. -/
theorem ready_slot {t : ActivationTensor} {l : Nat} (h : (t, l) ∈ slots) :
    Covers (Ready c B T params acts slots) (slotPtr c B T acts t l) (perLayer c B T t) :=
  fun x hx => Or.inr ⟨(t, l), h, hx⟩

omit [DecidableEq P] [Ptr P] in
/-- A slot is filled; others may be forgotten. -/
theorem ready_add {t : ActivationTensor} {l : Nat} (h : ∀ s ∈ slots', s = (t, l) ∨ s ∈ slots)
    (x : P) (hx : Ready c B T params acts slots' x) :
    Span (slotPtr c B T acts t l) (perLayer c B T t) x ∨ Ready c B T params acts slots x := by
  rcases hx with hx | ⟨s, hs, hx⟩
  · exact Or.inr (Or.inl hx)
  · rcases h s hs with rfl | hs
    · exact Or.inl hx
    · exact Or.inr (Or.inr ⟨s, hs, hx⟩)

/-- A layer turns one residual into the next. -/
theorem layer_establishes (hT : 0 < T) (hNH : 0 < c.numHeads) (hdvd : c.numHeads ∣ c.channels)
    (l : Nat) : Establishes (Ready c B T params acts [residualSlot l])
      (layerPass ops c params acts B T l) (Ready c B T params acts [(.residual3, l)]) := by
  have hres : ∀ slots, residualSlot l ∈ slots → Covers (Ready c B T params acts slots)
      (slotPtr c B T acts (residualSlot l).1 (residualSlot l).2) (B * T * c.channels) := by
    intro slots h
    rw [← residual_len c B T l]
    exact ready_slot h
  rw [layerPass_eq]
  refine Establishes.cons (M := Ready c B T params acts [residualSlot l, (.ln1, l)])
    (layernormForward_fills ops (hres _ (by simp)) (ready_par _ _ _) (ready_par _ _ _))
    (ready_add (t := .ln1) (by simp)) ?_
  refine Establishes.cons (M := Ready c B T params acts [residualSlot l, (.qkv, l)])
    (matmulForward_fills ops (ready_slot (t := .ln1) (by simp)) (ready_par _ _ _) ?qkvb)
    (ready_add (t := .qkv) (by simp)) ?_
  case qkvb => rintro b ⟨⟩; exact ready_par _ _ _
  refine Establishes.cons (M := Ready c B T params acts [residualSlot l, (.atty, l)])
    (attentionForward_fills ops hT hNH hdvd (ready_slot (t := .qkv) (by simp)))
    (ready_add (t := .atty) (by simp)) ?_
  refine Establishes.cons (M := Ready c B T params acts [residualSlot l, (.attproj, l)])
    (matmulForward_fills ops (ready_slot (t := .atty) (by simp)) (ready_par _ _ _) ?attprojb)
    (ready_add (t := .attproj) (by simp)) ?_
  case attprojb => rintro b ⟨⟩; exact ready_par _ _ _
  refine Establishes.cons (M := Ready c B T params acts [(.residual2, l)])
    (residualForward_fills ops (hres _ (by simp)) (ready_slot (t := .attproj) (by simp)))
    (ready_add (t := .residual2) (by simp)) ?_
  refine Establishes.cons (M := Ready c B T params acts [(.residual2, l), (.ln2, l)])
    (layernormForward_fills ops (ready_slot (t := .residual2) (by simp)) (ready_par _ _ _)
      (ready_par _ _ _))
    (ready_add (t := .ln2) (by simp)) ?_
  refine Establishes.cons (M := Ready c B T params acts [(.residual2, l), (.fch, l)])
    (matmulForward_fills ops (ready_slot (t := .ln2) (by simp)) (ready_par _ _ _) ?fcb)
    (ready_add (t := .fch) (by simp)) ?_
  case fcb => rintro b ⟨⟩; exact ready_par _ _ _
  rw [Nat.mul_assoc (B * T)]
  refine Establishes.cons (M := Ready c B T params acts [(.residual2, l), (.fchGelu, l)])
    (geluForward_fills ops (ready_slot (t := .fch) (by simp)))
    (ready_add (t := .fchGelu) (by simp)) ?_
  refine Establishes.cons (M := Ready c B T params acts [(.residual2, l), (.fcproj, l)])
    (matmulForward_fills ops (ready_slot (t := .fchGelu) (by simp)) (ready_par _ _ _) ?fcprojb)
    (ready_add (t := .fcproj) (by simp)) ?_
  case fcprojb => rintro b ⟨⟩; exact ready_par _ _ _
  exact Establishes.cons (M := Ready c B T params acts [(.residual3, l)])
    (residualForward_fills ops (ready_slot (t := .residual2) (by simp))
      (ready_slot (t := .fcproj) (by simp)))
    (ready_add (t := .residual3) (by simp)) Establishes.nil

/-- Behind the first `L` layers the residual is ready. -/
theorem layers_establish (hT : 0 < T) (hNH : 0 < c.numHeads) (hdvd : c.numHeads ∣ c.channels)
    (L : Nat) : Establishes (Ready c B T params acts [(.encoded, 0)])
      ((List.range L).flatMap (layerPass ops c params acts B T))
      (Ready c B T params acts [residualSlot L]) := by
  induction L with
  | zero => exact Establishes.nil
  | succ L ih =>
    rw [List.range_succ, List.flatMap_append, List.flatMap_singleton]
    exact ih.append (layer_establishes ops hT hNH hdvd L)

/-- **The head** needs the last residual and leaves the probabilities. -/
theorem head_establishes : Establishes (Ready c B T params acts [(.residual3, c.numLayers - 1)])
    (headPass ops c params acts B T) (Ready c B T params acts [(.probs, 0)]) := by
  rw [headPass_eq]
  refine Establishes.cons (M := Ready c B T params acts [(.lnf, 0)])
    (layernormForward_fills ops (ready_slot (t := .residual3) (by simp)) (ready_params _ _)
      (ready_params _ _))
    (ready_add (t := .lnf) (by simp)) ?_
  refine Establishes.cons (M := Ready c B T params acts [(.logits, 0)])
    (matmulForward_fills ops (ready_slot (t := .lnf) (by simp)) (ready_params _ _) ?nobias)
    (ready_add (t := .logits) (by simp)) ?_
  case nobias => rintro b ⟨⟩
  exact Establishes.cons (M := Ready c B T params acts [(.probs, 0)])
    (softmaxForward_fills ops (ready_slot (t := .logits) (by simp)))
    (ready_add (t := .probs) (by simp)) Establishes.nil

/-- **The forward pass reads parameters, and activations it has written.** -/
theorem forwardPass_establishes (hT : 0 < T) (hNH : 0 < c.numHeads)
    (hdvd : c.numHeads ∣ c.channels) (hL : 0 < c.numLayers) (inputs : Nat → Nat) :
    Establishes (Ready c B T params acts []) (forwardPass ops c params acts inputs B T)
      (Ready c B T params acts [(.probs, 0)]) := by
  refine Establishes.cons (M := Ready c B T params acts [(.encoded, 0)])
    (encoderForward_fills ops (fun k => ready_par _ _ _) fun k => ready_par _ _ _) ?_ ?_
  · rw [← slotPtr_zero c B T acts]
    exact ready_add (t := .encoded) (by simp)
  · apply (layers_establish ops hT hNH hdvd c.numLayers).append
    rw [residualSlot, if_neg (Nat.ne_of_gt hL)]
    exact head_establishes ops

end Layer
end Gpt
