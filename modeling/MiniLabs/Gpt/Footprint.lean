/-
  gpt — what one index of a kernel reads and writes.

  1. **Specification** — for each kernel the cells of one index (`xxx_within`), and from it that two
     indices of one call spare each other (`NoClash`), whatever the segments are, as long as those
     written are apart from each other and from those read.
  2. **Rows and cells** — five kernels write a row or a cell of their output for each index, and
     that rows are disjoint is all there is to it (`noClash_rows`, `noClash_cells`).
  3. **The crux (`attention_noClash`)** — an index of attention is a batch, a position and a head.
     It writes three rows, each addressed in its own way, and reads the keys and values of other
     positions, which lie in the input and are not written.
-/
import MiniLabs.Gpt.Layout

set_option linter.unusedVariables false

namespace Gpt

open Access Access.Prog

variable {F P : Type} [HAdd P Nat P] [Ptr P] (ops : FloatOps F)

/-- No index of the call writes a cell that another one reads or writes. -/
def NoClash (c : RangeCall F) : Prop :=
  ∀ i, i < c.total → ∀ j, j < c.total → i ≠ j → (c.body i).Spares (c.body j)

/-- Rows that write their own row of `out`, and read outside of `out` or their own row of it. -/
theorem noClash_rows {c : RangeCall F} {out : Loc} {w : Nat} {R : Nat → Loc → Prop}
    (hwithin : ∀ i, i < c.total → (c.body i).Within
      (fun x => R i x ∨ Span (out + i * w) w x) (Span (out + i * w) w))
    (hread : ∀ i, i < c.total → ∀ x, R i x → ¬ Span out (c.total * w) x) : NoClash c := by
  intro i hi j hj hij
  apply (hwithin i hi).spares (hwithin j hj)
  intro x hx
  refine ⟨?_, rows_disjoint hij hx⟩
  rintro (hr | hr)
  · exact hread j hj x hr (span_row hi hx)
  · exact rows_disjoint hij hx hr

/-! ## encoder -/

/-- One row of each table is read, and one row written. -/
theorem encoder_within (a : EncoderArg P) (row : Nat) : (encoderRow ops a row).Within
    (fun x => Span (a.wte + a.inp row * a.C) a.C x ∨ Span (a.wpe + row % a.T * a.C) a.C x)
    (Span (a.out + row * a.C) a.C) := by
  simp only [encoderRow, row_ptr, Nat.div_add_mod']
  refine within_forRange fun i hi => ?_
  refine within_bind (within_read (Or.inl (span_cell hi))) fun x => ?_
  refine within_bind (within_read (Or.inr (span_cell hi))) fun y => ?_
  exact within_write (span_cell hi) _

/-- The rows of the output are apart from the tables and from one another. -/
theorem encoder_noClash {out wte wpe : Loc} {inp : Nat → Nat} {B T C : Nat}
    (hwte : ∀ k : Nat, Apart ⟨out, B * T * C⟩ ⟨wte + k, C⟩)
    (hwpe : ∀ k : Nat, Apart ⟨out, B * T * C⟩ ⟨wpe + k, C⟩) :
    NoClash (encoderForward ops out inp wte wpe B T C) := by
  refine noClash_rows (fun i hi => (encoder_within ops _ i).mono (fun x => Or.inl) fun x => id) ?_
  rintro i hi x (hx | hx) hout
  · exact hwte _ x hout hx
  · exact hwpe _ x hout hx

/-! ## layernorm -/

/-- A row, the weight and the bias are read; a row and two numbers are written. -/
theorem layernorm_within (a : LayernormArg P) (row : Nat) : (layernormRow ops a row).Within
    (fun x => Span (a.inp + row * a.C) a.C x ∨ Span a.weight a.C x ∨ Span a.bias a.C x)
    (fun x => Span (a.out + row * a.C) a.C x ∨ x = a.mean + row ∨ x = a.rstd + row) := by
  simp only [layernormRow, row_ptr, Nat.div_add_mod']
  refine within_bind (within_loop _ fun i hi m => ?_) fun m => ?_
  · exact within_bind (within_read (Or.inl (span_cell hi))) fun xi => within_pure _
  refine within_bind (within_loop _ fun i hi v => ?_) fun v => ?_
  · exact within_bind (within_read (Or.inl (span_cell hi))) fun xi => within_pure _
  refine within_bind (within_forRange fun i hi => ?_) fun _ => ?_
  · refine within_bind (within_read (Or.inl (span_cell hi))) fun xi => ?_
    refine within_bind (within_read (Or.inr (Or.inl (span_cell hi)))) fun w => ?_
    refine within_bind (within_read (Or.inr (Or.inr (span_cell hi)))) fun b => ?_
    refine within_write ?_ _
    exact Or.inl (span_cell hi)
  refine within_bind (within_write ?_ _) fun _ => within_write ?_ _
  · exact Or.inr (Or.inl rfl)
  · exact Or.inr (Or.inr rfl)

/-- Neither rows nor the two numbers of a row meet those of another one. -/
theorem layernorm_noClash {out mean rstd inp weight bias : Loc} {B T C : Nat}
    (hout : ∀ s ∈ [Seg.mk mean (B * T), ⟨rstd, B * T⟩, ⟨inp, B * T * C⟩, ⟨weight, C⟩, ⟨bias, C⟩],
      Apart ⟨out, B * T * C⟩ s)
    (hmean : ∀ s ∈ [Seg.mk rstd (B * T), ⟨inp, B * T * C⟩, ⟨weight, C⟩, ⟨bias, C⟩],
      Apart ⟨mean, B * T⟩ s)
    (hrstd : ∀ s ∈ [Seg.mk inp (B * T * C), ⟨weight, C⟩, ⟨bias, C⟩], Apart ⟨rstd, B * T⟩ s) :
    NoClash (layernormForward ops out mean rstd inp weight bias B T C) := by
  simp only [List.forall_mem_cons] at hout hmean hrstd
  intro i hi j hj hij
  apply (layernorm_within ops _ i).spares (layernorm_within ops _ j)
  dsimp only
  rintro x (hx | rfl | rfl)
  · have hspan := span_row hi hx
    refine ⟨?_, ?_⟩
    · rintro (hr | hr | hr)
      · exact hout.2.2.1 x hspan (span_row hj hr)
      · exact hout.2.2.2.1 x hspan hr
      · exact hout.2.2.2.2.1 x hspan hr
    · rintro (hw | hw | hw)
      · exact rows_disjoint hij hx hw
      · exact hout.1 x hspan ⟨j, hj, hw⟩
      · exact hout.2.1 x hspan ⟨j, hj, hw⟩
  · have hspan : Span mean (B * T) (mean + i) := span_cell hi
    refine ⟨?_, ?_⟩
    · rintro (hr | hr | hr)
      · exact hmean.2.1 _ hspan (span_row hj hr)
      · exact hmean.2.2.1 _ hspan hr
      · exact hmean.2.2.2.1 _ hspan hr
    · rintro (hw | hw | hw)
      · exact hout.1 _ (span_row hj hw) hspan
      · exact hij (Loc.add_inj.mp hw)
      · exact hmean.1 _ hspan ⟨j, hj, hw⟩
  · have hspan : Span rstd (B * T) (rstd + i) := span_cell hi
    refine ⟨?_, ?_⟩
    · rintro (hr | hr | hr)
      · exact hrstd.1 _ hspan (span_row hj hr)
      · exact hrstd.2.1 _ hspan hr
      · exact hrstd.2.2.1 _ hspan hr
    · rintro (hw | hw | hw)
      · exact hout.2.1 _ (span_row hj hw) hspan
      · exact hmean.1 _ ⟨j, hj, hw⟩ hspan
      · exact hij (Loc.add_inj.mp hw)

/-! ## matmul -/

/-- Indices that write one cell of `out` each, and read outside of `out`. -/
theorem noClash_cells {c : RangeCall F} {out : Loc} {R : Nat → Loc → Prop}
    (hwithin : ∀ i, i < c.total → (c.body i).Within (R i) fun x => x = out + i)
    (hread : ∀ i, i < c.total → ∀ x, R i x → ¬ Span out c.total x) : NoClash c := by
  intro i hi j hj hij
  apply (hwithin i hi).spares (hwithin j hj)
  rintro x rfl
  exact ⟨fun hr => hread j hj _ hr (span_cell hi), fun hw => hij (Loc.add_inj.mp hw)⟩

/-- The pointer to column `i % w` of row `i / w`. -/
theorem cell_ptr (p : P) (i w : Nat) : p + i / w * w + i % w = p + i := by
  rw [Ptr.add_assoc, Nat.div_add_mod']

/-- A row of the input, a row of the weight and perhaps the bias are read; a cell is written. -/
theorem matmul_within (a : MatmulArg P) (idx : Nat) (hOC : 0 < a.OC) :
    (matmulCell ops a idx).Within
      (fun x => (∃ b, a.bias = some b ∧ Span b a.OC x) ∨ Span (a.inp + idx / a.OC * a.C) a.C x ∨
        Span (a.weight + idx % a.OC * a.C) a.C x)
      (fun x => x = a.out + idx) := by
  simp only [matmulCell, cell_ptr]
  have hbias : (biasAt ops a.bias (idx % a.OC)).Within
      (fun x => (∃ b, a.bias = some b ∧ Span b a.OC x) ∨
        Span (a.inp + idx / a.OC * a.C) a.C x ∨ Span (a.weight + idx % a.OC * a.C) a.C x)
      (fun x => x = a.out + idx) := by
    cases hb : a.bias with
    | none => exact within_pure _
    | some b =>
      apply within_read
      exact Or.inl ⟨b, rfl, span_cell (Nat.mod_lt idx hOC)⟩
  refine within_bind hbias fun val => ?_
  refine within_bind (within_loop _ fun i hi val => ?_) fun val => ?_
  · refine within_bind (within_read (Or.inr (Or.inl (span_cell hi)))) fun x => ?_
    exact within_bind (within_read (Or.inr (Or.inr (span_cell hi)))) fun w => within_pure _
  · refine within_write ?_ _
    rfl

/-- The cells of the output are apart from the inputs and from one another. -/
theorem matmul_noClash {out inp weight : Loc} {bias : Option Loc} {B T C OC : Nat}
    (hinp : Apart ⟨out, B * T * OC⟩ ⟨inp, B * T * C⟩)
    (hweight : Apart ⟨out, B * T * OC⟩ ⟨weight, OC * C⟩)
    (hbias : ∀ b, bias = some b → Apart ⟨out, B * T * OC⟩ ⟨b, OC⟩) :
    NoClash (matmulForward ops out inp weight bias B T C OC) := by
  have hpos : ∀ i, i < B * T * OC → 0 < OC := by
    intro i hi
    apply Nat.pos_of_ne_zero
    rintro rfl
    exact Nat.not_lt_zero i hi
  refine noClash_cells (fun i hi => matmul_within ops ⟨out, inp, weight, bias, T, C, OC⟩ i
    (hpos i hi)) ?_
  rintro i hi x (⟨b, hb, hx⟩ | hx | hx) hout
  · exact hbias b hb x hout hx
  · have hrow : i / OC < B * T := Nat.div_lt_of_lt_mul (Nat.mul_comm OC _ ▸ hi)
    exact hinp x hout (span_row hrow hx)
  · exact hweight x hout (span_row (Nat.mod_lt i (hpos i hi)) hx)

/-! ## attention -/

section Attention

/-- The row of `preatt` and `att` a unit works on. -/
def attRow (T NH unit : Nat) : Nat :=
  (unit / (T * NH) * NH + unit % (T * NH) % NH) * T + unit % (T * NH) / NH

/-- The first cell of `out` a unit works on. -/
def attOut (T C NH unit : Nat) : Nat :=
  (unit / (T * NH) * T + unit % (T * NH) / NH) * C + unit % (T * NH) % NH * (C / NH)

/-- The pointer to a row of the scores, as the number of the row. -/
theorem preatt_ptr (p : P) (b NH T h t : Nat) :
    p + b * NH * T * T + h * T * T + t * T = p + ((b * NH + h) * T + t) * T := by
  rw [Ptr.add_assoc, Ptr.add_assoc, Nat.add_mul, Nat.add_mul, Nat.add_mul, Nat.add_assoc]

/-- The pointer to a head of the output, as the number of its first cell. -/
theorem out_ptr (p : P) (b T C t k : Nat) :
    p + b * T * C + t * C + k = p + ((b * T + t) * C + k) := by
  rw [Ptr.add_assoc, Ptr.add_assoc, Nat.add_mul, Nat.add_assoc]

/-- A head lies in its row. -/
theorem head_lt {C NH h i : Nat} (hh : h < NH) (hi : i < C / NH) : h * (C / NH) + i < C := by
  calc h * (C / NH) + i < h * (C / NH) + C / NH := Nat.add_lt_add_left hi _
    _ = (h + 1) * (C / NH) := (Nat.succ_mul h _).symm
    _ ≤ NH * (C / NH) := Nat.mul_le_mul_right _ hh
    _ ≤ C := Nat.mul_div_le C NH

variable {T NH : Nat} (hT : 0 < T) (hNH : 0 < NH)

include hT hNH

/-- The position of a unit. -/
theorem unit_t_lt (unit : Nat) : unit % (T * NH) / NH < T :=
  Nat.div_lt_of_lt_mul (Nat.mul_comm T NH ▸ Nat.mod_lt unit (Nat.mul_pos hT hNH))

omit hT hNH in
/-- A unit is its batch, position and head. -/
theorem unit_eq {u v : Nat} (hb : u / (T * NH) = v / (T * NH))
    (ht : u % (T * NH) / NH = v % (T * NH) / NH)
    (hh : u % (T * NH) % NH = v % (T * NH) % NH) : u = v := by
  have hrem : u % (T * NH) = v % (T * NH) := by
    rw [← Nat.div_add_mod' (u % (T * NH)) NH, ht, hh, Nat.div_add_mod']
  rw [← Nat.div_add_mod' u (T * NH), hb, hrem, Nat.div_add_mod']

/-- Units have different rows. -/
theorem attRow_inj {u v : Nat} (h : attRow T NH u = attRow T NH v) : u = v := by
  obtain ⟨hrow, ht⟩ := row_unique (unit_t_lt hT hNH u) (unit_t_lt hT hNH v) h
  obtain ⟨hb, hh⟩ := row_unique (Nat.mod_lt _ hNH) (Nat.mod_lt _ hNH) hrow
  exact unit_eq hb ht hh

/-- The row of a unit is one of the matrices. -/
theorem attRow_lt {B u : Nat} (hu : u < B * T * NH) : attRow T NH u < B * NH * T := by
  have hb : u / (T * NH) < B :=
    Nat.div_lt_of_lt_mul (by rwa [Nat.mul_comm (T * NH), ← Nat.mul_assoc])
  have hh := Nat.mod_lt (u % (T * NH)) hNH
  have ht := unit_t_lt hT hNH u
  have hrow : u / (T * NH) * NH + u % (T * NH) % NH < B * NH :=
    calc _ < u / (T * NH) * NH + NH := Nat.add_lt_add_left hh _
      _ = (u / (T * NH) + 1) * NH := (Nat.succ_mul _ NH).symm
      _ ≤ B * NH := Nat.mul_le_mul_right NH hb
  calc attRow T NH u < (u / (T * NH) * NH + u % (T * NH) % NH) * T + T := Nat.add_lt_add_left ht _
    _ = (u / (T * NH) * NH + u % (T * NH) % NH + 1) * T := (Nat.succ_mul _ T).symm
    _ ≤ B * NH * T := Nat.mul_le_mul_right T hrow

/-- Two units write different cells of `out`. -/
theorem attOut_disjoint {C u v : Nat} (huv : u ≠ v) {p x : Loc}
    (hx : Span (p + attOut T C NH u) (C / NH) x) : ¬ Span (p + attOut T C NH v) (C / NH) x := by
  rintro ⟨j, hj, hxj⟩
  obtain ⟨i, hi, rfl⟩ := hx
  have hu := head_lt (Nat.mod_lt (u % (T * NH)) hNH) hi
  have hv := head_lt (Nat.mod_lt (v % (T * NH)) hNH) hj
  rw [Loc.add_assoc, Loc.add_assoc, Loc.add_inj, attOut, attOut, Nat.add_assoc,
    Nat.add_assoc] at hxj
  obtain ⟨hrow, hcol⟩ := row_unique hu hv hxj
  obtain ⟨hb, ht⟩ := row_unique (unit_t_lt hT hNH u) (unit_t_lt hT hNH v) hrow
  exact huv (unit_eq hb ht (row_unique hi hj hcol).1)

/-- The output of a unit lies in the output. -/
theorem attOut_span {B C u : Nat} (hu : u < B * T * NH) {p x : P}
    (hx : Span (p + attOut T C NH u) (C / NH) x) : Span p (B * T * C) x := by
  obtain ⟨i, hi, rfl⟩ := hx
  have hb : u / (T * NH) < B :=
    Nat.div_lt_of_lt_mul (by rwa [Nat.mul_comm (T * NH), ← Nat.mul_assoc])
  have ht := unit_t_lt hT hNH u
  have hrow : u / (T * NH) * T + u % (T * NH) / NH < B * T :=
    calc _ < u / (T * NH) * T + T := Nat.add_lt_add_left ht _
      _ = (u / (T * NH) + 1) * T := (Nat.succ_mul _ T).symm
      _ ≤ B * T := Nat.mul_le_mul_right T hb
  refine span_row hrow ⟨_, head_lt (Nat.mod_lt (u % (T * NH)) hNH) hi, ?_⟩
  rw [attOut, Ptr.add_assoc p, Ptr.add_assoc p, Nat.add_assoc]

end Attention

/-- The cells a unit writes: its rows of `preatt` and `att`, its part of `out`. -/
def attWrites (a : AttentionArg P) (unit : Nat) (x : P) : Prop :=
  Span (a.preatt + attRow a.T a.NH unit * a.T) a.T x ∨
    Span (a.att + attRow a.T a.NH unit * a.T) a.T x ∨
    Span (a.out + attOut a.T a.C a.NH unit) (a.C / a.NH) x

/-- The cells of `inp` a unit reads: rows of its batch up to its position. -/
def attReads (a : AttentionArg P) (unit : Nat) (x : P) : Prop :=
  ∃ t2, t2 ≤ unit % (a.T * a.NH) / a.NH ∧
    Span (a.inp + (unit / (a.T * a.NH) * a.T + t2) * (a.C * 3)) (a.C * 3) x

/-- They lie in the tensor. -/
theorem attReads_span {out preatt att inp x : P} {B T C NH u : Nat} (hT : 0 < T) (hNH : 0 < NH)
    (hu : u < B * T * NH) (hx : attReads ⟨out, preatt, att, inp, T, C, NH⟩ u x) :
    Span inp (B * T * (3 * C)) x := by
  obtain ⟨t2, ht2, hx⟩ := hx
  rw [Nat.mul_comm C 3] at hx
  have hb : u / (T * NH) < B :=
    Nat.div_lt_of_lt_mul (by rwa [Nat.mul_comm (T * NH), ← Nat.mul_assoc])
  have ht := unit_t_lt hT hNH u
  refine span_row ?_ hx
  calc _ < u / (T * NH) * T + T := Nat.add_lt_add_left (Nat.lt_of_le_of_lt ht2 ht) _
    _ = (u / (T * NH) + 1) * T := (Nat.succ_mul _ T).symm
    _ ≤ B * T := Nat.mul_le_mul_right T hb

/-- A unit reads queries, keys and values up to its position, and what it has written itself. -/
theorem attention_within (a : AttentionArg P) (hT : 0 < a.T) (hNH : 0 < a.NH) (unit : Nat) :
    (attentionUnit ops a unit).Within (fun x => attReads a unit x ∨ attWrites a unit x)
      (attWrites a unit) := by
  simp only [attentionUnit, preatt_ptr]
  simp only [out_ptr]
  have ht := unit_t_lt hT hNH unit
  have hh := Nat.mod_lt (unit % (a.T * a.NH)) hNH
  -- a query, key or value cell: column `k * C + h * hs + i` of a row up to `t`
  have hinp : ∀ t2 k i, t2 ≤ unit % (a.T * a.NH) / a.NH → k ≤ 2 → i < a.C / a.NH →
      ∀ q, q = (unit / (a.T * a.NH) * a.T + t2) * (a.C * 3) +
        (unit % (a.T * a.NH) % a.NH * (a.C / a.NH) + k * a.C + i) → attReads a unit (a.inp + q) := by
    rintro t2 k i ht2 hk hi q rfl
    refine ⟨t2, ht2, _, ?_, (Ptr.add_assoc _ _ _).symm⟩
    have hcol := head_lt hh hi
    have hkC : k * a.C ≤ 2 * a.C := Nat.mul_le_mul_right a.C hk
    omega
  refine within_bind (within_loop _ fun t2 ht2 maxval => ?_) fun maxval => ?_
  · refine within_bind (within_loop _ fun i hi val => ?_) fun val => ?_
    · refine within_bind (within_read (Or.inl ?_)) fun q => ?_
      · rw [Ptr.add_assoc]
        apply hinp _ 0 i (Nat.le_refl _) (by omega) hi _
        omega
      refine within_bind (within_read (Or.inl ?_)) fun k => within_pure _
      rw [Ptr.add_assoc, Ptr.add_assoc]
      apply hinp t2 1 i (Nat.le_of_lt_succ ht2) (by omega) hi _
      omega
    refine within_bind (within_write ?_ _) fun _ => within_pure _
    exact Or.inl (span_cell (by omega))
  refine within_bind (within_loop _ fun t2 ht2 expsum => ?_) fun expsum => ?_
  · refine within_bind (within_read (Or.inr (Or.inl (span_cell (by omega))))) fun p => ?_
    refine within_bind (within_write ?_ _) fun _ => within_pure _
    exact Or.inr (Or.inl (span_cell (by omega)))
  refine within_bind (within_forRange fun t2 ht2 => ?_) fun _ => ?_
  · split
    · refine within_bind (within_read (Or.inr (Or.inr (Or.inl (span_cell ht2))))) fun w => ?_
      refine within_write ?_ _
      exact Or.inr (Or.inl (span_cell ht2))
    · refine within_write ?_ _
      exact Or.inr (Or.inl (span_cell ht2))
  refine within_bind (within_forRange fun i hi => ?_) fun _ => ?_
  · refine within_write ?_ _
    exact Or.inr (Or.inr (span_cell hi))
  refine within_forRange fun t2 ht2 => ?_
  refine within_bind (within_read (Or.inr (Or.inr (Or.inl (span_cell (by omega)))))) fun w => ?_
  refine within_forRange fun i hi => ?_
  refine within_bind (within_read (Or.inr (Or.inr (Or.inr (span_cell hi))))) fun o => ?_
  refine within_bind (within_read (Or.inl ?_)) fun v => ?_
  · rw [Ptr.add_assoc, Ptr.add_assoc]
    apply hinp t2 2 i (Nat.le_of_lt_succ ht2) (by omega) hi _
    omega
  · refine within_write ?_ _
    exact Or.inr (Or.inr (span_cell hi))

/-- **The units of attention spare each other**: each writes its own rows. -/
theorem attention_noClash {out preatt att inp : Loc} {B T C NH : Nat} (hT : 0 < T) (hNH : 0 < NH)
    (hout : ∀ s ∈ [Seg.mk preatt (B * NH * T * T), ⟨att, B * NH * T * T⟩, ⟨inp, B * T * (3 * C)⟩],
      Apart ⟨out, B * T * C⟩ s)
    (hpreatt : ∀ s ∈ [Seg.mk att (B * NH * T * T), ⟨inp, B * T * (3 * C)⟩],
      Apart ⟨preatt, B * NH * T * T⟩ s)
    (hatt : Apart ⟨att, B * NH * T * T⟩ ⟨inp, B * T * (3 * C)⟩) :
    NoClash (attentionForward ops out preatt att inp B T C NH) := by
  simp only [List.forall_mem_cons] at hout hpreatt
  intro i hi j hj hij
  have hrow : ∀ u, u < B * T * NH → ∀ (p : Loc) x, Span (p + attRow T NH u * T) T x →
      Span p (B * NH * T * T) x := fun u hu p x hx => span_row (attRow_lt hT hNH hu) hx
  have hrows : ∀ (p : Loc) x, Span (p + attRow T NH i * T) T x → ¬ Span (p + attRow T NH j * T) T x :=
    fun p x hx => rows_disjoint (fun h => hij (attRow_inj hT hNH h)) hx
  have hinp : ∀ x, attReads ⟨out, preatt, att, inp, T, C, NH⟩ j x → Span inp (B * T * (3 * C)) x :=
    fun x hx => attReads_span hT hNH hj hx
  have hspare : ∀ x, attWrites ⟨out, preatt, att, inp, T, C, NH⟩ i x →
      ¬ attReads ⟨out, preatt, att, inp, T, C, NH⟩ j x ∧
      ¬ attWrites ⟨out, preatt, att, inp, T, C, NH⟩ j x := by
    rintro x (hx | hx | hx)
    · have hspan := hrow i hi _ x hx
      refine ⟨fun hr => hpreatt.2.1 x hspan (hinp x hr), ?_⟩
      rintro (hw | hw | hw)
      · exact hrows _ x hx hw
      · exact hpreatt.1 x hspan (hrow j hj _ x hw)
      · exact hout.1 x (attOut_span hT hNH hj hw) hspan
    · have hspan := hrow i hi _ x hx
      refine ⟨fun hr => hatt x hspan (hinp x hr), ?_⟩
      rintro (hw | hw | hw)
      · exact hpreatt.1 x (hrow j hj _ x hw) hspan
      · exact hrows _ x hx hw
      · exact hout.2.1 x (attOut_span hT hNH hj hw) hspan
    · have hspan := attOut_span hT hNH hi hx
      refine ⟨fun hr => hout.2.2.1 x hspan (hinp x hr), ?_⟩
      rintro (hw | hw | hw)
      · exact hout.1 x hspan (hrow j hj _ x hw)
      · exact hout.2.1 x hspan (hrow j hj _ x hw)
      · exact attOut_disjoint hT hNH hij hx hw
  apply (attention_within ops _ hT hNH i).spares (attention_within ops _ hT hNH j)
  intro x hx
  obtain ⟨hr, hw⟩ := hspare x hx
  exact ⟨fun h => h.elim hr hw, hw⟩

/-! ## gelu, residual, softmax -/

omit [Ptr P] in
/-- A cell is read and one written. -/
theorem gelu_within (a : GeluArg P) (i : Nat) :
    (geluCell ops a i).Within (fun x => x = a.inp + i) (fun x => x = a.out + i) := by
  refine within_bind (within_read rfl) fun x => ?_
  refine within_write ?_ _
  rfl

theorem gelu_noClash {out inp : Loc} {N : Nat} (hinp : Apart ⟨out, N⟩ ⟨inp, N⟩) :
    NoClash (geluForward ops out inp N) := by
  apply noClash_cells (fun i _ => gelu_within ops _ i)
  rintro i hi x rfl hout
  exact hinp _ hout (span_cell hi)

omit [Ptr P] in
/-- A cell of each input is read and one written. -/
theorem residual_within (a : ResidualArg P) (i : Nat) : (residualCell ops a i).Within
    (fun x => x = a.inp1 + i ∨ x = a.inp2 + i) (fun x => x = a.out + i) := by
  refine within_bind (within_read (Or.inl rfl)) fun x => ?_
  refine within_bind (within_read (Or.inr rfl)) fun y => ?_
  refine within_write ?_ _
  rfl

theorem residual_noClash {out inp1 inp2 : Loc} {N : Nat} (hinp1 : Apart ⟨out, N⟩ ⟨inp1, N⟩)
    (hinp2 : Apart ⟨out, N⟩ ⟨inp2, N⟩) : NoClash (residualForward ops out inp1 inp2 N) := by
  apply noClash_cells (fun i _ => residual_within ops _ i)
  rintro i hi x (rfl | rfl) hout
  · exact hinp1 _ hout (span_cell hi)
  · exact hinp2 _ hout (span_cell hi)

/-- A row is read and one written, which is read again. -/
theorem softmax_within (a : SoftmaxArg P) (row : Nat) : (softmaxRow ops a row).Within
    (fun x => Span (a.logits + row * a.V) a.V x ∨ Span (a.probs + row * a.V) a.V x)
    (Span (a.probs + row * a.V) a.V) := by
  simp only [softmaxRow, row_ptr]
  refine within_bind (within_loop _ fun i hi maxval => ?_) fun maxval => ?_
  · exact within_bind (within_read (Or.inl (span_cell hi))) fun l => within_pure _
  refine within_bind (within_loop _ fun i hi sum => ?_) fun sum => ?_
  · refine within_bind (within_read (Or.inl (span_cell hi))) fun l => ?_
    exact within_bind (within_write (span_cell hi) _) fun _ => within_pure _
  refine within_forRange fun i hi => ?_
  refine within_bind (within_read (Or.inr (span_cell hi))) fun p => ?_
  exact within_write (span_cell hi) _

theorem softmax_noClash {probs logits : Loc} {B T V : Nat}
    (hlogits : Apart ⟨probs, B * T * V⟩ ⟨logits, B * T * V⟩) :
    NoClash (softmaxForward ops probs logits B T V) := by
  apply noClash_rows (fun i _ => softmax_within ops _ i)
  intro i hi x hx hout
  exact hlogits x hout (span_row hi hx)

end Gpt
