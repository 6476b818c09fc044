/-
  gpt — what a whole call computes.

  1. **Specification** — `xxx_computes`, for each kernel: after the call every cell of the output
     holds the network's function of the memory before the call.  All that is asked for is that the
     segments are apart.
  2. **The crux (`serial_alone`)** — no index clashes with another, so each cell of the output holds
     what its index computes alone, from the memory before the call.
  3. **Indices** — a cell of the output is found by its index and its column (`cell_row`), a unit of
     attention by batch, position and head (`unit_of`).
-/
import MiniLabs.Gpt.Computes
import MiniLabs.Gpt.Twin

set_option linter.unusedVariables false

namespace Gpt

open Access Access.Prog

variable {F : Type} (ops : FloatOps F) {m : Mem F}

/-- In the cells that an index writes, the call leaves what the index computes alone. -/
theorem serial_alone {call : RangeCall F} (hclash : NoClash call) {i : Nat} (hi : i < call.total)
    {x : Loc} (hx : (call.body i).Writes x) :
    (call.serial.run m).2 x = ((call.body i).run m).2 x := by
  rw [RangeCall.serial, run_forRange]
  refine runAll_alone List.nodup_range (fun i hi j hj hij => ?_) (List.mem_range.mpr hi) hx m
  exact hclash i (List.mem_range.mp hi) j (List.mem_range.mp hj) hij

/-- What no index writes is as before. -/
theorem serial_off {call : RangeCall F} {x : Loc}
    (hx : ∀ i, i < call.total → ¬ (call.body i).Writes x) :
    (call.serial.run m).2 x = m x := by
  rw [RangeCall.serial, run_forRange]
  exact runAll_off (fun i hi => hx i (List.mem_range.mp hi)) m

/-- Cell `r` of a tensor with rows of `w` cells. -/
theorem cell_row (p : Loc) (r w : Nat) : p + r = p + r / w * w + r % w := (cell_ptr p r w).symm

section Row

variable {r rows w : Nat}

/-- A column of a row is a cell of the matrix. -/
theorem index_lt {i : Nat} (hr : r < rows) (hi : i < w) : r * w + i < rows * w :=
  calc r * w + i < r * w + w := Nat.add_lt_add_left hi _
    _ = (r + 1) * w := (Nat.succ_mul r w).symm
    _ ≤ rows * w := Nat.mul_le_mul_right w hr

/-- The row of a cell. -/
theorem row_lt (hr : r < rows * w) : r / w < rows := Nat.div_lt_of_lt_mul (Nat.mul_comm w rows ▸ hr)

/-- The column of a cell. -/
theorem col_lt (hr : r < rows * w) : r % w < w :=
  Nat.mod_lt r (Nat.pos_of_ne_zero fun h => by rw [h, Nat.mul_zero] at hr; exact Nat.not_lt_zero r hr)

end Row

/-- A row of the output is the sum of two embeddings. -/
theorem encoder_computes {out wte wpe : Loc} {inp : Nat → Nat} {B T C r : Nat}
    (hwte : ∀ k : Nat, Apart ⟨out, B * T * C⟩ ⟨wte + k, C⟩)
    (hwpe : ∀ k : Nat, Apart ⟨out, B * T * C⟩ ⟨wpe + k, C⟩) (hr : r < B * T * C) :
    ((encoderForward ops out inp wte wpe B T C).serial.run m).2 (out + r) =
      ops.add (m (wte + inp (r / C) * C + r % C)) (m (wpe + r / C % T * C + r % C)) := by
  have hrow := row_lt hr
  have hcol := col_lt hr
  have hspan : ∀ x, Span (out + r / C * C) C x → Span out (B * T * C) x := fun x => span_row hrow
  rw [cell_row out r C, serial_alone (encoder_noClash ops hwte hwpe) hrow]
  · show ((encoderRow ops ⟨out, inp, wte, wpe, T, C⟩ (r / C)).run m).2 _ = _
    rw [encoderRow_run ops _ _ ((hwte _).part hspan fun x hx => hx)
      ((hwpe _).part hspan fun x hx => hx)]
    exact fill_cell hcol
  · show (encoderRow ops ⟨out, inp, wte, wpe, T, C⟩ (r / C)).Writes _
    simp only [encoderRow, row_ptr]
    refine writes_forRange ops.zero hcol ?_
    exact writes_bind_right ops.zero _ fun x => writes_bind_right ops.zero _ fun y => writes_write _ _

/-- The three outputs of a row. -/
theorem layernorm_computes {out mean' rstd' inp weight bias : Loc} {B T C row : Nat}
    (hout : ∀ s ∈ [Seg.mk mean' (B * T), ⟨rstd', B * T⟩, ⟨inp, B * T * C⟩, ⟨weight, C⟩, ⟨bias, C⟩],
      Apart ⟨out, B * T * C⟩ s)
    (hmean : ∀ s ∈ [Seg.mk rstd' (B * T), ⟨inp, B * T * C⟩, ⟨weight, C⟩, ⟨bias, C⟩],
      Apart ⟨mean', B * T⟩ s)
    (hrstd : ∀ s ∈ [Seg.mk inp (B * T * C), ⟨weight, C⟩, ⟨bias, C⟩], Apart ⟨rstd', B * T⟩ s)
    (hrow : row < B * T) :
    let m' := ((layernormForward ops out mean' rstd' inp weight bias B T C).serial.run m).2
    let x i := m (inp + row * C + i)
    (∀ i, i < C → m' (out + row * C + i) =
      layernorm ops C (fun i => m (weight + i)) (fun i => m (bias + i)) x i) ∧
    m' (mean' + row) = mean ops C x ∧ m' (rstd' + row) = rstd ops C x := by
  have hclash := layernorm_noClash ops hout hmean hrstd
  simp only [List.forall_mem_cons] at hout hmean
  obtain ⟨houtm, houtr, hinp, hweight, hbias, -⟩ := hout
  have hspan : ∀ x, Span (out + row * C) C x → Span out (B * T * C) x := fun x => span_row hrow
  have hrun := layernormRow_run ops (m := m) ⟨out, mean', rstd', inp, weight, bias, T, C⟩ row
    (hinp.part hspan fun x => span_row hrow) (hweight.part hspan fun x hx => hx)
    (hbias.part hspan fun x hx => hx)
  have hm : ∀ {x}, (layernormRow ops ⟨out, mean', rstd', inp, weight, bias, T, C⟩ row).Writes x →
      ((layernormForward ops out mean' rstd' inp weight bias B T C).serial.run m).2 x =
        ((layernormRow ops ⟨out, mean', rstd', inp, weight, bias, T, C⟩ row).run m).2 x :=
    fun hx => serial_alone hclash hrow hx
  have hr : rstd' + row ≠ mean' + row := fun h =>
    hmean.1 (mean' + row) (span_cell hrow) (h ▸ span_cell hrow)
  refine ⟨fun i hi => ?_, ?_, ?_⟩
  · have hcell : Span out (B * T * C) (out + row * C + i) := hspan _ (span_cell hi)
    have hnem : out + row * C + i ≠ mean' + row := fun h => houtm _ hcell (h ▸ span_cell hrow)
    have hner : out + row * C + i ≠ rstd' + row := fun h => houtr _ hcell (h ▸ span_cell hrow)
    rw [hm, hrun]
    · dsimp only
      rw [store_off hner, store_off hnem, fill_cell hi]
    · simp only [layernormRow, row_ptr]
      refine writes_bind_right ops.zero _ fun m => writes_bind_right ops.zero _ fun v => ?_
      refine writes_bind_left _ (writes_forRange ops.zero hi ?_)
      refine writes_bind_right ops.zero _ fun xi => writes_bind_right ops.zero _ fun w => ?_
      exact writes_bind_right ops.zero _ fun b => writes_write _ _
  · rw [hm, hrun]
    · dsimp only
      rw [store_off (Ne.symm hr), store_self]
    · simp only [layernormRow, row_ptr, Nat.div_add_mod']
      refine writes_bind_right ops.zero _ fun m => writes_bind_right ops.zero _ fun v => ?_
      refine writes_bind_right ops.zero _ fun _ => ?_
      exact writes_bind_left _ (writes_write _ _)
  · rw [hm, hrun]
    · dsimp only
      rw [store_self]
    · simp only [layernormRow, row_ptr, Nat.div_add_mod']
      refine writes_bind_right ops.zero _ fun m => writes_bind_right ops.zero _ fun v => ?_
      refine writes_bind_right ops.zero _ fun _ => writes_bind_right ops.zero _ fun _ => ?_
      exact writes_write _ _

/-- A cell of the output is a row of the weights applied to a row of the input. -/
theorem matmul_computes {out inp weight : Loc} {bias : Option Loc} {B T C OC idx : Nat}
    (hinp : Apart ⟨out, B * T * OC⟩ ⟨inp, B * T * C⟩)
    (hweight : Apart ⟨out, B * T * OC⟩ ⟨weight, OC * C⟩)
    (hbias : ∀ b, bias = some b → Apart ⟨out, B * T * OC⟩ ⟨b, OC⟩) (hidx : idx < B * T * OC) :
    ((matmulForward ops out inp weight bias B T C OC).serial.run m).2 (out + idx) =
      linear ops C (fun o i => m (weight + o * C + i)) (biasValue ops m bias)
        (fun i => m (inp + idx / OC * C + i)) (idx % OC) := by
  rw [serial_alone (matmul_noClash ops hinp hweight hbias) hidx]
  · show ((matmulCell ops ⟨out, inp, weight, bias, T, C, OC⟩ idx).run m).2 _ = _
    rw [matmulCell_run]
    exact store_self _ _ _
  · show (matmulCell ops ⟨out, inp, weight, bias, T, C, OC⟩ idx).Writes _
    simp only [matmulCell, cell_ptr]
    refine writes_bind_right ops.zero _ fun val => writes_bind_right ops.zero _ fun val => ?_
    exact writes_write _ _

/-- A cell of the output is `gelu` of the same cell of the input. -/
theorem gelu_computes {out inp : Loc} {N i : Nat} (hinp : Apart ⟨out, N⟩ ⟨inp, N⟩) (hi : i < N) :
    ((geluForward ops out inp N).serial.run m).2 (out + i) = gelu ops (m (inp + i)) := by
  rw [serial_alone (gelu_noClash ops hinp) hi]
  · exact store_self _ _ _
  · exact writes_bind_right ops.zero _ fun x => writes_write _ _

/-- A cell of the output is the sum of the same cells of the two inputs. -/
theorem residual_computes {out inp1 inp2 : Loc} {N i : Nat} (hinp1 : Apart ⟨out, N⟩ ⟨inp1, N⟩)
    (hinp2 : Apart ⟨out, N⟩ ⟨inp2, N⟩) (hi : i < N) :
    ((residualForward ops out inp1 inp2 N).serial.run m).2 (out + i) =
      ops.add (m (inp1 + i)) (m (inp2 + i)) := by
  rw [serial_alone (residual_noClash ops hinp1 hinp2) hi]
  · exact store_self _ _ _
  · exact writes_bind_right ops.zero _ fun x => writes_bind_right ops.zero _ fun y => writes_write _ _

/-- A row of the output is `softmax` of the same row of the input. -/
theorem softmax_computes {probs logits : Loc} {B T V r : Nat}
    (hlogits : Apart ⟨probs, B * T * V⟩ ⟨logits, B * T * V⟩) (hr : r < B * T * V) :
    ((softmaxForward ops probs logits B T V).serial.run m).2 (probs + r) =
      softmax ops V (fun i => m (logits + r / V * V + i)) (r % V) := by
  have hrow := row_lt hr
  have hcol := col_lt hr
  rw [cell_row probs r V, serial_alone (softmax_noClash ops hlogits) hrow]
  · show ((softmaxRow ops ⟨probs, logits, T, V⟩ (r / V)).run m).2 _ = _
    rw [softmaxRow_run ops _ _ (hlogits.part (fun x => span_row hrow) fun x => span_row hrow)]
    exact fill_cell hcol
  · show (softmaxRow ops ⟨probs, logits, T, V⟩ (r / V)).Writes _
    simp only [softmaxRow, row_ptr]
    refine writes_bind_right ops.zero _ fun maxval => writes_bind_left _ ?_
    refine writes_loop ops.zero hcol _ fun s => writes_bind_right ops.zero _ fun l => ?_
    exact writes_bind_left _ (writes_write _ _)

/-! ## attention -/

section Attention

variable {out preatt att inp : Loc} {B T C NH b t h : Nat}

/-- The unit of a batch, a position and a head. -/
theorem unit_of (ht : t < T) (hh : h < NH) :
    ((b * T + t) * NH + h) / (T * NH) = b ∧
      ((b * T + t) * NH + h) % (T * NH) / NH = t ∧ ((b * T + t) * NH + h) % (T * NH) % NH = h := by
  have hlt : t * NH + h < T * NH :=
    calc t * NH + h < t * NH + NH := Nat.add_lt_add_left hh _
      _ = (t + 1) * NH := (Nat.succ_mul t NH).symm
      _ ≤ T * NH := Nat.mul_le_mul_right NH ht
  have hunit : (b * T + t) * NH + h = T * NH * b + (t * NH + h) := by
    rw [Nat.add_mul, Nat.mul_assoc, Nat.mul_comm b, Nat.add_assoc]
  rw [hunit, Nat.mul_add_mod, Nat.mod_eq_of_lt hlt, Nat.mul_add_div (Nat.zero_lt_of_lt hlt),
    Nat.div_eq_of_lt hlt, Nat.mul_comm t NH, Nat.mul_add_div (Nat.zero_lt_of_lt hh),
    Nat.div_eq_of_lt hh, Nat.mul_add_mod, Nat.mod_eq_of_lt hh]
  exact ⟨rfl, rfl, rfl⟩

/-- A batch, a position and a head make a unit. -/
theorem unit_lt (hb : b < B) (ht : t < T) (hh : h < NH) :
    (b * T + t) * NH + h < B * T * NH := index_lt (index_lt hb ht) hh

/-- The scores and the weights of one head, and its part of the output. -/
theorem attention_computes (hT : 0 < T) (hNH : 0 < NH)
    (hout : ∀ s ∈ [Seg.mk preatt (B * NH * T * T), ⟨att, B * NH * T * T⟩, ⟨inp, B * T * (3 * C)⟩],
      Apart ⟨out, B * T * C⟩ s)
    (hpreatt : ∀ s ∈ [Seg.mk att (B * NH * T * T), ⟨inp, B * T * (3 * C)⟩],
      Apart ⟨preatt, B * NH * T * T⟩ s)
    (hatt : Apart ⟨att, B * NH * T * T⟩ ⟨inp, B * T * (3 * C)⟩)
    (hb : b < B) (ht : t < T) (hh : h < NH) :
    let m' := ((attentionForward ops out preatt att inp B T C NH).serial.run m).2
    let qkv := qkvOf ⟨out, preatt, att, inp, T, C, NH⟩ m b
    (∀ t2, t2 ≤ t → m' (preatt + ((b * NH + h) * T + t) * T + t2) =
      score ops C (C / NH) qkv h t t2) ∧
    (∀ t2, t2 < T → m' (att + ((b * NH + h) * T + t) * T + t2) =
      attWeight ops C (C / NH) qkv h t t2) ∧
    ∀ i, i < C / NH → m' (out + ((b * T + t) * C + h * (C / NH)) + i) =
      attend ops C (C / NH) qkv t (h * (C / NH) + i) := by
  have hclash := attention_noClash ops hT hNH hout hpreatt hatt
  simp only [List.forall_mem_cons] at hout hpreatt
  obtain ⟨hdivb, hdivt, hmodh⟩ := unit_of (b := b) ht hh
  have hunit := unit_lt hb ht hh
  have hrow : (b * NH + h) * T + t < B * NH * T := unit_lt hb hh ht
  have hP : ∀ x, Span (preatt + ((b * NH + h) * T + t) * T) T x → Span preatt (B * NH * T * T) x :=
    fun x => span_row hrow
  have hA : ∀ x, Span (att + ((b * NH + h) * T + t) * T) T x → Span att (B * NH * T * T) x :=
    fun x => span_row hrow
  have hO : ∀ x, Span (out + ((b * T + t) * C + h * (C / NH))) (C / NH) x →
      Span out (B * T * C) x := by
    intro x hx
    have hspan := attOut_span (p := out) (C := C) hT hNH hunit (x := x)
    rw [attOut, hdivb, hdivt, hmodh] at hspan
    exact hspan hx
  have hinp : ∀ t2, t2 ≤ t → ∀ j, j < C * 3 →
      Span inp (B * T * (3 * C)) (inp + ((b * T + t2) * (C * 3) + j)) := by
    intro t2 ht2 j hj
    rw [Nat.mul_comm C 3] at hj ⊢
    exact span_cell (unit_lt hb (Nat.lt_of_le_of_lt ht2 ht) hj)
  have hrun := attentionUnit_run ops (m := m) ⟨out, preatt, att, inp, T, C, NH⟩ hT hNH
    ((b * T + t) * NH + h) hdivb.symm hdivt.symm hmodh.symm rfl rfl rfl
    (fun t2 ht2 j hj => ⟨fun hx => hpreatt.2.1 _ (hP _ hx) (hinp t2 ht2 j hj),
      fun hx => hatt _ (hA _ hx) (hinp t2 ht2 j hj),
      fun hx => hout.2.2.1 _ (hO _ hx) (hinp t2 ht2 j hj)⟩)
    (hpreatt.1.symm.part hA hP) (hout.2.1.part hO hA)
  have hm : ∀ {x}, (attentionUnit ops ⟨out, preatt, att, inp, T, C, NH⟩
      ((b * T + t) * NH + h)).Writes x →
      ((attentionForward ops out preatt att inp B T C NH).serial.run m).2 x =
        ((attentionUnit ops ⟨out, preatt, att, inp, T, C, NH⟩
          ((b * T + t) * NH + h)).run m).2 x :=
    fun hx => serial_alone hclash hunit hx
  refine ⟨fun t2 ht2 => ?_, fun t2 ht2 => ?_, fun i hi => ?_⟩
  · have htT : t2 < T := Nat.lt_of_le_of_lt ht2 ht
    have hcell : Span preatt (B * NH * T * T) (preatt + ((b * NH + h) * T + t) * T + t2) :=
      hP _ (span_cell htT)
    rw [hm, hrun]
    · dsimp only
      rw [fill_beside (fun hx => hout.1 _ (hO _ hx) hcell) (Nat.le_refl _),
        fill_beside (fun hx => hpreatt.1 _ hcell (hA _ hx)) (Nat.le_refl _),
        fill_cell (Nat.lt_succ_of_le ht2)]
    · simp only [attentionUnit, preatt_ptr, hdivb, hdivt, hmodh]
      refine writes_bind_left _ (writes_loop ops.zero (Nat.lt_succ_of_le ht2) _ fun s => ?_)
      refine writes_bind_right ops.zero _ fun val => ?_
      exact writes_bind_left _ (writes_write _ _)
  · rw [hm, hrun]
    · dsimp only
      rw [fill_beside (fun hx => hout.2.1 _ (hO _ hx) (hA _ (span_cell ht2))) (Nat.le_refl _),
        fill_cell ht2]
    · simp only [attentionUnit, preatt_ptr, hdivb, hdivt, hmodh]
      refine writes_bind_right ops.zero _ fun maxval => writes_bind_right ops.zero _ fun sum => ?_
      refine writes_bind_left _ (writes_forRange ops.zero ht2 ?_)
      split
      · exact writes_bind_right ops.zero _ fun w => writes_write _ _
      · exact writes_write _ _
  · rw [hm, hrun]
    · exact fill_cell hi
    · simp only [attentionUnit, out_ptr, hdivb, hdivt, hmodh]
      refine writes_bind_right ops.zero _ fun maxval => writes_bind_right ops.zero _ fun sum => ?_
      refine writes_bind_right ops.zero _ fun _ => ?_
      exact writes_bind_left _ (writes_forRange ops.zero hi (writes_write _ _))

end Attention

end Gpt
