/-
  gpt — the kernels on sequences of two lengths.

  1. **Two runs** — of one kernel, on tensors of length `T₁` and `T₂`, one batch.  `J` relates the
     cells known to hold the same value in both; `Pairs p q n` are the first `n` cells from `p` and
     from `q`.
  2. **Specification** — each kernel, run on related inputs, adds the first `T₁` rows of its output
     (`xxx_twin`); the rows that only the longer run has are written beside what is known.
  3. **The crux (`rel_rows`, `attention_twin`)** — row after row becomes known, and the rows behind
     `T₁` disturb none of them.  Attention is the one kernel that looks at other positions: at those
     up to its own, which both runs have.
-/
import MiniLabs.Gpt.Parallel

set_option linter.unusedVariables false

namespace Gpt

open Access Access.Prog

/-- The first `n` cells from `p` and from `q`. -/
def Pairs (p q : Loc) (n : Nat) (x y : Loc) : Prop := ∃ i, i < n ∧ x = p + i ∧ y = q + i

/-- `J` and besides the pairs. -/
def Plus (J : Loc → Loc → Prop) (p q : Loc) (n : Nat) (x y : Loc) : Prop :=
  J x y ∨ Pairs p q n x y

/-- `J` does not touch the segment `s` of the one run and `t` of the other. -/
def Clear (J : Loc → Loc → Prop) (s t : Seg) : Prop :=
  ∀ x y, J x y → ¬ Span s.ptr s.len x ∧ ¬ Span t.ptr t.len y

/-- `J` relates the first `n` cells from `p` and from `q` to each other or not at all. -/
def Fits (J : Loc → Loc → Prop) (p q : Loc) (n : Nat) : Prop :=
  ∀ x y, J x y → ∀ i, i < n → (x = p + i ↔ y = q + i)

section Rules

variable {J : Loc → Loc → Prop} {p q a b : Loc} {n m k : Nat} {s t : Seg}

/-- No pairs are nothing more. -/
theorem plus_zero {x y : Loc} (h : Plus J p q 0 x y) : J x y := by
  rcases h with h | ⟨i, hi, -⟩
  · exact h
  · exact absurd hi (Nat.not_lt_zero i)

/-- A pair that has been added. -/
theorem plus_pair {i : Nat} (hi : i < n) : Plus J p q n (p + i) (q + i) := Or.inr ⟨i, hi, rfl, rfl⟩

/-- Pairs beside two segments leave them clear. -/
theorem Clear.plus (h : Clear J s t) (hs : Apart ⟨a, n⟩ s) (ht : Apart ⟨b, n⟩ t) :
    Clear (Plus J a b n) s t := by
  rintro x y (hxy | ⟨i, hi, rfl, rfl⟩)
  · exact h x y hxy
  · exact ⟨hs _ (span_cell hi), ht _ (span_cell hi)⟩

/-- Parts of what is clear are clear. -/
theorem Clear.part (h : Clear J s t) {s' t' : Seg}
    (hs : ∀ x, Span s'.ptr s'.len x → Span s.ptr s.len x)
    (ht : ∀ x, Span t'.ptr t'.len x → Span t.ptr t.len x) : Clear J s' t' :=
  fun x y hxy => ⟨fun hx => (h x y hxy).1 (hs x hx), fun hy => (h x y hxy).2 (ht y hy)⟩

/-- Pairs into clear segments fit what is known. -/
theorem Clear.fits (h : Clear J ⟨p, n⟩ ⟨q, m⟩) (hn : k ≤ n) (hm : k ≤ m) : Fits J p q k := by
  intro x y hxy i hi
  obtain ⟨hx, hy⟩ := h x y hxy
  constructor
  · rintro rfl
    exact absurd (span_cell (Nat.lt_of_lt_of_le hi hn)) hx
  · rintro rfl
    exact absurd (span_cell (Nat.lt_of_lt_of_le hi hm)) hy

/-- A cell behind the pairs is in none of them. -/
theorem Clear.left_ne (h : Clear J ⟨p, n⟩ t) {i : Nat} (hk : k ≤ i) (hi : i < n) {x y : Loc}
    (hxy : Plus J p q k x y) : x ≠ p + i := by
  rintro rfl
  rcases hxy with hxy | ⟨j, hj, hij, -⟩
  · exact (h _ _ hxy).1 (span_cell hi)
  · rw [Loc.add_inj] at hij
    omega

/-- The same of the other run. -/
theorem Clear.right_ne (h : Clear J s ⟨q, m⟩) {i : Nat} (hk : k ≤ i) (hi : i < m) {x y : Loc}
    (hxy : Plus J p q k x y) : y ≠ q + i := by
  rintro rfl
  rcases hxy with hxy | ⟨j, hj, -, hij⟩
  · exact (h _ _ hxy).2 (span_cell hi)
  · rw [Loc.add_inj] at hij
    omega

/-- The next pairs fit as well. -/
theorem Fits.plus (h : Fits J p q n) : Fits (Plus J p q k) p q n := by
  rintro x y (hxy | ⟨j, hj, rfl, rfl⟩) i hi
  · exact h x y hxy i hi
  · rw [Loc.add_inj, Loc.add_inj]

variable {F : Type}

/-- The next pair is written. -/
theorem rel_put (hfits : Fits J p q n) (hk : k < n) (v : F) :
    Rel (Plus J p q k) (write (p + k) v) (write (q + k) v) (Plus J p q (k + 1)) := by
  apply (rel_write (fun x y hxy => hfits.plus x y hxy k hk) v).conseq (fun _ _ h => h)
  rintro x y (h | ⟨i, hi, rfl, rfl⟩)
  · exact Or.inl (Or.inl h)
  · by_cases hik : i = k
    · exact Or.inr ⟨by rw [hik], by rw [hik]⟩
    · exact Or.inl (plus_pair (by omega))

/-- A pair is written again. -/
theorem rel_again (hfits : Fits J p q n) (hk : k < n) (v : F) :
    Rel J (write (p + k) v) (write (q + k) v) J :=
  (rel_write (fun x y hxy => hfits x y hxy k hk) v).conseq (fun _ _ h => h) fun _ _ => Or.inl

/-- A loop that writes pair after pair. -/
theorem rel_fill {f g : Nat → Prog Loc F Unit} (h : ∀ i, i < n →
    Rel (Plus J p q i) (f i) (g i) (Plus J p q (i + 1))) :
    Rel J (forRange n f) (forRange n g) (Plus J p q n) :=
  (rel_loop (Plus J p q) () fun i hi _ => h i hi).conseq (fun _ _ h => plus_zero h) fun _ _ h => h

/-- Both runs write beside what is known. -/
theorem rel_beside (h : Clear J ⟨p, n⟩ ⟨q, m⟩) (hn : k < n) (hm : k < m) (v : F) :
    Rel J (write (p + k) v) (write (q + k) v) J :=
  rel_again (h.fits (k := k + 1) hn hm) (Nat.lt_succ_self k) v

/-- The rows of a kernel: `n` of them in the short run, `m` in the long one. -/
theorem rel_rows {f g : Nat → Prog Loc F Unit} {w : Nat} (hnm : n ≤ m)
    (hrow : ∀ i, i < n → Rel (Plus J p q (i * w)) (f i) (g i) (Plus (Plus J p q (i * w))
      (p + i * w) (q + i * w) w))
    (hrest : ∀ i, n ≤ i → i < m → ∀ x y, Plus J p q (n * w) x y → ¬ (g i).Writes y) :
    Rel J (forRange n f) (forRange m g) (Plus J p q (n * w)) := by
  refine (rel_tails (fun i => Plus J p q (i * w)) (Nat.le_refl n) hnm ?_ ?_ hrest).conseq ?_
    fun _ _ h => h
  · intro i hi
    apply (hrow i hi).conseq (fun _ _ h => h)
    rintro x y (h | ⟨r, hr, rfl, rfl⟩)
    · exact Or.inl (Or.inl h)
    · by_cases hri : r < i * w
      · exact Or.inl (plus_pair hri)
      · refine Or.inr ⟨r - i * w, ?_, ?_, ?_⟩
        · rw [Nat.succ_mul] at hr
          omega
        · rw [Loc.add_assoc, Nat.add_sub_cancel' (Nat.le_of_not_lt hri)]
        · rw [Loc.add_assoc, Nat.add_sub_cancel' (Nat.le_of_not_lt hri)]
  · exact fun i hn hi => absurd hi (Nat.not_lt.mpr hn)
  · intro x y h
    rw [Nat.zero_mul] at h
    exact plus_zero h

/-- What is known before row `i` does not touch row `i`. -/
theorem clear_row {w i : Nat} (h : Clear J ⟨p, n * w⟩ ⟨q, m * w⟩) (hn : i < n) (hm : i < m) :
    Clear (Plus J p q (i * w)) ⟨p + i * w, w⟩ ⟨q + i * w, w⟩ := by
  have hpast : ∀ u : Loc, Apart ⟨u, i * w⟩ ⟨u + i * w, w⟩ := by
    rintro u x ⟨j, hj, rfl⟩ ⟨j', -, hjj⟩
    dsimp only at hj hjj
    rw [Loc.add_assoc, Loc.add_inj] at hjj
    omega
  exact (h.part (fun x => span_row hn) fun x => span_row hm).plus (hpast p) (hpast q)

/-- The long run's rows behind the common ones are beside what is known. -/
theorem rest_clear {w i : Nat} {s : Seg} (h : Clear J s ⟨q, m * w⟩) (hn : n ≤ i)
    (hm : i < m) {x y : Loc} (hxy : Plus J p q (n * w) x y) : ¬ Span (q + i * w) w y := by
  rintro hy
  rcases hxy with hxy | ⟨j, hj, -, rfl⟩
  · exact (h x y hxy).2 (span_row hm hy)
  · obtain ⟨r, hr, hjr⟩ := hy
    rw [Loc.add_assoc, Loc.add_inj] at hjr
    have hle := Nat.mul_le_mul_right w hn
    omega

end Rules

/-! ## The kernels by rows -/

section Kernels

variable {F : Type} (ops : FloatOps F) {J : Loc → Loc → Prop}

/-- A call with every index in order. -/
def RangeCall.serial (c : RangeCall F) : Prog Loc F Unit := forRange c.total c.body

/-- A cell of a related row. -/
theorem row_pair {p q : Loc} {n w i k : Nat} (h : ∀ r, r < n * w → J (p + r) (q + r))
    (hi : i < n) (hk : k < w) : J (p + i * w + k) (q + i * w + k) := by
  rw [Loc.add_assoc, Loc.add_assoc]
  apply h _
  calc i * w + k < i * w + w := Nat.add_lt_add_left hk _
    _ = (i + 1) * w := (Nat.succ_mul i w).symm
    _ ≤ n * w := Nat.mul_le_mul_right w hi

/-- **The rows of the embedding are the same**, as tokens and positions are. -/
theorem encoder_twin {out out' wte wpe : Loc} {inp inp' : Nat → Nat} {T₁ T₂ C : Nat}
    (hT : T₁ ≤ T₂) (hout : Clear J ⟨out, 1 * T₁ * C⟩ ⟨out', 1 * T₂ * C⟩)
    (hwte : ∀ i j : Nat, J (wte + i + j) (wte + i + j))
    (hwpe : ∀ i j : Nat, J (wpe + i + j) (wpe + i + j)) (hinp : ∀ i, i < T₁ → inp i = inp' i) :
    Rel J (encoderForward ops out inp wte wpe 1 T₁ C).serial
      (encoderForward ops out' inp' wte wpe 1 T₂ C).serial (Plus J out out' (1 * T₁ * C)) := by
  simp only [RangeCall.serial, encoderForward, Nat.one_mul] at hout ⊢
  refine rel_rows hT (fun i hi => ?_) fun i hn hm x y hxy hw => ?_
  · have hi' := Nat.lt_of_lt_of_le hi hT
    have hfits := (clear_row hout hi hi').fits (Nat.le_refl C) (Nat.le_refl C)
    simp only [encoderRow, row_ptr, Nat.div_add_mod']
    rw [Nat.mod_eq_of_lt hi, Nat.mod_eq_of_lt hi', hinp i hi]
    refine rel_fill fun k hk => ?_
    refine rel_bind (rel_read (Or.inl (Or.inl (hwte _ _)))) fun x => ?_
    refine rel_bind (rel_read (Or.inl (Or.inl (hwpe _ _)))) fun y => ?_
    exact rel_put hfits hk _
  · exact rest_clear hout hn hm hxy ((encoder_within ops _ i).writes hw)

/-- **The rows of a norm** come from the same rows. -/
theorem layernorm_twin {out mean rstd inp out' mean' rstd' inp' weight bias : Loc}
    {T₁ T₂ C : Nat} (hT : T₁ ≤ T₂) (hout : Clear J ⟨out, 1 * T₁ * C⟩ ⟨out', 1 * T₂ * C⟩)
    (hmean : Clear (Plus J out out' (1 * T₁ * C)) ⟨mean, 1 * T₁⟩ ⟨mean', 1 * T₂⟩)
    (hrstd : Clear (Plus J out out' (1 * T₁ * C)) ⟨rstd, 1 * T₁⟩ ⟨rstd', 1 * T₂⟩)
    (hinp : ∀ r, r < 1 * T₁ * C → J (inp + r) (inp' + r))
    (hweight : ∀ i : Nat, J (weight + i) (weight + i)) (hbias : ∀ i : Nat, J (bias + i) (bias + i)) :
    Rel J (layernormForward ops out mean rstd inp weight bias 1 T₁ C).serial
      (layernormForward ops out' mean' rstd' inp' weight bias 1 T₂ C).serial
      (Plus J out out' (1 * T₁ * C)) := by
  simp only [RangeCall.serial, layernormForward, Nat.one_mul] at hout hmean hrstd hinp ⊢
  refine rel_rows hT (fun i hi => ?_) fun i hn hm x y hxy hw => ?_
  · have hi' := Nat.lt_of_lt_of_le hi hT
    have hfits := (clear_row hout hi hi').fits (Nat.le_refl C) (Nat.le_refl C)
    -- what is known after the row is part of what is known in the end
    have hpart : ∀ x y, Plus (Plus J out out' (i * C)) (out + i * C) (out' + i * C) C x y →
        Plus J out out' (T₁ * C) x y := by
      rintro x y ((h | ⟨r, hr, rfl, rfl⟩) | ⟨r, hr, rfl, rfl⟩)
      · exact Or.inl h
      · exact plus_pair (Nat.lt_of_lt_of_le hr (Nat.mul_le_mul_right C (Nat.le_of_lt hi)))
      · exact row_pair (fun r hr => plus_pair hr) hi hr
    have hread : ∀ k, k < C → Plus J out out' (i * C) (inp + i * C + k) (inp' + i * C + k) :=
      fun k hk => Or.inl (row_pair hinp hi hk)
    simp only [layernormRow, row_ptr, Nat.div_add_mod']
    refine rel_bind (rel_loop_keep _ fun k hk m => ?_) fun m => ?_
    · exact rel_bind (rel_read (hread k hk)) fun x => rel_pure _
    refine rel_bind (rel_loop_keep _ fun k hk v => ?_) fun v => ?_
    · exact rel_bind (rel_read (hread k hk)) fun x => rel_pure _
    refine rel_bind (M := Plus (Plus J out out' (i * C)) (out + i * C) (out' + i * C) C)
      (rel_fill fun k hk => ?_) fun _ => ?_
    · refine rel_bind (rel_read (Or.inl (hread k hk))) fun x => ?_
      refine rel_bind (rel_read (Or.inl (Or.inl (hweight k)))) fun w => ?_
      refine rel_bind (rel_read (Or.inl (Or.inl (hbias k)))) fun b => ?_
      exact rel_put hfits hk _
    refine rel_bind (rel_beside ?_ hi hi' _) fun _ => rel_beside ?_ hi hi' _
    · exact fun x y hxy => hmean x y (hpart x y hxy)
    · exact fun x y hxy => hrstd x y (hpart x y hxy)
  · rcases (layernorm_within ops _ i).writes hw with hw | rfl | rfl
    · exact rest_clear hout hn hm hxy hw
    · exact (hmean _ _ hxy).2 (span_cell hm)
    · exact (hrstd _ _ hxy).2 (span_cell hm)

/-- **The rows of `softmax`** come from the same rows. -/
theorem softmax_twin {probs logits probs' logits' : Loc} {T₁ T₂ V : Nat} (hT : T₁ ≤ T₂)
    (hprobs : Clear J ⟨probs, 1 * T₁ * V⟩ ⟨probs', 1 * T₂ * V⟩)
    (hlogits : ∀ r, r < 1 * T₁ * V → J (logits + r) (logits' + r)) :
    Rel J (softmaxForward ops probs logits 1 T₁ V).serial
      (softmaxForward ops probs' logits' 1 T₂ V).serial (Plus J probs probs' (1 * T₁ * V)) := by
  simp only [RangeCall.serial, softmaxForward, Nat.one_mul] at hprobs hlogits ⊢
  refine rel_rows hT (fun i hi => ?_) fun i hn hm x y hxy hw => ?_
  · have hi' := Nat.lt_of_lt_of_le hi hT
    have hfits := (clear_row hprobs hi hi').fits (Nat.le_refl V) (Nat.le_refl V)
    have hread : ∀ k, k < V → Plus J probs probs' (i * V) (logits + i * V + k)
        (logits' + i * V + k) := fun k hk => Or.inl (row_pair hlogits hi hk)
    simp only [softmaxRow, row_ptr]
    refine rel_bind (rel_loop_keep _ fun k hk maxval => ?_) fun maxval => ?_
    · exact rel_bind (rel_read (hread k hk)) fun l => rel_pure _
    refine rel_bind (M := Plus (Plus J probs probs' (i * V)) (probs + i * V) (probs' + i * V) V)
      ?_ fun sum => ?_
    · refine (rel_loop (Plus (Plus J probs probs' (i * V)) (probs + i * V) (probs' + i * V)) _
        fun k hk sum => ?_).conseq (fun _ _ h => plus_zero h) fun _ _ h => h
      refine rel_bind (rel_read (Or.inl (hread k hk))) fun l => ?_
      exact rel_bind (rel_put hfits hk _) fun _ => rel_pure _
    refine rel_loop_keep () fun k hk _ => ?_
    exact rel_bind (rel_read (plus_pair hk)) fun p => rel_again hfits.plus hk _
  · exact rest_clear hprobs hn hm hxy ((softmax_within ops _ i).writes hw)

/-! ## The kernels by cells -/

/-- The cells of a kernel: `n` of them in the short run, `m` in the long one. -/
theorem rel_cells {f g : Nat → Prog Loc F Unit} {p q : Loc} {n m : Nat} (hnm : n ≤ m)
    (hclear : Clear J ⟨p, n⟩ ⟨q, m⟩)
    (hcell : ∀ i, i < n → Rel (Plus J p q i) (f i) (g i) (Plus J p q (i + 1)))
    (hrest : ∀ i, i < m → ∀ y, (g i).Writes y → y = q + i) :
    Rel J (forRange n f) (forRange m g) (Plus J p q n) := by
  refine (rel_tails (Plus J p q) (Nat.le_refl n) hnm hcell ?_ ?_).conseq
    (fun _ _ h => plus_zero h) fun _ _ h => h
  · exact fun i hn hi => absurd hi (Nat.not_lt.mpr hn)
  · intro i hn hm x y hxy hw
    exact hclear.right_ne hn hm hxy (hrest i hm y hw)

/-- **The cells of a matmul** come from the same rows. -/
theorem matmul_twin {out inp out' inp' weight : Loc} {bias : Option Loc} {T₁ T₂ C OC : Nat}
    (hT : T₁ ≤ T₂) (hOC : 0 < OC) (hout : Clear J ⟨out, 1 * T₁ * OC⟩ ⟨out', 1 * T₂ * OC⟩)
    (hinp : ∀ r, r < 1 * T₁ * C → J (inp + r) (inp' + r))
    (hweight : ∀ i j : Nat, J (weight + i + j) (weight + i + j))
    (hbias : ∀ b, bias = some b → ∀ i : Nat, J (b + i) (b + i)) :
    Rel J (matmulForward ops out inp weight bias 1 T₁ C OC).serial
      (matmulForward ops out' inp' weight bias 1 T₂ C OC).serial (Plus J out out' (1 * T₁ * OC)) := by
  simp only [RangeCall.serial, matmulForward, Nat.one_mul] at hout hinp ⊢
  have hle := Nat.mul_le_mul_right OC hT
  refine rel_cells hle hout (fun i hi => ?_) fun i hi y hw => (matmul_within ops _ i hOC).writes hw
  have hrow : i / OC < T₁ := Nat.div_lt_of_lt_mul (Nat.mul_comm OC _ ▸ hi)
  simp only [matmulCell, cell_ptr]
  refine rel_bind (M := Plus J out out' i) ?_ fun val => ?_
  · cases hb : bias with
    | none => exact rel_pure _
    | some b => exact rel_read (Or.inl (hbias b hb _))
  refine rel_bind (rel_loop_keep _ fun k hk val => ?_) fun val => ?_
  · refine rel_bind (rel_read (Or.inl (row_pair hinp hrow hk))) fun x => ?_
    exact rel_bind (rel_read (Or.inl (hweight _ _))) fun w => rel_pure _
  · exact rel_put (hout.fits (Nat.le_refl _) hle) hi _

/-- **The cells of `gelu`** come from the same cells. -/
theorem gelu_twin {out inp out' inp' : Loc} {N₁ N₂ : Nat} (hN : N₁ ≤ N₂)
    (hout : Clear J ⟨out, N₁⟩ ⟨out', N₂⟩) (hinp : ∀ r, r < N₁ → J (inp + r) (inp' + r)) :
    Rel J (geluForward ops out inp N₁).serial (geluForward ops out' inp' N₂).serial
      (Plus J out out' N₁) := by
  refine rel_cells hN hout (fun i hi => ?_) fun i hi y hw => (gelu_within ops _ i).writes hw
  refine rel_bind (rel_read (Or.inl (hinp i hi))) fun x => ?_
  exact rel_put (hout.fits (Nat.le_refl _) hN) hi _

/-- **The cells of a residual** come from the same cells. -/
theorem residual_twin {out inp1 inp2 out' inp1' inp2' : Loc} {N₁ N₂ : Nat} (hN : N₁ ≤ N₂)
    (hout : Clear J ⟨out, N₁⟩ ⟨out', N₂⟩) (hinp1 : ∀ r, r < N₁ → J (inp1 + r) (inp1' + r))
    (hinp2 : ∀ r, r < N₁ → J (inp2 + r) (inp2' + r)) :
    Rel J (residualForward ops out inp1 inp2 N₁).serial
      (residualForward ops out' inp1' inp2' N₂).serial (Plus J out out' N₁) := by
  refine rel_cells hN hout (fun i hi => ?_) fun i hi y hw => (residual_within ops _ i).writes hw
  refine rel_bind (rel_read (Or.inl (hinp1 i hi))) fun x => ?_
  refine rel_bind (rel_read (Or.inl (hinp2 i hi))) fun y => ?_
  exact rel_put (hout.fits (Nat.le_refl _) hN) hi _

/-! ## attention -/

/-- One unit of the first batch.  `preatt` and `att` are written and read in between. -/
theorem attentionUnit_twin {out preatt att inp out' preatt' att' inp' : Loc}
    {T₁ T₂ C NH unit o : Nat} (hT : T₁ ≤ T₂) (hNH : 0 < NH) (hunit : unit < T₁ * NH)
    (ho : unit / NH * C + unit % NH * (C / NH) = o)
    (hinp : ∀ r, r < T₁ * (C * 3) → J (inp + r) (inp' + r))
    (hpreatt : Clear J ⟨preatt + (unit % NH * T₁ + unit / NH) * T₁, T₁⟩
      ⟨preatt' + (unit % NH * T₂ + unit / NH) * T₂, T₂⟩)
    (hatt : Clear (Plus J (preatt + (unit % NH * T₁ + unit / NH) * T₁)
        (preatt' + (unit % NH * T₂ + unit / NH) * T₂) (unit / NH + 1))
      ⟨att + (unit % NH * T₁ + unit / NH) * T₁, T₁⟩
      ⟨att' + (unit % NH * T₂ + unit / NH) * T₂, T₂⟩)
    (hout : Clear (Plus (Plus J (preatt + (unit % NH * T₁ + unit / NH) * T₁)
        (preatt' + (unit % NH * T₂ + unit / NH) * T₂) (unit / NH + 1))
        (att + (unit % NH * T₁ + unit / NH) * T₁) (att' + (unit % NH * T₂ + unit / NH) * T₂)
        (unit / NH + 1))
      ⟨out + o, C / NH⟩ ⟨out' + o, C / NH⟩) :
    Rel J (attentionUnit ops ⟨out, preatt, att, inp, T₁, C, NH⟩ unit)
      (attentionUnit ops ⟨out', preatt', att', inp', T₂, C, NH⟩ unit)
      (Plus J (out + o) (out' + o) (C / NH)) := by
  have hunit' : unit < T₂ * NH := Nat.lt_of_lt_of_le hunit (Nat.mul_le_mul_right NH hT)
  have ht : unit / NH < T₁ := Nat.div_lt_of_lt_mul (Nat.mul_comm T₁ NH ▸ hunit)
  have hh : unit % NH < NH := Nat.mod_lt unit hNH
  simp only [attentionUnit, preatt_ptr]
  simp only [out_ptr]
  simp only [Nat.div_eq_of_lt hunit, Nat.div_eq_of_lt hunit', Nat.mod_eq_of_lt hunit,
    Nat.mod_eq_of_lt hunit', Nat.zero_mul, Nat.zero_add, ho]
  -- a query, key or value cell: column `k * C + h * hs + i` of a row up to `t`
  have hcell : ∀ t2 k i, t2 ≤ unit / NH → k ≤ 2 → i < C / NH → ∀ r,
      r = t2 * (C * 3) + (unit % NH * (C / NH) + k * C + i) → J (inp + r) (inp' + r) := by
    rintro t2 k i ht2 hk hi r rfl
    have hcol := head_lt hh hi
    have hkC : k * C ≤ 2 * C := Nat.mul_le_mul_right C hk
    apply hinp _
    calc _ < t2 * (C * 3) + C * 3 := Nat.add_lt_add_left (by omega) _
      _ = (t2 + 1) * (C * 3) := (Nat.succ_mul t2 _).symm
      _ ≤ T₁ * (C * 3) := Nat.mul_le_mul_right _ (Nat.lt_of_le_of_lt ht2 ht)
  generalize preatt + (unit % NH * T₁ + unit / NH) * T₁ = p at *
  generalize preatt' + (unit % NH * T₂ + unit / NH) * T₂ = p' at *
  generalize att + (unit % NH * T₁ + unit / NH) * T₁ = a at *
  generalize att' + (unit % NH * T₂ + unit / NH) * T₂ = a' at *
  generalize out + o = q at *
  generalize out' + o = q' at *
  have hfp : Fits J p p' (unit / NH + 1) := hpreatt.fits ht (Nat.lt_of_lt_of_le ht hT)
  have hfa : Fits (Plus J p p' (unit / NH + 1)) a a' (unit / NH + 1) :=
    hatt.fits ht (Nat.lt_of_lt_of_le ht hT)
  have hfo := hout.fits (Nat.le_refl (C / NH)) (Nat.le_refl (C / NH))
  refine rel_bind (M := Plus J p p' (unit / NH + 1)) ?_ fun maxval => ?_
  · refine (rel_loop (Plus J p p') _ fun t2 ht2 maxval => ?_).conseq (fun _ _ h => plus_zero h)
      fun _ _ h => h
    refine rel_bind (rel_loop_keep _ fun i hi val => ?_) fun val => ?_
    · refine rel_bind (rel_read (Or.inl ?_)) fun y => ?_
      · rw [Loc.add_assoc, Loc.add_assoc]
        apply hcell _ 0 i (Nat.le_refl _) (by omega) hi _
        omega
      · refine rel_bind (rel_read (Or.inl ?_)) fun k => rel_pure _
        rw [Loc.add_assoc, Loc.add_assoc, Loc.add_assoc, Loc.add_assoc]
        apply hcell t2 1 i (Nat.le_of_lt_succ ht2) (by omega) hi _
        omega
    · exact rel_bind (rel_put hfp ht2 _) fun _ => rel_pure _
  refine rel_bind (M := Plus (Plus J p p' (unit / NH + 1)) a a' (unit / NH + 1)) ?_
    fun expsum => ?_
  · refine (rel_loop (Plus (Plus J p p' (unit / NH + 1)) a a') _ fun t2 ht2 expsum => ?_).conseq
      (fun _ _ h => plus_zero h) fun _ _ h => h
    refine rel_bind (rel_read (Or.inl (plus_pair ht2))) fun x => ?_
    exact rel_bind (rel_put hfa ht2 _) fun _ => rel_pure _
  -- behind the position the masked cells are zeroed, as many as the sequence has
  refine rel_bind (M := Plus (Plus J p p' (unit / NH + 1)) a a' (unit / NH + 1)) ?_ fun _ => ?_
  · refine rel_tails (fun _ => Plus (Plus J p p' (unit / NH + 1)) a a' (unit / NH + 1)) ht
      (Nat.lt_of_lt_of_le ht hT) (fun t2 ht2 => ?_) ?_ ?_
    · have hle : t2 ≤ unit / NH := Nat.le_of_lt_succ ht2
      rw [if_pos hle, if_pos hle]
      exact rel_bind (rel_read (plus_pair ht2)) fun w => rel_again hfa.plus ht2 _
    · intro t2 hle ht2 x y hxy hw
      rw [if_neg (Nat.not_le_of_lt hle)] at hw
      exact hatt.left_ne hle ht2 hxy (hw.resolve_right id)
    · intro t2 hle ht2 x y hxy hw
      rw [if_neg (Nat.not_le_of_lt hle)] at hw
      exact hatt.right_ne hle ht2 hxy (hw.resolve_right id)
  refine rel_bind (M := Plus (Plus (Plus J p p' (unit / NH + 1)) a a' (unit / NH + 1)) q q'
    (C / NH)) (rel_fill fun i hi => rel_put hfo hi _) fun _ => ?_
  refine (rel_loop_keep () fun t2 ht2 _ => ?weigh).conseq (fun _ _ h => h) ?drop
  case drop =>
    rintro x y (h | h)
    · exact Or.inl (Or.inl (Or.inl h))
    · exact Or.inr h
  refine rel_bind (rel_read (Or.inl (plus_pair ht2))) fun w => ?_
  refine rel_loop_keep () fun i hi _ => ?_
  refine rel_bind (rel_read (plus_pair hi)) fun x => ?_
  refine rel_bind (rel_read (Or.inl (Or.inl (Or.inl ?_)))) fun v => rel_again hfo.plus hi _
  rw [Loc.add_assoc, Loc.add_assoc, Loc.add_assoc, Loc.add_assoc]
  apply hcell t2 2 i (Nat.le_of_lt_succ ht2) (by omega) hi _
  omega

/-- **The rows of attention** come from the rows up to their own, which both runs have. -/
theorem attention_twin {out preatt att inp out' preatt' att' inp' : Loc} {T₁ T₂ C NH : Nat}
    (hT : T₁ ≤ T₂) (hNH : 0 < NH) (hdvd : NH ∣ C)
    (hinp : ∀ r, r < 1 * T₁ * (3 * C) → J (inp + r) (inp' + r))
    (hout : Clear J ⟨out, 1 * T₁ * C⟩ ⟨out', 1 * T₂ * C⟩)
    (hpreatt : Clear (Plus J out out' (1 * T₁ * C)) ⟨preatt, 1 * NH * T₁ * T₁⟩ ⟨preatt', 1 * NH * T₂ * T₂⟩)
    (hatt : Clear (Plus J out out' (1 * T₁ * C)) ⟨att, 1 * NH * T₁ * T₁⟩ ⟨att', 1 * NH * T₂ * T₂⟩)
    (hpa : Apart ⟨preatt, 1 * NH * T₁ * T₁⟩ ⟨att, 1 * NH * T₁ * T₁⟩)
    (hpa' : Apart ⟨preatt', 1 * NH * T₂ * T₂⟩ ⟨att', 1 * NH * T₂ * T₂⟩)
    (hpo : Apart ⟨preatt, 1 * NH * T₁ * T₁⟩ ⟨out, 1 * T₁ * C⟩)
    (hpo' : Apart ⟨preatt', 1 * NH * T₂ * T₂⟩ ⟨out', 1 * T₂ * C⟩)
    (hao : Apart ⟨att, 1 * NH * T₁ * T₁⟩ ⟨out, 1 * T₁ * C⟩)
    (hao' : Apart ⟨att', 1 * NH * T₂ * T₂⟩ ⟨out', 1 * T₂ * C⟩) :
    Rel J (attentionForward ops out preatt att inp 1 T₁ C NH).serial
      (attentionForward ops out' preatt' att' inp' 1 T₂ C NH).serial
      (Plus J out out' (1 * T₁ * C)) := by
  have hwidth : ∀ T, T * NH * (C / NH) = T * C := by
    intro T
    rw [Nat.mul_assoc, Nat.mul_div_cancel' hdvd]
  -- the units fill the rows of `out` from left to right
  have hunit : ∀ unit, unit / NH * C + unit % NH * (C / NH) = unit * (C / NH) := by
    intro unit
    rw [← Nat.mul_div_cancel' hdvd, Nat.mul_div_cancel_left _ hNH, ← Nat.mul_assoc,
      ← Nat.add_mul, Nat.div_add_mod']
  have hrow : ∀ T unit, unit < T * NH → unit % NH * T + unit / NH < NH * T := by
    intro T unit hu
    calc unit % NH * T + unit / NH
        < unit % NH * T + T := Nat.add_lt_add_left (Nat.div_lt_of_lt_mul (Nat.mul_comm T NH ▸ hu)) _
      _ = (unit % NH + 1) * T := (Nat.succ_mul _ T).symm
      _ ≤ NH * T := Nat.mul_le_mul_right T (Nat.mod_lt unit hNH)
  have hle := Nat.mul_le_mul_right NH hT
  simp only [RangeCall.serial, attentionForward, Nat.one_mul] at *
  rw [Nat.mul_comm 3 C] at hinp
  rw [← hwidth T₁] at hout hpreatt hatt hpo hao ⊢
  rw [← hwidth T₂] at hout hpo' hao'
  refine rel_rows hle (fun i hi => ?_) fun i hn hm x y hxy hw => ?_
  · have hi' := Nat.lt_of_lt_of_le hi hle
    have hpart : ∀ x y, Plus J out out' (i * (C / NH)) x y →
        Plus J out out' (T₁ * NH * (C / NH)) x y := by
      rintro x y (h | ⟨r, hr, rfl, rfl⟩)
      · exact Or.inl h
      · exact plus_pair (Nat.lt_of_lt_of_le hr (Nat.mul_le_mul_right _ (Nat.le_of_lt hi)))
    have hspan : ∀ (p : Loc) x, Span (p + (i % NH * T₁ + i / NH) * T₁) T₁ x →
        Span p (NH * T₁ * T₁) x := fun p x => span_row (hrow T₁ i hi)
    have hspan' : ∀ (p : Loc) x, Span (p + (i % NH * T₂ + i / NH) * T₂) T₂ x →
        Span p (NH * T₂ * T₂) x := fun p x => span_row (hrow T₂ i hi')
    have ht : i / NH + 1 ≤ T₁ := Nat.div_lt_of_lt_mul (Nat.mul_comm T₁ NH ▸ hi)
    have hshort : ∀ (p : Loc) x, Span (p + (i % NH * T₁ + i / NH) * T₁) (i / NH + 1) x →
        Span p (NH * T₁ * T₁) x := fun p x hx => hspan p x (hx.imp fun j hj =>
          ⟨Nat.lt_of_lt_of_le hj.1 ht, hj.2⟩)
    have hshort' : ∀ (p : Loc) x, Span (p + (i % NH * T₂ + i / NH) * T₂) (i / NH + 1) x →
        Span p (NH * T₂ * T₂) x := fun p x hx => hspan' p x (hx.imp fun j hj =>
          ⟨Nat.lt_of_lt_of_le hj.1 (Nat.le_trans ht hT), hj.2⟩)
    have hP : Apart ⟨preatt + (i % NH * T₁ + i / NH) * T₁, i / NH + 1⟩
        ⟨att + (i % NH * T₁ + i / NH) * T₁, T₁⟩ := hpa.part (hshort preatt) (hspan att)
    have hP' : Apart ⟨preatt' + (i % NH * T₂ + i / NH) * T₂, i / NH + 1⟩
        ⟨att' + (i % NH * T₂ + i / NH) * T₂, T₂⟩ := hpa'.part (hshort' preatt') (hspan' att')
    have hO : ∀ x, Span (out + i * (C / NH)) (C / NH) x → Span out (T₁ * NH * (C / NH)) x :=
      fun x => span_row hi
    have hO' : ∀ x, Span (out' + i * (C / NH)) (C / NH) x → Span out' (T₂ * NH * (C / NH)) x :=
      fun x => span_row hi'
    refine attentionUnit_twin ops hT hNH hi (hunit i) (fun r hr => Or.inl (hinp r hr)) ?_ ?_ ?_
    · exact Clear.part (fun x y h => hpreatt x y (hpart x y h)) (hspan preatt) (hspan' preatt')
    · refine Clear.plus ?_ hP hP'
      exact Clear.part (fun x y h => hatt x y (hpart x y h)) (hspan att) (hspan' att')
    · refine Clear.plus (Clear.plus (clear_row hout hi hi') ?_ ?_) ?_ ?_
      · exact hpo.part (hshort preatt) hO
      · exact hpo'.part (hshort' preatt') hO'
      · exact hao.part (hshort att) hO
      · exact hao'.part (hshort' att') hO'
  · have hT2 : 0 < T₂ := Nat.pos_of_ne_zero fun h => by
      rw [h, Nat.zero_mul] at hm
      exact Nat.not_lt_zero i hm
    have hb : i < 1 * T₂ * NH := by rwa [Nat.one_mul]
    have hspan : ∀ (p : Loc), Span (p + attRow T₂ NH i * T₂) T₂ y → Span p (NH * T₂ * T₂) y := by
      intro p hy
      have h := span_row (attRow_lt hT2 hNH hb) hy
      rwa [Nat.one_mul] at h
    rcases (attention_within ops ⟨out', preatt', att', inp', T₂, C, NH⟩ hT2 hNH i).writes hw with
      hw | hw | hw
    · exact (hpreatt x y hxy).2 (hspan preatt' hw)
    · exact (hatt x y hxy).2 (hspan att' hw)
    · dsimp only at hw
      rw [attOut, Nat.div_eq_of_lt hm, Nat.mod_eq_of_lt hm, Nat.zero_mul, Nat.zero_add,
        hunit] at hw
      exact rest_clear hout hn hm hxy hw

end Kernels
end Gpt
