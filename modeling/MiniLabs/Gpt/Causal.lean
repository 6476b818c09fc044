/-
  gpt — causality of the forward pass.

  1. **Specification** — two runs of `gpt2_forward`, one batch each, on `T₁` and on `T₂ ≥ T₁`
     tokens, that agree on the first `T₁` tokens and on the parameters.  `forward_causal`: where
     the `int`s of both fit, both leave a memory, and the two agree on the logits and the
     probabilities of the first `T₁` positions; whatever the activations held before, whatever
     the numbers of workers and the interleavings are.

  2. **The invariant** — `Known slots` relates the parameters, and the first `T₁` positions of the
     slots listed.  The same cell of a slot has another address in each run, as every stride
     depends on the length.

  3. **The crux (`layer_causal`)** — call after call one slot becomes known, and the rest may be
     forgotten; between two layers only the residual need be known.  The matrices never are: of
     each row only the part up to its own position is written, and only that part is read.

  4. **Where it ends** — the sizes grow with the length.  On `longModel` the logits of one position
     are in range and those of two are not (`long_overflows`).
-/
import MiniLabs.Gpt.Twin

set_option linter.unusedVariables false

namespace Gpt

open Access Access.Prog

section Known

variable (c : GPT2Config) (T₁ T₂ : Nat)

/-- The parameters, and of each slot the part that the short run has. -/
def Known (slots : List (ActivationTensor × Nat)) (x y : Loc) : Prop :=
  (∃ a, x = .par a ∧ y = .par a) ∨ ∃ s ∈ slots,
    Pairs (slot c 1 T₁ s.1 s.2) (slot c 1 T₂ s.1 s.2) (perLayer c 1 T₁ s.1) x y

variable {c T₁ T₂} {slots slots' : List (ActivationTensor × Nat)}

/-- The parameters are the same in both runs. -/
theorem known_par (a : Nat) : Known c T₁ T₂ slots (.par a) (.par a) := Or.inl ⟨a, rfl, rfl⟩

/-- What is known of a slot is its first `T₁` rows. -/
theorem known_slot {t : ActivationTensor} {l : Nat} (h : (t, l) ∈ slots) {r : Nat}
    (hr : r < perLayer c 1 T₁ t) :
    Known c T₁ T₂ slots (slot c 1 T₁ t l + r) (slot c 1 T₂ t l + r) :=
  Or.inr ⟨(t, l), h, r, hr, rfl, rfl⟩

/-- One more slot is known; others may be forgotten. -/
theorem rel_add {F : Type} {p q : Prog Loc F Unit} {t : ActivationTensor} {l : Nat}
    (h : Rel (Known c T₁ T₂ slots) p q (Plus (Known c T₁ T₂ slots)
      (slot c 1 T₁ t l) (slot c 1 T₂ t l) (perLayer c 1 T₁ t)))
    (hslots : ∀ s ∈ slots', s = (t, l) ∨ s ∈ slots) :
    Rel (Known c T₁ T₂ slots) p q (Known c T₁ T₂ slots') := by
  apply h.conseq (fun _ _ h => h)
  rintro x y (hpar | ⟨s, hs, hpair⟩)
  · exact Or.inl (Or.inl hpar)
  · rcases hslots s hs with rfl | hs
    · exact Or.inr hpair
    · exact Or.inl (Or.inr ⟨s, hs, hpair⟩)

/-- A layer of the longer run is at least as large. -/
theorem perLayer_mono (hT : T₁ ≤ T₂) (t : ActivationTensor) :
    perLayer c 1 T₁ t ≤ perLayer c 1 T₂ t := by
  have hpos : 1 * T₁ ≤ 1 * T₂ := Nat.mul_le_mul_left 1 hT
  have hrow : ∀ w, 1 * T₁ * w ≤ 1 * T₂ * w := fun w => Nat.mul_le_mul_right w hpos
  have hsquare : 1 * c.numHeads * T₁ * T₁ ≤ 1 * c.numHeads * T₂ * T₂ :=
    Nat.mul_le_mul (Nat.mul_le_mul_left _ hT) hT
  cases t <;> first | exact hrow _ | exact hpos | exact hsquare

/-- The slot is none of those known. -/
def Fresh (c : GPT2Config) (slots : List (ActivationTensor × Nat)) (t : ActivationTensor)
    (l : Nat) : Prop :=
  l < layersOf c t ∧ ∀ s ∈ slots, s.2 < layersOf c s.1 ∧ (s.1 ≠ t ∨ s.2 ≠ l)

/-- What is known does not touch a fresh slot. -/
theorem clear_known (hT : T₁ ≤ T₂) {t : ActivationTensor} {l : Nat} (h : Fresh c slots t l) :
    Clear (Known c T₁ T₂ slots) (slotSeg c 1 T₁ t l) (slotSeg c 1 T₂ t l) := by
  rintro x y (⟨a, rfl, rfl⟩ | ⟨s, hs, r, hr, rfl, rfl⟩)
  · refine ⟨?_, ?_⟩ <;> rintro ⟨i, -, hi⟩ <;> cases hi
  · obtain ⟨hsl, hne⟩ := h.2 s hs
    refine ⟨?_, ?_⟩
    · exact slot_apart hsl h.1 hne _ (span_cell hr)
    · exact slot_apart hsl h.1 hne _ (span_cell (Nat.lt_of_lt_of_le hr (perLayer_mono hT s.1)))

/-- Nor does it together with another slot that has just become known. -/
theorem clear_plus (hT : T₁ ≤ T₂) {t u : ActivationTensor} {l : Nat} (h : Fresh c slots t l)
    (hu : l < layersOf c u) (hut : u ≠ t) :
    Clear (Plus (Known c T₁ T₂ slots) (slot c 1 T₁ u l) (slot c 1 T₂ u l) (perLayer c 1 T₁ u))
      (slotSeg c 1 T₁ t l) (slotSeg c 1 T₂ t l) := by
  apply (clear_known hT h).plus (slot_apart hu h.1 (Or.inl hut))
  rintro x ⟨i, hi, rfl⟩
  exact slot_apart hu h.1 (Or.inl hut) _ (span_cell (Nat.lt_of_lt_of_le hi (perLayer_mono hT u)))

end Known

/-! ## Lists of calls -/

section Calls

variable {F : Type} {K M K' : Loc → Loc → Prop}

/-- One call and then the others. -/
theorem runSerial_cons (call : RangeCall F) (cs : List (RangeCall F)) (m : Mem F) :
    runSerial (call :: cs) m = runSerial cs (call.serial.run m).2 := by
  rw [RangeCall.serial, run_forRange]
  rfl

/-- Some calls and then the others. -/
theorem runSerial_append (cs ds : List (RangeCall F)) (m : Mem F) :
    runSerial (cs ++ ds) m = runSerial ds (runSerial cs m) := List.foldl_append

/-- From memories that agree along `K` the calls lead to memories that agree along `K'`. -/
def RelCalls (K : Loc → Loc → Prop) (cs ds : List (RangeCall F)) (K' : Loc → Loc → Prop) : Prop :=
  ∀ m m' : Mem F, Agree K m m' → Agree K' (runSerial cs m) (runSerial ds m')

/-- No calls change nothing. -/
theorem RelCalls.nil : RelCalls K ([] : List (RangeCall F)) [] K := fun _ _ h => h

/-- **One more call**, in both runs. -/
theorem RelCalls.cons {a b : RangeCall F} {cs ds : List (RangeCall F)}
    (h : Rel K a.serial b.serial M) (hs : RelCalls M cs ds K') :
    RelCalls K (a :: cs) (b :: ds) K' := by
  intro m m' hm
  rw [runSerial_cons, runSerial_cons]
  exact hs _ _ (h m m' hm).2

/-- Calls behind one another. -/
theorem RelCalls.append {cs ds cs' ds' : List (RangeCall F)} (h : RelCalls K cs ds M)
    (hs : RelCalls M cs' ds' K') : RelCalls K (cs ++ cs') (ds ++ ds') K' := by
  intro m m' hm
  rw [runSerial_append, runSerial_append]
  exact hs _ _ (h m m' hm)

end Calls

/-! ## A layer -/

section Layer

variable {F : Type} (ops : FloatOps F) {c : GPT2Config} {T₁ T₂ : Nat}

/-- Where nothing is known every slot is fresh. -/
theorem fresh_nil {t : ActivationTensor} {l : Nat} (hl : l < layersOf c t) : Fresh c [] t l :=
  ⟨hl, fun s hs => absurd hs List.not_mem_nil⟩

/-- A slot of another tensor stays fresh. -/
theorem Fresh.cons {t u : ActivationTensor} {l k : Nat} {slots : List (ActivationTensor × Nat)}
    (h : Fresh c slots t l) (hk : k < layersOf c u) (hut : u ≠ t) : Fresh c ((u, k) :: slots) t l :=
  ⟨h.1, List.forall_mem_cons.mpr ⟨⟨hk, Or.inl hut⟩, h.2⟩⟩

/-- The residual is none of the slots a layer writes before its last call. -/
theorem Fresh.residual {t : ActivationTensor} {l : Nat} {slots : List (ActivationTensor × Nat)}
    (h : Fresh c slots t l) (hl : l < c.numLayers) (he : t ≠ .encoded) (h3 : t ≠ .residual3) :
    Fresh c (residualSlot l :: slots) t l := by
  rw [residualSlot]
  split
  · exact h.cons Nat.zero_lt_one (Ne.symm he)
  · exact h.cons (Nat.lt_of_le_of_lt (Nat.sub_le l 1) hl) (Ne.symm h3)

/-- The residual a layer starts from is known. -/
theorem residual_known {l : Nat} {slots : List (ActivationTensor × Nat)} {r : Nat}
    (hr : r < 1 * T₁ * c.channels) : Known c T₁ T₂ (residualSlot l :: slots)
      (slot c 1 T₁ (residualSlot l).1 (residualSlot l).2 + r)
      (slot c 1 T₂ (residualSlot l).1 (residualSlot l).2 + r) := by
  have hmem : ((residualSlot l).1, (residualSlot l).2) ∈ residualSlot l :: slots :=
    List.mem_cons_self
  apply known_slot hmem
  rw [residual_len]
  exact hr

/-- `layernorm_forward` makes a slot known; the means and deviations it writes are not. -/
theorem layernorm_slot (hT : T₁ ≤ T₂) {slots slots' : List (ActivationTensor × Nat)}
    {t mean rstd : ActivationTensor} {l : Nat} {inp inp' : Loc} {weight bias : Nat}
    (ht : ∀ T, perLayer c 1 T t = 1 * T * c.channels) (hmean : ∀ T, perLayer c 1 T mean = 1 * T)
    (hrstd : ∀ T, perLayer c 1 T rstd = 1 * T) (htm : t ≠ mean) (htr : t ≠ rstd)
    (hfresh : Fresh c slots t l) (hfreshm : Fresh c slots mean l) (hfreshr : Fresh c slots rstd l)
    (hinp : ∀ r, r < 1 * T₁ * c.channels → Known c T₁ T₂ slots (inp + r) (inp' + r))
    (hslots : ∀ s ∈ slots', s = (t, l) ∨ s ∈ slots) :
    Rel (Known c T₁ T₂ slots)
      (layernormForward ops (slot c 1 T₁ t l) (slot c 1 T₁ mean l) (slot c 1 T₁ rstd l) inp
        (.par weight) (.par bias) 1 T₁ c.channels).serial
      (layernormForward ops (slot c 1 T₂ t l) (slot c 1 T₂ mean l) (slot c 1 T₂ rstd l) inp'
        (.par weight) (.par bias) 1 T₂ c.channels).serial (Known c T₁ T₂ slots') := by
  have hout := clear_known hT hfresh
  have houtm := clear_plus hT hfreshm hfresh.1 htm
  have houtr := clear_plus hT hfreshr hfresh.1 htr
  simp only [slotSeg, ht, hmean, hrstd] at hout houtm houtr
  have hpar : ∀ a i : Nat, Known c T₁ T₂ slots (Loc.par a + i) (Loc.par a + i) :=
    fun a i => known_par (a + i)
  refine rel_add ?_ hslots
  rw [ht T₁]
  exact layernorm_twin ops hT hout houtm houtr hinp (hpar weight) (hpar bias)

/-- `matmul_forward` with a bias makes a slot known. -/
theorem matmul_slot (hT : T₁ ≤ T₂) {slots slots' : List (ActivationTensor × Nat)}
    {t u : ActivationTensor} {l C OC weight bias : Nat} (hOC : 0 < OC)
    (ht : ∀ T, perLayer c 1 T t = 1 * T * OC) (hu : perLayer c 1 T₁ u = 1 * T₁ * C)
    (hfresh : Fresh c slots t l) (hinp : (u, l) ∈ slots)
    (hslots : ∀ s ∈ slots', s = (t, l) ∨ s ∈ slots) :
    Rel (Known c T₁ T₂ slots)
      (matmulForward ops (slot c 1 T₁ t l) (slot c 1 T₁ u l) (.par weight) (some (.par bias))
        1 T₁ C OC).serial
      (matmulForward ops (slot c 1 T₂ t l) (slot c 1 T₂ u l) (.par weight) (some (.par bias))
        1 T₂ C OC).serial (Known c T₁ T₂ slots') := by
  have hout := clear_known hT hfresh
  simp only [slotSeg, ht] at hout
  have hbias : ∀ b, some (Loc.par bias) = some b →
      ∀ i : Nat, Known c T₁ T₂ slots (b + i) (b + i) := by
    rintro b ⟨⟩ i
    exact known_par (bias + i)
  have hweight : ∀ i j : Nat,
      Known c T₁ T₂ slots (Loc.par weight + i + j) (Loc.par weight + i + j) :=
    fun i j => known_par (weight + i + j)
  refine rel_add ?_ hslots
  rw [ht T₁]
  exact matmul_twin ops hT hOC hout (fun r hr => known_slot hinp (hu ▸ hr)) hweight hbias

/-- `residual_forward` makes a slot known. -/
theorem residual_slot (hT : T₁ ≤ T₂) {slots slots' : List (ActivationTensor × Nat)}
    {t u : ActivationTensor} {l : Nat} {inp inp' : Loc}
    (ht : ∀ T, perLayer c 1 T t = 1 * T * c.channels)
    (hu : perLayer c 1 T₁ u = 1 * T₁ * c.channels) (hfresh : Fresh c slots t l)
    (hinp : ∀ r, r < 1 * T₁ * c.channels → Known c T₁ T₂ slots (inp + r) (inp' + r))
    (hslot : (u, l) ∈ slots) (hslots : ∀ s ∈ slots', s = (t, l) ∨ s ∈ slots) :
    Rel (Known c T₁ T₂ slots)
      (residualForward ops (slot c 1 T₁ t l) inp (slot c 1 T₁ u l) (1 * T₁ * c.channels)).serial
      (residualForward ops (slot c 1 T₂ t l) inp' (slot c 1 T₂ u l) (1 * T₂ * c.channels)).serial
      (Known c T₁ T₂ slots') := by
  have hout := clear_known hT hfresh
  have hle := perLayer_mono (c := c) hT t
  simp only [slotSeg, ht] at hout hle
  refine rel_add ?_ hslots
  rw [ht T₁]
  exact residual_twin ops hle hout hinp fun r hr => known_slot hslot (hu ▸ hr)

/-- **A layer**: where one residual is known the next one becomes so. -/
theorem layer_causal (hT : T₁ ≤ T₂) (hNH : 0 < c.numHeads) (hC : 0 < c.channels)
    (hdvd : c.numHeads ∣ c.channels) {l : Nat} (hl : l < c.numLayers) :
    RelCalls (Known c T₁ T₂ [residualSlot l]) (layerForward ops c 1 T₁ l)
      (layerForward ops c 1 T₂ l) (Known c T₁ T₂ [(.residual3, l)]) := by
  rw [layerForward_eq, layerForward_eq]
  have hpos : ∀ n, 0 < n → 0 < n * c.channels := fun n hn => Nat.mul_pos hn hC
  -- the slots of this layer, when the residual is known, and another one
  have hfresh : ∀ t, l < layersOf c t → t ≠ .encoded → t ≠ .residual3 →
      Fresh c [residualSlot l] t l := fun t ht he h3 => (fresh_nil ht).residual hl he h3
  have hfresh' : ∀ t u, l < layersOf c t → l < layersOf c u → u ≠ t → t ≠ .encoded →
      t ≠ .residual3 → Fresh c [residualSlot l, (u, l)] t l :=
    fun t u ht hu hut he h3 => ((fresh_nil ht).cons hu hut).residual hl he h3
  -- and when `residual2` is
  have hnext : ∀ t, l < layersOf c t → t ≠ .residual2 → Fresh c [(.residual2, l)] t l :=
    fun t ht h2 => (fresh_nil ht).cons hl (Ne.symm h2)
  have hnext' : ∀ t u, l < layersOf c t → l < layersOf c u → u ≠ t → t ≠ .residual2 →
      Fresh c [(.residual2, l), (u, l)] t l :=
    fun t u ht hu hut h2 => ((fresh_nil ht).cons hu hut).cons hl (Ne.symm h2)
  have hapart : ∀ T t u, t ≠ u → l < layersOf c t → l < layersOf c u →
      Apart (slotSeg c 1 T t l) (slotSeg c 1 T u l) :=
    fun T t u htu ht hu => slot_apart ht hu (Or.inl htu)
  refine RelCalls.cons (M := Known c T₁ T₂ [residualSlot l, (.ln1, l)]) ?ln1 ?_
  case ln1 =>
    exact layernorm_slot ops hT (fun _ => rfl) (fun _ => rfl) (fun _ => rfl) (by decide)
      (by decide) (hfresh .ln1 hl (by decide) (by decide))
      (hfresh .ln1Mean hl (by decide) (by decide)) (hfresh .ln1Rstd hl (by decide) (by decide))
      (fun r hr => residual_known hr) (by simp)
  refine RelCalls.cons (M := Known c T₁ T₂ [residualSlot l, (.qkv, l)]) ?qkv ?_
  case qkv =>
    have hout := hfresh' .qkv .ln1 hl hl (by decide) (by decide) (by decide)
    exact matmul_slot ops hT (hpos 3 (by decide)) (fun _ => rfl) rfl hout (by simp) (by simp)
  refine RelCalls.cons (M := Known c T₁ T₂ [residualSlot l, (.atty, l)]) ?attention ?_
  case attention =>
    have hout := hfresh' .atty .qkv hl hl (by decide) (by decide) (by decide)
    refine rel_add (attention_twin ops hT hNH hdvd (fun r hr => ?_) (clear_known hT hout)
      ?_ ?_ ?_ ?_ ?_ ?_ ?_ ?_) ?_
    · exact known_slot (by simp) hr
    · exact clear_plus hT (hfresh' .preatt .qkv hl hl (by decide) (by decide) (by decide)) hl
        (by decide)
    · exact clear_plus hT (hfresh' .att .qkv hl hl (by decide) (by decide) (by decide)) hl
        (by decide)
    · exact hapart T₁ .preatt .att (by decide) hl hl
    · exact hapart T₂ .preatt .att (by decide) hl hl
    · exact hapart T₁ .preatt .atty (by decide) hl hl
    · exact hapart T₂ .preatt .atty (by decide) hl hl
    · exact hapart T₁ .att .atty (by decide) hl hl
    · exact hapart T₂ .att .atty (by decide) hl hl
    · simp
  refine RelCalls.cons (M := Known c T₁ T₂ [residualSlot l, (.attproj, l)]) ?attproj ?_
  case attproj =>
    have hout := hfresh' .attproj .atty hl hl (by decide) (by decide) (by decide)
    exact matmul_slot ops hT hC (fun _ => rfl) rfl hout (by simp) (by simp)
  refine RelCalls.cons (M := Known c T₁ T₂ [(.residual2, l)]) ?residual2 ?_
  case residual2 =>
    have hout := hfresh' .residual2 .attproj hl hl (by decide) (by decide) (by decide)
    exact residual_slot ops hT (fun _ => rfl) rfl hout (fun r hr => residual_known hr) (by simp)
      (by simp)
  refine RelCalls.cons (M := Known c T₁ T₂ [(.residual2, l), (.ln2, l)]) ?ln2 ?_
  case ln2 =>
    exact layernorm_slot ops hT (fun _ => rfl) (fun _ => rfl) (fun _ => rfl) (by decide)
      (by decide) (hnext .ln2 hl (by decide)) (hnext .ln2Mean hl (by decide))
      (hnext .ln2Rstd hl (by decide)) (fun r hr => known_slot (by simp) hr) (by simp)
  refine RelCalls.cons (M := Known c T₁ T₂ [(.residual2, l), (.fch, l)]) ?fch ?_
  case fch =>
    have hout := hnext' .fch .ln2 hl hl (by decide) (by decide)
    exact matmul_slot ops hT (hpos 4 (by decide)) (fun _ => rfl) rfl hout (by simp) (by simp)
  refine RelCalls.cons (M := Known c T₁ T₂ [(.residual2, l), (.fchGelu, l)]) ?gelu ?_
  case gelu =>
    have hout := hnext' .fchGelu .fch hl hl (by decide) (by decide)
    rw [Nat.mul_assoc (1 * T₁), Nat.mul_assoc (1 * T₂)]
    refine rel_add (gelu_twin ops (perLayer_mono hT .fchGelu) (clear_known hT hout)
      fun r hr => ?_) ?_
    · exact known_slot (by simp) hr
    · simp
  refine RelCalls.cons (M := Known c T₁ T₂ [(.residual2, l), (.fcproj, l)]) ?fcproj ?_
  case fcproj =>
    have hout := hnext' .fcproj .fchGelu hl hl (by decide) (by decide)
    exact matmul_slot ops hT hC (fun _ => rfl) rfl hout (by simp) (by simp)
  refine RelCalls.cons (M := Known c T₁ T₂ [(.residual3, l)]) ?residual3 RelCalls.nil
  case residual3 =>
    have hout := hnext' .residual3 .fcproj hl hl (by decide) (by decide)
    exact residual_slot ops hT (fun _ => rfl) rfl hout (fun r hr => known_slot (by simp) hr)
      (by simp) (by simp)

end Layer

/-! ## The whole pass -/

section Pass

variable {F : Type} (ops : FloatOps F) {c : GPT2Config} {T₁ T₂ : Nat}

/-- Behind the first `L` layers the residual is known. -/
theorem layers_causal (hT : T₁ ≤ T₂) (hNH : 0 < c.numHeads) (hC : 0 < c.channels)
    (hdvd : c.numHeads ∣ c.channels) {L : Nat} (hL : L ≤ c.numLayers) :
    RelCalls (Known c T₁ T₂ [(.encoded, 0)]) ((List.range L).flatMap (layerForward ops c 1 T₁))
      ((List.range L).flatMap (layerForward ops c 1 T₂)) (Known c T₁ T₂ [residualSlot L]) := by
  induction L with
  | zero => exact RelCalls.nil
  | succ L ih =>
    rw [List.range_succ, List.flatMap_append, List.flatMap_append, List.flatMap_singleton,
      List.flatMap_singleton]
    exact (ih (Nat.le_of_succ_le hL)).append (layer_causal ops hT hNH hC hdvd hL)

/-- **The head**: where the last residual is known, the logits and probabilities become so. -/
theorem head_causal (hT : T₁ ≤ T₂) (hV : 0 < c.vocabSize) (hL : 0 < c.numLayers) :
    RelCalls (Known c T₁ T₂ [(.residual3, c.numLayers - 1)]) (headForward ops c 1 T₁)
      (headForward ops c 1 T₂) (Known c T₁ T₂ [(.logits, 0), (.probs, 0)]) := by
  rw [headForward_eq, headForward_eq]
  have hlast : c.numLayers - 1 < c.numLayers := Nat.sub_lt hL Nat.one_pos
  have hfresh : ∀ t, layersOf c t = 1 → t ≠ .residual3 →
      Fresh c [(.residual3, c.numLayers - 1)] t 0 :=
    fun t ht h3 => (fresh_nil (ht ▸ Nat.one_pos)).cons hlast (Ne.symm h3)
  have hfresh' : ∀ t u, layersOf c t = 1 → layersOf c u = 1 → u ≠ t → Fresh c [(u, 0)] t 0 :=
    fun t u ht hu hut => (fresh_nil (ht ▸ Nat.one_pos)).cons (hu ▸ Nat.one_pos) hut
  refine RelCalls.cons (M := Known c T₁ T₂ [(.lnf, 0)]) ?lnf ?_
  case lnf =>
    exact layernorm_slot ops hT (fun _ => rfl) (fun _ => rfl) (fun _ => rfl) (by decide)
      (by decide) (hfresh .lnf rfl (by decide)) (hfresh .lnfMean rfl (by decide))
      (hfresh .lnfRstd rfl (by decide)) (fun r hr => known_slot (by simp) hr) (by simp)
  refine RelCalls.cons (M := Known c T₁ T₂ [(.logits, 0)]) ?logits ?_
  case logits =>
    have hout := hfresh' .logits .lnf rfl rfl (by decide)
    refine rel_add (matmul_twin ops hT hV (clear_known hT hout) (fun r hr => ?_) ?_ ?_) ?_
    · exact known_slot (by simp) hr
    · exact fun i j => known_par _
    · rintro b ⟨⟩
    · simp
  refine RelCalls.cons ?probs RelCalls.nil
  case probs =>
    have hout := hfresh' .probs .logits rfl rfl (by decide)
    refine rel_add (softmax_twin ops hT (clear_known hT hout) fun r hr => ?_) ?_
    · exact known_slot (by simp) hr
    · simp

/-- **The two runs agree on the logits and the probabilities of the common positions.** -/
theorem gpt2Forward_causal (hT : T₁ ≤ T₂) (hNH : 0 < c.numHeads) (hC : 0 < c.channels)
    (hdvd : c.numHeads ∣ c.channels) (hV : 0 < c.vocabSize) (hL : 0 < c.numLayers)
    {s s' : Nat → Nat} (hs : ∀ i, i < T₁ → s i = s' i) :
    RelCalls (Known c T₁ T₂ []) (gpt2Forward ops c s 1 T₁) (gpt2Forward ops c s' 1 T₂)
      (Known c T₁ T₂ [(.logits, 0), (.probs, 0)]) := by
  refine RelCalls.cons (M := Known c T₁ T₂ [(.encoded, 0)]) ?encoder ?_
  case encoder =>
    rw [← slot_zero, ← slot_zero]
    have hout : Fresh c [] .encoded 0 := fresh_nil Nat.one_pos
    refine rel_add (encoder_twin ops hT (clear_known hT hout) ?_ ?_ hs) ?_
    · exact fun i j => known_par _
    · exact fun i j => known_par _
    · simp
  apply (layers_causal ops hT hNH hC hdvd (Nat.le_refl _)).append
  rw [residualSlot, if_neg (Nat.ne_of_gt hL)]
  exact head_causal ops hT hV hL

end Pass

/-- **Causality.**  Two runs of `gpt2_forward` with one batch, on `T₁` and on `T₂` tokens, that
    start with the same parameters, agree on the first `T₁` tokens and have all `int`s in range
    leave the same logits and the same probabilities at every position below `T₁`, whatever the
    activations held before. -/
theorem forward_causal {F : Type} (ops : FloatOps F) (c : Model) {T₁ T₂ : Nat} (h₁ : 1 ≤ T₁)
    (hT : T₁ ≤ T₂) (hmax : T₂ ≤ c.maxSeqLen) {s s' : Nat → Nat} (hs : ∀ i, i < T₁ → s i = s' i)
    {w w' : Nat} (hints : IntsFit c.toGPT2Config s 1 T₁ w)
    (hints' : IntsFit c.toGPT2Config s' 1 T₂ w') {m m' : Mem F}
    (hpar : ∀ a, m (.par a) = m' (.par a)) {r r' : Option (Mem F)}
    (hrun : RunForward c.toGPT2Config s 1 T₁ ops w m r)
    (hrun' : RunForward c.toGPT2Config s' 1 T₂ ops w' m' r') :
    ∃ m₁ m₂, r = some m₁ ∧ r' = some m₂ ∧ ∀ t, t < T₁ → ∀ v, v < c.vocabSize →
      m₁ (pointActivations c.toGPT2Config 1 T₁ .logits + t * c.vocabSize + v) =
        m₂ (pointActivations c.toGPT2Config 1 T₂ .logits + t * c.vocabSize + v) ∧
      m₁ (pointActivations c.toGPT2Config 1 T₁ .probs + t * c.vocabSize + v) =
        m₂ (pointActivations c.toGPT2Config 1 T₂ .probs + t * c.vocabSize + v) := by
  have hclash := fun T hpos inputs => gpt2Forward_noClash ops c.toGPT2Config 1 T inputs hpos
    c.numHeads_pos c.numLayers_pos
  have hone := (runForward_iff (hclash T₁ h₁ s) hints m r).mp hrun
  have htwo := (runForward_iff (hclash T₂ (Nat.le_trans h₁ hT) s') hints' m' r').mp hrun'
  refine ⟨_, _, hone, htwo, ?_⟩
  have hagree := gpt2Forward_causal ops hT c.numHeads_pos c.channels_pos c.heads_dvd
    c.vocabSize_pos c.numLayers_pos hs m m' ?start
  case start =>
    rintro x y (⟨a, rfl, rfl⟩ | ⟨k, hk, -⟩)
    · exact hpar a
    · exact absurd hk List.not_mem_nil
  intro t ht v hv
  have hrow : t * c.vocabSize + v < 1 * T₁ * c.vocabSize := by
    rw [Nat.one_mul]
    calc _ < t * c.vocabSize + c.vocabSize := Nat.add_lt_add_left hv _
      _ = (t + 1) * c.vocabSize := (Nat.succ_mul t _).symm
      _ ≤ T₁ * c.vocabSize := Nat.mul_le_mul_right _ ht
  rw [Loc.add_assoc, Loc.add_assoc, Loc.add_assoc, Loc.add_assoc, ← slot_zero, ← slot_zero,
    ← slot_zero, ← slot_zero]
  constructor
  · exact hagree _ _ (known_slot (t := .logits) (by simp) hrow)
  · exact hagree _ _ (known_slot (t := .probs) (by simp) hrow)

/-- A memory with all parameters 1 and all activations `a`. -/
def flatMemory (a : Int) : Mem Int
  | .act _ => a
  | .par _ => 1

/-- One token, and the same token with another one behind it, on the tiny model. -/
theorem forward_causal_tiny :
    ∃ m₁ m₂, some (runSerial (gpt2Forward intOps tinyModel.toGPT2Config (fun _ => 1) 1 1)
        (flatMemory 0)) = some m₁ ∧
      some (runSerial (gpt2Forward intOps tinyModel.toGPT2Config (fun i => 1 - i) 1 2)
        (flatMemory 7)) = some m₂ ∧ ∀ t, t < 1 → ∀ v, v < tinyModel.vocabSize →
      m₁ (pointActivations tinyModel.toGPT2Config 1 1 .logits + t * tinyModel.vocabSize + v) =
        m₂ (pointActivations tinyModel.toGPT2Config 1 2 .logits + t * tinyModel.vocabSize + v) ∧
      m₁ (pointActivations tinyModel.toGPT2Config 1 1 .probs + t * tinyModel.vocabSize + v) =
        m₂ (pointActivations tinyModel.toGPT2Config 1 2 .probs + t * tinyModel.vocabSize + v) := by
  have hclash := fun T hpos inputs => gpt2Forward_noClash intOps tinyModel.toGPT2Config 1 T
    inputs hpos tinyModel.numHeads_pos tinyModel.numLayers_pos
  have hrange : IntRange tinyModel.toGPT2Config 1 2 4 :=
    ⟨by decide, by decide, by decide, by decide, by decide, by decide, by decide⟩
  have hone : IntsFit tinyModel.toGPT2Config (fun _ => 1) 1 1 4 :=
    (hrange.mono (by decide) le_rfl).fits (by decide) (by decide) fun i _ =>
      (by decide : 1 < tinyModel.vocabSize)
  have htwo : IntsFit tinyModel.toGPT2Config (fun i => 1 - i) 1 2 1 :=
    (hrange.mono le_rfl (by decide)).fits (by decide) (by decide) fun i _ =>
      Nat.lt_of_le_of_lt (Nat.sub_le 1 i) (by decide)
  have hrun := (runForward_iff (hclash 1 (by decide) fun _ => 1) hone (flatMemory 0) _).mpr rfl
  have hrun' := (runForward_iff (hclash 2 (by decide) fun i => 1 - i) htwo (flatMemory 7) _).mpr rfl
  have hs : ∀ i, i < 1 → 1 = 1 - i := by
    intro i hi
    omega
  have hpar : ∀ a, flatMemory 0 (.par a) = flatMemory 7 (.par a) := fun a => rfl
  exact forward_causal intOps tinyModel (by decide) (by decide) (by decide) hs hone htwo hpar
    hrun hrun'

/-- A vocabulary of `2 ^ 30` tokens, two positions, and everything else once. -/
def longModel : Model :=
  { tinyModel with vocabSize := 1073741824, vocabSize_pos := Nat.succ_pos _ }

/-- The logits of one position are in range, those of two are not: the short run leaves a memory
    and the long one does not. -/
theorem long_overflows : ∃ out,
    RunForward longModel.toGPT2Config (fun _ => 0) 1 1 intOps 4 (fun _ => 1) (some out) ∧
    ∀ r, RunForward longModel.toGPT2Config (fun _ => 0) 1 2 intOps 4 (fun _ => 1) r → r = none := by
  have hclash := gpt2Forward_noClash intOps longModel.toGPT2Config 1 1 (fun _ => 0) (by decide)
    (by decide) (by decide)
  have hone : IntRange longModel.toGPT2Config 1 1 4 :=
    ⟨by decide, by decide, by decide, by decide, by decide, by decide, by decide⟩
  have hfits := hone.fits (by decide) (by decide) fun i _ => longModel.vocabSize_pos
  refine ⟨_, (runForward_iff hclash hfits _ _).mpr rfl, fun r h => ?_⟩
  cases h with
  | run hints hrun => exact absurd hints.range.logits (by decide)
  | undefined hints => rfl

end Gpt
