/-
  gpt — the forward pass computes the network.

  1. **Specification** — `Holds`: a slot has, for every batch, position and column, what the
     network computes from the weights and from the tokens of its batch; the scores of attention
     up to their own position, the weights of attention at all positions.  `forward_computes` says
     it of all slots but the losses, for any weights that are loaded.

  2. **The invariant** — the slots are written one after the other, and none is written again:
     `stamp` numbers them in the order of the calls.  `Upto n m` says that the slots numbered below
     `n` hold what the network computes; each call takes it to a larger `n` (`Carries`).  What the
     activations hold at the start plays no part.

  3. **The crux (`Upto.step`)** — a call fills the slots that come next and leaves the earlier ones
     alone, so it is enough to know what the call puts into its own slots: `xxx_upto`, one for each
     kernel, from `xxx_computes`.

  4. **What is idealised** — the float operations are any functions; the `int`s are those of
     `IntsFit`; positions are bounded by `max_seq_len` and tokens by the vocabulary, as the embedding
     would read behind its tables otherwise.  `Upto` itself speaks of `weightsOf`, and `Holds.agree`
     takes it to the weights that are loaded.
-/
import MiniLabs.Gpt.Bounds
import MiniLabs.Gpt.Calls
import MiniLabs.Gpt.Causal
import MiniLabs.Gpt.Loaded

set_option linter.unusedVariables false

namespace Gpt

open Access Access.Prog

section Values

variable {F : Type} (ops : FloatOps F) (c : GPT2Config) (B T : Nat) (inputs : Nat → Nat)
  (W : Weights F)

/-- The tokens of batch `b`. -/
def tokensOf (b t : Nat) : Nat := inputs (b * T + t)

/-- The number of cells for one position. -/
def width : ActivationTensor → Nat
  | .encoded | .ln1 | .atty | .attproj | .residual2 | .ln2 | .fcproj | .residual3 | .lnf =>
    c.channels
  | .qkv => 3 * c.channels
  | .fch | .fchGelu => 4 * c.channels
  | .logits | .probs => c.vocabSize
  | _ => 1

/-- What the network computes for layer `l` of a tensor, from the tokens, at position `t`. -/
def networkValue (tensor : ActivationTensor) (l : Nat) (tokens : Nat → Nat) : Nat → Nat → F :=
  let x := W.residual ops c tokens l
  match tensor with
  | .encoded => W.encoded ops tokens
  | .ln1 => (W.layer l).ln1 ops c x
  | .ln1Mean => fun t _ => mean ops c.channels (x t)
  | .ln1Rstd => fun t _ => rstd ops c.channels (x t)
  | .qkv => (W.layer l).qkv ops c x
  | .atty => (W.layer l).atty ops c x
  | .attproj => (W.layer l).attproj ops c x
  | .residual2 => (W.layer l).residual2 ops c x
  | .ln2 => (W.layer l).ln2 ops c x
  | .ln2Mean => fun t _ => mean ops c.channels ((W.layer l).residual2 ops c x t)
  | .ln2Rstd => fun t _ => rstd ops c.channels ((W.layer l).residual2 ops c x t)
  | .fch => (W.layer l).fch ops c x
  | .fchGelu => (W.layer l).fchGelu ops c x
  | .fcproj => (W.layer l).fcproj ops c x
  | .residual3 => W.residual ops c tokens (l + 1)
  | .lnf => W.lnf ops c tokens
  | .lnfMean => fun t _ => mean ops c.channels (W.residual ops c tokens c.numLayers t)
  | .lnfRstd => fun t _ => rstd ops c.channels (W.residual ops c tokens c.numLayers t)
  | .logits => W.logits ops c tokens
  | .probs => W.probs ops c tokens
  | _ => fun _ _ => ops.zero

/-- The score in layer `l` and head `h` at `t` of position `t2`. -/
def networkScore (l : Nat) (tokens : Nat → Nat) (h t t2 : Nat) : F :=
  score ops c.channels (c.channels / c.numHeads)
    ((W.layer l).qkv ops c (W.residual ops c tokens l)) h t t2

/-- The attention weight in layer `l` and head `h` at `t` of position `t2`. -/
def networkAtt (l : Nat) (tokens : Nat → Nat) (h t t2 : Nat) : F :=
  attWeight ops c.channels (c.channels / c.numHeads)
    ((W.layer l).qkv ops c (W.residual ops c tokens l)) h t t2

/-- The slot holds what the network computes, for every batch.  Of `preatt` a row is written up to
    its own position; `losses` is never written. -/
def Holds (m : Mem F) (tensor : ActivationTensor) (l : Nat) : Prop :=
  match tensor with
  | .losses => True
  | .preatt => ∀ b, b < B → ∀ h, h < c.numHeads → ∀ t, t < T → ∀ t2, t2 ≤ t →
      m (slot c B T .preatt l + (((b * c.numHeads + h) * T + t) * T + t2)) =
        networkScore ops c W l (tokensOf T inputs b) h t t2
  | .att => ∀ b, b < B → ∀ h, h < c.numHeads → ∀ t, t < T → ∀ t2, t2 < T →
      m (slot c B T .att l + (((b * c.numHeads + h) * T + t) * T + t2)) =
        networkAtt ops c W l (tokensOf T inputs b) h t t2
  | tensor => ∀ b, b < B → ∀ t, t < T → ∀ i, i < width c tensor →
      m (slot c B T tensor l + ((b * T + t) * width c tensor + i)) =
        networkValue ops c W tensor l (tokensOf T inputs b) t i

/-- The place of a tensor among the sixteen of a layer, or behind the layers. -/
def order : ActivationTensor → Nat
  | .encoded => 0
  | .ln1 | .lnf => 1
  | .ln1Mean | .lnfMean => 2
  | .ln1Rstd | .lnfRstd => 3
  | .qkv | .logits => 4
  | .preatt | .probs => 5
  | .att | .losses => 6
  | .atty => 7
  | .attproj => 8
  | .residual2 => 9
  | .ln2 => 10
  | .ln2Mean => 11
  | .ln2Rstd => 12
  | .fch => 13
  | .fchGelu => 14
  | .fcproj => 15
  | .residual3 => 16

/-- The tensors behind the layers. -/
def Behind : ActivationTensor → Bool
  | .lnf | .lnfMean | .lnfRstd | .logits | .probs | .losses => true
  | _ => false

/-- The number of a slot. -/
def stamp (tensor : ActivationTensor) (l : Nat) : Nat :=
  16 * (if Behind tensor then c.numLayers else if tensor = .encoded then 0 else l) + order tensor

end Values

/-! ## The slots up to a number -/

section Upto

variable {F : Type} {ops : FloatOps F} {c : GPT2Config} {B T : Nat} {inputs : Nat → Nat}
  {W : Weights F} {m m' θ : Mem F}

/-- Cell `i` of the row of batch `b` and position `t`. -/
theorem position_lt {b t i w : Nat} (hb : b < B) (ht : t < T) (hi : i < w) :
    (b * T + t) * w + i < B * T * w := unit_lt hb ht hi

/-- Row and column of a cell. -/
theorem row_col {r w i : Nat} (hi : i < w) : (r * w + i) / w = r ∧ (r * w + i) % w = i := by
  have hw : 0 < w := Nat.lt_of_le_of_lt (Nat.zero_le i) hi
  rw [Nat.mul_comm, Nat.mul_add_div hw, Nat.div_eq_of_lt hi, Nat.mul_add_mod,
    Nat.mod_eq_of_lt hi]
  exact ⟨Nat.add_zero r, rfl⟩

/-- A tensor that has a row for each position. -/
def ByPosition (tensor : ActivationTensor) : Prop :=
  tensor ≠ .preatt ∧ tensor ≠ .att ∧ tensor ≠ .losses

instance (tensor : ActivationTensor) : Decidable (ByPosition tensor) := by
  unfold ByPosition
  infer_instance

/-- A layer of a slot by position is so many rows. -/
theorem perLayer_width {tensor : ActivationTensor} (h : ByPosition tensor) :
    perLayer c B T tensor = B * T * width c tensor := by
  obtain ⟨hpreatt, hatt, hlosses⟩ := h
  cases tensor <;> first | rfl | exact (Nat.mul_one _).symm | contradiction

/-- What `Holds` says of a slot by position. -/
theorem holds_position {tensor : ActivationTensor} {l : Nat} (h : ByPosition tensor) :
    Holds ops c B T inputs W m tensor l ↔
      ∀ b, b < B → ∀ t, t < T → ∀ i, i < width c tensor →
        m (slot c B T tensor l + ((b * T + t) * width c tensor + i)) =
          networkValue ops c W tensor l (tokensOf T inputs b) t i := by
  obtain ⟨hpreatt, hatt, hlosses⟩ := h
  cases tensor <;> first | rfl | contradiction

/-- A slot that is left alone holds what it held. -/
theorem Holds.frame {tensor : ActivationTensor} {l : Nat}
    (h : Holds ops c B T inputs W m tensor l)
    (hsame : ∀ i, i < perLayer c B T tensor →
      m' (slot c B T tensor l + i) = m (slot c B T tensor l + i)) :
    Holds ops c B T inputs W m' tensor l := by
  by_cases hpos : ByPosition tensor
  · rw [perLayer_width hpos] at hsame
    rw [holds_position hpos] at h ⊢
    intro b hb t ht i hi
    rw [hsame _ (position_lt hb ht hi)]
    exact h b hb t ht i hi
  · cases tensor with
    | losses => trivial
    | preatt =>
      intro b hb hd hhd t ht t2 ht2
      rw [hsame _ (unit_lt (index_lt hb hhd) ht (Nat.lt_of_le_of_lt ht2 ht))]
      exact h b hb hd hhd t ht t2 ht2
    | att =>
      intro b hb hd hhd t ht t2 ht2
      rw [hsame _ (unit_lt (index_lt hb hhd) ht ht2)]
      exact h b hb hd hhd t ht t2 ht2
    | _ => exact absurd ⟨nofun, nofun, nofun⟩ hpos

/-- The slots numbered below `n` hold what the network computes from the parameters `θ`. -/
structure Upto (ops : FloatOps F) (c : GPT2Config) (B T : Nat) (inputs : Nat → Nat) (θ : Mem F)
    (n : Nat) (m : Mem F) : Prop where
  par : ∀ a, m (.par a) = θ (.par a)
  holds : ∀ tensor l, l < layersOf c tensor → stamp c tensor l < n →
    Holds ops c B T inputs (weightsOf c θ) m tensor l

variable {n n' : Nat}

/-- The parameters are as they were. -/
theorem Upto.param (h : Upto ops c B T inputs θ n m) (p : ParameterTensor) (k i : Nat) :
    m (pointParameters c p + k + i) = θ (pointParameters c p + k + i) := by
  rw [Loc.add_assoc]
  exact h.par _

/-- A slot that has been written holds what the network computes. -/
theorem Upto.position (h : Upto ops c B T inputs θ n m) (tensor : ActivationTensor) (l : Nat)
    (hpos : ByPosition tensor) (hl : l < layersOf c tensor) (hn : stamp c tensor l < n)
    {b t i : Nat} (hb : b < B) (ht : t < T) (hi : i < width c tensor) :
    m (slot c B T tensor l + ((b * T + t) * width c tensor + i)) =
      networkValue ops c (weightsOf c θ) tensor l (tokensOf T inputs b) t i :=
  (holds_position hpos).mp (h.holds tensor l hl hn) b hb t ht i hi

/-- **A call fills the slots of layer `l` that come next.** -/
theorem Upto.step (h : Upto ops c B T inputs θ n m) {call : RangeCall F}
    (tensors : List ActivationTensor) (l : Nat)
    (hwrites : ∀ i, i < call.total → ∀ x, (call.body i).Writes x →
      ∃ tensor ∈ tensors, Span (slot c B T tensor l) (perLayer c B T tensor) x)
    (hnew : ∀ tensor ∈ tensors, l < layersOf c tensor ∧ n ≤ stamp c tensor l ∧
      Holds ops c B T inputs (weightsOf c θ) (call.serial.run m).2 tensor l)
    (hnext : ∀ tensor k, k < layersOf c tensor → stamp c tensor k < n' →
      stamp c tensor k < n ∨ tensor ∈ tensors ∧ k = l) :
    Upto ops c B T inputs θ n' (call.serial.run m).2 := by
  constructor
  · intro a
    rw [serial_off, h.par]
    intro i hi hw
    obtain ⟨tensor, -, j, -, hj⟩ := hwrites i hi _ hw
    cases hj
  · intro tensor k hk hn'
    rcases hnext tensor k hk hn' with hn | ⟨hmem, rfl⟩
    · -- an earlier slot is left alone
      apply (h.holds tensor k hk hn).frame
      intro j hj
      apply serial_off
      intro i hi hw
      obtain ⟨u, hu, hspan⟩ := hwrites i hi _ hw
      obtain ⟨hl, hle, -⟩ := hnew u hu
      refine slot_apart hk hl ?_ _ (span_cell hj) hspan
      by_cases hut : tensor = u
      · right
        rintro rfl
        rw [hut] at hn
        omega
      · exact Or.inl hut
    · exact (hnew tensor hmem).2.2

/-- The slots of layer `l` with the places from `a` to `a'` come next. -/
theorem next_slots {l a a' : Nat} {tensors : List ActivationTensor} (hl : l < c.numLayers)
    (ha : 0 < a) (ha' : a' ≤ 17)
    (htensors : ∀ tensor ∈ ActivationTensor.ptrs, Behind tensor = false →
      a ≤ order tensor → order tensor < a' → tensor ∈ tensors)
    (tensor : ActivationTensor) (k : Nat) (hk : k < layersOf c tensor)
    (hlt : stamp c tensor k < 16 * l + a') :
    stamp c tensor k < 16 * l + a ∨ tensor ∈ tensors ∧ k = l := by
  by_cases hle : stamp c tensor k < 16 * l + a
  · exact Or.inl hle
  · have hkl : Behind tensor = false ∧ k = l ∧ stamp c tensor k = 16 * k + order tensor := by
      cases tensor <;> simp [stamp, order, Behind] at hlt hle ⊢ <;> omega
    obtain ⟨hbehind, rfl, hstamp⟩ := hkl
    exact Or.inr ⟨htensors tensor (mem_ptrs tensor) hbehind (by omega) (by omega), rfl⟩

/-! ## The kernels -/

/-- A slot with another number has other cells. -/
theorem apart_of_stamp {t u : ActivationTensor} {l k : Nat} (hl : l < layersOf c t)
    (hk : k < layersOf c u) (h : stamp c u k < stamp c t l) :
    Apart (slotSeg c B T t l) (slotSeg c B T u k) := by
  apply slot_apart hl hk
  by_cases htu : t = u
  · right
    rintro rfl
    rw [htu] at h
    exact Nat.lt_irrefl _ h
  · exact Or.inl htu

/-- The cells of a slot by position. -/
theorem slotSeg_eq {t : ActivationTensor} {w : Nat} (ht : ByPosition t) (hw : width c t = w)
    (l : Nat) : slotSeg c B T t l = ⟨slot c B T t l, B * T * w⟩ := by
  rw [slotSeg, perLayer_width ht, hw]

/-- **A norm takes it on**: its own slot and the two numbers of each row. -/
theorem layernorm_upto (h : Upto ops c B T inputs θ n m) {t mean' rstd' u : ActivationTensor}
    {l k : Nat} {weight bias : ParameterTensor} {ow ob : Nat}
    (ht : ByPosition t ∧ width c t = c.channels ∧ l < layersOf c t ∧ n ≤ stamp c t l)
    (hm : ByPosition mean' ∧ width c mean' = 1 ∧ l < layersOf c mean' ∧
      stamp c mean' l = stamp c t l + 1)
    (hr : ByPosition rstd' ∧ width c rstd' = 1 ∧ l < layersOf c rstd' ∧
      stamp c rstd' l = stamp c t l + 2)
    (hu : ByPosition u ∧ width c u = c.channels ∧ k < layersOf c u ∧ stamp c u k < n)
    (hval : ∀ tokens p i, networkValue ops c (weightsOf c θ) t l tokens p i =
      layernorm ops c.channels (fun i => θ (pointParameters c weight + ow + i))
        (fun i => θ (pointParameters c bias + ob + i))
        (networkValue ops c (weightsOf c θ) u k tokens p) i)
    (hmean : ∀ tokens p i, networkValue ops c (weightsOf c θ) mean' l tokens p i =
      mean ops c.channels (networkValue ops c (weightsOf c θ) u k tokens p))
    (hrstd : ∀ tokens p i, networkValue ops c (weightsOf c θ) rstd' l tokens p i =
      rstd ops c.channels (networkValue ops c (weightsOf c θ) u k tokens p))
    (hnext : ∀ tensor k, k < layersOf c tensor → stamp c tensor k < n' →
      stamp c tensor k < n ∨ tensor ∈ [t, mean', rstd'] ∧ k = l) :
    Upto ops c B T inputs θ n' ((layernormForward ops (slot c B T t l) (slot c B T mean' l)
      (slot c B T rstd' l) (slot c B T u k) (pointParameters c weight + ow)
      (pointParameters c bias + ob) B T c.channels).serial.run m).2 := by
  obtain ⟨htp, htw, htl, htn⟩ := ht
  obtain ⟨hmp, hmw, hml, hmn⟩ := hm
  obtain ⟨hrp, hrw, hrl, hrn⟩ := hr
  obtain ⟨hup, huw, huk, hun⟩ := hu
  have htm := (apart_of_stamp (B := B) (T := T) hml htl (by omega)).symm
  have htr := (apart_of_stamp (B := B) (T := T) hrl htl (by omega)).symm
  have hmr := (apart_of_stamp (B := B) (T := T) hrl hml (by omega)).symm
  have htu := apart_of_stamp (B := B) (T := T) htl huk (by omega)
  have hmu := apart_of_stamp (B := B) (T := T) hml huk (by omega)
  have hru := apart_of_stamp (B := B) (T := T) hrl huk (by omega)
  have hparam : ∀ tensor (p : ParameterTensor) (o k : Nat),
      Apart (slotSeg c B T tensor l) ⟨pointParameters c p + o, k⟩ :=
    fun tensor p o k => slot_apart_par tensor l p o k
  rw [slotSeg_eq htp htw] at htm htr htu
  rw [slotSeg_eq hmp hmw] at htm hmr hmu
  rw [slotSeg_eq hrp hrw] at htr hmr hru
  rw [slotSeg_eq hup huw] at htu hmu hru
  have hparamt := hparam t
  have hparamm := hparam mean'
  have hparamr := hparam rstd'
  rw [slotSeg_eq htp htw] at hparamt
  rw [slotSeg_eq hmp hmw] at hparamm
  rw [slotSeg_eq hrp hrw] at hparamr
  simp only [Nat.mul_one] at *
  have hout : ∀ s ∈ [Seg.mk (slot c B T mean' l) (B * T), ⟨slot c B T rstd' l, B * T⟩,
      ⟨slot c B T u k, B * T * c.channels⟩, ⟨pointParameters c weight + ow, c.channels⟩,
      ⟨pointParameters c bias + ob, c.channels⟩],
      Apart ⟨slot c B T t l, B * T * c.channels⟩ s := by
    simp only [List.forall_mem_cons]
    exact ⟨htm, htr, htu, hparamt _ _ _, hparamt _ _ _, nofun⟩
  have houtm : ∀ s ∈ [Seg.mk (slot c B T rstd' l) (B * T), ⟨slot c B T u k, B * T * c.channels⟩,
      ⟨pointParameters c weight + ow, c.channels⟩, ⟨pointParameters c bias + ob, c.channels⟩],
      Apart ⟨slot c B T mean' l, B * T⟩ s := by
    simp only [List.forall_mem_cons]
    exact ⟨hmr, hmu, hparamm _ _ _, hparamm _ _ _, nofun⟩
  have houtr : ∀ s ∈ [Seg.mk (slot c B T u k) (B * T * c.channels),
      ⟨pointParameters c weight + ow, c.channels⟩, ⟨pointParameters c bias + ob, c.channels⟩],
      Apart ⟨slot c B T rstd' l, B * T⟩ s := by
    simp only [List.forall_mem_cons]
    exact ⟨hru, hparamr _ _ _, hparamr _ _ _, nofun⟩
  have hcompute := fun row (hrow : row < B * T) =>
    layernorm_computes (m := m) ops hout houtm houtr hrow
  have hx : ∀ b, b < B → ∀ p, p < T → ∀ i, i < c.channels →
      m (slot c B T u k + (b * T + p) * c.channels + i) =
        networkValue ops c (weightsOf c θ) u k (tokensOf T inputs b) p i := by
    intro b hb p hp i hi
    have := h.position u k hup huk hun hb hp (huw.symm ▸ hi)
    rwa [huw, ← Loc.add_assoc] at this
  have hw := h.param weight ow
  have hb := h.param bias ob
  refine h.step _ l ?writes ?new hnext
  case writes =>
    intro i hi x hx
    rcases (layernorm_within ops ⟨slot c B T t l, slot c B T mean' l, slot c B T rstd' l,
      slot c B T u k, pointParameters c weight + ow, pointParameters c bias + ob, T, c.channels⟩
      i).writes hx with hx | rfl | rfl
    · refine ⟨t, by simp, ?_⟩
      rw [perLayer_width htp, htw]
      exact span_row hi hx
    · refine ⟨mean', by simp, ?_⟩
      rw [perLayer_width hmp, hmw, Nat.mul_one]
      exact span_cell hi
    · refine ⟨rstd', by simp, ?_⟩
      rw [perLayer_width hrp, hrw, Nat.mul_one]
      exact span_cell hi
  case new =>
    simp only [List.forall_mem_cons]
    refine ⟨⟨htl, htn, ?_⟩, ⟨hml, by omega, ?_⟩, ⟨hrl, by omega, ?_⟩, nofun⟩
    · rw [holds_position htp, htw]
      intro b hb' p hp i hi
      rw [← Loc.add_assoc, (hcompute _ (index_lt hb' hp)).1 i hi, hval]
      simp only [hw, hb]
      exact layernorm_congr ops rfl rfl (hx b hb' p hp) hi
    · rw [holds_position hmp, hmw]
      intro b hb' p hp i hi
      obtain rfl : i = 0 := by omega
      rw [Nat.mul_one, Nat.add_zero, (hcompute _ (index_lt hb' hp)).2.1, hmean]
      exact mean_congr ops (hx b hb' p hp)
    · rw [holds_position hrp, hrw]
      intro b hb' p hp i hi
      obtain rfl : i = 0 := by omega
      rw [Nat.mul_one, Nat.add_zero, (hcompute _ (index_lt hb' hp)).2.2, hrstd]
      exact rstd_congr ops (hx b hb' p hp)

/-- **A matmul takes it on**, from a slot that has been written. -/
theorem matmul_upto (h : Upto ops c B T inputs θ n m) {t u : ActivationTensor} {l k : Nat}
    {weight : ParameterTensor} {ow C OC : Nat} {bias : Option Loc}
    (ht : ByPosition t ∧ width c t = OC ∧ l < layersOf c t ∧ n ≤ stamp c t l)
    (hu : ByPosition u ∧ width c u = C ∧ k < layersOf c u ∧ stamp c u k < n)
    (hbias : ∀ b, bias = some b → ∃ (p : ParameterTensor) (o : Nat), b = pointParameters c p + o)
    (hval : ∀ tokens p o, networkValue ops c (weightsOf c θ) t l tokens p o =
      linear ops C (fun o i => θ (pointParameters c weight + ow + o * C + i))
        (biasValue ops θ bias) (networkValue ops c (weightsOf c θ) u k tokens p) o)
    (hnext : ∀ tensor k, k < layersOf c tensor → stamp c tensor k < n' →
      stamp c tensor k < n ∨ tensor ∈ [t] ∧ k = l) :
    Upto ops c B T inputs θ n' ((matmulForward ops (slot c B T t l) (slot c B T u k)
      (pointParameters c weight + ow) bias B T C OC).serial.run m).2 := by
  obtain ⟨htp, htw, htl, htn⟩ := ht
  obtain ⟨hup, huw, huk, hun⟩ := hu
  have htu := apart_of_stamp (B := B) (T := T) htl huk (by omega)
  have hparam := fun (p : ParameterTensor) o n =>
    slot_apart_par (c := c) (B := B) (T := T) t l p o n
  rw [slotSeg_eq htp htw] at htu hparam
  rw [slotSeg_eq hup huw] at htu
  have hbias' : biasValue ops m bias = biasValue ops θ bias := by
    funext o
    cases hb : bias with
    | none => rfl
    | some b =>
      obtain ⟨p, k, rfl⟩ := hbias b hb
      exact h.param p k o
  have hw : ∀ o i : Nat, m (pointParameters c weight + ow + o * C + i) =
      θ (pointParameters c weight + ow + o * C + i) := by
    intro o i
    rw [Loc.add_assoc _ (o * C)]
    exact h.param weight ow _
  refine h.step _ l ?writes ?new hnext
  case writes =>
    intro i hi x hx
    have hOC : 0 < OC := Nat.pos_of_ne_zero fun h0 => by
      subst h0
      exact Nat.not_lt_zero i hi
    have hx' := (matmul_within ops ⟨slot c B T t l, slot c B T u k,
      pointParameters c weight + ow, bias, T, C, OC⟩ i hOC).writes hx
    refine ⟨t, by simp, ?_⟩
    rw [perLayer_width htp, htw, hx']
    exact span_cell hi
  case new =>
    refine List.forall_mem_singleton.mpr ⟨htl, htn, ?_⟩
    rw [holds_position htp, htw]
    intro b hb p hp o ho
    rw [matmul_computes ops htu (hparam _ _ _) (fun b hb => ?_) (position_lt hb hp ho),
      (row_col ho).1, (row_col ho).2, hval, hbias']
    · simp only [hw]
      refine linear_congr ops (fun i hi => rfl) rfl fun i hi => ?_
      have := h.position u k hup huk hun hb hp (huw.symm ▸ hi)
      rwa [huw, ← Loc.add_assoc] at this
    · obtain ⟨p, o, rfl⟩ := hbias b hb
      exact hparam p o OC

/-- **A residual takes it on**, from two slots that have been written. -/
theorem residual_upto (h : Upto ops c B T inputs θ n m) {t u v : ActivationTensor} {l k j : Nat}
    (ht : ByPosition t ∧ width c t = c.channels ∧ l < layersOf c t ∧ n ≤ stamp c t l)
    (hu : ByPosition u ∧ width c u = c.channels ∧ k < layersOf c u ∧ stamp c u k < n)
    (hv : ByPosition v ∧ width c v = c.channels ∧ j < layersOf c v ∧ stamp c v j < n)
    (hval : ∀ tokens p i, networkValue ops c (weightsOf c θ) t l tokens p i =
      ops.add (networkValue ops c (weightsOf c θ) u k tokens p i)
        (networkValue ops c (weightsOf c θ) v j tokens p i))
    (hnext : ∀ tensor k, k < layersOf c tensor → stamp c tensor k < n' →
      stamp c tensor k < n ∨ tensor ∈ [t] ∧ k = l) :
    Upto ops c B T inputs θ n' ((residualForward ops (slot c B T t l) (slot c B T u k)
      (slot c B T v j) (B * T * c.channels)).serial.run m).2 := by
  obtain ⟨htp, htw, htl, htn⟩ := ht
  obtain ⟨hup, huw, huk, hun⟩ := hu
  obtain ⟨hvp, hvw, hvj, hvn⟩ := hv
  have htu := apart_of_stamp (B := B) (T := T) htl huk (by omega)
  have htv := apart_of_stamp (B := B) (T := T) htl hvj (by omega)
  rw [slotSeg_eq htp htw] at htu htv
  rw [slotSeg_eq hup huw] at htu
  rw [slotSeg_eq hvp hvw] at htv
  refine h.step _ l ?writes ?new hnext
  case writes =>
    intro i hi x hx
    have hx' := (residual_within ops ⟨slot c B T t l, slot c B T u k, slot c B T v j⟩ i).writes hx
    refine ⟨t, by simp, ?_⟩
    rw [perLayer_width htp, htw, hx']
    exact span_cell hi
  case new =>
    refine List.forall_mem_singleton.mpr ⟨htl, htn, ?_⟩
    rw [holds_position htp, htw]
    intro b hb p hp i hi
    have hx := h.position u k hup huk hun hb hp (huw.symm ▸ hi)
    have hy := h.position v j hvp hvj hvn hb hp (hvw.symm ▸ hi)
    rw [huw] at hx
    rw [hvw] at hy
    rw [residual_computes ops htu htv (position_lt hb hp hi), hx, hy, hval]

/-- **Attention takes it on**: scores, weights and what it puts out. -/
theorem attention_upto {l : Nat} (h : Upto ops c B T inputs θ (16 * l + 5) m) (hT : 0 < T)
    (hNH : 0 < c.numHeads) (hC : 0 < c.channels) (hdvd : c.numHeads ∣ c.channels)
    (hl : l < c.numLayers) :
    Upto ops c B T inputs θ (16 * l + 8) ((attentionForward ops (slot c B T .atty l)
      (slot c B T .preatt l) (slot c B T .att l) (slot c B T .qkv l) B T c.channels
      c.numHeads).serial.run m).2 := by
  have hapart : ∀ t u, t ≠ u → l < layersOf c t → l < layersOf c u →
      Apart (slotSeg c B T t l) (slotSeg c B T u l) :=
    fun t u htu ht hu => slot_apart ht hu (Or.inl htu)
  have hwidth : c.channels = c.numHeads * (c.channels / c.numHeads) :=
    (Nat.mul_div_cancel' hdvd).symm
  have hout : ∀ s ∈ [slotSeg c B T .preatt l, slotSeg c B T .att l, slotSeg c B T .qkv l],
      Apart (slotSeg c B T .atty l) s := by
    simp only [List.forall_mem_cons]
    exact ⟨hapart .atty .preatt (by decide) hl hl, hapart .atty .att (by decide) hl hl,
      hapart .atty .qkv (by decide) hl hl, nofun⟩
  have hpreatt : ∀ s ∈ [slotSeg c B T .att l, slotSeg c B T .qkv l],
      Apart (slotSeg c B T .preatt l) s := by
    simp only [List.forall_mem_cons]
    exact ⟨hapart .preatt .att (by decide) hl hl, hapart .preatt .qkv (by decide) hl hl, nofun⟩
  have hcompute := fun {b hd t : Nat} (hb : b < B) (ht : t < T) (hhd : hd < c.numHeads) =>
    attention_computes (m := m) ops hT hNH hout hpreatt (hapart .att .qkv (by decide) hl hl)
      hb ht hhd
  -- what the unit reads, and the columns of a head
  have hqkv : ∀ b, b < B → ∀ t, t < T → ∀ p, p ≤ t → ∀ j, j < c.channels * 3 →
      qkvOf ⟨slot c B T .atty l, slot c B T .preatt l, slot c B T .att l, slot c B T .qkv l, T,
        c.channels, c.numHeads⟩ m b p j =
      ((weightsOf c θ).layer l).qkv ops c
        ((weightsOf c θ).residual ops c (tokensOf T inputs b) l) p j := by
    intro b hb t ht p hp j hj
    rw [qkvOf, Nat.mul_comm c.channels 3]
    have hj' : j < width c .qkv := by
      show j < 3 * c.channels
      omega
    exact h.position .qkv l (by decide) hl (Nat.lt_succ_self _) hb (Nat.lt_of_le_of_lt hp ht) hj'
  have hcol : ∀ hd, hd < c.numHeads → ∀ i, i < c.channels / c.numHeads →
      hd * (c.channels / c.numHeads) + i < c.channels := fun hd hhd i hi => head_lt hhd hi
  refine h.step [.preatt, .att, .atty] l ?writes ?new ?next
  case writes =>
    intro i hi x hx
    rcases (attention_within ops ⟨slot c B T .atty l, slot c B T .preatt l, slot c B T .att l,
      slot c B T .qkv l, T, c.channels, c.numHeads⟩ hT hNH i).writes hx with hx | hx | hx
    · exact ⟨.preatt, by simp, span_row (attRow_lt hT hNH hi) hx⟩
    · exact ⟨.att, by simp, span_row (attRow_lt hT hNH hi) hx⟩
    · exact ⟨.atty, by simp, attOut_span hT hNH hi hx⟩
  case new =>
    simp only [List.forall_mem_cons]
    refine ⟨⟨hl, by simp [stamp, order, Behind], ?_⟩, ⟨hl, by simp [stamp, order, Behind], ?_⟩,
      ⟨hl, by simp [stamp, order, Behind], ?_⟩, nofun⟩
    · intro b hb hd hhd t ht t2 ht2
      rw [← Loc.add_assoc, (hcompute hb ht hhd).1 t2 ht2]
      exact score_congr ops (hqkv b hb t ht) (hcol hd hhd) ht2
    · intro b hb hd hhd t ht t2 ht2
      rw [← Loc.add_assoc, (hcompute hb ht hhd).2.1 t2 ht2]
      exact attWeight_congr ops (hqkv b hb t ht) (hcol hd hhd)
    · rw [holds_position (by decide)]
      intro b hb t ht j hj
      have hj' : j < c.channels := hj
      have hhs : 0 < c.channels / c.numHeads :=
        Nat.div_pos (Nat.le_of_dvd hC hdvd) hNH
      have hhd : j / (c.channels / c.numHeads) < c.numHeads :=
        row_lt (hwidth ▸ hj')
      have hout := (hcompute hb ht hhd).2.2 (j % (c.channels / c.numHeads)) (Nat.mod_lt _ hhs)
      rw [Nat.div_add_mod', Loc.add_assoc, Nat.add_assoc, Nat.div_add_mod'] at hout
      apply hout.trans
      exact attend_congr ops (hqkv b hb t ht) (hcol _ hhd) hj'
  case next =>
    intro tensor k hk hn
    exact next_slots hl (by decide) (by decide) (by decide) tensor k hk hn

/-- **`gelu` takes it on.**. -/
theorem gelu_upto {l : Nat} (h : Upto ops c B T inputs θ (16 * l + 14) m) (hl : l < c.numLayers) :
    Upto ops c B T inputs θ (16 * l + 15) ((geluForward ops (slot c B T .fchGelu l)
      (slot c B T .fch l) (B * T * (4 * c.channels))).serial.run m).2 := by
  have hapart : Apart (slotSeg c B T .fchGelu l) (slotSeg c B T .fch l) :=
    slot_apart hl hl (Or.inl (by decide))
  refine h.step [.fchGelu] l ?writes ?new ?next
  case writes =>
    intro i hi x hx
    have hx' := (gelu_within ops ⟨slot c B T .fchGelu l, slot c B T .fch l⟩ i).writes hx
    rw [hx']
    exact ⟨.fchGelu, by simp, span_cell hi⟩
  case new =>
    refine List.forall_mem_singleton.mpr ⟨hl, by simp [stamp, order, Behind], ?_⟩
    rw [holds_position (by decide)]
    intro b hb p hp i hi
    have hx := h.position .fch l (by decide) hl (by simp [stamp, order, Behind]) hb hp hi
    apply (gelu_computes ops hapart (position_lt hb hp hi)).trans
    exact congrArg (gelu ops) hx
  case next =>
    intro tensor k hk hn
    exact next_slots hl (by decide) (by decide) (by decide) tensor k hk hn

/-- What layer `l` is given. -/
theorem residual_value (tokens : Nat → Nat) (l : Nat) :
    networkValue ops c W (residualSlot l).1 (residualSlot l).2 tokens =
      W.residual ops c tokens l := by
  cases l <;> rfl

/-- The residual a layer starts from was written before the layer. -/
theorem residual_slot_ok {l : Nat} (hl : l ≤ c.numLayers) :
    ByPosition (residualSlot l).1 ∧ width c (residualSlot l).1 = c.channels ∧
      (residualSlot l).2 < layersOf c (residualSlot l).1 ∧
      stamp c (residualSlot l).1 (residualSlot l).2 < 16 * l + 1 := by
  have hlt := residualSlot_lt c hl
  refine ⟨?_, ?_, hlt, ?_⟩
  · cases l with
    | zero => exact (by decide : ByPosition .encoded)
    | succ l => exact (by decide : ByPosition .residual3)
  · cases l <;> rfl
  · cases l with
    | zero => exact Nat.one_pos
    | succ l =>
      show 16 * l + 16 < 16 * (l + 1) + 1
      omega

/-- The calls take the slots from `n` to `n'`. -/
def Carries (ops : FloatOps F) (c : GPT2Config) (B T : Nat) (inputs : Nat → Nat) (θ : Mem F)
    (n n' : Nat) (calls : List (RangeCall F)) : Prop :=
  ∀ m, Upto ops c B T inputs θ n m → Upto ops c B T inputs θ n' (runSerial calls m)

/-- No calls carry no further. -/
theorem Carries.nil (n : Nat) : Carries ops c B T inputs θ n n [] := fun m h => h

/-- One more call. -/
theorem Carries.cons {k : Nat} {call : RangeCall F} {calls : List (RangeCall F)}
    (hcall : ∀ m, Upto ops c B T inputs θ n m → Upto ops c B T inputs θ k (call.serial.run m).2)
    (h : Carries ops c B T inputs θ k n' calls) : Carries ops c B T inputs θ n n' (call :: calls) := by
  intro m hm
  rw [runSerial_cons]
  exact h _ (hcall m hm)

/-- Calls behind one another. -/
theorem Carries.append {k : Nat} {calls calls' : List (RangeCall F)}
    (h : Carries ops c B T inputs θ n k calls) (h' : Carries ops c B T inputs θ k n' calls') :
    Carries ops c B T inputs θ n n' (calls ++ calls') := by
  intro m hm
  rw [runSerial_append]
  exact h' _ (h m hm)

/-- **The calls of layer `l` compute layer `l`.** -/
theorem layerForward_carries (hT : 0 < T) (hNH : 0 < c.numHeads) (hC : 0 < c.channels)
    (hdvd : c.numHeads ∣ c.channels) {l : Nat} (hl : l < c.numLayers) :
    Carries ops c B T inputs θ (16 * l + 1) (16 * (l + 1) + 1) (layerForward ops c B T l) := by
  have hresidual := residual_slot_ok (Nat.le_of_lt hl)
  have hbias : ∀ (p : ParameterTensor) (o : Nat) b, some (pointParameters c p + o) = some b →
      ∃ (p : ParameterTensor) (o : Nat), b = pointParameters c p + o := by
    rintro p o b ⟨⟩
    exact ⟨p, o, rfl⟩
  rw [layerForward_eq]
  have hnumber : 16 * (l + 1) + 1 = 16 * l + 17 := by omega
  rw [hnumber]
  refine Carries.cons (k := 16 * l + 4) (fun m h => ?_) ?_
  · -- ln1
    refine layernorm_upto h ⟨by decide, rfl, hl, Nat.le_refl _⟩ ⟨by decide, rfl, hl, rfl⟩
      ⟨by decide, rfl, hl, rfl⟩ hresidual ?_ ?_ ?_
      (next_slots hl (by decide) (by decide) (by decide)) <;> intro tokens p i <;>
      rw [residual_value] <;> rfl
  refine Carries.cons (k := 16 * l + 5) (fun m h => ?_) ?_
  · -- qkv
    exact matmul_upto h ⟨by decide, rfl, hl, Nat.le_refl _⟩
      ⟨by decide, rfl, hl, by simp [stamp, order, Behind]⟩ (hbias .qkvb _)
      (fun tokens p o => rfl) (next_slots hl (by decide) (by decide) (by decide))
  refine Carries.cons (k := 16 * l + 8) (fun m h => attention_upto h hT hNH hC hdvd hl) ?_
  refine Carries.cons (k := 16 * l + 9) (fun m h => ?_) ?_
  · -- attproj
    exact matmul_upto h ⟨by decide, rfl, hl, Nat.le_refl _⟩
      ⟨by decide, rfl, hl, by simp [stamp, order, Behind]⟩ (hbias .attprojb _)
      (fun tokens p o => rfl) (next_slots hl (by decide) (by decide) (by decide))
  refine Carries.cons (k := 16 * l + 10) (fun m h => ?_) ?_
  · -- residual2
    refine residual_upto h ⟨by decide, rfl, hl, Nat.le_refl _⟩
      ⟨hresidual.1, hresidual.2.1, hresidual.2.2.1, by have := hresidual.2.2.2; omega⟩
      ⟨by decide, rfl, hl, by simp [stamp, order, Behind]⟩ (fun tokens p i => ?_)
      (next_slots hl (by decide) (by decide) (by decide))
    rw [residual_value]
    rfl
  refine Carries.cons (k := 16 * l + 13) (fun m h => ?_) ?_
  · -- ln2
    exact layernorm_upto h ⟨by decide, rfl, hl, Nat.le_refl _⟩ ⟨by decide, rfl, hl, rfl⟩
      ⟨by decide, rfl, hl, rfl⟩ ⟨by decide, rfl, hl, by simp [stamp, order, Behind]⟩
      (fun tokens p i => rfl) (fun tokens p i => rfl) (fun tokens p i => rfl)
      (next_slots hl (by decide) (by decide) (by decide))
  refine Carries.cons (k := 16 * l + 14) (fun m h => ?_) ?_
  · -- fch
    exact matmul_upto h ⟨by decide, rfl, hl, Nat.le_refl _⟩
      ⟨by decide, rfl, hl, by simp [stamp, order, Behind]⟩ (hbias .fcb _)
      (fun tokens p o => rfl) (next_slots hl (by decide) (by decide) (by decide))
  refine Carries.cons (k := 16 * l + 15) (fun m h => ?_) ?_
  · -- fch_gelu
    rw [Nat.mul_assoc (B * T)]
    exact gelu_upto h hl
  refine Carries.cons (k := 16 * l + 16) (fun m h => ?_) ?_
  · -- fcproj
    exact matmul_upto h ⟨by decide, rfl, hl, Nat.le_refl _⟩
      ⟨by decide, rfl, hl, by simp [stamp, order, Behind]⟩ (hbias .fcprojb _)
      (fun tokens p o => rfl) (next_slots hl (by decide) (by decide) (by decide))
  refine Carries.cons (k := 16 * l + 17) (fun m h => ?_) (Carries.nil _)
  · -- residual3
    exact residual_upto h ⟨by decide, rfl, hl, Nat.le_refl _⟩
      ⟨by decide, rfl, hl, by simp [stamp, order, Behind]⟩
      ⟨by decide, rfl, hl, by simp [stamp, order, Behind]⟩ (fun tokens p i => rfl)
      (next_slots hl (by decide) (by decide) (by decide))

/-- The layers, by induction on how many there are. -/
theorem layers_carry (hT : 0 < T) (hNH : 0 < c.numHeads) (hC : 0 < c.channels)
    (hdvd : c.numHeads ∣ c.channels) {L : Nat} (hL : L ≤ c.numLayers) :
    Carries ops c B T inputs θ 1 (16 * L + 1) ((List.range L).flatMap (layerForward ops c B T)) := by
  induction L with
  | zero => exact Carries.nil 1
  | succ L ih =>
    rw [List.range_succ, List.flatMap_append, List.flatMap_singleton]
    exact (ih (Nat.le_of_succ_le hL)).append (layerForward_carries hT hNH hC hdvd hL)

/-- **`encoder_forward` computes the embedding.** -/
theorem encoder_upto (h : Upto ops c B T inputs θ 0 m) :
    Upto ops c B T inputs θ 1 ((encoderForward ops (slot c B T .encoded 0) inputs
      (pointParameters c .wte) (pointParameters c .wpe) B T c.channels).serial.run m).2 := by
  have hparam := fun p (o : Nat) =>
    slot_apart_par (c := c) (B := B) (T := T) .encoded 0 p o c.channels
  refine h.step [.encoded] 0 ?writes ?new ?next
  case writes =>
    intro i hi x hx
    have hx' := (encoder_within ops ⟨slot c B T .encoded 0, inputs, pointParameters c .wte,
      pointParameters c .wpe, T, c.channels⟩ i).writes hx
    exact ⟨.encoded, by simp, span_row hi hx'⟩
  case new =>
    refine List.forall_mem_singleton.mpr ⟨Nat.one_pos, Nat.zero_le _, ?_⟩
    rw [holds_position (by decide)]
    intro b hb p hp i hi
    apply (encoder_computes ops (hparam .wte) (hparam .wpe) (position_lt hb hp hi)).trans
    obtain ⟨hrow, hcol⟩ := row_col (r := b * T + p) (w := c.channels) hi
    rw [hrow, hcol, (row_col hp).2, h.param, h.param]
    rfl
  case next =>
    intro tensor k hk hn
    cases tensor <;> simp [stamp, order, Behind, layersOf] at hn hk ⊢
    omega

/-- **The calls behind the loop compute the distributions.** -/
theorem headForward_carries (hL : 0 < c.numLayers) :
    Carries ops c B T inputs θ (16 * c.numLayers + 1) (16 * c.numLayers + 6)
      (headForward ops c B T) := by
  rw [headForward_eq]
  have hlast : c.numLayers - 1 + 1 = c.numLayers := Nat.sub_add_cancel hL
  have hnext : ∀ {a a' : Nat} {tensors : List ActivationTensor}, 0 < a → a' ≤ 7 →
      (∀ tensor ∈ ActivationTensor.ptrs, Behind tensor = true →
        a ≤ order tensor → order tensor < a' → tensor ∈ tensors) →
      ∀ tensor k, k < layersOf c tensor → stamp c tensor k < 16 * c.numLayers + a' →
        stamp c tensor k < 16 * c.numLayers + a ∨ tensor ∈ tensors ∧ k = 0 := by
    intro a a' tensors ha ha' htensors tensor k hk hlt
    by_cases hle : stamp c tensor k < 16 * c.numLayers + a
    · exact Or.inl hle
    · have hkl : Behind tensor = true ∧ k = 0 ∧
          stamp c tensor k = 16 * c.numLayers + order tensor := by
        cases tensor <;> simp [stamp, order, Behind, layersOf] at hlt hle hk ⊢ <;> omega
      obtain ⟨hbehind, rfl, hstamp⟩ := hkl
      exact Or.inr ⟨htensors tensor (mem_ptrs tensor) hbehind (by omega) (by omega), rfl⟩
  refine Carries.cons (k := 16 * c.numLayers + 4) (fun m h => ?_) ?_
  · -- lnf
    have hsource : stamp c .residual3 (c.numLayers - 1) < 16 * c.numLayers + 1 := by
      simp [stamp, order, Behind]
      omega
    have hvalue : ∀ tokens, networkValue ops c (weightsOf c θ) .residual3 (c.numLayers - 1) tokens =
        (weightsOf c θ).residual ops c tokens c.numLayers := by
      intro tokens
      show (weightsOf c θ).residual ops c tokens (c.numLayers - 1 + 1) = _
      rw [hlast]
    have hlnf : Upto ops c B T inputs θ (16 * c.numLayers + 4) ((layernormForward ops
        (slot c B T .lnf 0) (slot c B T .lnfMean 0) (slot c B T .lnfRstd 0)
        (slot c B T .residual3 (c.numLayers - 1)) (pointParameters c .lnfw + 0)
        (pointParameters c .lnfb + 0) B T c.channels).serial.run m).2 :=
      layernorm_upto h ⟨by decide, rfl, Nat.one_pos, Nat.le_refl _⟩
        ⟨by decide, rfl, Nat.one_pos, rfl⟩ ⟨by decide, rfl, Nat.one_pos, rfl⟩
        ⟨by decide, rfl, Nat.sub_lt hL Nat.one_pos, hsource⟩
        (fun tokens p i => by rw [hvalue]; simp only [Loc.add_zero]; rfl)
        (fun tokens p i => by rw [hvalue]; rfl) (fun tokens p i => by rw [hvalue]; rfl)
        (hnext (by decide) (by decide) (by decide))
    rwa [Loc.add_zero, Loc.add_zero] at hlnf
  refine Carries.cons (k := 16 * c.numLayers + 5) (fun m h => ?_) ?_
  · -- logits
    have hlogits : Upto ops c B T inputs θ (16 * c.numLayers + 5) ((matmulForward ops
        (slot c B T .logits 0) (slot c B T .lnf 0) (pointParameters c .wte + 0) none B T
        c.channels c.vocabSize).serial.run m).2 :=
      matmul_upto h ⟨by decide, rfl, Nat.one_pos, Nat.le_refl _⟩
        ⟨by decide, rfl, Nat.one_pos, by simp [stamp, order, Behind]⟩
        (fun b hb => absurd hb.symm (Option.some_ne_none b))
        (fun tokens p o => by simp only [Loc.add_zero]; rfl)
        (hnext (by decide) (by decide) (by decide))
    rwa [Loc.add_zero] at hlogits
  refine Carries.cons (k := 16 * c.numLayers + 6) (fun m h => ?_) (Carries.nil _)
  · -- probs
    have hapart : Apart (slotSeg c B T .probs 0) (slotSeg c B T .logits 0) :=
      slot_apart Nat.one_pos Nat.one_pos (Or.inl (by decide))
    refine h.step [.probs] 0 ?_ ?_ (hnext (by decide) (by decide) (by decide))
    · intro i hi x hx
      have hx' := (softmax_within ops ⟨slot c B T .probs 0, slot c B T .logits 0, T,
        c.vocabSize⟩ i).writes hx
      exact ⟨.probs, by simp, span_row hi hx'⟩
    · refine List.forall_mem_singleton.mpr ⟨Nat.one_pos, by simp [stamp, order, Behind], ?_⟩
      rw [holds_position (by decide)]
      intro b hb p hp v hv
      obtain ⟨hrow, hcol⟩ := row_col (r := b * T + p) (w := c.vocabSize) hv
      apply (softmax_computes ops hapart (position_lt hb hp hv)).trans
      rw [hrow, hcol]
      refine softmax_congr ops (fun i hi => ?_) hv
      rw [Loc.add_assoc]
      exact h.position .logits 0 (by decide) Nat.one_pos (by simp [stamp, order, Behind]) hb hp hi

/-- **The whole pass carries from nothing to all slots.**. -/
theorem gpt2Forward_carries (hT : 0 < T) (hNH : 0 < c.numHeads) (hC : 0 < c.channels)
    (hdvd : c.numHeads ∣ c.channels) (hL : 0 < c.numLayers) :
    Carries ops c B T inputs θ 0 (16 * c.numLayers + 6) (gpt2Forward ops c inputs B T) := by
  refine Carries.cons (k := 1) (fun m h => ?_) ?_
  · rw [← slot_zero]
    exact encoder_upto h
  · exact (layers_carry hT hNH hC hdvd (Nat.le_refl _)).append (headForward_carries hL)

end Upto

/-! ## The weights that are loaded -/

section Loaded

variable {F : Type} (ops : FloatOps F) {c : GPT2Config} {B T : Nat} {inputs : Nat → Nat}
  {W W' : Weights F} {tokens : Nat → Nat} {t : Nat}

end Loaded

/-! ## The result -/

section Forward

variable {F : Type} (ops : FloatOps F) (c : Model) (inputs : Nat → Nat) {B T w : Nat}
  {m m' : Mem F}

/-- After the calls every slot is filled. -/
theorem forward_upto (hT : 1 ≤ T)
    (hrun : RunCalls w (gpt2Forward ops c.toGPT2Config inputs B T) m m') :
    Upto ops c.toGPT2Config B T inputs m (16 * c.numLayers + 6) m' := by
  have hclash := gpt2Forward_noClash ops c.toGPT2Config B T inputs hT c.numHeads_pos
    c.numLayers_pos
  obtain rfl := (runCalls_iff hclash w m m').mp hrun
  have hstart : Upto ops c.toGPT2Config B T inputs m 0 m :=
    ⟨fun a => rfl, fun tensor l hl hn => absurd hn (Nat.not_lt_zero _)⟩
  exact gpt2Forward_carries hT c.numHeads_pos c.channels_pos c.heads_dvd c.numLayers_pos m hstart

variable {ops c inputs}

/-- Behind the last call all slots but the losses hold. -/
theorem Upto.tensors (h : Upto ops c.toGPT2Config B T inputs m (16 * c.numLayers + 6) m')
    (tensor : ActivationTensor) (l : Nat) (hl : l < layersOf c.toGPT2Config tensor)
    (hlosses : tensor ≠ .losses) :
    Holds ops c.toGPT2Config B T inputs (weightsOf c.toGPT2Config m) m' tensor l := by
  apply h.holds tensor l hl
  cases tensor <;> simp [stamp, order, Behind, layersOf] at hl hlosses ⊢ <;> omega

/-- The logits in memory. -/
theorem Upto.logits (h : Upto ops c.toGPT2Config B T inputs m (16 * c.numLayers + 6) m')
    {b t v : Nat} (hb : b < B) (ht : t < T) (hv : v < c.vocabSize) :
    m' (pointActivations c.toGPT2Config B T .logits + ((b * T + t) * c.vocabSize + v)) =
      (weightsOf c.toGPT2Config m).logits ops c.toGPT2Config (tokensOf T inputs b) t v := by
  have hlogits := h.position .logits 0 (by decide) Nat.one_pos (by simp [stamp, order, Behind])
    hb ht hv
  rwa [slot_zero] at hlogits

/-- The probabilities in memory. -/
theorem Upto.probs (h : Upto ops c.toGPT2Config B T inputs m (16 * c.numLayers + 6) m')
    {b t v : Nat} (hb : b < B) (ht : t < T) (hv : v < c.vocabSize) :
    m' (pointActivations c.toGPT2Config B T .probs + ((b * T + t) * c.vocabSize + v)) =
      (weightsOf c.toGPT2Config m).probs ops c.toGPT2Config (tokensOf T inputs b) t v := by
  have hprobs := h.position .probs 0 (by decide) Nat.one_pos (by simp [stamp, order, Behind])
    hb ht hv
  rwa [slot_zero] at hprobs

end Forward

/-- Where the `int`s fit, the pass leaves a memory and runs its calls. -/
theorem RunForward.calls {F : Type} {ops : FloatOps F} {c : GPT2Config} {inputs : Nat → Nat}
    {B T w : Nat} (hints : IntsFit c inputs B T w) {m : Mem F} {r : Option (Mem F)}
    (h : RunForward c inputs B T ops w m r) :
    ∃ m', r = some m' ∧ RunCalls w (gpt2Forward ops c inputs B T) m m' := by
  cases h with
  | run _ hrun => exact ⟨_, rfl, hrun⟩
  | undefined hno => exact absurd hints hno

end Gpt
