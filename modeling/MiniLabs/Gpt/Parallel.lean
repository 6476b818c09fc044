/-
  gpt — parallel inference equals serial inference.

  1. **Specification** — `parallel_eq_serial`: where the `int`s of the run with `w` workers fit,
     `gpt2_forward` leaves one memory, whatever the interleaving, and a single worker leaves the
     same; no index of a call writes what another one reads or writes.

  2. **The crux (`gpt2Forward_noClash`)** — no index of any call clashes with another: the output
     of a call is apart from its inputs, and the indices write different rows of it.  The slices
     of `parallel_for` are, one behind the other, the indices from `begin` to `end`
     (`slices_flatten`), so a shuffle of them is a permutation of these indices, and bodies that
     spare each other may run in any order.

  3. **Where it ends** — `total + n` grows with the number of workers.  On `wideModel` it is in
     range with one worker and not with four (`wide_overflows`).
-/
import MiniLabs.Gpt.Footprint
import MiniLabs.Gpt.IntRange

set_option linter.unusedVariables false

namespace Gpt

open Access Access.Prog Shuffles

/-! ## The slices -/

/-- A range that is not empty has a slice. -/
theorem sliceCount_pos {total : Nat} (w : Nat) (ht : 0 < total) : 0 < sliceCount w total := by
  simp only [sliceCount, maxWorkers]
  split <;> split <;> split <;> omega

/-- The first `k` slices. -/
theorem slices_take (begin_ end_ span k : Nat) :
    ((List.range k).map fun i => indices (slice begin_ end_ span i)).flatten =
      List.range' begin_ (min (k * span) (end_ - begin_)) := by
  induction k with
  | zero => simp
  | succ k ih =>
    rw [List.range_succ, List.map_append, List.flatten_append, ih, List.map_singleton,
      List.flatten_singleton, Nat.succ_mul]
    have hslice : indices (slice begin_ end_ span k) = List.range' (begin_ + min (k * span)
        (end_ - begin_)) (min (k * span + span) (end_ - begin_) - min (k * span)
        (end_ - begin_)) := by
      rw [indices, slice]
      dsimp only
      by_cases hend : begin_ + k * span ≤ end_
      · congr 1 <;> [skip; split] <;> omega
      · have hlen : (if begin_ + k * span + span > end_ then end_ else begin_ + k * span + span) -
            (begin_ + k * span) = 0 := by split <;> omega
        have hmin : min (k * span + span) (end_ - begin_) - min (k * span) (end_ - begin_) = 0 := by
          omega
        rw [hlen, hmin]
        rfl
    rw [hslice, List.range'_append_1]
    congr 1
    omega

/-- **The slices visit every index once**, in order. -/
theorem slices_flatten (w : Nat) {begin_ end_ : Nat} (h : begin_ < end_) :
    ((slices w begin_ end_).map indices).flatten = List.range' begin_ (end_ - begin_) := by
  have hn := sliceCount_pos w (Nat.sub_pos_of_lt h)
  rw [slices, List.map_map]
  apply (slices_take begin_ end_ _ _).trans
  congr 1
  -- rounding up: `n` slices of `span` indices are enough
  apply Nat.min_eq_right
  generalize sliceCount w (end_ - begin_) = n at hn
  have hdiv := Nat.div_add_mod (end_ - begin_ + n - 1) n
  have hmod := Nat.mod_lt (end_ - begin_ + n - 1) hn
  rw [Nat.mul_comm] at hdiv
  rw [Nat.mul_comm]
  omega

/-! ## A call, and a list of calls -/

section Runs

variable {F : Type}

/-- The memory after the calls, every index in order. -/
def runSerial (cs : List (RangeCall F)) (m : Mem F) : Mem F :=
  cs.foldl (fun m c => runAll c.body (List.range c.total) m) m

/-- What `parallel_for` leaves, if no two indices clash. -/
theorem parallelFor_iff {c : RangeCall F} (hc : NoClash c) (w : Nat) (m m' : Mem F) :
    ParallelFor w c m m' ↔ m' = runAll c.body (List.range c.total) m := by
  rw [ParallelFor]
  by_cases htotal : c.total ≤ 0
  · rw [if_pos htotal, Nat.le_zero.mp htotal]
    rfl
  · rw [if_neg htotal]
    have hflat : ((slices w 0 c.total).map indices).flatten = List.range c.total := by
      rw [slices_flatten w (Nat.lt_of_not_le htotal), List.range_eq_range', Nat.sub_zero]
    constructor
    · rintro ⟨order, hshuffle, rfl⟩
      refine (runAll_perm (hflat ▸ hshuffle.perm).symm ?_ m).symm
      intro i hi j hj hij
      exact hc i (List.mem_range.mp hi) j (List.mem_range.mp hj) hij
    · rintro rfl
      exact ⟨_, hflat ▸ Shuffle.flatten _, rfl⟩

/-- What a list of calls leaves, if in none of them two indices clash. -/
theorem runCalls_iff {cs : List (RangeCall F)} (hcs : ∀ c ∈ cs, NoClash c) (w : Nat)
    (m m' : Mem F) : RunCalls w cs m m' ↔ m' = runSerial cs m := by
  induction cs generalizing m with
  | nil =>
    constructor
    · intro h
      cases h
      rfl
    · rintro rfl
      exact RunCalls.nil _
  | cons c cs ih =>
    have hc := parallelFor_iff (hcs c List.mem_cons_self) w m
    have ih' := ih fun c' hc' => hcs c' (List.mem_cons_of_mem c hc')
    constructor
    · intro h
      cases h with
      | cons hfirst hrest =>
        rw [(hc _).mp hfirst] at hrest
        exact (ih' _).mp hrest
    · intro h
      exact RunCalls.cons ((hc _).mpr rfl) ((ih' _).mpr h)

/-- What `gpt2_forward` leaves, if its `int`s fit and no two indices clash. -/
theorem runForward_iff {ops : FloatOps F} {c : GPT2Config} {inputs : Nat → Nat} {B T w : Nat}
    (hclash : ∀ call ∈ gpt2Forward ops c inputs B T, NoClash call)
    (hints : IntsFit c inputs B T w) (m : Mem F) (r : Option (Mem F)) :
    RunForward c inputs B T ops w m r ↔ r = some (runSerial (gpt2Forward ops c inputs B T) m) := by
  constructor
  · intro h
    cases h with
    | run _ hrun => rw [(runCalls_iff hclash w m _).mp hrun]
    | undefined hno => exact absurd hints hno
  · rintro rfl
    exact .run hints ((runCalls_iff hclash w m _).mpr rfl)

end Runs

/-! ## The calls of `gpt2_forward` -/

section Calls

variable {F : Type} (ops : FloatOps F) (c : GPT2Config) (B T : Nat)

/-- `residual` points into no slot of this layer, and not behind the encoded tokens. -/
theorem residual_apart {t : ActivationTensor} {l k : Nat} (hl : l < c.numLayers)
    (hk : k < layersOf c t) (ht : t ≠ .encoded) (hkl : t = .residual3 → k = l) :
    Apart (slotSeg c B T t k) (slotSeg c B T (residualSlot l).1 (residualSlot l).2) := by
  rw [residualSlot]
  split
  · exact slot_apart hk Nat.zero_lt_one (Or.inl ht)
  · refine slot_apart hk (Nat.lt_of_le_of_lt (Nat.sub_le l 1) hl) ?_
    by_cases h3 : t = .residual3
    · right
      rw [hkl h3]
      dsimp only
      omega
    · exact Or.inl h3

/-- **No index of a call of a layer clashes with another.**. -/
theorem layerForward_noClash (hT : 0 < T) (hNH : 0 < c.numHeads) {l : Nat}
    (hl : l < c.numLayers) : ∀ call ∈ layerForward ops c B T l, NoClash call := by
  have hres : ∀ t, t ≠ .encoded → l < layersOf c t → Apart (slotSeg c B T t l)
      ⟨slot c B T (residualSlot l).1 (residualSlot l).2, B * T * c.channels⟩ := by
    intro t ht hlt
    have h := residual_apart c B T hl hlt ht fun _ => rfl
    rw [slotSeg, slotSeg, residual_len] at h
    exact h
  have hact : ∀ t u, t ≠ u → l < layersOf c t → l < layersOf c u →
      Apart (slotSeg c B T t l) (slotSeg c B T u l) :=
    fun t u htu ht hu => slot_apart ht hu (Or.inl htu)
  have hpar : ∀ t p k n, Apart (slotSeg c B T t l) ⟨pointParameters c p + k, n⟩ :=
    fun t p k n => slot_apart_par t l p k n
  rw [layerForward_eq]
  simp only [List.forall_mem_cons]
  refine ⟨?ln1, ?qkv, ?attention, ?attproj, ?residual2, ?ln2, ?fch, ?gelu, ?fcproj, ?residual3, ?_⟩
  case ln1 =>
    refine layernorm_noClash ops ?_ ?_ ?_ <;> simp only [List.forall_mem_cons]
    · exact ⟨hact .ln1 .ln1Mean (by decide) hl hl, hact .ln1 .ln1Rstd (by decide) hl hl,
        hres .ln1 (by decide) hl, hpar .ln1 _ _ _, hpar .ln1 _ _ _, by simp⟩
    · exact ⟨hact .ln1Mean .ln1Rstd (by decide) hl hl, hres .ln1Mean (by decide) hl,
        hpar .ln1Mean _ _ _, hpar .ln1Mean _ _ _, by simp⟩
    · exact ⟨hres .ln1Rstd (by decide) hl, hpar .ln1Rstd _ _ _, hpar .ln1Rstd _ _ _, by simp⟩
  case qkv =>
    refine matmul_noClash ops ?_ ?_ ?_
    · exact hact .qkv .ln1 (by decide) hl hl
    · exact hpar .qkv _ _ _
    · rintro b ⟨⟩
      exact hpar .qkv _ _ _
  case attention =>
    refine attention_noClash ops hT hNH ?_ ?_ (hact .att .qkv (by decide) hl hl) <;>
      simp only [List.forall_mem_cons]
    · exact ⟨hact .atty .preatt (by decide) hl hl, hact .atty .att (by decide) hl hl,
        hact .atty .qkv (by decide) hl hl, by simp⟩
    · exact ⟨hact .preatt .att (by decide) hl hl, hact .preatt .qkv (by decide) hl hl, by simp⟩
  case attproj =>
    refine matmul_noClash ops ?_ ?_ ?_
    · exact hact .attproj .atty (by decide) hl hl
    · exact hpar .attproj _ _ _
    · rintro b ⟨⟩
      exact hpar .attproj _ _ _
  case residual2 =>
    exact residual_noClash ops (hres .residual2 (by decide) hl)
      (hact .residual2 .attproj (by decide) hl hl)
  case ln2 =>
    refine layernorm_noClash ops ?_ ?_ ?_ <;> simp only [List.forall_mem_cons]
    · exact ⟨hact .ln2 .ln2Mean (by decide) hl hl, hact .ln2 .ln2Rstd (by decide) hl hl,
        hact .ln2 .residual2 (by decide) hl hl, hpar .ln2 _ _ _, hpar .ln2 _ _ _, by simp⟩
    · exact ⟨hact .ln2Mean .ln2Rstd (by decide) hl hl, hact .ln2Mean .residual2 (by decide) hl hl,
        hpar .ln2Mean _ _ _, hpar .ln2Mean _ _ _, by simp⟩
    · exact ⟨hact .ln2Rstd .residual2 (by decide) hl hl, hpar .ln2Rstd _ _ _,
        hpar .ln2Rstd _ _ _, by simp⟩
  case fch =>
    refine matmul_noClash ops ?_ ?_ ?_
    · exact hact .fch .ln2 (by decide) hl hl
    · exact hpar .fch _ _ _
    · rintro b ⟨⟩
      exact hpar .fch _ _ _
  case gelu =>
    apply gelu_noClash ops
    rw [Nat.mul_assoc (B * T)]
    exact hact .fchGelu .fch (by decide) hl hl
  case fcproj =>
    refine matmul_noClash ops ?_ ?_ ?_
    · exact hact .fcproj .fchGelu (by decide) hl hl
    · exact hpar .fcproj _ _ _
    · rintro b ⟨⟩
      exact hpar .fcproj _ _ _
  case residual3 =>
    exact residual_noClash ops (hact .residual3 .residual2 (by decide) hl hl)
      (hact .residual3 .fcproj (by decide) hl hl)
  intro call hcall
  exact absurd hcall List.not_mem_nil

/-- **Nor of a call of the head.**. -/
theorem headForward_noClash (hL : 0 < c.numLayers) :
    ∀ call ∈ headForward ops c B T, NoClash call := by
  have hres : ∀ t, layersOf c t = 1 → t ≠ .residual3 → Apart (slotSeg c B T t 0)
      (slotSeg c B T .residual3 (c.numLayers - 1)) :=
    fun t ht hne => slot_apart (ht ▸ Nat.zero_lt_one) (Nat.sub_lt hL Nat.one_pos) (Or.inl hne)
  have hact : ∀ t u, t ≠ u → 0 < layersOf c t → 0 < layersOf c u →
      Apart (slotSeg c B T t 0) (slotSeg c B T u 0) :=
    fun t u htu ht hu => slot_apart ht hu (Or.inl htu)
  have hpar : ∀ t p n, Apart (slotSeg c B T t 0) ⟨pointParameters c p, n⟩ :=
    fun t p n => apart_act_par _ _ _ _
  rw [headForward_eq]
  simp only [List.forall_mem_cons]
  refine ⟨?lnf, ?logits, ?probs, ?_⟩
  case lnf =>
    refine layernorm_noClash ops ?_ ?_ ?_ <;> simp only [List.forall_mem_cons]
    · exact ⟨hact .lnf .lnfMean (by decide) Nat.one_pos Nat.one_pos,
        hact .lnf .lnfRstd (by decide) Nat.one_pos Nat.one_pos,
        hres .lnf rfl (by decide), hpar .lnf _ _, hpar .lnf _ _, by simp⟩
    · exact ⟨hact .lnfMean .lnfRstd (by decide) Nat.one_pos Nat.one_pos,
        hres .lnfMean rfl (by decide), hpar .lnfMean _ _, hpar .lnfMean _ _, by simp⟩
    · exact ⟨hres .lnfRstd rfl (by decide), hpar .lnfRstd _ _, hpar .lnfRstd _ _, by simp⟩
  case logits =>
    refine matmul_noClash ops ?_ ?_ ?_
    · exact hact .logits .lnf (by decide) Nat.one_pos Nat.one_pos
    · exact hpar .logits _ _
    · intro b hb
      cases hb
  case probs =>
    exact softmax_noClash ops (hact .probs .logits (by decide) Nat.one_pos Nat.one_pos)
  intro call hcall
  exact absurd hcall List.not_mem_nil

/-- **No index of any call of `gpt2_forward` clashes with another.** -/
theorem gpt2Forward_noClash (inputs : Nat → Nat) (hT : 0 < T) (hNH : 0 < c.numHeads)
    (hL : 0 < c.numLayers) : ∀ call ∈ gpt2Forward ops c inputs B T, NoClash call := by
  intro call hcall
  rcases List.mem_cons.mp hcall with rfl | hcall
  · rw [← slot_zero]
    refine encoder_noClash ops (fun k => ?_) fun k => ?_
    · exact slot_apart_par .encoded 0 .wte k _
    · exact slot_apart_par .encoded 0 .wpe k _
  rcases List.mem_append.mp hcall with hcall | hcall
  · obtain ⟨l, hl, hcall⟩ := List.mem_flatMap.mp hcall
    exact layerForward_noClash ops c B T hT hNH (List.mem_range.mp hl) call hcall
  · exact headForward_noClash ops c B T hL call hcall

end Calls

/-! ## The result -/

/-- Integers for floats. -/
def intOps : FloatOps Int where
  add := (· + ·)
  sub := (· - ·)
  mul := (· * ·)
  div := (· / ·)
  gt a b := decide (a > b)
  eq a b := decide (a = b)
  sqrtf x := x
  expf x := x + 1
  tanhf x := x
  ofInt n := n
  recip x := 1 / x
  zero := 0
  one := 1
  half := 0
  eps := 0
  lowest := -10000
  cubic := 0
  twoOverPi := 0

/-- Two tokens, one layer with one head of one channel. -/
def tinyModel : Model where
  maxSeqLen := 2
  vocabSize := 2
  numLayers := 1
  numHeads := 1
  channels := 1
  maxSeqLen_pos := by decide
  vocabSize_pos := by decide
  numLayers_pos := by decide
  numHeads_pos := by decide
  channels_pos := by decide
  heads_dvd := by decide

/-- **Parallel inference equals serial inference.**  Whatever number of workers, and however
    they are interleaved: if the `int`s fit, `gpt2_forward` leaves one memory, the one that a
    single worker leaves; and no index of a call writes a cell that another index of that call
    reads or writes. -/
theorem parallel_eq_serial {F : Type} (ops : FloatOps F) (c : Model) (inputs : Nat → Nat)
    {B T : Nat} (hB : 1 ≤ B) (hT : 1 ≤ T) {w : Nat} (hw : 1 ≤ w) (hmax : w ≤ maxWorkers)
    (hints : IntsFit c.toGPT2Config inputs B T w) :
    (∀ m : Mem F, ∃ out, ∀ r,
      (RunForward c.toGPT2Config inputs B T ops 1 m r ↔ r = some out) ∧
      (RunForward c.toGPT2Config inputs B T ops w m r ↔ r = some out)) ∧
    ∀ call ∈ gpt2Forward ops c.toGPT2Config inputs B T,
      ∀ i, i < call.total → ∀ j, j < call.total → i ≠ j →
        ∀ x, (call.body i).Writes x → ¬ (call.body j).Reads x ∧ ¬ (call.body j).Writes x := by
  have hclash := gpt2Forward_noClash ops c.toGPT2Config B T inputs hT c.numHeads_pos
    c.numLayers_pos
  constructor
  · intro m
    refine ⟨runSerial (gpt2Forward ops c.toGPT2Config inputs B T) m, fun r => ⟨?_, ?_⟩⟩
    · exact runForward_iff hclash (hints.fewer hw) m r
    · exact runForward_iff hclash hints m r
  · exact hclash

/-- The `int`s of the tiny model are in range. -/
theorem tinyModel_range (w : Nat) (hw : w ≤ maxWorkers) :
    IntRange tinyModel.toGPT2Config 2 2 w :=
  IntRange.mono (w := 4) (T := 2) ⟨by decide, by decide, by decide, by decide, by decide, by decide,
    by decide⟩ le_rfl hw

/-- Tokens of its vocabulary. -/
theorem mod_two_lt (i : Nat) (n : Nat) (hi : i < n) : i % 2 < tinyModel.vocabSize :=
  Nat.mod_lt i (by decide)

/-- Four workers on the tiny model, two sequences of two tokens. -/
theorem parallel_eq_serial_tiny :
    (∀ m : Mem Int, ∃ out, ∀ r,
      (RunForward tinyModel.toGPT2Config (· % 2) 2 2 intOps 1 m r ↔ r = some out) ∧
      (RunForward tinyModel.toGPT2Config (· % 2) 2 2 intOps 4 m r ↔ r = some out)) ∧
    ∀ call ∈ gpt2Forward intOps tinyModel.toGPT2Config (· % 2) 2 2,
      ∀ i, i < call.total → ∀ j, j < call.total → i ≠ j →
        ∀ x, (call.body i).Writes x → ¬ (call.body j).Reads x ∧ ¬ (call.body j).Writes x :=
  parallel_eq_serial intOps tinyModel (· % 2) (by decide) (by decide) (by decide) (by decide)
    ((tinyModel_range 4 (by decide)).fits (by decide) (by decide) fun i hi => mod_two_lt i _ hi)

/-- A vocabulary of 2147483645 tokens, and everything else once. -/
def wideModel : Model where
  maxSeqLen := 1
  vocabSize := 2147483645
  numLayers := 1
  numHeads := 1
  channels := 1
  maxSeqLen_pos := by decide
  vocabSize_pos := by decide
  numLayers_pos := by decide
  numHeads_pos := by decide
  channels_pos := by decide
  heads_dvd := by decide

/-- The bound of the loop for the logits is in range, and 4 more is not: one worker computes what
    four do not. -/
theorem wide_overflows : ∃ out,
    RunForward wideModel.toGPT2Config (fun _ => 0) 1 1 intOps 1 (fun _ => 1) (some out) ∧
    ∀ r, RunForward wideModel.toGPT2Config (fun _ => 0) 1 1 intOps 4 (fun _ => 1) r → r = none := by
  have hclash := gpt2Forward_noClash intOps wideModel.toGPT2Config 1 1 (fun _ => 0) (by decide)
    (by decide) (by decide)
  have hone : IntRange wideModel.toGPT2Config 1 1 1 :=
    ⟨by decide, by decide, by decide, by decide, by decide, by decide, by decide⟩
  have hfits := hone.fits (by decide) (by decide) fun i _ => wideModel.vocabSize_pos
  refine ⟨_, (runForward_iff hclash hfits _ _).mpr rfl, fun r h => ?_⟩
  cases h with
  | run hints hrun => exact absurd hints.range.logits (by decide)
  | undefined hints => rfl

end Gpt
