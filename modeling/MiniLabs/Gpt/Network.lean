/-
  gpt — the network, without memory.

  1. **Specification** — what a forward pass is for: a sequence of tokens becomes a sequence of
     vectors, which go through the layers, and at each position come out as a distribution over the
     vocabulary.
  2. **Its terms** — a vector is a function of its index, a sequence of vectors a function of the
     position; nothing here knows of pointers, batches or workers.  Sums run from left to right, as
     floats need not be associative, and the largest entry of a row is looked for from `-10000.0f`
     on, as in the source.
  3. **Congruence** — each function looks at its vectors only as far as their length (`linear_congr`
     and its like), which is what comparing two runs comes down to.
-/
import MiniLabs.Gpt.Forward
import MiniLabs.Lib.Values

set_option linter.unusedVariables false

namespace Gpt

open Access

/-- The parameters of a layer. -/
structure LayerWeights (F : Type) where
  ln1w : Nat → F
  ln1b : Nat → F
  qkvw : Nat → Nat → F
  qkvb : Nat → F
  attprojw : Nat → Nat → F
  attprojb : Nat → F
  ln2w : Nat → F
  ln2b : Nat → F
  fcw : Nat → Nat → F
  fcb : Nat → F
  fcprojw : Nat → Nat → F
  fcprojb : Nat → F

/-- The parameters: the embeddings, the layers and the last normalisation. -/
structure Weights (F : Type) where
  wte : Nat → Nat → F
  wpe : Nat → Nat → F
  layer : Nat → LayerWeights F
  lnfw : Nat → F
  lnfb : Nat → F

section Network

variable {F : Type} (ops : FloatOps F)

/-! ## Vectors -/

/-- `b + f 0 + … + f (n - 1)`, from left to right. -/
def sumFrom (b : F) (n : Nat) (f : Nat → F) : F := rounds n b fun i s => ops.add s (f i)

/-- The largest of `f 0 … f (n - 1)`, and of `-10000`. -/
def largest (n : Nat) (f : Nat → F) : F :=
  rounds n ops.lowest fun i a => if ops.gt (f i) a then f i else a

/-- The mean of a vector. -/
def mean (C : Nat) (x : Nat → F) : F := ops.div (sumFrom ops ops.zero C x) (ops.ofInt C)

/-- The reciprocal of its standard deviation. -/
def rstd (C : Nat) (x : Nat → F) : F :=
  let square i := ops.mul (ops.sub (x i) (mean ops C x)) (ops.sub (x i) (mean ops C x))
  let variance := ops.div (sumFrom ops ops.zero C square) (ops.ofInt C)
  ops.div ops.one (ops.sqrtf (ops.add variance ops.eps))

/-- The vector, normalised. -/
def layernorm (C : Nat) (w b x : Nat → F) (i : Nat) : F :=
  ops.add (ops.mul (ops.mul (rstd ops C x) (ops.sub (x i) (mean ops C x))) (w i)) (b i)

/-- The matrix `w` applied to the vector, and `b` added. -/
def linear (C : Nat) (w : Nat → Nat → F) (b x : Nat → F) (o : Nat) : F :=
  sumFrom ops (b o) C fun i => ops.mul (x i) (w o i)

/-- The activation function. -/
def gelu (x : F) : F :=
  let cube := ops.mul (ops.mul (ops.mul ops.cubic x) x) x
  ops.mul (ops.mul ops.half x)
    (ops.add ops.one (ops.tanhf (ops.mul (ops.sqrtf ops.twoOverPi) (ops.add x cube))))

/-- The vector as a distribution. -/
def softmax (V : Nat) (f : Nat → F) (i : Nat) : F :=
  let exp i := ops.expf (ops.sub (f i) (largest ops V f))
  ops.div (exp i) (sumFrom ops ops.zero V exp)

/-! Of a vector of `C` entries the first `C` matter. -/

section Congr

variable {n C : Nat} {x y : Nat → F}

/-- A sum looks at its terms. -/
theorem sumFrom_congr {b : F} (h : ∀ i, i < n → x i = y i) :
    sumFrom ops b n x = sumFrom ops b n y :=
  rounds_congr b fun i hi s => congrArg (ops.add s) (h i hi)

/-- The largest entry is one of the row, or the `-10000.0f` the search begins with. -/
theorem largest_congr (h : ∀ i, i < n → x i = y i) : largest ops n x = largest ops n y := by
  refine rounds_congr _ fun i hi a => ?_
  rw [h i hi]

theorem mean_congr (h : ∀ i, i < C → x i = y i) : mean ops C x = mean ops C y := by
  rw [mean, mean, sumFrom_congr ops h]

theorem rstd_congr (h : ∀ i, i < C → x i = y i) : rstd ops C x = rstd ops C y := by
  rw [rstd, rstd, mean_congr ops h]
  rw [sumFrom_congr ops fun i hi => by rw [h i hi]]

/-- `layernorm` looks at the whole vector, and at one entry of weight and bias. -/
theorem layernorm_congr {w b w' b' : Nat → F} {i : Nat} (hw : w i = w' i) (hb : b i = b' i)
    (h : ∀ i, i < C → x i = y i) (hi : i < C) :
    layernorm ops C w b x i = layernorm ops C w' b' y i := by
  rw [layernorm, layernorm, mean_congr ops h, rstd_congr ops h, h i hi, hw, hb]

/-- One entry of `linear` looks at the whole vector and at one row of the weights. -/
theorem linear_congr {w w' : Nat → Nat → F} {b b' : Nat → F} {o : Nat}
    (hw : ∀ i, i < C → w o i = w' o i) (hb : b o = b' o) (h : ∀ i, i < C → x i = y i) :
    linear ops C w b x o = linear ops C w' b' y o := by
  rw [linear, linear, hb]
  apply sumFrom_congr
  intro i hi
  rw [h i hi, hw i hi]

/-- `softmax` looks at the whole row. -/
theorem softmax_congr (h : ∀ i, i < n → x i = y i) {i : Nat} (hi : i < n) :
    softmax ops n x i = softmax ops n y i := by
  rw [softmax, softmax, largest_congr ops h]
  dsimp only
  rw [h i hi, sumFrom_congr ops fun i hi => by rw [h i hi]]

end Congr

/-! ## Attention -/

section Attention

variable (C hs : Nat) (qkv : Nat → Nat → F)

/-- How well the key at `t2` fits the query at `t`, in head `h`. -/
def score (h t t2 : Nat) : F :=
  ops.mul
    (sumFrom ops ops.zero hs fun i => ops.mul (qkv t (h * hs + i)) (qkv t2 (h * hs + C + i)))
    (ops.recip (ops.sqrtf (ops.ofInt hs)))

/-- The exponential of the score, before it is normalised. -/
def expScore (h t t2 : Nat) : F :=
  ops.expf (ops.sub (score ops C hs qkv h t t2)
    (largest ops (t + 1) (score ops C hs qkv h t)))

/-- The factor of the normalisation. -/
def expsumInv (h t : Nat) : F :=
  let expsum := sumFrom ops ops.zero (t + 1) (expScore ops C hs qkv h t)
  if ops.eq expsum ops.zero then ops.zero else ops.div ops.one expsum

/-- The weight at `t` of position `t2`: none behind `t`. -/
def attWeight (h t t2 : Nat) : F :=
  if t2 ≤ t then ops.mul (expScore ops C hs qkv h t t2) (expsumInv ops C hs qkv h t) else ops.zero

/-- The values up to `t`, by their weights. -/
def attend (t j : Nat) : F :=
  sumFrom ops ops.zero (t + 1) fun t2 =>
    ops.mul (attWeight ops C hs qkv (j / hs) t t2) (qkv t2 (C * 2 + j))

/-! At `t` the first `3 * C` entries up to `t` matter. -/

variable {C hs qkv} {qkv' : Nat → Nat → F} {h t t2 : Nat}

/-- A score looks at one query and one key, in the columns of its head. -/
theorem score_congr (hq : ∀ p, p ≤ t → ∀ j, j < C * 3 → qkv p j = qkv' p j)
    (hcol : ∀ i, i < hs → h * hs + i < C) (ht2 : t2 ≤ t) :
    score ops C hs qkv h t t2 = score ops C hs qkv' h t t2 := by
  rw [score, score]
  congr 1
  apply sumFrom_congr
  intro i hi
  have := hcol i hi
  rw [hq t (Nat.le_refl t) _ (by omega), hq t2 ht2 _ (by omega)]

/-- An exponential looks at the scores up to its own position, for the largest of them. -/
theorem expScore_congr (hq : ∀ p, p ≤ t → ∀ j, j < C * 3 → qkv p j = qkv' p j)
    (hcol : ∀ i, i < hs → h * hs + i < C) (ht2 : t2 ≤ t) :
    expScore ops C hs qkv h t t2 = expScore ops C hs qkv' h t t2 := by
  rw [expScore, expScore, score_congr ops hq hcol ht2,
    largest_congr ops fun i hi => score_congr ops hq hcol (Nat.le_of_lt_succ hi)]

/-- A weight looks at the positions up to its own. -/
theorem attWeight_congr (hq : ∀ p, p ≤ t → ∀ j, j < C * 3 → qkv p j = qkv' p j)
    (hcol : ∀ i, i < hs → h * hs + i < C) :
    attWeight ops C hs qkv h t t2 = attWeight ops C hs qkv' h t t2 := by
  rw [attWeight, attWeight]
  split
  · rw [expScore_congr ops hq hcol ‹_›, expsumInv, expsumInv,
      sumFrom_congr ops fun i hi => expScore_congr ops hq hcol (Nat.le_of_lt_succ hi)]
  · rfl

/-- **What attention puts out looks at no position behind its own.**. -/
theorem attend_congr {j : Nat} (hq : ∀ p, p ≤ t → ∀ j, j < C * 3 → qkv p j = qkv' p j)
    (hcol : ∀ i, i < hs → j / hs * hs + i < C) (hj : j < C) :
    attend ops C hs qkv t j = attend ops C hs qkv' t j := by
  apply sumFrom_congr
  intro t2 ht2
  rw [attWeight_congr ops hq hcol, hq t2 (Nat.le_of_lt_succ ht2) _ (by omega)]

end Attention

/-! ## A layer -/

namespace LayerWeights

variable (c : GPT2Config) (W : LayerWeights F) (x : Nat → Nat → F)

/-- The first `layernorm` of the layer. -/
def ln1 (t : Nat) : Nat → F := layernorm ops c.channels W.ln1w W.ln1b (x t)

/-- The queries, the keys and the values, one behind the other. -/
def qkv (t : Nat) : Nat → F := linear ops c.channels W.qkvw W.qkvb (W.ln1 ops c x t)

/-- What attention puts out. -/
def atty (t : Nat) : Nat → F :=
  attend ops c.channels (c.channels / c.numHeads) (W.qkv ops c x) t

/-- Its projection. -/
def attproj (t : Nat) : Nat → F := linear ops c.channels W.attprojw W.attprojb (W.atty ops c x t)

/-- What comes in, with the projection added. -/
def residual2 (t i : Nat) : F := ops.add (x t i) (W.attproj ops c x t i)

/-- The second `layernorm` of the layer. -/
def ln2 (t : Nat) : Nat → F := layernorm ops c.channels W.ln2w W.ln2b (W.residual2 ops c x t)

/-- The first half of the feed-forward step, four times as wide. -/
def fch (t : Nat) : Nat → F := linear ops c.channels W.fcw W.fcb (W.ln2 ops c x t)

/-- `gelu` of it. -/
def fchGelu (t i : Nat) : F := gelu ops (W.fch ops c x t i)

/-- The second half of the feed-forward step. -/
def fcproj (t : Nat) : Nat → F :=
  linear ops (4 * c.channels) W.fcprojw W.fcprojb (W.fchGelu ops c x t)

/-- What the layer puts out. -/
def residual3 (t i : Nat) : F := ops.add (W.residual2 ops c x t i) (W.fcproj ops c x t i)

end LayerWeights

/-! ## The network -/

namespace Weights

variable (c : GPT2Config) (W : Weights F) (tokens : Nat → Nat)

/-- The tokens and their positions. -/
def encoded (t i : Nat) : F := ops.add (W.wte (tokens t) i) (W.wpe t i)

/-- What layer `l` is given. -/
def residual : Nat → Nat → Nat → F
  | 0 => W.encoded ops tokens
  | l + 1 => (W.layer l).residual3 ops c (residual l)

/-- The last `layernorm`. -/
def lnf (t : Nat) : Nat → F :=
  layernorm ops c.channels W.lnfw W.lnfb (W.residual ops c tokens c.numLayers t)

/-- The logits: the vector against the embedding of each token. -/
def logits (t : Nat) : Nat → F :=
  linear ops c.channels W.wte (fun _ => ops.zero) (W.lnf ops c tokens t)

/-- Their `softmax`, the distribution over the vocabulary. -/
def probs (t : Nat) : Nat → F := softmax ops c.vocabSize (W.logits ops c tokens t)

end Weights
end Network

/-- The parameters as they lie in the memory. -/
def weightsOf {F : Type} (c : GPT2Config) (m : Mem F) : Weights F :=
  let par := pointParameters c
  let C := c.channels
  { wte := fun v i => m (par .wte + v * C + i)
    wpe := fun t i => m (par .wpe + t * C + i)
    layer := fun l =>
      { ln1w := fun i => m (par .ln1w + l * C + i)
        ln1b := fun i => m (par .ln1b + l * C + i)
        qkvw := fun o i => m (par .qkvw + l * 3 * C * C + o * C + i)
        qkvb := fun o => m (par .qkvb + l * 3 * C + o)
        attprojw := fun o i => m (par .attprojw + l * C * C + o * C + i)
        attprojb := fun o => m (par .attprojb + l * C + o)
        ln2w := fun i => m (par .ln2w + l * C + i)
        ln2b := fun i => m (par .ln2b + l * C + i)
        fcw := fun o i => m (par .fcw + l * 4 * C * C + o * C + i)
        fcb := fun o => m (par .fcb + l * 4 * C + o)
        fcprojw := fun o i => m (par .fcprojw + l * C * 4 * C + o * (4 * C) + i)
        fcprojb := fun o => m (par .fcprojb + l * C + o) }
    lnfw := fun i => m (par .lnfw + i)
    lnfb := fun i => m (par .lnfb + i) }

end Gpt
