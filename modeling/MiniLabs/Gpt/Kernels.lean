/-
  gpt — `parallel_for` and the seven range kernels.

  1. **State** — tensors live in two arrays of floats, the activations and the parameters; a `float
     *` is a `Loc`, an array and an index.  The kernels only ever move a pointer, so they are
     written for any type of pointers with a `p + i`, and `Loc` is the one that stands for the
     memory.
  2. **Program** — a kernel is given by its body, the access program of one index; `xxx_range(begin,
     end, arg)` runs the bodies of the indices from `begin` to `end - 1`.
  3. **Workers** — the slices of `parallel_for` are computed as in the source.  Its workers and the
     caller run them at the same time, each going through its own indices in order, so a run of
     `parallel_for` (`ParallelFor`) is a shuffle of the slices.  `Gpt.Trace` has the runs access by
     access, `Gpt.Threads` the threads that make them.
  4. **What is idealised** — integers are exact here: where the source computes an `int`, `IntsFit`
     says whether it is in range, and `RunForward` leaves a memory only if all are
     (`Gpt.IntRange`).  The operations on floats are an arbitrary structure `FloatOps`, over an
     arbitrary type: they are functions of their arguments, and nothing else is asked of them.
-/
import MiniLabs.Lib.Access
import MiniLabs.Lib.Shuffle

set_option linter.unusedVariables false

namespace Gpt

open Access Access.Prog Shuffles

/-- The operations on `float` the kernels use, and their constants. -/
structure FloatOps (F : Type) where
  add : F → F → F
  sub : F → F → F
  mul : F → F → F
  div : F → F → F
  /-- `a > b`. -/
  gt : F → F → Bool
  /-- `a == b`. -/
  eq : F → F → Bool
  sqrtf : F → F
  expf : F → F
  tanhf : F → F
  /-- The conversion of an `int`. -/
  ofInt : Nat → F
  /-- `1.0 / x`, computed as a `double`. -/
  recip : F → F
  /-- `0.0f`. -/
  zero : F
  /-- `1.0f`. -/
  one : F
  /-- `0.5f`. -/
  half : F
  /-- `1e-5f`. -/
  eps : F
  /-- `-10000.0f`. -/
  lowest : F
  /-- `0.044715f`. -/
  cubic : F
  /-- `2.0f / M_PI`. -/
  twoOverPi : F

/-- A cell: an index into the activations or into the parameters. -/
inductive Loc
  | act (a : Nat)
  | par (a : Nat)
  deriving DecidableEq, Repr

/-- `p + i` for a `float *p`. -/
def Loc.plus : Loc → Nat → Loc
  | .act a, i => .act (a + i)
  | .par a, i => .par (a + i)

instance : HAdd Loc Nat Loc := ⟨Loc.plus⟩

@[simp] theorem Loc.act_add (a i : Nat) : Loc.act a + i = .act (a + i) := rfl
@[simp] theorem Loc.par_add (a i : Nat) : Loc.par a + i = .par (a + i) := rfl

/-! ## `parallel_for` -/

/-- `MAX_WORKERS`. -/
def maxWorkers : Nat := 4

/-- The number of slices: `worker_count`, at least 1, at most `MAX_WORKERS`, at most `total`. -/
def sliceCount (workerCount total : Nat) : Nat :=
  let n := workerCount
  let n := if n < 1 then 1 else n
  let n := if n > maxWorkers then maxWorkers else n
  if n > total then total else n

/-- `current_slices[i]`, as a pair of begin and end. -/
def slice (begin_ end_ span i : Nat) : Nat × Nat :=
  let b := begin_ + i * span
  let e := b + span
  (b, if e > end_ then end_ else e)

/-- `current_slices[0..n]`, in exact numbers; `total + n` is an `int` in the source, and `IntsFit`
    bounds it. -/
def slices (workerCount begin_ end_ : Nat) : List (Nat × Nat) :=
  let total := end_ - begin_
  let n := sliceCount workerCount total
  let span := (total + n - 1) / n
  (List.range n).map (slice begin_ end_ span)

/-- The indices `for (i = begin; i < end; i++)` goes through. -/
def indices (s : Nat × Nat) : List Nat := List.range' s.1 (s.2 - s.1)

section Runs

variable {F : Type}

/-- The activations and the parameters. -/
abbrev Mem (F : Type) := Loc → F

/-- A call `parallel_for(0, total, fn, arg)`; `body` is what `fn` does at one index. -/
structure RangeCall (F : Type) (P : Type := Loc) where
  total : Nat
  body : Nat → Prog P F Unit

/-- `m'` is a memory `parallel_for` can leave: the slices were run at the same time, index by
    index. -/
def ParallelFor (workerCount : Nat) (c : RangeCall F) (m m' : Mem F) : Prop :=
  if c.total ≤ 0 then m' = m
  else ∃ order, Shuffle ((slices workerCount 0 c.total).map indices) order ∧
    m' = runAll c.body order m

/-- `m'` is a memory that the calls, one after the other, can leave. -/
inductive RunCalls (workerCount : Nat) : List (RangeCall F) → Mem F → Mem F → Prop
  | nil (m : Mem F) : RunCalls workerCount [] m m
  | cons {c : RangeCall F} {cs : List (RangeCall F)} {m m₁ m₂ : Mem F}
      (h : ParallelFor workerCount c m m₁) (hs : RunCalls workerCount cs m₁ m₂) :
      RunCalls workerCount (c :: cs) m m₂

end Runs

/-! ## The kernels -/

section Kernels

variable {F P : Type} [HAdd P Nat P] (ops : FloatOps F)

/-- `encoder_arg_t`. -/
structure EncoderArg (P : Type := Loc) where
  out : P
  inp : Nat → Nat
  wte : P
  wpe : P
  T : Nat
  C : Nat

/-- One row of `encoder_range`: the embedding of the token and that of the position are added,
    entry by entry.  `ix` is not compared with the vocabulary, nor `t` with `max_seq_len`. -/
def encoderRow (a : EncoderArg P) (row : Nat) : Prog P F Unit :=
  let b := row / a.T
  let t := row % a.T
  let outBt := a.out + b * a.T * a.C + t * a.C
  let ix := a.inp (b * a.T + t)
  let wteIx := a.wte + ix * a.C
  let wpeT := a.wpe + t * a.C
  forRange a.C fun i => do
    let x ← read (wteIx + i)
    let y ← read (wpeT + i)
    write (outBt + i) (ops.add x y)

/-- `layernorm_arg_t`. -/
structure LayernormArg (P : Type := Loc) where
  out : P
  mean : P
  rstd : P
  inp : P
  weight : P
  bias : P
  T : Nat
  C : Nat

/-- One row of `layernorm_range`: mean and variance of the row in two loops, the normalised row in
    a third; the mean and the inverse deviation are kept for a backward pass there is none of. -/
def layernormRow (a : LayernormArg P) (row : Nat) : Prog P F Unit := do
  let b := row / a.T
  let t := row % a.T
  let x := a.inp + b * a.T * a.C + t * a.C
  let m ← loop a.C ops.zero fun i m => do
    let xi ← read (x + i)
    pure (ops.add m xi)
  let m := ops.div m (ops.ofInt a.C)
  let v ← loop a.C ops.zero fun i v => do
    let xi ← read (x + i)
    let xshift := ops.sub xi m
    pure (ops.add v (ops.mul xshift xshift))
  let v := ops.div v (ops.ofInt a.C)
  let s := ops.div ops.one (ops.sqrtf (ops.add v ops.eps))
  let outBt := a.out + b * a.T * a.C + t * a.C
  forRange a.C fun i => do
    let xi ← read (x + i)
    let n := ops.mul s (ops.sub xi m)
    let w ← read (a.weight + i)
    let bi ← read (a.bias + i)
    let o := ops.add (ops.mul n w) bi
    write (outBt + i) o
  write (a.mean + (b * a.T + t)) m
  write (a.rstd + (b * a.T + t)) s

/-- `matmul_arg_t`; `none` is a NULL bias. -/
structure MatmulArg (P : Type := Loc) where
  out : P
  inp : P
  weight : P
  bias : Option P
  T : Nat
  C : Nat
  OC : Nat

/-- `(a->bias != NULL) ? a->bias[o] : 0.0f`. -/
def biasAt (bias : Option P) (o : Nat) : Prog P F F :=
  match bias with
  | some bias => read (bias + o)
  | none => pure ops.zero

/-- One index of `matmul_range`: row `o` of the weights against a row of the input, summed from
    the bias on. -/
def matmulCell (a : MatmulArg P) (idx : Nat) : Prog P F Unit := do
  let row := idx / a.OC
  let o := idx % a.OC
  let outBt := a.out + row * a.OC
  let inpBt := a.inp + row * a.C
  let val ← biasAt ops a.bias o
  let wrow := a.weight + o * a.C
  let val ← loop a.C val fun i val => do
    let x ← read (inpBt + i)
    let w ← read (wrow + i)
    pure (ops.add val (ops.mul x w))
  write (outBt + o) val

/-- `attention_arg_t`. -/
structure AttentionArg (P : Type := Loc) where
  out : P
  preatt : P
  att : P
  inp : P
  T : Nat
  C : Nat
  NH : Nat

/-- One unit of `attention_range`: a batch, a position and a head.  The scores against the keys up
    to the own position and the largest of them; their exponentials and the sum of these; the
    weights, zero behind the own position; the values, weighted and added up.  A sum that is 0 is
    not divided by. -/
def attentionUnit (a : AttentionArg P) (unit : Nat) : Prog P F Unit := do
  let C3 := a.C * 3
  let hs := a.C / a.NH
  let scale := ops.recip (ops.sqrtf (ops.ofInt hs))
  let b := unit / (a.T * a.NH)
  let rem := unit % (a.T * a.NH)
  let t := rem / a.NH
  let h := rem % a.NH
  let queryT := a.inp + b * a.T * C3 + t * C3 + h * hs
  let preattBth := a.preatt + b * a.NH * a.T * a.T + h * a.T * a.T + t * a.T
  let attBth := a.att + b * a.NH * a.T * a.T + h * a.T * a.T + t * a.T
  let maxval ← loop (t + 1) ops.lowest fun t2 maxval => do
    let keyT2 := a.inp + b * a.T * C3 + t2 * C3 + h * hs + a.C
    let val ← loop hs ops.zero fun i val => do
      let q ← read (queryT + i)
      let k ← read (keyT2 + i)
      pure (ops.add val (ops.mul q k))
    let val := ops.mul val scale
    write (preattBth + t2) val
    pure (if ops.gt val maxval then val else maxval)
  let expsum ← loop (t + 1) ops.zero fun t2 expsum => do
    let p ← read (preattBth + t2)
    let expv := ops.expf (ops.sub p maxval)
    write (attBth + t2) expv
    pure (ops.add expsum expv)
  let expsumInv := if ops.eq expsum ops.zero then ops.zero else ops.div ops.one expsum
  forRange a.T fun t2 =>
    if t2 ≤ t then do
      let w ← read (attBth + t2)
      write (attBth + t2) (ops.mul w expsumInv)
    else write (attBth + t2) ops.zero
  let outBth := a.out + b * a.T * a.C + t * a.C + h * hs
  forRange hs fun i => write (outBth + i) ops.zero
  forRange (t + 1) fun t2 => do
    let valueT2 := a.inp + b * a.T * C3 + t2 * C3 + h * hs + a.C * 2
    let attBtht2 ← read (attBth + t2)
    forRange hs fun i => do
      let o ← read (outBth + i)
      let v ← read (valueT2 + i)
      write (outBth + i) (ops.add o (ops.mul attBtht2 v))

/-- `gelu_arg_t`. -/
structure GeluArg (P : Type := Loc) where
  out : P
  inp : P

/-- One index of `gelu_range`, in the approximation by `tanhf`. -/
def geluCell (a : GeluArg P) (i : Nat) : Prog P F Unit := do
  let x ← read (a.inp + i)
  let cube := ops.mul (ops.mul (ops.mul ops.cubic x) x) x
  write (a.out + i) (ops.mul (ops.mul ops.half x)
    (ops.add ops.one (ops.tanhf (ops.mul (ops.sqrtf ops.twoOverPi) (ops.add x cube)))))

/-- `residual_arg_t`. -/
structure ResidualArg (P : Type := Loc) where
  out : P
  inp1 : P
  inp2 : P

/-- One index of `residual_range`. -/
def residualCell (a : ResidualArg P) (i : Nat) : Prog P F Unit := do
  let x ← read (a.inp1 + i)
  let y ← read (a.inp2 + i)
  write (a.out + i) (ops.add x y)

/-- `softmax_arg_t`. -/
structure SoftmaxArg (P : Type := Loc) where
  probs : P
  logits : P
  T : Nat
  V : Nat

/-- One row of `softmax_range`: the largest entry above `-10000.0f`, the exponentials and their
    sum, and the quotients.  Unlike in `attention_range` the sum is not compared with 0. -/
def softmaxRow (a : SoftmaxArg P) (row : Nat) : Prog P F Unit := do
  let b := row / a.T
  let t := row % a.T
  let logitsBt := a.logits + b * a.T * a.V + t * a.V
  let probsBt := a.probs + b * a.T * a.V + t * a.V
  let maxval ← loop a.V ops.lowest fun i maxval => do
    let l ← read (logitsBt + i)
    pure (if ops.gt l maxval then l else maxval)
  let sum ← loop a.V ops.zero fun i sum => do
    let l ← read (logitsBt + i)
    let p := ops.expf (ops.sub l maxval)
    write (probsBt + i) p
    pure (ops.add sum p)
  forRange a.V fun i => do
    let p ← read (probsBt + i)
    write (probsBt + i) (ops.div p sum)

/-! ## The forward functions of the layers -/

/-- `encoder_forward`: an index for each batch and position. -/
def encoderForward (out : P) (inp : Nat → Nat) (wte wpe : P) (B T C : Nat) : RangeCall F P :=
  ⟨B * T, encoderRow ops ⟨out, inp, wte, wpe, T, C⟩⟩

/-- `layernorm_forward`: an index for each batch and position. -/
def layernormForward (out mean rstd inp weight bias : P) (B T C : Nat) : RangeCall F P :=
  ⟨B * T, layernormRow ops ⟨out, mean, rstd, inp, weight, bias, T, C⟩⟩

/-- `matmul_forward`: an index for each cell of the output. -/
def matmulForward (out inp weight : P) (bias : Option P) (B T C OC : Nat) : RangeCall F P :=
  ⟨B * T * OC, matmulCell ops ⟨out, inp, weight, bias, T, C, OC⟩⟩

/-- `attention_forward`: an index for each batch, position and head. -/
def attentionForward (out preatt att inp : P) (B T C NH : Nat) : RangeCall F P :=
  ⟨B * T * NH, attentionUnit ops ⟨out, preatt, att, inp, T, C, NH⟩⟩

/-- `gelu_forward`: an index for each cell. -/
def geluForward (out inp : P) (N : Nat) : RangeCall F P := ⟨N, geluCell ops ⟨out, inp⟩⟩

/-- `residual_forward`: an index for each cell. -/
def residualForward (out inp1 inp2 : P) (N : Nat) : RangeCall F P :=
  ⟨N, residualCell ops ⟨out, inp1, inp2⟩⟩

/-- `softmax_forward`: an index for each batch and position. -/
def softmaxForward (probs logits : P) (B T V : Nat) : RangeCall F P :=
  ⟨B * T, softmaxRow ops ⟨probs, logits, T, V⟩⟩

end Kernels
end Gpt
