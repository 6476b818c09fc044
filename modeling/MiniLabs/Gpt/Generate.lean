/-
  gpt — `main`: the prompt, the rounds and the tokens printed.

  1. **Program** — `main` parses up to nine tokens and then asks the network for one more, again
     and again, until there are ten.  `Prints` is its loop: in every round the activations are
     allocated anew, `gpt2_forward` runs on the workers in some order, and `spawn` takes its slots.
     It ends with all tokens printed, with the assertion of `spawn`, or undefined where an `int`
     overflows.

  2. **Specification** — `Weights.continuation`: the network, which has neither memory nor workers,
     asked for one token after the other.  `main_prints` says that for a prompt this is all that
     `main` can print, as far as the slots last, and what it says otherwise; in exact arithmetic
     every token printed is a median (`main_prints_medians`).

  3. **The crux (`prints_iff`)** — an induction on the rounds that are left.  The invariant is that
     the parameters are still loaded, that all tokens so far are of the vocabulary, and how many
     slots are taken.

  4. **What is idealised** — `malloc` and `fread` do not fail, and the checkpoint is read: its
     parameters are in the memory at the start.  A round never looks behind `max_seq_len` as long
     as there is room for nine positions; the program does not check that.  The float operations
     are any functions.
-/
import MiniLabs.Gpt.Distribution
import MiniLabs.Gpt.Slots
import MiniLabs.Lib.Strtol

set_option linter.unusedVariables false

namespace Gpt

open Access Access.Prog Strtol

/-! ## The command line -/

/-- `parse_worker_count`; `env` is `GPT_WORKERS`.  What is not a number from 1 to `MAX_WORKERS`
    counts as `MAX_WORKERS`. -/
def parseWorkerCount (env : Option (List UInt8)) : Nat :=
  match env with
  | none => maxWorkers
  | some s =>
    if s = [] then maxWorkers
    else
      let parsed := strtol s
      if parsed.rest ≠ [] ∨ parsed.value < 1 ∨ parsed.value > maxWorkers then maxWorkers
      else parsed.value.toNat

/-- `parse_token`: what `strtol` takes whole, from 0 up to the vocabulary. -/
def parseToken (vocabSize : Nat) (s : List UInt8) : Option Nat :=
  let parsed := strtol s
  if parsed.erange = true ∨ parsed.rest ≠ [] ∨ parsed.value < 0 ∨ parsed.value ≥ vocabSize then
    none
  else some parsed.value.toNat

/-- `GPT2_EOT`. -/
def gpt2Eot : Nat := 50256

/-- What `main` refuses. -/
inductive Refusal
  | noToken
  | manyTokens
  | invalidToken
  deriving DecidableEq, Repr

/-- What `main` says before `exit(1)`. -/
def Refusal.text : Refusal → String
  | .noToken => "Provide at least one token.\n"
  | .manyTokens => "Tow many tokens.\n"
  | .invalidToken => "Invalid token.\n"

/-- The loop that fills `tokens`, from some index on with `n` behind it: a token for each argument,
    and the end of text for what is left of the array. -/
def parseTokens (vocabSize : Nat) : Nat → List (List UInt8) → Option (List Nat)
  | 0, _ => some []
  | n + 1, [] => (parseTokens vocabSize n []).map (gpt2Eot :: ·)
  | n + 1, s :: args =>
    match parseToken vocabSize s with
    | none => none
    | some token => (parseTokens vocabSize n args).map (token :: ·)

/-- The checks of `main`, and `tokens`; `args` are the arguments behind the program's name, so
    `argc` is one more. -/
def readTokens (vocabSize : Nat) (args : List (List UInt8)) : Except Refusal (List Nat) :=
  if args.length + 1 = 1 then .error .noToken
  else if args.length + 1 > tokenLimit then .error .manyTokens
  else
    match parseTokens vocabSize tokenLimit args with
    | none => .error .invalidToken
    | some tokens => .ok tokens

/-! ## The loop of `main` -/

section Loop

variable {F : Type} (ops : FloatOps F)

/-- The loop of `sample_mult`, from index `i` on with `k` behind it. -/
def sampleLoop (probabilities : Nat → F) : Nat → Nat → F → Option Nat
  | 0, _, _ => none
  | k + 1, i, cdf =>
    let cdf := ops.add cdf (probabilities i)
    if ops.gt cdf ops.half then some i else sampleLoop probabilities k (i + 1) cdf

/-- `sample_mult`: the first token at which the probabilities add up to more than one half, and the
    last one where they never do. -/
def sampleMult (probabilities : Nat → F) (n : Nat) : Nat :=
  (sampleLoop ops probabilities n 0 ops.zero).getD (n - 1)

variable (c : GPT2Config) (w : Nat)

/-- How the loop of `main` ends: all tokens are printed, the assertion of `spawn` fails, or an
    `int` overflows. -/
inductive Ending
  | complete
  | abort
  | undefined
  deriving DecidableEq, Repr

/-- **The loop of `main`** from round `t` on: `taken` slots have been taken, `tokens` is the array,
    `m` the memory.  It prints tokens until it ends. -/
inductive Prints : Nat → List Nat → Mem F → Nat → List Nat → Ending → Prop
  | done {taken : Nat} {tokens : List Nat} {m : Mem F} {t : Nat} (ht : tokenLimit ≤ t) :
      Prints taken tokens m t [] .complete
  | undefined {taken : Nat} {tokens : List Nat} {m : Mem F} {t : Nat} (ht : t < tokenLimit)
      (hints : ¬ IntsFit c (tokens.getD · gpt2Eot) 1 t w) :
      Prints taken tokens m t [] .undefined
  | abort {taken : Nat} {tokens : List Nat} {m : Mem F} {t : Nat} (ht : t < tokenLimit)
      (hints : IntsFit c (tokens.getD · gpt2Eot) 1 t w)
      (hslots : threadSlots < taken + forwardThreads w c t) :
      Prints taken tokens m t [] .abort
  | round {taken : Nat} {tokens : List Nat} {m m₁ m₂ : Mem F} {t : Nat} {printed : List Nat}
      {ending : Ending} (ht : t < tokenLimit)
      (hslots : taken + forwardThreads w c t ≤ threadSlots)
      -- `acts_memory` is freed and allocated again
      (hfresh : ∀ a, m₁ (.par a) = m (.par a))
      (hrun : RunForward c (tokens.getD · gpt2Eot) 1 t ops w m₁ (some m₂))
      (hprints : Prints (taken + forwardThreads w c t)
        (tokens.set t (sampleMult ops
          (fun i => m₂ (pointActivations c 1 t .probs + (t - 1) * c.vocabSize + i)) c.vocabSize))
        m₂ (t + 1) printed ending) :
      Prints taken tokens m t (sampleMult ops
        (fun i => m₂ (pointActivations c 1 t .probs + (t - 1) * c.vocabSize + i)) c.vocabSize ::
          printed) ending

/-- How `main` ends. -/
inductive Outcome
  | refused (refusal : Refusal)
  | printed (tokens : List Nat) (ending : Ending)
  deriving DecidableEq, Repr

/-- **`main`**, with the parameters of the checkpoint in `m`. -/
inductive RunsMain (env : Option (List UInt8)) (args : List (List UInt8)) (m : Mem F) : Outcome → Prop
  | refuse {refusal : Refusal} (h : readTokens c.vocabSize args = .error refusal) :
      RunsMain env args m (.refused refusal)
  | print {tokens printed : List Nat} {ending : Ending} (h : readTokens c.vocabSize args = .ok tokens)
      (hprints : Prints ops c (parseWorkerCount env) 0 tokens m args.length printed ending) :
      RunsMain env args m (.printed printed ending)

/-! ## The network's continuation of a prompt -/

/-- The token that the network puts behind a prompt. -/
def Weights.next (W : Weights F) (prompt : List Nat) : Nat :=
  sampleMult ops (W.probs ops c (prompt.getD · gpt2Eot) (prompt.length - 1)) c.vocabSize

/-- The first `k` tokens that the network puts behind a prompt. -/
def Weights.continuation (W : Weights F) : Nat → List Nat → List Nat
  | 0, _ => []
  | k + 1, prompt =>
    W.next ops c prompt :: W.continuation k (prompt ++ [W.next ops c prompt])

/-- The number of rounds from `t` on, `n` at most, for which the slots last. -/
def roundsWithin (slots : Nat) : Nat → Nat → Nat
  | 0, _ => 0
  | n + 1, t =>
    if forwardThreads w c t ≤ slots then roundsWithin (slots - forwardThreads w c t) n (t + 1) + 1
    else 0

end Loop

/-! ## The command line, as a condition -/

/-- An argument that stands for a token. -/
def IsToken (vocabSize : Nat) (s : List UInt8) (token : Nat) : Prop :=
  Spells s token ∧ token < vocabSize

/-- A **prompt**: one token to nine, each spelled by its argument. -/
def IsPrompt (vocabSize : Nat) (args : List (List UInt8)) (prompt : List Nat) : Prop :=
  List.Forall₂ (IsToken vocabSize) args prompt ∧ 1 ≤ args.length ∧ args.length < tokenLimit

section Arguments

variable {vocabSize : Nat}

/-- **What counts as a token**: a numeral below the size of the vocabulary. -/
theorem parseToken_iff (hV : vocabSize < 2 ^ 31) (s : List UInt8) (token : Nat) :
    parseToken vocabSize s = some token ↔ IsToken vocabSize s token := by
  have hread := @strtol_iff s 0 (vocabSize - 1) token (by decide)
    (by show _ < (2 : Int) ^ 63 - 1; omega)
  rw [parseToken]
  constructor
  · intro h
    obtain ⟨hok, htoken⟩ := Option.ite_none_left_eq_some.mp h
    simp only [not_or] at hok
    obtain ⟨-, hrest, hge, hlt⟩ := hok
    have hvalue := Option.some.inj htoken
    obtain ⟨hspells, -, hle⟩ := hread.mp ⟨not_not.mp hrest, by omega, by omega, by omega⟩
    exact ⟨hspells, by omega⟩
  · rintro ⟨hspells, hlt⟩
    obtain ⟨hrest, hge, hle, hvalue⟩ := hread.mpr ⟨hspells, by omega, by omega⟩
    have herange : (strtol s).erange = false :=
      erange_of_between (by show -(2 : Int) ^ 63 < _; omega) (by show _ < (2 : Int) ^ 63 - 1; omega)
        hrest
    rw [if_neg (by simp only [herange, hrest]; simp; omega), hvalue]
    rfl

/-- **What counts as a prompt**; the rest of the array is filled up with the end of text. -/
theorem parseTokens_iff (hV : vocabSize < 2 ^ 31) {n : Nat} {args : List (List UInt8)}
    (hn : args.length ≤ n) (tokens : List Nat) : parseTokens vocabSize n args = some tokens ↔
      ∃ prompt, List.Forall₂ (IsToken vocabSize) args prompt ∧
        tokens = prompt ++ List.replicate (n - args.length) gpt2Eot := by
  induction n generalizing args tokens with
  | zero =>
    obtain rfl := List.length_eq_zero_iff.mp (Nat.le_zero.mp hn)
    simp [parseTokens, eq_comm]
  | succ n ih =>
    cases args with
    | nil =>
      rw [parseTokens, Option.map_eq_some_iff]
      simp only [@ih [] (Nat.zero_le n), List.forall₂_nil_left_iff]
      simp [List.replicate_succ, eq_comm]
    | cons s args =>
      have hlen : args.length ≤ n := Nat.le_of_succ_le_succ hn
      rw [parseTokens]
      cases htoken : parseToken vocabSize s with
      | none =>
        simp only [reduceCtorEq, false_iff, not_exists, not_and]
        intro prompt hprompt
        obtain ⟨token, rest, hs, -, rfl⟩ := List.forall₂_cons_left_iff.mp hprompt
        exact absurd ((parseToken_iff hV s token).mpr hs) (by rw [htoken]; simp)
      | some token =>
        have hs := (parseToken_iff hV s token).mp htoken
        simp only [Option.map_eq_some_iff, ih hlen]
        constructor
        · rintro ⟨_, ⟨prompt, hprompt, rfl⟩, rfl⟩
          exact ⟨token :: prompt, .cons hs hprompt, by simp⟩
        · rintro ⟨prompt, hprompt, rfl⟩
          obtain ⟨token', rest, hs', hrest, rfl⟩ := List.forall₂_cons_left_iff.mp hprompt
          have heq : token = token' := Option.some.inj
            (htoken.symm.trans ((parseToken_iff hV s token').mpr hs'))
          subst heq
          exact ⟨_, ⟨rest, hrest, rfl⟩, by simp⟩

/-- `main` gets past its checks exactly with a prompt, which is then in front of `tokens`. -/
theorem readTokens_iff (hV : vocabSize < 2 ^ 31) (args : List (List UInt8)) (tokens : List Nat) :
    readTokens vocabSize args = .ok tokens ↔ ∃ prompt, IsPrompt vocabSize args prompt ∧
      tokens = prompt ++ List.replicate (tokenLimit - args.length) gpt2Eot := by
  rw [readTokens]
  by_cases hnone : args.length + 1 = 1
  · rw [if_pos hnone]
    simp only [reduceCtorEq, false_iff, not_exists, not_and]
    intro prompt hprompt
    have := hprompt.2.1
    omega
  · rw [if_neg hnone]
    by_cases hmany : args.length + 1 > tokenLimit
    · rw [if_pos hmany]
      simp only [reduceCtorEq, false_iff, not_exists, not_and]
      intro prompt hprompt
      have := hprompt.2.2
      omega
    · rw [if_neg hmany]
      have hparse := @parseTokens_iff vocabSize hV tokenLimit args (by omega)
      constructor
      · intro h
        cases hp : parseTokens vocabSize tokenLimit args with
        | none => simp [hp] at h
        | some tokens' =>
          simp only [hp, Except.ok.injEq] at h
          obtain ⟨prompt, hprompt, heq⟩ := (hparse tokens').mp hp
          exact ⟨prompt, ⟨hprompt, by omega, by omega⟩, h ▸ heq⟩
      · rintro ⟨prompt, hprompt, heq⟩
        simp only [(hparse tokens).mpr ⟨prompt, hprompt.1, heq⟩]

end Arguments

/-- The number of workers is one that `parallel_for` has room for. -/
theorem parseWorkerCount_bounds (env : Option (List UInt8)) :
    1 ≤ parseWorkerCount env ∧ parseWorkerCount env ≤ maxWorkers := by
  cases env with
  | none => decide
  | some s =>
    rw [parseWorkerCount.eq_def]
    dsimp only
    split
    · decide
    · split
      · decide
      · simp only [maxWorkers] at *
        omega

/-! ## Sampling -/

section Sampling

variable {F : Type} {ops : FloatOps F} {p q : Nat → F} {n : Nat}

/-- The loop looks at the probabilities it goes over, and no others. -/
theorem sampleLoop_congr (k i : Nat) (cdf : F) (h : ∀ j, j < i + k → p j = q j) :
    sampleLoop ops p k i cdf = sampleLoop ops q k i cdf := by
  induction k generalizing i cdf with
  | zero => rfl
  | succ k ih =>
    rw [sampleLoop, sampleLoop, h i (by omega), ih (i + 1) _ fun j hj => h j (by omega)]

/-- The sample looks at the probabilities of the vocabulary. -/
theorem sampleMult_congr (h : ∀ i, i < n → p i = q i) : sampleMult ops p n = sampleMult ops q n := by
  rw [sampleMult, sampleMult, sampleLoop_congr n 0 ops.zero fun j hj => h j (by omega)]

/-- The loop stops at the first index whose sum is above the coin. -/
theorem sampleLoop_iff (k i r : Nat) :
    sampleLoop ops p k i (sumFrom ops ops.zero i p) = some r ↔ i ≤ r ∧ r < i + k ∧
      ops.gt (sumFrom ops ops.zero (r + 1) p) ops.half = true ∧
      ∀ j, i ≤ j → j < r → ops.gt (sumFrom ops ops.zero (j + 1) p) ops.half = false := by
  induction k generalizing i with
  | zero =>
    simp only [sampleLoop, reduceCtorEq, false_iff]
    omega
  | succ k ih =>
    have hnext : ops.add (sumFrom ops ops.zero i p) (p i) = sumFrom ops ops.zero (i + 1) p := rfl
    rw [sampleLoop, hnext]
    cases hgt : ops.gt (sumFrom ops ops.zero (i + 1) p) ops.half with
    | true =>
      simp only [if_true, Option.some.injEq]
      constructor
      · rintro rfl
        exact ⟨Nat.le_refl i, by omega, hgt, fun j hij hji => by omega⟩
      · rintro ⟨hir, -, -, hbelow⟩
        by_contra hne
        have := hbelow i (Nat.le_refl i) (by omega)
        rw [hgt] at this
        cases this
    | false =>
      simp only [Bool.false_eq_true, if_false, ih]
      constructor
      · rintro ⟨hir, hlt, habove, hbelow⟩
        refine ⟨by omega, by omega, habove, fun j hij hjr => ?_⟩
        rcases Nat.eq_or_lt_of_le hij with rfl | hlt
        · exact hgt
        · exact hbelow j hlt hjr
      · rintro ⟨hir, hlt, habove, hbelow⟩
        have hne : r ≠ i := by
          rintro rfl
          rw [hgt] at habove
          cases habove
        exact ⟨by omega, by omega, habove, fun j hij hjr => hbelow j (by omega) hjr⟩

/-- The sample is a token of the vocabulary. -/
theorem sampleMult_lt (hn : 0 < n) : sampleMult ops p n < n := by
  rw [sampleMult]
  cases h : sampleLoop ops p n 0 ops.zero with
  | none => exact Nat.sub_lt hn Nat.one_pos
  | some r =>
    have hr := (sampleLoop_iff n 0 r).mp h
    exact Nat.zero_add n ▸ hr.2.1

end Sampling

/-! ## The loop prints the continuation -/

/-- Memories with the same parameters hold the same weights. -/
theorem Loaded.of_par {F : Type} {c : GPT2Config} {m m' : Mem F} {W : Weights F}
    (h : Loaded c m W) (hpar : ∀ a, m' (.par a) = m (.par a)) : Loaded c m' W := by
  have hsame : weightsOf c m' = weightsOf c m := by
    simp only [weightsOf, pointParameters, Loc.par_add, hpar]
  rw [Loaded, hsame]
  exact h

/-- A prompt in an array of ten. -/
theorem prompt_getD (prompt : List Nat) (k : Nat) :
    ((prompt ++ List.replicate k gpt2Eot).getD · gpt2Eot) = (prompt.getD · gpt2Eot) := by
  funext i
  rcases Nat.lt_or_ge i prompt.length with hlt | hge
  · rw [List.getD_append _ _ _ _ hlt]
  · rw [List.getD_append_right _ _ _ _ hge, List.getD_eq_default prompt gpt2Eot hge]
    rw [List.getD_eq_getElem?_getD, List.getElem?_replicate]
    split <;> rfl

/-- The next token goes behind the prompt. -/
theorem prompt_set (prompt : List Nat) (k token : Nat) :
    (prompt ++ List.replicate (k + 1) gpt2Eot).set prompt.length token =
      (prompt ++ [token]) ++ List.replicate k gpt2Eot := by
  rw [List.set_append_right _ _ (Nat.le_refl _), Nat.sub_self, List.replicate_succ, List.set_cons_zero,
    List.append_assoc, List.singleton_append]

/-- A position of the prompt has a token of the vocabulary. -/
theorem prompt_lt {vocabSize : Nat} {prompt : List Nat}
    (htokens : ∀ token ∈ prompt, token < vocabSize) {i : Nat} (hi : i < prompt.length) :
    prompt.getD i gpt2Eot < vocabSize := by
  rw [List.getD_eq_getElem _ _ hi]
  exact htokens _ (List.getElem_mem hi)

section Rounds

variable {F : Type} {ops : FloatOps F} {c : Model} {w : Nat} {W : Weights F}

/-- The `int`s of a round fit, if those of the last one do. -/
theorem round_fits (hrange : IntRange c.toGPT2Config 1 (tokenLimit - 1) w) {prompt : List Nat}
    (hprompt : 1 ≤ prompt.length) (hlen : prompt.length < tokenLimit)
    (htokens : ∀ token ∈ prompt, token < c.vocabSize) (k : Nat) :
    IntsFit c.toGPT2Config ((prompt ++ List.replicate k gpt2Eot).getD · gpt2Eot) 1 prompt.length
      w := by
  refine (hrange.mono (Nat.le_sub_one_of_lt hlen) (Nat.le_refl w)).fits (Nat.le_refl 1) hprompt
    fun i hi => ?_
  rw [congrFun (prompt_getD prompt k) i]
  exact prompt_lt htokens (by omega)

/-- What one round puts behind the prompt. -/
theorem round_next {prompt : List Nat} (hprompt : 1 ≤ prompt.length)
    (hmax : prompt.length ≤ c.maxSeqLen) (htokens : ∀ token ∈ prompt, token < c.vocabSize)
    {k : Nat} {m₁ m₂ : Mem F} (hload : Loaded c.toGPT2Config m₁ W)
    (hrun : RunCalls w (gpt2Forward ops c.toGPT2Config
      ((prompt ++ List.replicate k gpt2Eot).getD · gpt2Eot) 1 prompt.length) m₁ m₂) :
    Loaded c.toGPT2Config m₂ W ∧
    sampleMult ops (fun i => m₂ (pointActivations c.toGPT2Config 1 prompt.length .probs +
      (prompt.length - 1) * c.vocabSize + i)) c.vocabSize = W.next ops c.toGPT2Config prompt := by
  have hend := forward_upto ops c _ hprompt hrun
  refine ⟨hload.of_par hend.par, sampleMult_congr fun i hi => ?_⟩
  have hprobs := hend.probs (b := 0) (t := prompt.length - 1) Nat.one_pos (by omega) hi
  rw [Nat.zero_mul, Nat.zero_add] at hprobs
  have hpositions : tokensOf prompt.length ((prompt ++ List.replicate k gpt2Eot).getD · gpt2Eot) 0 =
      (prompt.getD · gpt2Eot) := by
    rw [prompt_getD]
    funext i
    rw [tokensOf, Nat.zero_mul, Nat.zero_add]
  rw [Loc.add_assoc, hprobs, hpositions]
  exact hload.probs_rows ops c.heads_dvd (by omega) (fun p hp => prompt_lt htokens (by omega)) _
    (Nat.le_refl _) i hi

/-- The next token is one of the vocabulary. -/
theorem next_lt (c : Model) (W : Weights F) (prompt : List Nat) :
    W.next ops c.toGPT2Config prompt < c.vocabSize := sampleMult_lt c.vocabSize_pos

variable (ops) in
/-- **A round comes to its end** where the `int`s fit. -/
theorem runForward_exists {inputs : Nat → Nat} {T : Nat} (hT : 1 ≤ T)
    (hints : IntsFit c.toGPT2Config inputs 1 T w) (m : Mem F) : ∃ m',
    RunForward c.toGPT2Config inputs 1 T ops w m (some m') ∧
      RunCalls w (gpt2Forward ops c.toGPT2Config inputs 1 T) m m' := by
  have hclash := gpt2Forward_noClash ops c.toGPT2Config 1 T inputs hT c.numHeads_pos c.numLayers_pos
  exact ⟨_, (runForward_iff hclash hints m _).mpr rfl, (runCalls_iff hclash w m _).mpr rfl⟩

variable (ops) in
/-- **The loop prints the continuation**, as far as the slots last. -/
theorem prints_iff (hmax : tokenLimit - 1 ≤ c.maxSeqLen)
    (hrange : IntRange c.toGPT2Config 1 (tokenLimit - 1) w) {taken n : Nat} {prompt : List Nat}
    (hprompt : 1 ≤ prompt.length) (hn : prompt.length + n = tokenLimit)
    (htokens : ∀ token ∈ prompt, token < c.vocabSize) (htaken : taken ≤ threadSlots) {m : Mem F}
    (hload : Loaded c.toGPT2Config m W) (printed : List Nat) (ending : Ending) :
    Prints ops c.toGPT2Config w taken (prompt ++ List.replicate n gpt2Eot) m prompt.length printed
      ending ↔
    printed = W.continuation ops c.toGPT2Config
        (roundsWithin c.toGPT2Config w (threadSlots - taken) n prompt.length) prompt ∧
      ending = if roundsWithin c.toGPT2Config w (threadSlots - taken) n prompt.length < n then .abort
        else .complete := by
  induction n generalizing taken prompt m printed ending with
  | zero =>
    constructor
    · intro h
      cases h with
      | done ht => exact ⟨rfl, rfl⟩
      | undefined ht hints => omega
      | abort ht hints hslots => omega
      | round ht => omega
    · rintro ⟨rfl, rfl⟩
      exact .done (by omega)
  | succ n ih =>
    have hround : prompt.length < tokenLimit := by omega
    have hfits := round_fits hrange hprompt hround htokens (n + 1)
    by_cases hslots : forwardThreads w c.toGPT2Config prompt.length ≤ threadSlots - taken
    · -- the slots last for this round
      have hsub : threadSlots - taken - forwardThreads w c.toGPT2Config prompt.length =
          threadSlots - (taken + forwardThreads w c.toGPT2Config prompt.length) := by omega
      rw [roundsWithin, if_pos hslots, hsub, Weights.continuation]
      simp only [Nat.add_lt_add_iff_right]
      have hlen : prompt.length + 1 + n = tokenLimit := by omega
      have hlast : ∀ token, (prompt ++ [token]).length = prompt.length + 1 := fun token =>
        List.length_append
      have hnext : ∀ token ∈ prompt ++ [W.next ops c.toGPT2Config prompt], token < c.vocabSize := by
        intro token htoken
        rcases List.mem_append.mp htoken with hmem | hmem
        · exact htokens token hmem
        · rw [List.mem_singleton.mp hmem]
          exact next_lt c W prompt
      have ih' := fun m (hload : Loaded c.toGPT2Config m W) printed ending => @ih
        (taken + forwardThreads w c.toGPT2Config prompt.length)
        (prompt ++ [W.next ops c.toGPT2Config prompt]) (by rw [hlast]; omega) (by rw [hlast]; omega)
        hnext (by omega) m hload printed ending
      simp only [hlast] at ih'
      constructor
      · intro h
        cases h with
        | done ht => omega
        | undefined ht hints => exact absurd hfits hints
        | abort ht hints hout => omega
        | round ht hin hfresh hrun hprints =>
          obtain ⟨m₂, hm₂, hcalls⟩ := hrun.calls hfits
          obtain rfl := Option.some.inj hm₂
          obtain ⟨hload₂, htoken⟩ := round_next hprompt (by omega) htokens (hload.of_par hfresh) hcalls
          rw [htoken, prompt_set] at hprints
          obtain ⟨rfl, rfl⟩ := (ih' _ hload₂ _ _).mp hprints
          rw [htoken]
          exact ⟨rfl, rfl⟩
      · rintro ⟨rfl, rfl⟩
        obtain ⟨m₂, hrun, hcalls⟩ := runForward_exists ops hprompt hfits m
        obtain ⟨hload₂, htoken⟩ := round_next hprompt (by omega) htokens hload hcalls
        rw [← htoken]
        refine .round hround (by omega) (fun a => rfl) hrun ?_
        rw [htoken, prompt_set]
        exact (ih' _ hload₂ _ _).mpr ⟨rfl, rfl⟩
    · -- the assertion of `spawn` fails in this round
      rw [roundsWithin, if_neg hslots, Weights.continuation, if_pos (Nat.succ_pos n)]
      constructor
      · intro h
        cases h with
        | done ht => omega
        | undefined ht hints => exact absurd hfits hints
        | abort ht hints hout => exact ⟨rfl, rfl⟩
        | round ht hin => omega
      · rintro ⟨rfl, rfl⟩
        exact .abort hround hfits (by omega)

end Rounds

section Continuation

variable {F : Type} {ops : FloatOps F} {c : GPT2Config} {W : Weights F}

/-- As many tokens as were asked for. -/
theorem length_continuation (k : Nat) (prompt : List Nat) :
    (W.continuation ops c k prompt).length = k := by
  induction k generalizing prompt with
  | zero => rfl
  | succ k ih => rw [Weights.continuation, List.length_cons, ih]

/-- Every token is the one behind the prompt and the tokens before it. -/
theorem continuation_get (k : Nat) (prompt : List Nat) {j : Nat} (hj : j < k) :
    (W.continuation ops c k prompt)[j]? =
      some (W.next ops c (prompt ++ (W.continuation ops c k prompt).take j)) := by
  induction k generalizing prompt j with
  | zero => exact absurd hj (Nat.not_lt_zero j)
  | succ k ih =>
    rw [Weights.continuation]
    cases j with
    | zero => rw [List.getElem?_cons_zero, List.take_zero, List.append_nil]
    | succ j =>
      rw [List.getElem?_cons_succ, ih _ (Nat.lt_of_succ_lt_succ hj), List.take_succ_cons,
        List.append_assoc, List.singleton_append]

end Continuation

/-! ## The results -/

/-- The tokens of a prompt are of the vocabulary. -/
theorem IsPrompt.lt {vocabSize : Nat} {args : List (List UInt8)} {prompt : List Nat}
    (h : IsPrompt vocabSize args prompt) : ∀ token ∈ prompt, token < vocabSize := by
  intro token htoken
  obtain ⟨i, hi, rfl⟩ := List.getElem_of_mem htoken
  have hi' : i < args.length := h.1.length_eq ▸ hi
  exact (h.1.get hi' hi).2

/-- What `main` does with a prompt. -/
theorem runsMain_iff {F : Type} (ops : FloatOps F) (c : Model) (hV : c.vocabSize < 2 ^ 31)
    (hmax : tokenLimit - 1 ≤ c.maxSeqLen) {env : Option (List UInt8)}
    (hrange : IntRange c.toGPT2Config 1 (tokenLimit - 1) (parseWorkerCount env))
    {args : List (List UInt8)} {prompt : List Nat} (hprompt : IsPrompt c.vocabSize args prompt)
    {m : Mem F} {W : Weights F} (hload : Loaded c.toGPT2Config m W) (out : Outcome) :
    let k := roundsWithin c.toGPT2Config (parseWorkerCount env) threadSlots
      (tokenLimit - args.length) args.length
    RunsMain ops c.toGPT2Config env args m out ↔
      out = .printed (W.continuation ops c.toGPT2Config k prompt)
        (if k < tokenLimit - args.length then .abort else .complete) := by
  have hlen : args.length = prompt.length := hprompt.1.length_eq
  have htokens := hprompt.lt
  obtain ⟨hforall, hone, hlimit⟩ := hprompt
  have hprints := prints_iff ops (n := tokenLimit - args.length) hmax hrange
    (show 1 ≤ prompt.length by omega) (by omega) htokens (Nat.zero_le _) hload
  rw [← hlen, Nat.sub_zero] at hprints
  have hok : readTokens c.vocabSize args = .ok _ :=
    (readTokens_iff hV args _).mpr ⟨prompt, ⟨hforall, hone, hlimit⟩, rfl⟩
  constructor
  · intro h
    cases h with
    | refuse hrefuse => rw [hok] at hrefuse; cases hrefuse
    | print htokens h =>
      rw [hok] at htokens
      obtain rfl := Except.ok.inj htokens
      obtain ⟨rfl, rfl⟩ := (hprints _ _).mp h
      rfl
  · rintro rfl
    exact .print hok ((hprints _ _).mpr ⟨rfl, rfl⟩)

/-- Two tokens, one layer, room for sixteen positions. -/
def shortModel : Model := { tinyModel with maxSeqLen := 16, maxSeqLen_pos := by decide }

/-- The prompt `1`. -/
theorem isPrompt_one : IsPrompt shortModel.vocabSize [[49]] [1] := by
  have hnumeral : Numeral [49] 1 :=
    ⟨[], [], [49], rfl, List.forall_mem_nil _, .inl rfl, List.cons_ne_nil _ _,
      List.forall_mem_singleton.mpr (by decide), rfl⟩
  exact ⟨.cons ⟨.inr hnumeral, by decide⟩ .nil, by decide, by decide⟩

/-- The `int`s of a model with nothing twice are in range. -/
theorem shortModel_range :
    IntRange shortModel.toGPT2Config 1 (tokenLimit - 1) (parseWorkerCount none) :=
  ⟨by decide, by decide, by decide, by decide, by decide, by decide, by decide⟩

section Median

open Finset

variable {K : Type} [Field K] [LinearOrder K] [IsStrictOrderedRing K] {ops : FloatOps K}

/-- In exact arithmetic the loop of `sample_mult` finds the median of a distribution. -/
theorem sampleMult_median (h : ExactOps ops) {n : Nat} {p : Nat → K} (hsum : ∑ i ∈ range n, p i = 1) :
    sampleMult ops p n < n ∧ ∑ i ∈ range (sampleMult ops p n), p i ≤ 1 / 2 ∧
      1 / 2 < ∑ i ∈ range (sampleMult ops p n + 1), p i := by
  classical
  have hn : 0 < n := by
    rcases Nat.eq_zero_or_pos n with rfl | hn
    · rw [range_zero, sum_empty] at hsum
      exact absurd hsum zero_ne_one
    · exact hn
  -- the sum of all is above the coin, so there is a first index
  have hexists : ∃ r, 1 / 2 < ∑ i ∈ range (r + 1), p i := by
    refine ⟨n - 1, ?_⟩
    rw [Nat.sub_add_cancel hn, hsum]
    exact one_half_lt_one
  have hfirst := Nat.find_spec hexists
  have hlt : Nat.find hexists < n := by
    have hle := Nat.find_min' hexists (m := n - 1) (by
      rw [Nat.sub_add_cancel hn, hsum]
      exact one_half_lt_one)
    omega
  have hloop : sampleLoop ops p n 0 ops.zero = some (Nat.find hexists) := by
    refine (sampleLoop_iff n 0 _).mpr ⟨Nat.zero_le _, by omega, ?_, fun j _ hj => ?_⟩
    · rw [h.sum, h.half, h.gt]
      exact hfirst
    · rw [h.sum, h.half, ← Bool.not_eq_true, h.gt]
      exact Nat.find_min hexists hj
  have hsample : sampleMult ops p n = Nat.find hexists := by rw [sampleMult, hloop]; rfl
  rw [hsample]
  refine ⟨hlt, ?_, hfirst⟩
  cases hr : Nat.find hexists with
  | zero =>
    rw [range_zero, sum_empty]
    exact one_half_pos.le
  | succ r => exact not_lt.mp (Nat.find_min hexists (m := r) (by omega))

/-- **In exact arithmetic every token printed is a median** of the network's distribution behind
    the prompt and the tokens before it, so the fallback of `sample_mult` is never taken; where the
    checkpoint has room for nine positions and the `int`s of a pass over nine are in range. -/
theorem main_prints_medians (hops : ExactOps ops) (c : Model) (hV : c.vocabSize < 2 ^ 31)
    (hmax : tokenLimit - 1 ≤ c.maxSeqLen) {env : Option (List UInt8)}
    (hrange : IntRange c.toGPT2Config 1 (tokenLimit - 1) (parseWorkerCount env))
    (args : List (List UInt8)) {m : Mem K} {W : Weights K} (hload : Loaded c.toGPT2Config m W)
    {printed : List Nat} {ending : Ending}
    (hrun : RunsMain ops c.toGPT2Config env args m (.printed printed ending)) :
    ∃ prompt, IsPrompt c.vocabSize args prompt ∧ ∀ k, ∀ hk : k < printed.length,
      let before := prompt ++ printed.take k
      let P := W.probs ops c.toGPT2Config (before.getD · gpt2Eot) (before.length - 1)
      (∀ v, 0 < P v) ∧ ∑ v ∈ range c.vocabSize, P v = 1 ∧
      printed[k] < c.vocabSize ∧ ∑ v ∈ range printed[k], P v ≤ 1 / 2 ∧
        1 / 2 < ∑ v ∈ range (printed[k] + 1), P v := by
  have hprompt : ∃ prompt, IsPrompt c.vocabSize args prompt := by
    cases hrun with
    | print htokens h =>
      obtain ⟨prompt, hprompt, -⟩ := (readTokens_iff hV args _).mp htokens
      exact ⟨prompt, hprompt⟩
  obtain ⟨prompt, hprompt⟩ := hprompt
  refine ⟨prompt, hprompt, fun k hk => ?_⟩
  have hout := (runsMain_iff ops c hV hmax hrange hprompt hload _).mp hrun
  obtain ⟨rfl, -⟩ := Outcome.printed.inj hout
  rw [length_continuation] at hk
  have hget := @continuation_get _ ops c.toGPT2Config W _ prompt k hk
  have hsum := softmax_sum hops c.vocabSize_pos
  rw [(List.getElem?_eq_some_iff.mp hget).2]
  exact ⟨fun v => softmax_pos hops c.vocabSize_pos _ v, hsum _, sampleMult_median hops (hsum _)⟩

/-- The program on the reals, with every parameter 1. -/
theorem main_prints_medians_one : ∃ printed ending,
    RunsMain realOps shortModel.toGPT2Config none [[49]] (fun _ => 1) (.printed printed ending) ∧
      ∃ prompt, IsPrompt 2 [[49]] prompt ∧ ∀ k, ∀ hk : k < printed.length, printed[k] < 2 := by
  have hload := loaded_weightsOf shortModel.toGPT2Config (fun _ => (1 : ℝ))
  have hrun := (runsMain_iff realOps shortModel (by decide) (by decide)
    shortModel_range isPrompt_one hload _).mpr rfl
  obtain ⟨prompt, hprompt, hmedians⟩ := main_prints_medians realOps_exact shortModel (by decide)
    (by decide) shortModel_range [[49]] hload hrun
  exact ⟨_, _, hrun, prompt, hprompt, fun k hk => (hmedians k hk).2.2.1⟩

end Median

end Gpt
