/-
  gpt — how many thread slots generation takes.

  1. **Program** — `join` never gives a slot back, so a slot is taken for every thread of every
     call: `forwardThreads` is their number for a forward pass over `t` tokens, `generationThreads`
     for all rounds of `main`.
  2. **Specification** — `generation_slots_iff`: no run of `main` comes to the failed assertion of
     `spawn` exactly where that number is at most the length of `threads_`.
  3. **The crux (`Accounted`)** — in every run, the slots taken and those the calls still to come
     will take add up to the same number.  So whether the assertion holds is a matter of their
     number alone, whatever the order of the threads.
  4. **What is idealised** — integers are exact here.  Where a product such as `B*T*V` or a `total +
     n` overflows an `int`, everything from that round on is undefined in the program, and a `spawn`
     that is counted behind it need not be reached; the condition is about headers whose `int`s are
     in range in every round (`Gpt.IntRange`).
-/
import MiniLabs.Gpt.Forward
import MiniLabs.Gpt.Machine
import MiniLabs.Gpt.Parallel

set_option linter.unusedVariables false

namespace Gpt
namespace Machine

variable {Fn : Type} {w : Int} {s s' : Machine Fn}

/-! ## Exact integers leave no call undefined -/

/-- With exact integers a slice can always be set. -/
theorem setSlice_exact (begin_ end_ span : Int) {slices : List (Int × Int)} {i : Nat}
    (hi : i < slices.length) : ∃ slices', setSlice some begin_ end_ span slices i = some slices' := by
  simp only [setSlice, Option.bind_some, if_pos hi]
  exact ⟨_, rfl⟩

/-- So can all of them. -/
theorem setSlices_exact (begin_ end_ total n : Int) {slices : List (Int × Int)}
    (hn : n ≤ slices.length) :
    ∃ slices', setSlices some begin_ end_ total n slices = some slices' := by
  simp only [setSlices, Option.bind_some]
  have hlt : ∀ i ∈ List.range n.toNat, i < slices.length := fun i hi => by
    have := List.mem_range.mp hi
    omega
  generalize List.range n.toNat = is at hlt
  induction is generalizing slices with
  | nil => exact ⟨_, rfl⟩
  | cons i is ih =>
    obtain ⟨slices₁, h₁⟩ := setSlice_exact begin_ end_ ((total + n - 1).tdiv n)
      (hlt i (List.mem_cons_self ..))
    have hlen := setSlice_length h₁
    rw [List.foldlM_cons, h₁]
    exact ih (hlen ▸ hn) fun j hj => hlen ▸ hlt j (List.mem_cons_of_mem i hj)

/-- The threads that `parallel_for` creates. -/
def spawns (w : Int) : Fn × Int × Int → Int
  | (_, begin_, end_) => if end_ - begin_ ≤ 0 then 0 else workers w (end_ - begin_) - 1

/-- A call does nothing, or goes on to its threads. -/
theorem Sound.parallelFor_exact (h : Sound w s) (fn : Fn) (begin_ end_ : Int) :
    (Machine.parallelFor some s fn begin_ end_ = s ∧ spawns w (fn, begin_, end_) = 0) ∨
    ∃ slices, Machine.parallelFor some s fn begin_ end_ =
      { s with
        currentRangeFn := some fn
        currentSlices := slices
        currentBaseId := s.threads.length
        main := .spawning fn (spawns w (fn, begin_, end_) + 1) 0 } := by
  rw [Machine.parallelFor, spawns]
  dsimp only
  by_cases hpos : end_ - begin_ ≤ 0
  · rw [if_pos hpos, if_pos hpos]
    exact .inl ⟨rfl, rfl⟩
  · have hn := (workers_range w (Int.not_le.mp hpos)).2
    rw [if_neg hpos, if_neg hpos, h.count, Int.sub_add_cancel]
    have hlen : workers w (end_ - begin_) ≤ (s.currentSlices.length : Int) := h.slices.symm ▸ hn
    obtain ⟨slices, hslices⟩ := setSlices_exact begin_ end_ (end_ - begin_) _ hlen
    rw [hslices]
    exact .inr ⟨slices, rfl⟩

/-- A worker runs a slice, and nothing is undefined. -/
theorem Sound.rangeWorker_exact (h : Sound w s) (hw : w ≤ (maxWorkers : Int))
    (hthreads : s.threads ≠ []) (id : Int) :
    ∃ calls, Machine.rangeWorker some s id = { s with calls := s.calls ++ calls } := by
  simp only [Machine.rangeWorker, Option.bind_some]
  by_cases hindex : 0 ≤ id - s.currentBaseId - 1 ∧ id - s.currentBaseId - 1 < s.workerCount
  · rw [if_pos hindex]
    have hlt : (id - s.currentBaseId - 1).toNat < s.currentSlices.length := by
      rw [h.slices]
      have := h.count
      omega
    rw [List.getElem?_eq_getElem hlt]
    cases hfn : s.currentRangeFn with
    | none => exact absurd (h.rangeFn hfn) hthreads
    | some fn => exact ⟨[(fn, s.currentSlices[(id - s.currentBaseId - 1).toNat])], rfl⟩
  · rw [if_neg hindex]
    exact ⟨[], by rw [List.append_nil]⟩

/-- The main thread has its own slice to run. -/
theorem Sound.callMain_exact (h : Sound w s) {fn : Fn} {n i : Int}
    (hmain : s.main = .spawning fn n i) :
    ∃ slice, s.callMain fn n = { s with calls := s.calls ++ [(fn, slice)], main := .joining 0 } := by
  have hplaced := h.placed
  rw [hmain] at hplaced
  have hlt : (n - 1).toNat < s.currentSlices.length := by
    rw [h.slices]
    have := hplaced.2
    omega
  rw [Machine.callMain, List.getElem?_eq_getElem hlt]
  exact ⟨_, rfl⟩

/-! ## The account -/

/-- The threads that the loop of `parallel_for` has still to create. -/
def outstanding : Main Fn → Int
  | .spawning _ n i => n - 1 - i
  | _ => 0

/-- The slots taken, and those that will be. -/
def committed (w : Int) (s : Machine Fn) : Int :=
  s.threads.length + outstanding s.main + (s.todo.map (spawns w)).sum

/-- The slots taken and to be taken are `total`; if the assertion has failed, they were too
    many. -/
structure Accounted (w total : Int) (s : Machine Fn) : Prop where
  defined : s.main ≠ .undefined
  account : s.main ≠ .abort → committed w s = total
  abort : s.main = .abort → (threadSlots : Int) < total

/-- At the start no slots are taken and all are still to come. -/
theorem Accounted.start (w : Int) (todo : List (Fn × Int × Int)) :
    Accounted w (todo.map (spawns w)).sum (Machine.start w todo) where
  defined := nofun
  account := fun _ => by simp [committed, Machine.start, outstanding]
  abort := nofun

/-- A call gives no slots back. -/
theorem spawns_nonneg (w : Int) (call : Fn × Int × Int) : 0 ≤ spawns w call := by
  rw [spawns]
  split
  · exact Int.le_refl 0
  · have := (workers_range w (Int.not_le.mp ‹_›)).1
    omega

/-- Nor do all calls together. -/
theorem sum_spawns_nonneg (w : Int) (todo : List (Fn × Int × Int)) :
    0 ≤ (todo.map (spawns w)).sum := by
  induction todo with
  | nil => exact Int.le_refl 0
  | cons call todo ih =>
    rw [List.map_cons, List.sum_cons]
    exact Int.add_nonneg (spawns_nonneg w call) ih

/-- **Every step keeps the account.** -/
theorem Accounted.move {total : Int} (ha : Accounted w total s) (h : Sound w s)
    (hw : w ≤ (maxWorkers : Int)) (hm : Move some s s') : Accounted w total s' := by
  have hplaced := h.placed
  cases hm with
  | @enter fn begin_ end_ todo hmain htodo =>
    have hbefore := ha.account (by rw [hmain]; nofun)
    have h₁ : Sound w { s with todo := todo } := { h with }
    simp only [committed, hmain, outstanding, htodo, List.map_cons, List.sum_cons] at hbefore
    obtain ⟨heq, hzero⟩ | ⟨slices, heq⟩ := h₁.parallelFor_exact fn begin_ end_
    · rw [heq]
      refine ⟨ha.defined, fun _ => ?_, ha.abort⟩
      simp only [committed, hmain, outstanding]
      omega
    · rw [heq]
      refine ⟨nofun, fun _ => ?_, nofun⟩
      simp only [committed, outstanding]
      omega
  | @spawn fn n i hmain hi hroom =>
    have hbefore := ha.account (by rw [hmain]; nofun)
    refine ⟨nofun, fun _ => ?_, nofun⟩
    simp only [committed, hmain, outstanding, List.length_append, List.length_singleton]
      at hbefore ⊢
    omega
  | @abort fn n i hmain hi hroom =>
    have hbefore := ha.account (by rw [hmain]; nofun)
    refine ⟨nofun, fun hne => absurd rfl hne, fun _ => ?_⟩
    have := sum_spawns_nonneg w s.todo
    simp only [committed, hmain, outstanding] at hbefore
    omega
  | @call fn n i hmain hi =>
    rw [hmain] at hplaced
    have hbefore := ha.account (by rw [hmain]; nofun)
    obtain ⟨slice, heq⟩ := h.callMain_exact hmain
    rw [heq]
    refine ⟨nofun, fun _ => ?_, nofun⟩
    have := hplaced.2.2.1
    simp only [committed, hmain, outstanding] at hbefore ⊢
    omega
  | leave hmain hi =>
    have hbefore := ha.account (by rw [hmain]; nofun)
    refine ⟨nofun, fun _ => ?_, nofun⟩
    rw [← hbefore]
    simp only [committed, hmain, outstanding]
  | join hmain ht hlive hret =>
    have hbefore := ha.account (by rw [hmain]; nofun)
    refine ⟨nofun, fun _ => ?_, nofun⟩
    rw [← hbefore]
    simp only [committed, hmain, outstanding, List.length_set]
  | skip hmain ht hstatus =>
    have hbefore := ha.account (by rw [hmain]; nofun)
    refine ⟨nofun, fun _ => ?_, nofun⟩
    rw [← hbefore]
    simp only [committed, hmain, outstanding]
  | @work k t hmain ht hret =>
    have hthreads : s.threads.set k { t with returned := true } ≠ [] := fun hnil => by
      rw [List.set_eq_nil_iff] at hnil
      rw [hnil] at ht
      cases ht
    obtain ⟨calls, heq⟩ := (h.returned ht).rangeWorker_exact hw hthreads t.id
    rw [heq]
    refine ⟨ha.defined, fun hne => ?_, ha.abort⟩
    rw [← ha.account hne]
    simp only [committed, List.length_set]

/-- **In every reachable state the slots are accounted for.**. -/
theorem Reachable.accounted {todo : List (Fn × Int × Int)} (hw : w ≤ (maxWorkers : Int))
    (h : Reachable some w todo s) : Accounted w (todo.map (spawns w)).sum s := by
  induction h with
  | refl => exact Accounted.start w todo
  | tail hrun hstep ih => exact ih.move (Reachable.sound hrun) hw hstep.move

/-- **The assertion of `spawn` holds in every run exactly if the calls need no more slots than
    there are.** -/
theorem never_aborts_iff (hw : w ≤ (maxWorkers : Int)) (todo : List (Fn × Int × Int)) :
    (∀ s, Reachable some w todo s → s.main ≠ .abort) ↔
      (todo.map (spawns w)).sum ≤ (threadSlots : Int) := by
  constructor
  · intro hnever
    -- a run to the end takes all the slots
    obtain ⟨s, hrun, hend⟩ := (Sound.start w todo).ends some
    have ha := Reachable.accounted hw hrun
    obtain hstop | ⟨hidle, htodo⟩ := hend
    · cases hmain : s.main with
      | undefined => exact absurd hmain ha.defined
      | abort => exact absurd hmain (hnever s hrun)
      | _ =>
        rw [hmain] at hstop
        cases hstop
    · have hroom := (Reachable.sound hrun).room
      rw [← ha.account (hnever s hrun)]
      simp only [committed, hidle, outstanding, htodo, List.map_nil, List.sum_nil]
      omega
  · intro hle s hrun habort
    exact absurd ((Reachable.accounted hw hrun).abort habort) (by omega)

end Machine

/-! ## `main` -/

/-- The checks of `gpt2_build_from_checkpoint`, and the configuration; `header` is
    `model_header`. -/
def readConfig (header : Nat → Int) : Option GPT2Config :=
  if header 0 ≠ 20240326 then none
  else if header 1 ≠ 1 then none
  else
    some {
      maxSeqLen := (header 2).toNat
      vocabSize := (header 3).toNat
      numLayers := (header 4).toNat
      numHeads := (header 5).toNat
      channels := (header 6).toNat }

/-- The token limit of `main`. -/
def tokenLimit : Nat := 10

section Generation

variable {F : Type} (ops : FloatOps F) (c : GPT2Config)

/-- The calls that the loop of `main` makes; `tokens t` are the tokens in round `t`. -/
def generation (tokens : Nat → Nat → Nat) (argc : Nat) : List (RangeCall F) :=
  (List.range' (argc - 1) (tokenLimit - (argc - 1))).flatMap fun t => gpt2Forward ops c (tokens t) 1 t

/-- The calls as the main thread makes them. -/
def parallelCalls (calls : List (RangeCall F)) : List (RangeCall F × Int × Int) :=
  calls.map fun call => (call, 0, call.total)

/-- The threads for a range of `total` indices: a worker for each slice but the caller's. -/
def workersBeside (w total : Nat) : Nat := min w total - 1

/-- The threads of one layer, for `t` tokens. -/
def layerThreads (w : Nat) (c : GPT2Config) (t : Nat) : Nat :=
  let NH := c.numHeads
  let C := c.channels
  2 * workersBeside w t + workersBeside w (t * (3 * C)) + workersBeside w (t * NH) +
    4 * workersBeside w (t * C) + 2 * workersBeside w (t * (4 * C))

/-- The threads of a forward pass over `t` tokens. -/
def forwardThreads (w : Nat) (c : GPT2Config) (t : Nat) : Nat :=
  3 * workersBeside w t + workersBeside w (t * c.vocabSize) + c.numLayers * layerThreads w c t

/-- The threads of the loop of `main`. -/
def generationThreads (w : Nat) (c : GPT2Config) (argc : Nat) : Nat :=
  ((List.range' (argc - 1) (tokenLimit - (argc - 1))).map (forwardThreads w c)).sum

/-- A call spawns a thread for every slice but one. -/
theorem spawns_total {w : Nat} (hw : 1 ≤ w ∧ w ≤ maxWorkers) (call : RangeCall F) :
    Machine.spawns w (call, 0, (call.total : Int)) = workersBeside w call.total := by
  have hmax := hw.2
  simp only [Machine.spawns, Machine.workers, workersBeside, maxWorkers] at *
  split
  · omega
  · split <;> split <;> split <;> omega

/-- The threads of some calls. -/
theorem sum_spawns {w : Nat} (hw : 1 ≤ w ∧ w ≤ maxWorkers) (calls : List (RangeCall F)) :
    ((parallelCalls calls).map (Machine.spawns w)).sum =
      ((calls.map fun call => workersBeside w call.total).sum : Nat) := by
  induction calls with
  | nil => rfl
  | cons call calls ih =>
    rw [parallelCalls, List.map_cons, List.map_cons, List.sum_cons, ← parallelCalls, ih,
      spawns_total hw, List.map_cons, List.sum_cons, Int.natCast_add]

/-- The threads of a layer. -/
theorem layerForward_threads (w t l : Nat) :
    ((layerForward ops c 1 t l).map fun call => workersBeside w call.total).sum =
      layerThreads w c t := by
  simp only [layerForward, layerPass, layernormForward, matmulForward, attentionForward,
    residualForward, geluForward, List.map_cons, List.map_nil, List.sum_cons, List.sum_nil,
    Nat.one_mul, Nat.mul_assoc, layerThreads]
  omega

/-- The threads of some layers. -/
theorem layers_threads (w t : Nat) (ls : List Nat) :
    ((ls.flatMap (layerForward ops c 1 t)).map fun call => workersBeside w call.total).sum =
      ls.length * layerThreads w c t := by
  induction ls with
  | nil => exact (Nat.zero_mul _).symm
  | cons l ls ih =>
    rw [List.flatMap_cons, List.map_append, List.sum_append, layerForward_threads, ih,
      List.length_cons, Nat.succ_mul, Nat.add_comm]

/-- The threads of the head. -/
theorem headForward_threads (w t : Nat) :
    ((headForward ops c 1 t).map fun call => workersBeside w call.total).sum =
      2 * workersBeside w t + workersBeside w (t * c.vocabSize) := by
  simp only [headForward, headPass, layernormForward, matmulForward, softmaxForward,
    List.map_cons, List.map_nil, List.sum_cons, List.sum_nil, Nat.one_mul]
  omega

/-- The threads of a forward pass. -/
theorem gpt2Forward_threads (w t : Nat) (inputs : Nat → Nat) :
    ((gpt2Forward ops c inputs 1 t).map fun call => workersBeside w call.total).sum =
      forwardThreads w c t := by
  have hlayer : layerPass ops c (pointParameters c) (pointActivations c 1 t) 1 t =
      layerForward ops c 1 t := rfl
  rw [gpt2Forward, forwardPass, ← headForward, hlayer, List.map_cons, List.sum_cons,
    List.map_append, List.sum_append, layers_threads, headForward_threads, List.length_range,
    forwardThreads, encoderForward, Nat.one_mul]
  dsimp only
  omega

/-- The threads of a whole run of `main`. -/
theorem generation_threads (w argc : Nat) (tokens : Nat → Nat → Nat) :
    ((generation ops c tokens argc).map fun call => workersBeside w call.total).sum =
      generationThreads w c argc := by
  rw [generation, generationThreads]
  generalize List.range' (argc - 1) (tokenLimit - (argc - 1)) = ts
  induction ts with
  | nil => rfl
  | cons t ts ih =>
    rw [List.flatMap_cons, List.map_append, List.sum_append, gpt2Forward_threads, ih,
      List.map_cons, List.sum_cons]

/-- The states of the loop of `main`, under any interleaving of the threads. -/
def Generates (tokens : Nat → Nat → Nat) (w argc : Nat) (s : Machine (RangeCall F)) : Prop :=
  Machine.Reachable some w (parallelCalls (generation ops c tokens argc)) s

/-- **`spawn` never fails exactly where the threads have slots enough.**. -/
theorem generates_aborts_iff {w : Nat} (hw : 1 ≤ w ∧ w ≤ maxWorkers) (argc : Nat)
    (tokens : Nat → Nat → Nat) :
    (∀ s, Generates ops c tokens w argc s → s.main ≠ .abort) ↔
      generationThreads w c argc ≤ threadSlots := by
  have hmax : (w : Int) ≤ (maxWorkers : Int) := Int.ofNat_le.mpr hw.2
  apply (Machine.never_aborts_iff hmax _).trans
  rw [sum_spawns hw, generation_threads, Int.ofNat_le]

/-- **The slots last for the whole of `main` exactly if the forward passes need no more threads
    than there are slots**: with any header that the loader accepts, any number of workers, any
    prompt, and whatever the tokens are. -/
theorem generation_slots_iff (header : Nat → Int) {c : GPT2Config}
    (hload : readConfig header = some c) (hpos : ∀ i, 2 ≤ i → i ≤ 6 → 0 < header i)
    {w argc : Nat} (hw : 1 ≤ w ∧ w ≤ maxWorkers) (hargc : 2 ≤ argc ∧ argc ≤ tokenLimit)
    (tokens : Nat → Nat → Nat) :
    (∀ s, Generates ops c tokens w argc s → s.main ≠ .abort) ↔
      generationThreads w c argc ≤ threadSlots :=
  generates_aborts_iff ops c hw argc tokens

/-- The header of GPT-2 with 24 layers. -/
def mediumHeader (i : Nat) : Int := [20240326, 1, 1024, 50257, 24, 16, 1024].getD i 0

/-- The configuration of GPT-2 with 24 layers. -/
def mediumConfig : GPT2Config := ⟨1024, 50257, 24, 16, 1024⟩

/-- One token, four workers, 24 layers: 6282 threads; the `int`s of all rounds are in range. -/
theorem generation_slots_medium :
    readConfig mediumHeader = some mediumConfig ∧ IntRange mediumConfig 1 9 4 ∧
      ∃ s, Generates intOps mediumConfig (fun _ _ => 0) 4 2 s ∧ s.main = .abort := by
  refine ⟨rfl, ⟨by decide, by decide, by decide, by decide, by decide, by decide, by decide⟩, ?_⟩
  by_contra hnone
  have hle := (generates_aborts_iff intOps mediumConfig (w := 4) (by decide) 2 fun _ _ => 0).mp
    fun s hs habort => hnone ⟨s, hs, habort⟩
  revert hle
  decide

/-- The configuration of GPT-2 with 12 layers. -/
def smallConfig : GPT2Config := ⟨1024, 50257, 12, 12, 768⟩

/-- Twelve layers are few enough. -/
theorem generation_slots_small :
    generationThreads 4 smallConfig 2 ≤ threadSlots ∧
      ∀ s, Generates intOps smallConfig (fun _ _ => 0) 4 2 s → s.main ≠ .abort := by
  let header : Nat → Int := fun i => [20240326, 1, 1024, 50257, 12, 12, 768].getD i 0
  have hpos : ∀ i, i < 7 → 2 ≤ i → 0 < header i := by decide
  have hfew : generationThreads 4 smallConfig 2 ≤ threadSlots := by decide
  refine ⟨hfew, ?_⟩
  exact (generation_slots_iff intOps header (c := smallConfig) rfl
    (fun i hge hle => hpos i (Nat.lt_succ_of_le hle) hge) (by decide) (by decide)
    fun _ _ => 0).mpr hfew

end Generation
end Gpt
