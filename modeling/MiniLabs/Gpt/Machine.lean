/-
  gpt — what holds of the threads in every run.

  1. **Program** — the step relation of `Gpt.Threads`; `Move` lists what a step can be, so that
     every invariant is proved from the same cases.
  2. **The invariant (`Sound`)** — there are no more threads than slots, a thread that has been
     joined has returned, and the position of the main thread fits the slots.  Every step keeps it,
     each by a lemma of its own.
  3. **The crux (`fuel`)** — every step lowers it, and a program that is neither over nor stopped
     has a thread that can go on: `join` waits only for threads that can still run.  So every run
     comes to an end (`Sound.ends`).
-/
import MiniLabs.Gpt.Threads

set_option linter.unusedVariables false

namespace Gpt
namespace Machine

variable {Fn : Type} {int : Int → Option Int} {w : Int} {s s' : Machine Fn}

/-! ## The steps -/

/-- The steps a program can take. -/
inductive Move (int : Int → Option Int) (s : Machine Fn) : Machine Fn → Prop
  | enter {fn : Fn} {begin_ end_ : Int} {todo : List (Fn × Int × Int)} (hmain : s.main = .idle)
      (htodo : s.todo = (fn, begin_, end_) :: todo) :
      Move int s (parallelFor int { s with todo := todo } fn begin_ end_)
  | spawn {fn : Fn} {n i : Int} (hmain : s.main = .spawning fn n i) (hi : i + 1 < n)
      (hroom : s.threads.length < threadSlots) :
      Move int s { s with
        threads := s.threads ++ [⟨s.threads.length + 1, .live, false⟩]
        main := .spawning fn n (i + 1) }
  | abort {fn : Fn} {n i : Int} (hmain : s.main = .spawning fn n i) (hi : i + 1 < n)
      (hroom : ¬ s.threads.length < threadSlots) : Move int s { s with main := .abort }
  | call {fn : Fn} {n i : Int} (hmain : s.main = .spawning fn n i) (hi : ¬ i + 1 < n) :
      Move int s (s.callMain fn n)
  | leave {i : Nat} (hmain : s.main = .joining i) (hi : s.threads.length ≤ i) :
      Move int s { s with main := .idle }
  | join {i : Nat} {t : Thread} (hmain : s.main = .joining i) (ht : s.threads[i]? = some t)
      (hlive : t.status = .live) (hret : t.returned = true) :
      Move int s { s with
        threads := s.threads.set i { t with status := .dead }
        main := .joining (i + 1) }
  | skip {i : Nat} {t : Thread} (hmain : s.main = .joining i) (ht : s.threads[i]? = some t)
      (hdead : t.status = .dead) : Move int s { s with main := .joining (i + 1) }
  | work {k : Nat} {t : Thread} (hmain : s.main.stopped = false) (ht : s.threads[k]? = some t)
      (hret : t.returned = false) :
      Move int s
        (rangeWorker int { s with threads := s.threads.set k { t with returned := true } } t.id)

/-- Every step is one of the moves. -/
theorem Step.move (h : Step int s s') : Move int s s' := by
  obtain ⟨turn, h⟩ := h
  obtain ⟨workerCount, rangeFn, slices, base, threads, main, todo, calls⟩ := s
  cases turn with
  | main =>
    cases main with
    | idle =>
      cases todo with
      | nil => cases h
      | cons c todo =>
        cases h
        exact .enter rfl rfl
    | spawning fn n i =>
      dsimp only [step, Machine.spawn] at h
      by_cases hi : i + 1 < n
      · rw [if_pos hi] at h
        by_cases hroom : threads.length < threadSlots
        · rw [if_pos hroom] at h
          cases h
          exact .spawn rfl hi hroom
        · rw [if_neg hroom] at h
          cases h
          exact .abort rfl hi hroom
      · rw [if_neg hi] at h
        cases h
        exact .call rfl hi
    | joining i =>
      dsimp only [step, Machine.join] at h
      cases ht : threads[i]? with
      | none =>
        rw [ht] at h
        cases h
        exact .leave rfl (List.getElem?_eq_none_iff.mp ht)
      | some t =>
        rw [ht] at h
        obtain ⟨id, status, returned⟩ := t
        cases status with
        | live =>
          cases returned with
          | false => cases h
          | true =>
            cases h
            exact .join rfl ht rfl rfl
        | dead =>
          cases h
          exact .skip rfl ht rfl
    | undefined => cases h
    | abort => cases h
  | work k =>
    dsimp only [step] at h
    cases hstop : main.stopped with
    | true =>
      rw [hstop, if_pos rfl] at h
      cases h
    | false =>
      rw [hstop, if_neg Bool.false_ne_true] at h
      cases ht : threads[k]? with
      | none =>
        rw [ht] at h
        cases h
      | some t =>
        rw [ht] at h
        obtain ⟨id, status, returned⟩ := t
        cases returned with
        | true => cases h
        | false =>
          cases h
          exact .work hstop ht rfl

/-! ## The slices -/

/-- There are between 1 and `MAX_WORKERS` slices. -/
theorem workers_range (workerCount : Int) {total : Int} (h : 0 < total) :
    1 ≤ workers workerCount total ∧ workers workerCount total ≤ (maxWorkers : Int) := by
  simp only [workers, maxWorkers]
  split <;> split <;> split <;> omega

/-- Setting a slice adds none. -/
theorem setSlice_length {begin_ end_ span : Int} {slices slices' : List (Int × Int)} {i : Nat}
    (h : setSlice int begin_ end_ span slices i = some slices') :
    slices'.length = slices.length := by
  simp only [setSlice, Option.bind_eq_some_iff] at h
  obtain ⟨offset, -, b, -, e, -, h⟩ := h
  split at h
  · cases h
    exact List.length_set
  · cases h

/-- Setting the slices adds none. -/
theorem setSlices_length {begin_ end_ total n : Int} {slices slices' : List (Int × Int)}
    (h : setSlices int begin_ end_ total n slices = some slices') :
    slices'.length = slices.length := by
  simp only [setSlices, Option.bind_eq_some_iff] at h
  obtain ⟨sum, -, sum', -, h⟩ := h
  generalize List.range n.toNat = is at h
  induction is generalizing slices with
  | nil =>
    cases h
    rfl
  | cons i is ih =>
    rw [List.foldlM_cons, Option.bind_eq_bind, Option.bind_eq_some_iff] at h
    obtain ⟨slices₁, h₁, h⟩ := h
    rw [ih h, setSlice_length h₁]

/-! ## What the functions do to the state -/

/-- `parallel_for` sets nothing at all where the range is empty. -/
theorem parallelFor_cases (int : Int → Option Int) (s : Machine Fn) (fn : Fn) (begin_ end_ : Int) :
    parallelFor int s fn begin_ end_ = { s with main := .undefined } ∨
    parallelFor int s fn begin_ end_ = s ∨
    ∃ n slices, 1 ≤ n ∧ n ≤ (maxWorkers : Int) ∧ slices.length = s.currentSlices.length ∧
      parallelFor int s fn begin_ end_ =
        { s with
          currentRangeFn := some fn
          currentSlices := slices
          currentBaseId := s.threads.length
          main := .spawning fn n 0 } := by
  rw [parallelFor]
  cases htotal : int (end_ - begin_) with
  | none => exact .inl rfl
  | some total =>
    dsimp only
    by_cases hpos : total ≤ 0
    · rw [if_pos hpos]
      exact .inr (.inl rfl)
    · rw [if_neg hpos]
      cases hslices : setSlices int begin_ end_ total (workers s.workerCount total)
          s.currentSlices with
      | none => exact .inl rfl
      | some slices =>
        have hn := workers_range s.workerCount (Int.not_le.mp hpos)
        exact .inr (.inr ⟨_, slices, hn.1, hn.2, setSlices_length hslices, rfl⟩)

/-- The main thread runs its own slice and goes on to `join`, or into what is undefined. -/
theorem callMain_cases (s : Machine Fn) (fn : Fn) (n : Int) :
    s.callMain fn n = { s with main := .undefined } ∨
    ∃ slice, s.currentSlices[(n - 1).toNat]? = some slice ∧
      s.callMain fn n = { s with calls := s.calls ++ [(fn, slice)], main := .joining 0 } := by
  rw [callMain]
  cases hslice : s.currentSlices[(n - 1).toNat]? with
  | none => exact .inl rfl
  | some slice => exact .inr ⟨slice, rfl, rfl⟩

/-- A worker runs its slice, or into what is undefined. -/
theorem rangeWorker_cases (int : Int → Option Int) (s : Machine Fn) (id : Int) :
    rangeWorker int s id = { s with main := .undefined } ∨
    ∃ calls, rangeWorker int s id = { s with calls := s.calls ++ calls } := by
  rw [rangeWorker]
  cases (int (id - s.currentBaseId)).bind fun index => int (index - 1) with
  | none => exact .inl rfl
  | some index =>
    dsimp only
    by_cases hindex : 0 ≤ index ∧ index < s.workerCount
    · rw [if_pos hindex]
      cases s.currentSlices[index.toNat]? with
      | none => exact .inl rfl
      | some slice =>
        cases s.currentRangeFn with
        | none => exact .inl rfl
        | some fn => exact .inr ⟨[(fn, slice)], rfl⟩
    · rw [if_neg hindex]
      exact .inr ⟨[], by rw [List.append_nil]⟩

/-! ## The invariant -/

/-- What a position of the main thread says about the slots and `current_range_fn`. -/
def Placed (threads : List Thread) (rangeFn : Option Fn) : Main Fn → Prop
  | .idle => ∀ t ∈ threads, t.status = .dead
  | .spawning fn n i => rangeFn = some fn ∧ 0 ≤ i ∧ i + 1 ≤ n ∧ n ≤ (maxWorkers : Int)
  | .joining i => i ≤ threads.length ∧ ∀ j t, j < i → threads[j]? = some t → t.status = .dead
  | .undefined => True
  | .abort => True

/-- **Sound** states: a dead thread has returned, and the position fits the slots. -/
structure Sound (w : Int) (s : Machine Fn) : Prop where
  count : s.workerCount = w
  slices : s.currentSlices.length = maxWorkers
  room : s.threads.length ≤ threadSlots
  dead : ∀ t ∈ s.threads, t.status = .dead → t.returned = true
  rangeFn : s.currentRangeFn = none → s.threads = []
  placed : Placed s.threads s.currentRangeFn s.main

/-- A thread that returns disturbs nobody's place. -/
theorem Placed.returned {threads : List Thread} {rangeFn : Option Fn} {main : Main Fn} {k : Nat}
    {t : Thread} (h : Placed threads rangeFn main) (ht : threads[k]? = some t) :
    Placed (threads.set k { t with returned := true }) rangeFn main := by
  cases main with
  | idle =>
    intro u hu
    rcases List.mem_or_eq_of_mem_set hu with hu | rfl
    · exact h u hu
    · exact h t (List.mem_of_getElem? ht)
  | joining i =>
    refine ⟨by rw [List.length_set]; exact h.1, fun j u hj hu => ?_⟩
    rw [List.getElem?_set] at hu
    split at hu
    · rename_i hkj
      subst hkj
      split at hu
      · cases hu
        exact h.2 k t hj ht
      · cases hu
    · exact h.2 j u hj hu
  | _ => exact h

/-- The program starts soundly. -/
theorem Sound.start (w : Int) (todo : List (Fn × Int × Int)) : Sound w (start w todo) where
  count := rfl
  slices := List.length_replicate
  room := Nat.zero_le _
  dead := fun t ht => absurd ht List.not_mem_nil
  rangeFn := fun _ => rfl
  placed := fun t ht => absurd ht List.not_mem_nil

/-- A call of `parallel_for` is sound. -/
theorem Sound.parallelFor (h : Sound w s) (fn : Fn) (begin_ end_ : Int) :
    Sound w (parallelFor int s fn begin_ end_) := by
  obtain heq | heq | ⟨n, slices, hpos, hmax, hlen, heq⟩ :=
    parallelFor_cases int s fn begin_ end_
  · rw [heq]
    exact { h with placed := trivial }
  · rw [heq]
    exact h
  · rw [heq]
    exact { h with
      slices := hlen.trans h.slices
      rangeFn := fun hnone => nomatch hnone
      placed := ⟨rfl, Int.le_refl 0, by omega, hmax⟩ }

/-- The slice of the main thread is sound. -/
theorem Sound.callMain (h : Sound w s) (fn : Fn) (n : Int) : Sound w (s.callMain fn n) := by
  obtain heq | ⟨slice, -, heq⟩ := callMain_cases s fn n
  · rw [heq]
    exact { h with placed := trivial }
  · rw [heq]
    exact { h with placed := ⟨Nat.zero_le _, fun j t hj => absurd hj (Nat.not_lt_zero j)⟩ }

/-- A worker is sound. -/
theorem Sound.rangeWorker (h : Sound w s) (id : Int) : Sound w (rangeWorker int s id) := by
  obtain heq | ⟨calls, heq⟩ := rangeWorker_cases int s id
  · rw [heq]
    exact { h with placed := trivial }
  · rw [heq]
    exact { h with }

/-- A thread that returns is sound. -/
theorem Sound.returned (h : Sound w s) {k : Nat} {t : Thread} (ht : s.threads[k]? = some t) :
    Sound w { s with threads := s.threads.set k { t with returned := true } } := by
  refine ⟨h.count, h.slices, by rw [List.length_set]; exact h.room, fun u hu hstatus => ?_,
    fun hnone => ?_, h.placed.returned ht⟩
  · rcases List.mem_or_eq_of_mem_set hu with hu | rfl
    · exact h.dead u hu hstatus
    · rfl
  · rw [h.rangeFn hnone] at ht
    cases ht

/-- The slots after `join` has taken the thread in slot `i`. -/
theorem Placed.joined {threads : List Thread} {rangeFn : Option Fn} {i : Nat} {t : Thread}
    (h : Placed threads rangeFn (.joining i)) (ht : threads[i]? = some t) :
    Placed (threads.set i { t with status := .dead }) rangeFn (.joining (i + 1)) := by
  refine ⟨by rw [List.length_set]; exact (List.getElem?_eq_some_iff.mp ht).1, fun j u hj hu => ?_⟩
  rw [List.getElem?_set] at hu
  split at hu
  · split at hu
    · cases hu
      rfl
    · cases hu
  · exact h.2 j u (by omega) hu

/-- **Every step keeps a state sound.** -/
theorem Sound.move (h : Sound w s) (hm : Move int s s') : Sound w s' := by
  obtain ⟨hcount, hslices, hroom, hdead, hfn, hplaced⟩ := h
  cases hm with
  | @enter fn begin_ end_ todo hmain htodo =>
    have h : Sound w { s with todo := todo } := ⟨hcount, hslices, hroom, hdead, hfn, hplaced⟩
    exact h.parallelFor _ _ _
  | spawn hmain hi hroom' =>
    rw [hmain] at hplaced
    refine ⟨hcount, hslices, ?_, fun t ht => ?_, fun hnone => ?_, ?_⟩
    · rw [List.length_append]
      exact hroom'
    · rcases List.mem_append.mp ht with ht | ht
      · exact hdead t ht
      · rw [List.mem_singleton.mp ht]
        exact fun hlive => nomatch hlive
    · rw [hplaced.1] at hnone
      cases hnone
    · exact ⟨hplaced.1, by have := hplaced.2.1; omega, hi, hplaced.2.2.2⟩
  | abort hmain hi hroom' => exact ⟨hcount, hslices, hroom, hdead, hfn, trivial⟩
  | call hmain hi => exact Sound.callMain ⟨hcount, hslices, hroom, hdead, hfn, hplaced⟩ _ _
  | leave hmain hi =>
    rw [hmain] at hplaced
    refine ⟨hcount, hslices, hroom, hdead, hfn, fun t ht => ?_⟩
    obtain ⟨j, hj⟩ := List.getElem?_of_mem ht
    exact hplaced.2 j t (Nat.lt_of_lt_of_le (List.getElem?_eq_some_iff.mp hj).1 hi) hj
  | join hmain ht hlive hret =>
    rw [hmain] at hplaced
    refine ⟨hcount, hslices, by rw [List.length_set]; exact hroom, fun u hu hstatus => ?_,
      fun hnone => ?_, hplaced.joined ht⟩
    · rcases List.mem_or_eq_of_mem_set hu with hu | rfl
      · exact hdead u hu hstatus
      · exact hret
    · rw [hfn hnone] at ht
      cases ht
  | skip hmain ht hstatus =>
    rw [hmain] at hplaced
    refine ⟨hcount, hslices, hroom, hdead, hfn, (List.getElem?_eq_some_iff.mp ht).1,
      fun j u hj hu => ?_⟩
    rcases Nat.lt_succ_iff_lt_or_eq.mp hj with hj | rfl
    · exact hplaced.2 j u hj hu
    · rw [ht] at hu
      cases hu
      exact hstatus
  | @work k t hmain ht hret =>
    have h : Sound w s := ⟨hcount, hslices, hroom, hdead, hfn, hplaced⟩
    exact (h.returned ht).rangeWorker _

/-- **Every reachable state is sound.**. -/
theorem Reachable.sound {todo : List (Fn × Int × Int)} (h : Reachable int w todo s) :
    Sound w s := by
  induction h with
  | refl => exact Sound.start w todo
  | tail _ hstep ih => exact ih.move hstep.move

/-! ## Every run ends -/

/-- The number of threads that can still run. -/
def pending (threads : List Thread) : Nat := threads.countP fun t => !t.returned

/-- How far the main thread is from its next call of `parallel_for`. -/
def distance : Main Fn → Int
  | .idle => 0
  | .spawning _ n i => 2 * (n - i) + threadSlots + 3
  | .joining i => threadSlots + 2 - i
  | .undefined => 0
  | .abort => 0

/-- What every step lowers. -/
def fuel (s : Machine Fn) : Int :=
  (threadSlots + 12) * s.todo.length + distance s.main + pending s.threads

/-- The main thread is not past its end. -/
theorem Placed.distance_nonneg {threads : List Thread} {rangeFn : Option Fn} {main : Main Fn}
    (h : Placed threads rangeFn main) (hroom : threads.length ≤ threadSlots) :
    0 ≤ distance main := by
  cases main with
  | spawning fn n i =>
    have := h.2.2.1
    simp only [distance]
    omega
  | joining i =>
    have := h.1
    simp only [distance]
    omega
  | _ => exact Int.le_refl 0

/-- Fuel is never negative. -/
theorem Sound.fuel_nonneg (h : Sound w s) : 0 ≤ fuel s := by
  have := h.placed.distance_nonneg h.room
  simp only [fuel, threadSlots] at *
  omega

/-- Starting a call takes less fuel than the call had in store. -/
theorem fuel_parallelFor (s : Machine Fn) (hmain : s.main = .idle) (fn : Fn) (begin_ end_ : Int) :
    fuel (parallelFor int s fn begin_ end_) < fuel s + threadSlots + 12 := by
  obtain heq | heq | ⟨n, slices, hpos, hmax, -, heq⟩ :=
    parallelFor_cases int s fn begin_ end_ <;> rw [heq] <;>
    simp only [fuel, hmain, distance, threadSlots, maxWorkers] at * <;> omega

/-- The slice of the main thread costs no fuel. -/
theorem fuel_callMain (s : Machine Fn) (fn : Fn) (n : Int) :
    fuel (s.callMain fn n) ≤ fuel { s with main := .joining 0 } := by
  obtain heq | ⟨slice, -, heq⟩ := callMain_cases s fn n
  · rw [heq]
    simp only [fuel, distance]
    omega
  · rw [heq]
    exact Int.le_refl _

/-- A worker adds no fuel. -/
theorem fuel_rangeWorker (s : Machine Fn) (hmain : 0 ≤ distance s.main) (id : Int) :
    fuel (rangeWorker int s id) ≤ fuel s := by
  obtain heq | ⟨calls, heq⟩ := rangeWorker_cases int s id
  · rw [heq]
    simp only [fuel, distance] at *
    omega
  · rw [heq]
    exact Int.le_refl _

/-- How many threads have not returned, after one of them has changed. -/
theorem pending_set {threads : List Thread} {k : Nat} {t : Thread} (ht : threads[k]? = some t)
    (u : Thread) : (pending (threads.set k u) : Int) =
      pending threads - (!t.returned).toNat + (!u.returned).toNat := by
  obtain ⟨hk, ht⟩ := List.getElem?_eq_some_iff.mp ht
  rw [pending, List.countP_set hk, ht, ← pending]
  have hone : t.returned = false → 0 < pending threads := fun hret =>
    List.countP_pos_iff.mpr ⟨t, ht ▸ List.getElem_mem hk, by rw [hret]; rfl⟩
  cases hpt : t.returned <;> cases hpu : u.returned <;> simp
  · have := hone hpt
    omega
  · have := hone hpt
    omega

/-- **Every step lowers the fuel.** -/
theorem Sound.fuel_lt (h : Sound w s) (hm : Move int s s') : fuel s' < fuel s := by
  have hdistance := h.placed.distance_nonneg h.room
  have hplaced := h.placed
  cases hm with
  | @enter fn begin_ end_ todo hmain htodo =>
    apply Int.lt_of_lt_of_le (fuel_parallelFor { s with todo := todo } hmain fn begin_ end_)
    simp only [fuel, htodo, List.length_cons, threadSlots]
    omega
  | spawn hmain hi hroom =>
    simp only [fuel, hmain, distance, pending, List.countP_append, List.countP_singleton,
      Bool.not_false, if_true, threadSlots]
    omega
  | abort hmain hi hroom =>
    rw [hmain] at hdistance hplaced
    have := hplaced.2.2.1
    simp only [fuel, hmain, distance, threadSlots]
    omega
  | @call fn n i hmain hi =>
    rw [hmain] at hplaced
    have := hplaced.2.2.1
    apply Int.lt_of_le_of_lt (fuel_callMain s fn n)
    simp only [fuel, hmain, distance, threadSlots]
    omega
  | leave hmain hi =>
    rw [hmain] at hplaced
    have := hplaced.1
    have := h.room
    simp only [fuel, hmain, distance, threadSlots] at *
    omega
  | @join i t hmain ht hlive hret =>
    have := pending_set ht { t with status := .dead }
    simp only [fuel, hmain, distance, threadSlots] at *
    omega
  | skip hmain ht hstatus =>
    simp only [fuel, hmain, distance, threadSlots]
    omega
  | @work k t hmain ht hret =>
    refine Int.lt_of_le_of_lt (fuel_rangeWorker
      { s with threads := s.threads.set k { t with returned := true } } hdistance t.id) ?_
    have := pending_set ht { t with returned := true }
    simp only [fuel, hret, Bool.not_false, Bool.not_true, Bool.toNat_true, Bool.toNat_false] at *
    omega

/-- **No run goes on forever.** -/
theorem Sound.no_infinite_run {run : Nat → Machine Fn} (h : Sound w (run 0))
    (hrun : ∀ k, Step int (run k) (run (k + 1))) : False := by
  have hsound : ∀ k, Sound w (run k) ∧ fuel (run k) ≤ fuel (run 0) - k := by
    intro k
    induction k with
    | zero => exact ⟨h, by omega⟩
    | succ k ih =>
      have hlt := ih.1.fuel_lt (hrun k).move
      refine ⟨ih.1.move (hrun k).move, ?_⟩
      push_cast
      omega
  obtain ⟨hk, hfuel⟩ := hsound ((fuel (run 0)).toNat + 1)
  have := hk.fuel_nonneg
  have := h.fuel_nonneg
  push_cast at hfuel
  omega

/-- Some thread can go on unless the program has stopped or made its last call. -/
theorem Sound.progress (int : Int → Option Int) (h : Sound w s) (hstop : s.main.stopped = false)
    (hmore : s.main ≠ .idle ∨ s.todo ≠ []) : ∃ s', Step int s s' := by
  cases hmain : s.main with
  | idle =>
    cases htodo : s.todo with
    | nil => simp [hmain, htodo] at hmore
    | cons c todo => exact ⟨_, .main, by rw [step, hmain, htodo]⟩
  | spawning fn n i =>
    by_cases hi : i + 1 < n
    · cases hspawn : s.spawn with
      | none => exact ⟨_, .main, by simp only [step, hmain, hspawn, if_pos hi]; rfl⟩
      | some s₁ => exact ⟨_, .main, by simp only [step, hmain, hspawn, if_pos hi]; rfl⟩
    · exact ⟨_, .main, by simp only [step, hmain, if_neg hi]; rfl⟩
  | joining i =>
    cases ht : s.threads[i]? with
    | none => exact ⟨_, .main, by simp only [step, hmain, join, ht]; rfl⟩
    | some t =>
      cases hstatus : t.status with
      | dead => exact ⟨_, .main, by simp only [step, hmain, join, ht, hstatus]; rfl⟩
      | live =>
        -- `join` waits for this thread: it goes on itself
        cases hret : t.returned with
        | true => exact ⟨_, .main, by simp only [step, hmain, join, ht, hstatus, hret]; rfl⟩
        | false => exact ⟨_, .work i, by simp only [step, hmain, Main.stopped, ht, hret]; rfl⟩
  | undefined => simp [hmain, Main.stopped] at hstop
  | abort => simp [hmain, Main.stopped] at hstop

/-- **Every run can be carried to its end.** -/
theorem Sound.ends (int : Int → Option Int) (h : Sound w s) : ∃ s', Relation.ReflTransGen (Step int) s s' ∧
    (s'.main.stopped = true ∨ s'.main = .idle ∧ s'.todo = []) := by
  generalize hm : (fuel s).toNat = m
  induction m using Nat.strongRecOn generalizing s with
  | _ m ih =>
    by_cases hstop : s.main.stopped = true
    · exact ⟨s, .refl, .inl hstop⟩
    · by_cases hover : s.main = .idle ∧ s.todo = []
      · exact ⟨s, .refl, .inr hover⟩
      · obtain ⟨s₁, hstep⟩ := h.progress int (Bool.eq_false_iff.mpr hstop)
          (not_and_or.mp hover)
        have hlt := h.fuel_lt hstep.move
        have h₁ := h.move hstep.move
        obtain ⟨s₂, hrun, hend⟩ := ih (fuel s₁).toNat (by have := h₁.fuel_nonneg; omega) h₁ rfl
        exact ⟨s₂, .head hstep hrun, hend⟩

end Machine
end Gpt
