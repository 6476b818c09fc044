/-
  gpt — `parallel_for` runs every index once.

  1. **The slices** — where the sums fit an `int`, the loop of `parallel_for` sets the slices of
     `Kernels`, whose loops go through the range once (`slices_flatten`).
  2. **The call** — `Busy` holds of every state of the call: the calls made, and those the threads
     that have not run will make, are one for each slice given out so far.  A thread finds its slice
     by its id: the id counts from `current_base_id`, whatever the calls before have left in `n_`.
  3. **Its end** — no run goes on forever, and the call goes on until the main thread returns.
  4. **Where it ends** — `total + n` is computed before 1 is taken off, so a range of `INT_MAX`
     indices overflows with more than one slice (`parallelFor_once_edge`).
-/
import MiniLabs.Gpt.Machine
import MiniLabs.Gpt.Parallel

set_option linter.unusedVariables false

namespace Gpt

/-- `int` holds the numbers from 0 to `m`. -/
def HoldsUpTo (int : Int → Option Int) (m : Int) : Prop := ∀ x, 0 ≤ x → x ≤ m → int x = some x

/-- An `int` holds all values up to `INT_MAX`. -/
theorem int32_holds : HoldsUpTo int32 (2 ^ 31 - 1) := by
  intro x hnonneg hle
  rw [int32, if_pos ⟨by omega, by omega⟩]

/-- A slice, as a pair of `int`s. -/
def toInts (s : Nat × Nat) : Int × Int := (s.1, s.2)

namespace Machine

variable {Fn : Type} {int : Int → Option Int} {m : Int}

/-! ## The slices -/

/-- One slice is set where its end fits. -/
theorem setSlice_eq (hint : HoldsUpTo int m) {begin_ end_ span i : Nat} {ss : List (Int × Int)}
    (hfit : (begin_ + (i + 1) * span : Nat) ≤ m) (hi : i < ss.length) :
    setSlice int begin_ end_ span ss i = some (ss.set i (toInts (slice begin_ end_ span i))) := by
  rw [Nat.succ_mul] at hfit
  have hoffset : (i : Int) * span = (i * span : Nat) := (Int.natCast_mul i span).symm
  rw [setSlice, hoffset, hint _ (Int.natCast_nonneg _) (by omega), Option.bind_some,
    hint _ (by omega) (by omega), Option.bind_some, hint _ (by omega) (by omega),
    Option.bind_some, if_pos hi, toInts, slice]
  congr 3
  dsimp only
  split <;> split <;> omega

/-- The loop sets the slices from the first one on. -/
theorem setSlice_loop (hint : HoldsUpTo int m) {begin_ end_ span k : Nat} {ss : List (Int × Int)}
    (hfit : (begin_ + k * span : Nat) ≤ m) (hk : k ≤ ss.length) :
    (List.range k).foldlM (setSlice int begin_ end_ span) ss =
      some ((List.range k).map (fun i => toInts (slice begin_ end_ span i)) ++ ss.drop k) := by
  induction k with
  | zero => rfl
  | succ k ih =>
    have hle : k * span ≤ (k + 1) * span := Nat.mul_le_mul_right span (Nat.le_succ k)
    have hlen : ((List.range k).map fun i => toInts (slice begin_ end_ span i)).length = k := by
      rw [List.length_map, List.length_range]
    rw [List.range_succ, List.foldlM_append, ih (by omega) (by omega), Option.bind_eq_bind,
      Option.bind_some, List.foldlM_cons, setSlice_eq hint hfit, Option.bind_eq_bind,
      Option.bind_some, List.foldlM_nil, List.set_append_right _ _ (by omega), hlen, Nat.sub_self,
      List.map_append, List.append_assoc]
    · rw [List.drop_eq_getElem_cons hk]
      rfl
    · rw [List.length_append, hlen, List.length_drop]
      omega

/-- The number of slices is that of `Kernels`. -/
theorem workers_eq (w total : Nat) : workers w total = (sliceCount w total : Nat) := by
  simp only [workers, sliceCount, maxWorkers]
  split <;> split <;> split <;> split <;> split <;> split <;> omega

/-- There are at most `MAX_WORKERS` slices. -/
theorem sliceCount_le (w total : Nat) : sliceCount w total ≤ maxWorkers := by
  simp only [sliceCount, maxWorkers]
  split <;> split <;> split <;> omega

/-- No more slices than workers. -/
theorem sliceCount_le_workers {w : Nat} (hw : 1 ≤ w) (total : Nat) : sliceCount w total ≤ w := by
  simp only [sliceCount]
  split <;> split <;> split <;> omega

/-- There are as many slices as were to be set. -/
theorem slices_length (w begin_ end_ : Nat) :
    ((slices w begin_ end_).map toInts).length = sliceCount w (end_ - begin_) := by
  rw [List.length_map, slices, List.length_map, List.length_range]

/-- The slices that `parallel_for` sets are those of `Kernels`. -/
theorem setSlices_eq (hint : HoldsUpTo int m) {w begin_ end_ : Nat} {ss : List (Int × Int)}
    (h : begin_ < end_) (hend : (end_ : Int) + 3 ≤ m) (hsum : (end_ : Int) - begin_ + w ≤ m)
    (hw : 1 ≤ w) (hss : ss.length = maxWorkers) :
    setSlices int begin_ end_ (end_ - begin_) (sliceCount w (end_ - begin_) : Nat) ss =
      some ((slices w begin_ end_).map toInts ++ ss.drop (sliceCount w (end_ - begin_))) := by
  have hpos := sliceCount_pos w (Nat.sub_pos_of_lt h)
  have hmax := sliceCount_le w (end_ - begin_)
  have hle := sliceCount_le_workers hw (end_ - begin_)
  rw [slices, List.map_map]
  generalize sliceCount w (end_ - begin_) = n at *
  have hspan : ((end_ : Int) - begin_ + n - 1).tdiv n = ((end_ - begin_ + n - 1) / n : Nat) := by
    rw [Int.ofNat_ediv_ofNat.symm, Int.tdiv_eq_ediv_of_nonneg (by omega)]
    congr 1
    omega
  have hfit : ((end_ - begin_ + n - 1) / n * n : Nat) ≤ end_ - begin_ + n - 1 :=
    Nat.div_mul_le_self _ n
  rw [setSlices, hint _ (by omega) (by omega), Option.bind_some, hint _ (by omega) (by omega),
    Option.bind_some, hspan, Int.toNat_natCast]
  simp only [maxWorkers] at hss hmax
  refine setSlice_loop hint ?_ (by omega)
  rw [Nat.mul_comm n]
  omega

/-- **The call sets the slices of `Kernels`**, where the sums fit. -/
theorem parallelFor_eq (hint : HoldsUpTo int m) {w begin_ end_ : Nat} {s : Machine Fn} (fn : Fn)
    (h : begin_ < end_) (hend : (end_ : Int) + 3 ≤ m) (hsum : (end_ : Int) - begin_ + w ≤ m)
    (hw : 1 ≤ w) (hs : Sound w s) :
    parallelFor int s fn begin_ end_ =
      { s with
        currentRangeFn := some fn
        currentSlices :=
          (slices w begin_ end_).map toInts ++ s.currentSlices.drop (sliceCount w (end_ - begin_))
        currentBaseId := s.threads.length
        main := .spawning fn (sliceCount w (end_ - begin_) : Nat) 0 } := by
  have htotal : (end_ : Int) - begin_ = (end_ - begin_ : Nat) := by omega
  rw [parallelFor, hint _ (by omega) (by omega)]
  dsimp only
  rw [if_neg (by omega), hs.count]
  have hn : workers w ((end_ : Int) - begin_) = (sliceCount w (end_ - begin_) : Nat) := by
    rw [htotal, workers_eq]
  rw [hn, setSlices_eq hint h hend hsum hw hs.slices]

/-- The indices `for (i = begin; i < end; i++)` goes through. -/
def loop (s : Int × Int) : List Int := (List.range (s.2 - s.1).toNat).map fun k : Nat => s.1 + k

/-- The loop of a worker goes through the indices of its slice. -/
theorem loop_toInts (s : Nat × Nat) : loop (toInts s) = (indices s).map fun i : Nat => (i : Int) := by
  have hlen : ((s.2 : Int) - s.1).toNat = s.2 - s.1 := by omega
  rw [loop, toInts, indices, hlen, List.range'_eq_map_range, List.map_map]
  exact List.map_congr_left fun k _ => (Int.natCast_add s.1 k).symm

/-- The loops over the slices are the loop over the range. -/
theorem loop_slices (w : Nat) {begin_ end_ : Nat} (h : begin_ < end_) :
    ((slices w begin_ end_).map toInts).flatMap loop = loop (toInts (begin_, end_)) := by
  have hflat := congrArg (List.map fun i : Nat => (i : Int)) (slices_flatten w h)
  rw [List.map_flatten, List.map_map] at hflat
  rw [List.flatMap, List.map_map, loop_toInts]
  refine Eq.trans ?_ hflat
  congr 1
  exact List.map_congr_left fun s _ => loop_toInts s

/-- A loop goes through every index of its range once. -/
theorem count_loop (s : Int × Int) (i : Int) :
    (loop s).count i = if s.1 ≤ i ∧ i < s.2 then 1 else 0 := by
  have hnodup : (loop s).Nodup := by
    refine List.Nodup.map ?_ List.nodup_range
    intro j k hjk
    dsimp only at hjk
    omega
  rw [hnodup.count]
  congr 1
  simp only [loop, List.mem_map, List.mem_range, eq_iff_iff]
  constructor
  · rintro ⟨k, hk, rfl⟩
    omega
  · intro hi
    exact ⟨(i - s.1).toNat, by omega, by omega⟩

/-! ## The call -/

/-- The calls that the threads which have not run will make, the first of them on the first
    slice. -/
def toRun (fn : Fn) : List Thread → List (Int × Int) → List (Fn × Int × Int)
  | t :: ts, s :: ss => (if t.returned then [] else [(fn, s)]) ++ toRun fn ts ss
  | _, _ => []

/-- A thread that is created has its slice to run. -/
theorem toRun_append (fn : Fn) {ts : List Thread} {ss : List (Int × Int)} {s : Int × Int}
    {t : Thread} (ht : t.returned = false) (hs : ss[ts.length]? = some s) :
    toRun fn (ts ++ [t]) ss = toRun fn ts ss ++ [(fn, s)] := by
  induction ts generalizing ss with
  | nil =>
    cases ss with
    | nil => cases hs
    | cons s' ss =>
      cases hs
      simp [toRun, ht]
  | cons t' ts ih =>
    cases ss with
    | nil => cases hs
    | cons s' ss =>
      rw [List.cons_append, toRun, toRun, ih hs, List.append_assoc]

/-- A thread that returns has run its slice. -/
theorem toRun_returned (fn : Fn) {ts : List Thread} {ss : List (Int × Int)} {s : Int × Int}
    {k : Nat} {t : Thread} (ht : ts[k]? = some t) (hret : t.returned = false)
    (hs : ss[k]? = some s) :
    ((fn, s) :: toRun fn (ts.set k { t with returned := true }) ss).Perm (toRun fn ts ss) := by
  induction k generalizing ts ss with
  | zero =>
    cases ts with
    | nil => cases ht
    | cons t' ts =>
      cases ss with
      | nil => cases hs
      | cons s' ss =>
        cases ht
        cases hs
        simp [toRun, hret]
  | succ k ih =>
    cases ts with
    | nil => cases ht
    | cons t' ts =>
      cases ss with
      | nil => cases hs
      | cons s' ss =>
        rw [List.set_cons_succ, toRun, toRun]
        exact List.perm_middle.symm.trans ((ih ht hs).append_left _)

/-- Joining a thread runs nothing. -/
theorem toRun_dead (fn : Fn) {ts : List Thread} (ss : List (Int × Int)) {k : Nat} {t : Thread}
    (ht : ts[k]? = some t) : toRun fn (ts.set k { t with status := .dead }) ss = toRun fn ts ss := by
  induction k generalizing ts ss with
  | zero =>
    cases ts with
    | nil => cases ht
    | cons t' ts =>
      cases ht
      cases ss with
      | nil => rfl
      | cons s' ss => rfl
  | succ k ih =>
    cases ts with
    | nil => cases ht
    | cons t' ts =>
      cases ss with
      | nil => rfl
      | cons s' ss => rw [List.set_cons_succ, toRun, toRun, ih ss ht]

/-- When all threads have returned there is nothing left to run. -/
theorem toRun_nil (fn : Fn) {ts : List Thread} (ss : List (Int × Int))
    (h : ∀ t ∈ ts, t.returned = true) : toRun fn ts ss = [] := by
  induction ts generalizing ss with
  | nil => rfl
  | cons t ts ih =>
    cases ss with
    | nil => rfl
    | cons s ss =>
      rw [toRun, if_pos (h t (List.mem_cons_self ..)),
        ih ss fun u hu => h u (List.mem_cons_of_mem t hu)]
      rfl

/-- What the position of the main thread says, inside the call, about the threads created, and
    which slices it has called `fn` on. -/
def During (fn : Fn) (ss : List (Int × Int)) (created : Nat) :
    Main Fn → List (Int × Int) → Prop
  | .spawning fn' n i, called => fn' = fn ∧ n = ss.length ∧ i = created ∧ called = []
  | .joining _, called => created + 1 = ss.length ∧ called = ss.drop created
  | .idle, called => created + 1 = ss.length ∧ called = ss.drop created
  | .undefined, _ => False
  | .abort, _ => False

/-- **Busy** states: those of the call of `parallel_for` that began in `s₀`, with the slices `ss`;
    `new` are its threads. -/
structure Busy (s₀ : Machine Fn) (fn : Fn) (ss : List (Int × Int)) (s : Machine Fn)
    (new : List Thread) (made : List (Fn × Int × Int)) (called : List (Int × Int)) : Prop where
  rangeFn : s.currentRangeFn = some fn
  slices : ss <+: s.currentSlices
  base : s.currentBaseId = s₀.threads.length
  threads : s.threads = s₀.threads ++ new
  ids : ∀ (k : Nat) (t : Thread), new[k]? = some t → t.id = (s₀.threads.length : Int) + k + 1
  during : During fn ss new.length s.main called
  calls : s.calls = s₀.calls ++ made
  once : (made ++ toRun fn new ss).Perm ((ss.take new.length ++ called).map fun s => (fn, s))

/-- What a call of `parallel_for` with the slices `ss` finds in the state it begins in. -/
structure Entry (w : Int) (s₀ : Machine Fn) (ss : List (Int × Int)) : Prop where
  sound : Sound w s₀
  idle : s₀.main = .idle
  room : s₀.threads.length + maxWorkers ≤ threadSlots + 1
  some_slice : 1 ≤ ss.length
  few : ss.length ≤ maxWorkers
  workers : (ss.length : Int) ≤ w

section Call

variable {w : Int} {s₀ s s' : Machine Fn} {fn : Fn} {ss : List (Int × Int)} {new : List Thread}
  {made : List (Fn × Int × Int)} {called : List (Int × Int)}

/-- The threads of earlier calls have been joined. -/
theorem Entry.dead (he : Entry w s₀ ss) {t : Thread} (ht : t ∈ s₀.threads) : t.status = .dead := by
  have hplaced := he.sound.placed
  rw [he.idle] at hplaced
  exact hplaced t ht

/-- The threads of the calls before have returned. -/
theorem Entry.returned (he : Entry w s₀ ss) {t : Thread} (ht : t ∈ s₀.threads) :
    t.returned = true :=
  he.sound.dead t ht (he.dead ht)

/-- No more threads are created than there are slices beside that of the main thread. -/
theorem Busy.created (hb : Busy s₀ fn ss s new made called) (hs : Sound w s) :
    new.length + 1 ≤ ss.length := by
  have hduring := hb.during
  have hplaced := hs.placed
  cases hmain : s.main with
  | spawning fn' n i =>
    rw [hmain] at hduring hplaced
    have := hplaced.2.2.1
    have := hduring.2.1
    have := hduring.2.2.1
    omega
  | idle =>
    rw [hmain] at hduring
    exact Nat.le_of_eq hduring.1
  | joining i =>
    rw [hmain] at hduring
    exact Nat.le_of_eq hduring.1
  | undefined =>
    rw [hmain] at hduring
    exact hduring.elim
  | abort =>
    rw [hmain] at hduring
    exact hduring.elim

/-- A thread that is not of the calls before is one of the call's. -/
theorem Busy.slot (hb : Busy s₀ fn ss s new made called) {k : Nat} {t : Thread}
    (ht : s.threads[k]? = some t) (hold : t ∉ s₀.threads) :
    s₀.threads.length ≤ k ∧ new[k - s₀.threads.length]? = some t := by
  rw [hb.threads] at ht
  have hle : s₀.threads.length ≤ k := by
    by_contra hlt
    rw [List.getElem?_append_left (Nat.not_le.mp hlt)] at ht
    exact hold (List.mem_of_getElem? ht)
  rw [List.getElem?_append_right hle] at ht
  exact ⟨hle, ht⟩

/-- A thread keeps its id. -/
theorem ids_set {base : Nat} (hids : ∀ (k : Nat) (t : Thread), new[k]? = some t → t.id = (base : Int) + k + 1)
    {j : Nat} {t u : Thread} (ht : new[j]? = some t) (hu : u.id = t.id) :
    ∀ (k : Nat) (v : Thread), (new.set j u)[k]? = some v → v.id = (base : Int) + k + 1 := by
  intro k v hv
  rw [List.getElem?_set] at hv
  split at hv
  · rename_i hjk
    subst hjk
    split at hv
    · cases hv
      rw [hu]
      exact hids j t ht
    · cases hv
  · exact hids k v hv

/-- The slices stay as they were set. -/
theorem Busy.slice (hb : Busy s₀ fn ss s new made called) {j : Nat} {slice : Int × Int}
    (hslice : ss[j]? = some slice) : s.currentSlices[j]? = some slice := by
  obtain ⟨tail, htail⟩ := hb.slices
  rw [← htail, List.getElem?_append_left (List.getElem?_eq_some_iff.mp hslice).1]
  exact hslice

/-- The worker whose id is `j + 1` behind `current_base_id` takes slice `j`. -/
theorem rangeWorker_eq (hint : HoldsUpTo int m) {s : Machine Fn} {j : Nat} {id : Int} {slice : Int × Int}
    (hid : id = s.currentBaseId + j + 1) (hj : (j : Int) + 1 ≤ m) (hcount : (j : Int) < s.workerCount)
    (hslice : s.currentSlices[j]? = some slice) (hfn : s.currentRangeFn = some fn) :
    rangeWorker int s id = { s with calls := s.calls ++ [(fn, slice)] } := by
  have hindex : id - s.currentBaseId = (j : Int) + 1 := by omega
  rw [rangeWorker, hindex, hint _ (by omega) (by omega), Option.bind_some, Int.add_sub_cancel,
    hint _ (by omega) (by omega)]
  dsimp only
  rw [if_pos ⟨by omega, hcount⟩, Int.toNat_natCast, hslice, hfn]

/-- The slice of the main thread starts no call. -/
theorem callMain_todo (s : Machine Fn) (fn : Fn) (n : Int) : (s.callMain fn n).todo = s.todo := by
  obtain heq | ⟨slice, -, heq⟩ := callMain_cases s fn n <;> rw [heq]

/-- A worker starts no call. -/
theorem rangeWorker_todo (s : Machine Fn) (id : Int) : (rangeWorker int s id).todo = s.todo := by
  obtain heq | ⟨calls, heq⟩ := rangeWorker_cases int s id <;> rw [heq]

/-- A new thread will call `fn` on the next slice. -/
theorem Busy.spawn (hb : Busy s₀ fn ss s new made called) {fn' : Fn} {n i : Int}
    (hmain : s.main = .spawning fn' n i) (hi : i + 1 < n) :
    Busy s₀ fn ss
      { s with
        threads := s.threads ++ [⟨s.threads.length + 1, .live, false⟩]
        main := .spawning fn' n (i + 1) }
      (new ++ [⟨s.threads.length + 1, .live, false⟩]) made [] := by
  have hduring := hb.during
  rw [hmain] at hduring
  obtain ⟨rfl, hn, hi', rfl⟩ := hduring
  have hslice : ss[new.length]? = some ss[new.length] := List.getElem?_eq_getElem (by omega)
  refine ⟨hb.rangeFn, hb.slices, hb.base, ?threads, ?ids, ?during, hb.calls, ?once⟩
  case threads => rw [hb.threads, List.append_assoc]
  case ids =>
    intro k t ht
    rw [List.getElem?_append] at ht
    split at ht
    · exact hb.ids k t ht
    · rename_i hk
      have hlen : s.threads.length = s₀.threads.length + new.length := by
        rw [hb.threads, List.length_append]
      rw [List.getElem?_singleton] at ht
      split at ht
      · cases ht
        show (s.threads.length : Int) + 1 = (s₀.threads.length : Int) + k + 1
        omega
      · cases ht
  case during =>
    rw [List.length_append]
    refine ⟨rfl, hn, ?_, rfl⟩
    rw [hi']
    rfl
  case once =>
    have honce := hb.once
    rw [List.append_nil] at honce
    rw [toRun_append fn' rfl hslice, List.length_append, List.append_nil, List.length_singleton,
      List.take_add_one, hslice, List.map_append, ← List.append_assoc]
    exact honce.append_right _

/-- The main thread calls `fn` on the last slice. -/
theorem Busy.call (hb : Busy s₀ fn ss s new made called) (hcreated : new.length + 1 ≤ ss.length)
    {fn' : Fn} {n i : Int} (hmain : s.main = .spawning fn' n i) (hi : ¬ i + 1 < n) :
    ∃ made called, Busy s₀ fn ss (s.callMain fn' n) new made called := by
  have hduring := hb.during
  rw [hmain] at hduring
  obtain ⟨rfl, hn, hi', rfl⟩ := hduring
  have hlast : new.length + 1 = ss.length := by omega
  have hslice : ss[new.length]? = some ss[new.length] := List.getElem?_eq_getElem (by omega)
  have hindex : (n - 1).toNat = new.length := by omega
  have hdrop : ss.drop new.length = [ss[new.length]] := by
    rw [List.drop_eq_getElem_cons (by omega), hlast, List.drop_length]
  have heq : s.callMain fn' n =
      { s with calls := s.calls ++ [(fn', ss[new.length])], main := .joining 0 } := by
    rw [callMain, hindex, hb.slice hslice]
  rw [heq]
  refine ⟨made ++ [(fn', ss[new.length])], ss.drop new.length,
    hb.rangeFn, hb.slices, hb.base, hb.threads, hb.ids, ⟨hlast, rfl⟩, ?calls, ?once⟩
  case calls => rw [hb.calls, List.append_assoc]
  case once =>
    have honce := hb.once
    rw [List.append_nil] at honce
    rw [hdrop, List.map_append, List.append_assoc]
    apply (List.Perm.append_left made (List.perm_append_comm)).trans
    rw [← List.append_assoc]
    exact honce.append_right _

/-- A thread of the call is joined. -/
theorem Busy.join (hb : Busy s₀ fn ss s new made called) {i : Nat} {t : Thread}
    (hmain : s.main = .joining i) (hle : s₀.threads.length ≤ i)
    (hnew : new[i - s₀.threads.length]? = some t) :
    Busy s₀ fn ss
      { s with
        threads := s.threads.set i { t with status := .dead }
        main := .joining (i + 1) }
      (new.set (i - s₀.threads.length) { t with status := .dead }) made called := by
  have hduring := hb.during
  rw [hmain] at hduring
  refine ⟨hb.rangeFn, hb.slices, hb.base, ?threads, ids_set hb.ids hnew rfl, ?during, hb.calls,
    ?once⟩
  case threads => rw [hb.threads, List.set_append_right _ _ hle]
  case during =>
    rw [List.length_set]
    exact hduring
  case once =>
    rw [toRun_dead fn ss hnew, List.length_set]
    exact hb.once

/-- A thread of the call calls `fn` on its slice. -/
theorem Busy.work (hint : HoldsUpTo int m) (hm : (maxWorkers : Int) ≤ m) (he : Entry w s₀ ss)
    (hs : Sound w s) (hb : Busy s₀ fn ss s new made called)
    (hcreated : new.length + 1 ≤ ss.length) {k : Nat} {t : Thread} (hret : t.returned = false)
    (hle : s₀.threads.length ≤ k) (hnew : new[k - s₀.threads.length]? = some t) :
    ∃ new made, Busy s₀ fn ss
      (rangeWorker int { s with threads := s.threads.set k { t with returned := true } } t.id)
      new made called := by
  have hj := (List.getElem?_eq_some_iff.mp hnew).1
  have hslice : ss[k - s₀.threads.length]? = some ss[k - s₀.threads.length] :=
    List.getElem?_eq_getElem (by omega)
  have hid := hb.ids _ t hnew
  have hfew := he.few
  have hworkers := he.workers
  have heq : rangeWorker int { s with threads := s.threads.set k { t with returned := true } }
      t.id = { s with
        threads := s.threads.set k { t with returned := true }
        calls := s.calls ++ [(fn, ss[k - s₀.threads.length])] } :=
    rangeWorker_eq hint (by rw [hb.base]; exact hid) (by omega) (by rw [hs.count]; omega)
      (hb.slice hslice) hb.rangeFn
  rw [heq]
  refine ⟨new.set (k - s₀.threads.length) { t with returned := true },
    made ++ [(fn, ss[k - s₀.threads.length])],
    hb.rangeFn, hb.slices, hb.base, ?threads, ids_set hb.ids hnew rfl, ?during, ?calls, ?once⟩
  case threads => rw [hb.threads, List.set_append_right _ _ hle]
  case during =>
    rw [List.length_set]
    exact hb.during
  case calls => rw [hb.calls, List.append_assoc]
  case once =>
    rw [List.length_set, List.append_assoc]
    exact ((toRun_returned fn hnew hret hslice).append_left made).trans hb.once

/-- **Every step of the call keeps the state busy.** -/
theorem Busy.move (hint : HoldsUpTo int m) (hm : (maxWorkers : Int) ≤ m) (he : Entry w s₀ ss)
    (hs : Sound w s) (hb : Busy s₀ fn ss s new made called) (hne : s.main ≠ .idle)
    (hmove : Move int s s') :
    s'.todo = s.todo ∧ ∃ new made called, Busy s₀ fn ss s' new made called := by
  have hcreated := hb.created hs
  have hduring := hb.during
  cases hmove with
  | enter hmain htodo => exact absurd hmain hne
  | spawn hmain hi hroom => exact ⟨rfl, _, _, _, hb.spawn hmain hi⟩
  | @abort fn' n i hmain hi hroom =>
    rw [hmain] at hduring
    have hlen : s.threads.length = s₀.threads.length + new.length := by
      rw [hb.threads, List.length_append]
    have hthread := hduring.2.2.1
    have hslices := hduring.2.1
    have hroom' := he.room
    have hfew := he.few
    simp only [threadSlots, maxWorkers] at *
    omega
  | call hmain hi =>
    obtain ⟨made, called, hb'⟩ := hb.call hcreated hmain hi
    exact ⟨callMain_todo s _ _, _, _, _, hb'⟩
  | leave hmain hi =>
    rw [hmain] at hduring
    exact ⟨rfl, new, made, called, { hb with during := hduring }⟩
  | join hmain ht hlive hret =>
    obtain ⟨hle, hnew⟩ := hb.slot ht fun hold => by
      rw [he.dead hold] at hlive
      cases hlive
    exact ⟨rfl, _, _, _, hb.join hmain hle hnew⟩
  | skip hmain ht hdead =>
    rw [hmain] at hduring
    exact ⟨rfl, new, made, called, { hb with during := hduring }⟩
  | work hmain ht hret =>
    obtain ⟨hle, hnew⟩ := hb.slot ht fun hold => by
      rw [he.returned hold] at hret
      cases hret
    obtain ⟨new, made, hb'⟩ := hb.work hint hm he hs hcreated hret hle hnew
    exact ⟨rangeWorker_todo _ _, new, made, called, hb'⟩

/-- Between two calls only the main thread can go on. -/
theorem Sound.move_idle (hs : Sound w s) (hmain : s.main = .idle) (hmove : Move int s s') :
    ∃ fn begin_ end_ todo, s.todo = (fn, begin_, end_) :: todo ∧
      s' = Machine.parallelFor int { s with todo := todo } fn begin_ end_ := by
  have hplaced := hs.placed
  rw [hmain] at hplaced
  cases hmove with
  | enter _ htodo => exact ⟨_, _, _, _, htodo, rfl⟩
  | work _ ht hret =>
    have hmem := List.mem_of_getElem? ht
    rw [hs.dead _ hmem (hplaced _ hmem)] at hret
    cases hret
  | spawn h => exact absurd (hmain.symm.trans h) nofun
  | abort h => exact absurd (hmain.symm.trans h) nofun
  | call h => exact absurd (hmain.symm.trans h) nofun
  | leave h => exact absurd (hmain.symm.trans h) nofun
  | join h => exact absurd (hmain.symm.trans h) nofun
  | skip h => exact absurd (hmain.symm.trans h) nofun

/-- The coming calls are those behind this one. -/
theorem parallelFor_todo (s : Machine Fn) (fn : Fn) (begin_ end_ : Int) :
    (parallelFor int s fn begin_ end_).todo = s.todo := by
  obtain heq | heq | ⟨n, slices, -, -, -, heq⟩ :=
    parallelFor_cases int s fn begin_ end_ <;> rw [heq]

/-- The calls to come become fewer. -/
theorem Move.todo_le (hmove : Move int s s') : s'.todo.length ≤ s.todo.length := by
  cases hmove with
  | enter hmain htodo =>
    rw [parallelFor_todo, htodo]
    exact Nat.le_succ _
  | call hmain hi => exact Nat.le_of_eq (congrArg List.length (callMain_todo _ _ _))
  | work hmain ht hret => exact Nat.le_of_eq (congrArg List.length (rangeWorker_todo _ _))
  | _ => exact Nat.le_refl _

/-- **A run from the beginning of a call is there, in the call, or behind it.** -/
theorem Entry.run (hint : HoldsUpTo int m) (hm : (maxWorkers : Int) ≤ m) (he : Entry w s₀ ss)
    {begin_ end_ : Int} {rest : List (Fn × Int × Int)} (htodo : s₀.todo = (fn, begin_, end_) :: rest)
    (hcall : ∃ new made called,
      Busy s₀ fn ss (parallelFor int { s₀ with todo := rest } fn begin_ end_) new made called)
    (hrun : Relation.ReflTransGen (Step int) s₀ s) :
    Sound w s ∧ (s = s₀ ∨ (s.todo = rest ∧ ∃ new made called, Busy s₀ fn ss s new made called) ∨
      s.todo.length < rest.length) := by
  induction hrun with
  | refl => exact ⟨he.sound, .inl rfl⟩
  | @tail s s' _ hstep ih =>
    obtain ⟨hs, hcases⟩ := ih
    have hmove := hstep.move
    refine ⟨hs.move hmove, ?_⟩
    obtain rfl | ⟨hrest, new, made, called, hb⟩ | hlt := hcases
    · obtain ⟨fn', begin', end', todo, htodo', rfl⟩ := hs.move_idle he.idle hmove
      rw [htodo] at htodo'
      cases htodo'
      exact .inr (.inl ⟨parallelFor_todo _ _ _ _, hcall⟩)
    · by_cases hidle : s.main = .idle
      · obtain ⟨fn', begin', end', todo, htodo', rfl⟩ := hs.move_idle hidle hmove
        refine .inr (.inr ?_)
        rw [parallelFor_todo, ← hrest, htodo']
        exact Nat.lt_succ_self _
      · obtain ⟨htodo', hbusy⟩ := hb.move hint hm he hs hidle hmove
        exact .inr (.inl ⟨htodo'.trans hrest, hbusy⟩)
    · exact .inr (.inr (Nat.lt_of_le_of_lt hmove.todo_le hlt))

end Call

/-! ## Its end -/

/-- The states of the call that begins in `s` and leaves `rest` to do. -/
def InCall (int : Int → Option Int) (s : Machine Fn) (rest : List (Fn × Int × Int))
    (s' : Machine Fn) : Prop :=
  Relation.ReflTransGen (Step int) s s' ∧ s'.todo = rest

/-- What the call has done when it returns, in `s'`: one call of `fn` for each of the `n` slices,
    one thread for each but the last, and every index once. -/
def RunsOnce (fn : Fn) (begin_ end_ : Int) (s s' : Machine Fn) : Prop :=
  let n := (workers s.workerCount (end_ - begin_)).toNat
  ∃ made, s'.calls = s.calls ++ made ∧
    made.Perm ((s'.currentSlices.take n).map fun slice => (fn, slice)) ∧
    s'.threads.length + 1 = s.threads.length + n ∧
    ∀ i, (made.flatMap fun call => loop call.2).count i = if begin_ ≤ i ∧ i < end_ then 1 else 0

/-- **When the call is over every index has been run once.**. -/
theorem Busy.runsOnce {w begin_ end_ : Nat} {s₀ s : Machine Fn} {fn : Fn} {new : List Thread}
    {made : List (Fn × Int × Int)} {called : List (Int × Int)} (h : begin_ < end_)
    (hs₀ : Sound w s₀) (hs : Sound w s)
    (hb : Busy s₀ fn ((Gpt.slices w begin_ end_).map toInts) s new made called)
    (hidle : s.main = .idle) : RunsOnce fn begin_ end_ s₀ s := by
  have hduring := hb.during
  have hplaced := hs.placed
  rw [hidle] at hduring hplaced
  obtain ⟨hlast, rfl⟩ := hduring
  have hret : ∀ t ∈ new, t.returned = true := fun t ht => by
    have hmem : t ∈ s.threads := by
      rw [hb.threads]
      exact List.mem_append_right _ ht
    exact hs.dead t hmem (hplaced t hmem)
  have honce := hb.once
  rw [toRun_nil fn _ hret, List.append_nil, List.take_append_drop] at honce
  have htotal : (end_ : Int) - begin_ = (end_ - begin_ : Nat) := by omega
  have hn : (workers s₀.workerCount (end_ - begin_)).toNat = sliceCount w (end_ - begin_) := by
    rw [hs₀.count, htotal, workers_eq, Int.toNat_natCast]
  refine ⟨made, hb.calls, ?_, ?_, fun i => ?_⟩
  · rw [hn, ← slices_length, ← List.prefix_iff_eq_take.mp hb.slices]
    exact honce
  · rw [hn, ← slices_length, hb.threads, List.length_append]
    omega
  · have hperm : (made.flatMap fun call => loop call.2).Perm (loop (toInts (begin_, end_))) := by
      rw [← loop_slices w h]
      apply (honce.flatMap_right _).trans
      rw [List.flatMap_map]
    rw [hperm.count_eq, count_loop]
    rfl

/-- A call of `parallel_for` begins busy. -/
theorem Entry.busy (hint : HoldsUpTo int m) {w begin_ end_ : Nat} {s₀ : Machine Fn} (fn : Fn)
    (h : begin_ < end_) (hend : (end_ : Int) + 3 ≤ m) (hsum : (end_ : Int) - begin_ + w ≤ m)
    (hw : 1 ≤ w) (he : Entry w s₀ ((slices w begin_ end_).map toInts))
    (rest : List (Fn × Int × Int)) :
    Busy s₀ fn ((slices w begin_ end_).map toInts)
      (parallelFor int { s₀ with todo := rest } fn begin_ end_) [] [] [] := by
  have hs : Sound w { s₀ with todo := rest } := { he.sound with }
  rw [parallelFor_eq hint fn h hend hsum hw hs]
  refine ⟨rfl, List.prefix_append _ _, rfl, (List.append_nil _).symm, fun k t ht => ?_, ?_,
    (List.append_nil _).symm, List.Perm.refl _⟩
  · cases ht
  · exact ⟨rfl, congrArg Nat.cast (slices_length w begin_ end_).symm, rfl, rfl⟩

end Machine

open Machine

/-- **`parallel_for` runs every index once**, from every state that earlier calls can leave, under
    every interleaving: nothing overflows, no assertion fails, no run goes on forever, and the
    call goes on until it returns with every slice called once. -/
theorem parallelFor_once {Fn : Type} {w : Int} (hw : 1 ≤ w ∧ w ≤ (maxWorkers : Int))
    {todo rest : List (Fn × Int × Int)} {s : Machine Fn} (hs : Reachable int32 w todo s)
    (hidle : s.main = .idle) {fn : Fn} {begin_ end_ : Int} (htodo : s.todo = (fn, begin_, end_) :: rest)
    (hroom : s.threads.length ≤ 4093) (hbegin : 0 ≤ begin_) (hlt : begin_ < end_)
    (hend : end_ + 3 < 2 ^ 31) (hsum : end_ - begin_ + w < 2 ^ 31) :
    (¬∃ run : Nat → Machine Fn, run 0 = s ∧ ∀ k, Step int32 (run k) (run (k + 1))) ∧
    ∀ s', InCall int32 s rest s' →
      s'.main ≠ .undefined ∧ s'.main ≠ .abort ∧
      (s'.main ≠ .idle → ∃ s'', Step int32 s' s'' ∧ InCall int32 s rest s'') ∧
      (s'.main = .idle → RunsOnce fn begin_ end_ s s') := by
  have hsound := hs.sound
  obtain ⟨w, rfl⟩ := Int.eq_ofNat_of_zero_le (by omega : 0 ≤ w)
  obtain ⟨b, rfl⟩ := Int.eq_ofNat_of_zero_le hbegin
  obtain ⟨e, rfl⟩ := Int.eq_ofNat_of_zero_le (by omega : 0 ≤ end_)
  have hbe : b < e := by omega
  have hlen := slices_length w b e
  have hpos := sliceCount_pos w (Nat.sub_pos_of_lt hbe)
  have he : Entry w s ((slices w b e).map toInts) := by
    refine ⟨hsound, hidle, by simp only [maxWorkers, threadSlots]; omega, by omega, ?_, ?_⟩
    · rw [hlen]
      exact sliceCount_le w _
    · rw [hlen]
      exact Int.ofNat_le.mpr (sliceCount_le_workers (by omega) _)
  have hmax : (maxWorkers : Int) ≤ 2 ^ 31 - 1 := by decide
  have hcall := he.busy int32_holds fn hbe (by omega) (by omega) (by omega) rest
  refine ⟨?_, ?_⟩
  · rintro ⟨run, hzero, hrun⟩
    have h₀ : Sound w (run 0) := hzero ▸ hsound
    exact h₀.no_infinite_run hrun
  · rintro s' ⟨hrun, hrest⟩
    obtain ⟨hs', rfl | ⟨-, new, made, called, hb⟩ | hshort⟩ :=
      he.run int32_holds hmax htodo ⟨_, _, _, hcall⟩ hrun
    · rw [htodo] at hrest
      exact absurd (congrArg List.length hrest) (by simp)
    · have hduring := hb.during
      have hstop : s'.main.stopped = false := by
        cases hmain : s'.main with
        | undefined => rw [hmain] at hduring; exact hduring.elim
        | abort => rw [hmain] at hduring; exact hduring.elim
        | _ => rfl
      refine ⟨fun h => ?_, fun h => ?_, fun hne => ?_, hb.runsOnce hbe hsound hs'⟩
      · rw [h] at hstop
        cases hstop
      · rw [h] at hstop
        cases hstop
      · obtain ⟨s'', hstep⟩ := hs'.progress int32 hstop (.inl hne)
        obtain ⟨htodo', -⟩ := hb.move int32_holds hmax he hs' hne hstep.move
        exact ⟨s'', hstep, hrun.tail hstep, htodo'.trans hrest⟩
    · rw [hrest] at hshort
      exact absurd hshort (Nat.lt_irrefl _)

/-- Seven indices, three workers. -/
theorem parallelFor_once_seven :
    (¬∃ run : Nat → Machine Unit, run 0 = start 3 [((), 0, 7)] ∧
      ∀ k, Step int32 (run k) (run (k + 1))) ∧
    ∀ s', InCall int32 (start 3 [((), 0, 7)]) [] s' → s'.main = .idle →
      RunsOnce () 0 7 (start 3 [((), 0, 7)]) s' := by
  obtain ⟨hends, hcall⟩ := parallelFor_once (w := 3) (by decide) (s := start 3 [((), 0, 7)]) .refl
    rfl rfl (by decide) (by decide) (by decide) (by decide) (by decide)
  exact ⟨hends, fun s' h => (hcall s' h).2.2.2⟩

/-- Three below the largest `int`, `total + n` overflows on the way to `total + n - 1`. -/
theorem parallelFor_once_edge :
    int32 (2147483644 + 3) = some (2147483644 + 3) ∧
      ∃ s' : Machine Unit,
        InCall int32 (start 4 [((), 0, 2147483644)]) [] s' ∧ s'.main = .undefined :=
  ⟨by decide, parallelFor int32 (start 4 []) () 0 2147483644,
    ⟨.single ⟨.main, rfl⟩, rfl⟩, rfl⟩

end Gpt
