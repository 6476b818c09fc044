/-
  The child links of pstree, without positions.

  1. **Specification** — the links that `buildTree` makes are positions in the list, and `sortTree`
     permutes them through pointers.  Here they are read back as processes:
       * `parentOf` — the process in the list that `find_process_index` finds for the ppid;
       * `kidsOf`   — the members of the list with that parent, sorted;
       * `rootsOf`  — the roots that `print_forest` collects, sorted.
  2. **The crux (`linked`)** — the list after `k` rounds of `build_tree`: every process has its
     children among the first `k`, in the order of the list.
  3. **What comes of it (`pstree_eq`)** — what is printed is the `walk` along `kidsOf` from
     `rootsOf`, as long as pids are distinct.
-/
import MiniLabs.Pstree.Code

set_option linter.unusedVariables false

namespace Pstree

open Forest

/-! ## Lists with positions -/

/-- The process at a position. -/
def status (S : List Status) (i : Nat) : Status := S.getD i ⟨0, 0, []⟩

/-- The position of the parent. -/
def parentIndex (S : List Status) (s : Status) : Option Nat :=
  S.findIdx? fun p => p.pid == s.ppid

/-- The parent. -/
def parentOf (S : List Status) (s : Status) : Option Status := S.find? fun p => p.pid == s.ppid

/-- The comparison reads nothing but pids and names. -/
def sortLe (numericSort : Bool) (s t : Status) : Bool := compare numericSort ⟨s, []⟩ ⟨t, []⟩ ≤ 0

/-- The children of a process, in the order in which they are printed. -/
def kidsOf (S : List Status) (numericSort : Bool) (p : Status) : List Status :=
  (S.filter fun s => parentOf S s == some p).mergeSort (sortLe numericSort)

/-- The roots, in the order in which they are printed. -/
def rootsOf (S : List Status) (numericSort : Bool) : List Status :=
  (S.filter fun s => s.ppid == 0 || (parentOf S s).isNone).mergeSort (sortLe numericSort)

section Positions

variable {S : List Status} {list : List Process} {s p : Status} {i c : Nat}

/-- A process of the list. -/
theorem status_of_lt (hi : i < S.length) : S[i]? = some (status S i) := by
  rw [status, List.getD_eq_getElem?_getD, List.getElem?_eq_getElem hi]
  rfl

/-- Different places have different pids. -/
theorem status_inj (hd : (S.map (·.pid)).Nodup) (hi : i < S.length) (hc : c < S.length)
    (heq : (status S i).pid = (status S c).pid) : i = c := by
  have hget : ∀ {j : Nat}, j < S.length → (S.map (·.pid))[j]? = some (status S j).pid := by
    intro j hj
    rw [List.getElem?_map, status_of_lt hj]
    rfl
  have hlt : i < (S.map (·.pid)).length := by rwa [List.length_map]
  refine (List.getElem?_inj hlt hd).mp ?_
  rw [hget hi, hget hc, heq]

/-- A list is what stands at its positions. -/
theorem map_status (S : List Status) : (List.range S.length).map (status S) = S := by
  refine List.ext_getElem? fun i => ?_
  rw [List.getElem?_map]
  rcases Nat.lt_or_ge i S.length with hi | hi
  · rw [List.getElem?_range hi, status_of_lt hi]
    rfl
  · rw [List.getElem?_eq_none (by rwa [List.length_range]), List.getElem?_eq_none hi]
    rfl

/-- What is picked by position is what is picked by value. -/
theorem filter_status (S : List Status) (q : Status → Bool) :
    ((List.range S.length).filter fun i => q (status S i)).map (status S) = S.filter q := by
  have h : ((List.range S.length).map (status S)).filter q = S.filter q := by rw [map_status]
  rw [List.filter_map] at h
  exact h

/-- Links do not matter to the look-up of a process. -/
theorem item_status (h : list.map (·.toStatus) = S) (i : Nat) :
    (item list i).toStatus = status S i := by
  rw [← h, status, item, List.getD_eq_getElem?_getD, List.getD_eq_getElem?_getD, List.getElem?_map]
  cases list[i]? <;> rfl

/-- `find_process_index` looks at the pids only. -/
theorem findProcessIndex_eq (h : list.map (·.toStatus) = S) (s : Status) :
    findProcessIndex list s.ppid = parentIndex S s := by
  rw [← h, findProcessIndex, parentIndex, List.findIdx?_map]
  rfl

/-- Comparing pointers is comparing the processes. -/
theorem comparePointers_eq (h : list.map (·.toStatus) = S) (numericSort : Bool) (i c : Nat) :
    decide (comparePointers list numericSort i c ≤ 0)
      = sortLe numericSort (status S i) (status S c) := by
  rw [← item_status h i, ← item_status h c, sortLe, comparePointers]
  cases numericSort <;> rfl

/-- Sorting pointers sorts what they point to. -/
theorem map_qsort (h : list.map (·.toStatus) = S) (numericSort : Bool) (is : List Nat) :
    (qsort (comparePointers list numericSort) is).map (status S)
      = (is.map (status S)).mergeSort (sortLe numericSort) :=
  List.map_mergeSort fun i _ c _ => comparePointers_eq h numericSort i c

/-! ## Parents -/

/-- The parent is in the list and has the pid. -/
theorem parentIndex_some (h : parentIndex S s = some i) :
    i < S.length ∧ (status S i).pid = s.ppid := by
  obtain ⟨hi, hp, -⟩ := List.findIdx?_eq_some_iff_getElem.mp h
  refine ⟨hi, ?_⟩
  rw [status, List.getD_eq_getElem?_getD, List.getElem?_eq_getElem hi]
  exact beq_iff_eq.mp hp

/-- The parent is the process at that place. -/
theorem parentOf_eq (S : List Status) (s : Status) :
    parentOf S s = (parentIndex S s).map (status S) := by
  rw [parentOf, List.find?_eq_bind_findIdx?_getElem?]
  show (parentIndex S s).bind (S[·]?) = _
  cases hi : parentIndex S s with
  | none => rfl
  | some i => exact status_of_lt (parentIndex_some hi).1

/-- With distinct pids a parent has one place. -/
theorem parentIndex_iff (hd : (S.map (·.pid)).Nodup) (hi : i < S.length) :
    parentIndex S s = some i ↔ parentOf S s = some (status S i) := by
  rw [parentOf_eq]
  constructor
  · intro h
    rw [h]
    rfl
  · intro h
    obtain ⟨c, hc, heq⟩ := Option.map_eq_some_iff.mp h
    obtain rfl := status_inj hd (parentIndex_some hc).1 hi (by rw [heq])
    exact hc

/-- The parent is the one process with the right pid. -/
theorem parentOf_some (hd : (S.map (·.pid)).Nodup) :
    parentOf S s = some p ↔ p ∈ S ∧ s.ppid = p.pid := by
  have hfound : ∀ {q : Status}, parentOf S s = some q → q ∈ S ∧ q.pid = s.ppid := by
    intro q h
    rw [parentOf] at h
    have hq := List.find?_some h
    exact ⟨List.mem_of_find?_eq_some h, beq_iff_eq.mp hq⟩
  constructor
  · intro h
    obtain ⟨hp, heq⟩ := hfound h
    exact ⟨hp, heq.symm⟩
  · rintro ⟨hp, heq⟩
    cases h : parentOf S s with
    | none => exact absurd heq.symm (by simpa using List.find?_eq_none.mp h p hp)
    | some q =>
      obtain ⟨hq, hqs⟩ := hfound h
      rw [List.inj_on_of_nodup_map hd hq hp (hqs.trans heq)]

/-- A process without a parent in the list. -/
theorem parentOf_none : parentOf S s = none ↔ ∀ p ∈ S, p.pid ≠ s.ppid := by
  rw [parentOf, List.find?_eq_none]
  simp

/-! ## Rounds of `build_tree` -/

/-- The children that a process has after `k` rounds. -/
def childrenOf (S : List Status) (k i : Nat) : List Nat :=
  (List.range k).filter fun c => parentIndex S (status S c) == some i

/-- The list after `k` rounds. -/
def linked (S : List Status) (k : Nat) : List Process :=
  S.mapIdx fun i s => ⟨s, childrenOf S k i⟩

/-- Giving children to processes leaves the processes. -/
theorem mapIdx_status (S : List Status) (f : Nat → List Nat) :
    (S.mapIdx fun i s => (⟨s, f i⟩ : Process)).map (·.toStatus) = S := by
  refine List.ext_getElem? fun i => ?_
  rw [List.getElem?_map, List.getElem?_mapIdx]
  cases S[i]? <;> rfl

/-- Linking leaves the processes. -/
theorem linked_status (S : List Status) (k : Nat) : (linked S k).map (·.toStatus) = S :=
  mapIdx_status S (childrenOf S k)

/-- A process of the linked list. -/
theorem linked_get (S : List Status) (k i : Nat) :
    (linked S k)[i]? = (S[i]?).map fun s => ⟨s, childrenOf S k i⟩ := List.getElem?_mapIdx

/-- One more round of `build_tree` adds one child at most. -/
theorem childrenOf_succ (S : List Status) (k i : Nat) :
    childrenOf S (k + 1) i
      = childrenOf S k i ++ if parentIndex S (status S k) = some i then [k] else [] := by
  rw [childrenOf, List.range_succ, List.filter_append, childrenOf]
  by_cases h : parentIndex S (status S k) = some i
  · rw [if_pos h, List.filter_cons_of_pos (by rw [h]; exact beq_self_eq_true _), List.filter_nil]
  · rw [if_neg h, List.filter_cons_of_neg (by simpa using h), List.filter_nil]

/-- **One round** links one process to its parent. -/
theorem buildStep_linked {k : Nat} (hk : k < S.length) :
    buildStep (linked S k) k = linked S (k + 1) := by
  have hlook : ((linked S k)[k]?).bind (fun p => findProcessIndex (linked S k) p.ppid)
      = parentIndex S (status S k) := by
    rw [linked_get, status_of_lt hk, Option.map_some, Option.bind_some]
    exact findProcessIndex_eq (linked_status S k) (status S k)
  rw [buildStep, hlook]
  refine List.ext_getElem? fun i => ?_
  rw [linked_get S (k + 1), childrenOf_succ]
  cases hp : parentIndex S (status S k) with
  | none =>
    show (linked S k)[i]? = _
    rw [linked_get, if_neg (by simp), List.append_nil]
  | some parent =>
    show ((linked S k).modify parent (addChild k))[i]? = _
    rw [List.getElem?_modify, linked_get]
    cases S[i]? with
    | none => rfl
    | some s =>
      show some (if parent = i then _ else _) = some _
      by_cases hi : parent = i
      · rw [if_pos hi, if_pos (by rw [hi])]
        rfl
      · rw [if_neg hi, if_neg (fun h => hi (Option.some.inj h)), List.append_nil]

/-- At the start nobody has children. -/
theorem start_linked (S : List Status) : start S = linked S 0 := by
  refine List.ext_getElem? fun i => ?_
  rw [linked_get, start, List.getElem?_map]
  rfl

/-- **`build_tree`.** -/
theorem buildTree_linked (S : List Status) : buildTree (start S) = linked S S.length := by
  have hrounds : ∀ k, k ≤ S.length →
      (List.range k).foldl buildStep (start S) = linked S k := by
    intro k
    induction k with
    | zero => exact fun _ => start_linked S
    | succ k ih =>
      intro hk
      rw [List.range_succ, List.foldl_append, ih (Nat.le_of_succ_le hk)]
      exact buildStep_linked hk
  have hlength : (start S).length = S.length := List.length_map _
  rw [buildTree, hlength]
  exact hrounds S.length (Nat.le_refl _)

/-! ## Sorted links -/

/-- The list when `sort_tree` is done. -/
def sorted (S : List Status) (numericSort : Bool) : List Process :=
  S.mapIdx fun i s =>
    ⟨s, qsort (comparePointers (linked S S.length) numericSort) (childrenOf S S.length i)⟩

/-- One child is sorted already. -/
theorem qsort_short {cmp : Nat → Nat → Int} {is : List Nat} (h : is.length < 2) :
    qsort cmp is = is := by
  match is, h with
  | [], _ => exact List.mergeSort_nil
  | [i], _ => exact List.mergeSort_singleton i

/-- **What `sort_tree` leaves.**. -/
theorem sortTree_sorted (S : List Status) (numericSort : Bool) :
    sortTree numericSort (buildTree (start S)) = sorted S numericSort := by
  rw [buildTree_linked, sortTree]
  refine List.ext_getElem? fun i => ?_
  rw [List.getElem?_map, linked_get, sorted, List.getElem?_mapIdx]
  cases S[i]? with
  | none => rfl
  | some s =>
    show some (if _ then _ else _) = _
    by_cases h : (childrenOf S S.length i).length < 2
    · rw [if_pos h, Option.map_some, qsort_short h]
    · rw [if_neg h]
      rfl

/-- Sorting leaves the processes. -/
theorem sorted_status (S : List Status) (numericSort : Bool) :
    (sorted S numericSort).map (·.toStatus) = S :=
  mapIdx_status S fun i =>
    qsort (comparePointers (linked S S.length) numericSort) (childrenOf S S.length i)

/-- The children of a process, sorted. -/
theorem item_sorted (numericSort : Bool) (hi : i < S.length) :
    (item (sorted S numericSort) i).children
      = qsort (comparePointers (linked S S.length) numericSort) (childrenOf S S.length i) := by
  rw [item, List.getD_eq_getElem?_getD, sorted, List.getElem?_mapIdx, status_of_lt hi]
  rfl

/-- The sorted links lead to the sorted children. -/
theorem children_status (hd : (S.map (·.pid)).Nodup) (numericSort : Bool) (hi : i < S.length) :
    ((item (sorted S numericSort) i).children).map (status S)
      = kidsOf S numericSort (status S i) := by
  have hpick : childrenOf S S.length i
      = (List.range S.length).filter fun c => parentOf S (status S c) == some (status S i) := by
    apply List.filter_congr
    intro c _
    rw [Bool.eq_iff_iff, beq_iff_eq, beq_iff_eq]
    exact parentIndex_iff hd hi
  rw [item_sorted numericSort hi, map_qsort (linked_status S _), hpick,
    filter_status S fun s => parentOf S s == some (status S i), kidsOf]

/-- A child is a place of the list. -/
theorem children_lt (numericSort : Bool) (hi : i < S.length)
    (hc : c ∈ (item (sorted S numericSort) i).children) : c < S.length := by
  rw [item_sorted numericSort hi] at hc
  have hmem := (List.mergeSort_perm _ _).mem_iff.mp hc
  exact List.mem_range.mp (List.mem_of_mem_filter hmem)

/-! ## The walk -/

/-- A pair of the walk as a line. -/
def line (e : Nat × Status) : Line := ⟨e.1, e.2⟩

/-- **`print_tree`** walks along the children. -/
theorem printTree_walk (hd : (S.map (·.pid)).Nodup) (numericSort : Bool) {fuel d : Nat}
    (hi : i < S.length) :
    printTree (sorted S numericSort) fuel i d
      = (walk (kidsOf S numericSort) fuel d (status S i)).map (List.map line) := by
  induction fuel generalizing i d with
  | zero => rfl
  | succ fuel ih =>
    have heach : each (fun c => printTree (sorted S numericSort) fuel c (d + 1))
          (item (sorted S numericSort) i).children
        = (each (walk (kidsOf S numericSort) fuel (d + 1)) (kidsOf S numericSort (status S i))).map
            (List.map line) := by
      rw [← children_status hd numericSort hi]
      exact each_map_map fun c hc => ih (children_lt numericSort hi hc)
    rw [printTree, heach, item_status (sorted_status S numericSort), walk, Option.map_map,
      Option.map_map]
    rfl

/-- The roots that are printed, as processes. -/
theorem roots_status (S : List Status) (numericSort : Bool) :
    (qsort (comparePointers (sorted S numericSort) numericSort)
        (roots (sorted S numericSort))).map (status S) = rootsOf S numericSort := by
  have hlength : (sorted S numericSort).length = S.length := List.length_mapIdx
  have hpick : roots (sorted S numericSort)
      = (List.range S.length).filter fun i =>
          (status S i).ppid == 0 || (parentOf S (status S i)).isNone := by
    rw [roots, hlength]
    apply List.filter_congr
    intro i _
    have hitem := item_status (sorted_status S numericSort) i
    have hppid : (item (sorted S numericSort) i).ppid = (status S i).ppid := by rw [← hitem]
    rw [hppid, findProcessIndex_eq (sorted_status S numericSort), parentOf_eq, Option.isNone_map]
  rw [map_qsort (sorted_status S numericSort), hpick,
    filter_status S fun s => s.ppid == 0 || (parentOf S s).isNone, rootsOf]

/-- **What is printed** is the walk from the sorted roots along the sorted children. -/
theorem pstree_eq (hd : (S.map (·.pid)).Nodup) (numericSort : Bool) (fuel : Nat) :
    pstree numericSort fuel S
      = (each (walk (kidsOf S numericSort) fuel 0) (rootsOf S numericSort)).map (List.map line) := by
  rw [pstree, sortTree_sorted, printForest, ← roots_status S numericSort]
  apply each_map_map
  intro i hi
  have hmem := (List.mergeSort_perm _ _).mem_iff.mp hi
  have hlt := List.mem_range.mp (List.mem_of_mem_filter hmem)
  rw [sorted, List.length_mapIdx] at hlt
  exact printTree_walk hd numericSort hlt

end Positions

end Pstree
