/-
  What `add_stat` accumulates.

  1. **Specification** — `spent R name` is the time of all records of a name, `total R` that of all
     records.
  2. **The invariant (`Holds`)** — a table stands for the records `R`: names once, each with its
     sum.
  3. **The crux (`Holds.addStat`)** — as long as there are no more names than the table has room
     for, `add_stat` keeps it, whether the name is in the table (`Holds.modify`) or new
     (`Holds.append`).
  4. **What is idealised** — times are exact, so that sums do not depend on the order of the
     records.
-/
import Mathlib.Data.Finset.Card
import Mathlib.Data.List.Nodup
import Mathlib.Tactic.Linarith
import MiniLabs.Sperf.Code

set_option linter.unusedVariables false

namespace Sperf

open Libc Ranking

/-! ## Names -/

/-- A name fits its array. -/
theorem copyName_length (ok : UInt8 → Bool) (name line : List UInt8) (h : name.length < nameLen) :
    (copyName ok name line).1.length < nameLen := by
  induction line generalizing name with
  | nil => exact h
  | cons c line ih =>
    rw [copyName]
    split
    · apply ih
      split
      · rw [List.length_append]
        exact ‹_›
      · exact h
    · exact h

/-- A parsed name fits its place in the table. -/
theorem parseSyscallName_short {line name : List UInt8} (h : parseSyscallName line = some name) :
    name.length < nameLen := by
  have hcopied : ∀ ok rest, (copyName ok [] rest).1.length < nameLen :=
    fun ok rest => copyName_length ok [] rest (by decide)
  unfold parseSyscallName at h
  by_cases hresumed : line.take 5 = ascii "<... "
  · rw [if_pos hresumed] at h
    obtain ⟨-, h⟩ := Option.ite_none_right_eq_some.mp h
    rw [← Option.some.inj h]
    exact hcopied _ _
  · rw [if_neg hresumed] at h
    obtain ⟨-, h⟩ := Option.ite_none_left_eq_some.mp h
    obtain ⟨-, h⟩ := Option.ite_none_left_eq_some.mp h
    rw [← Option.some.inj h]
    exact hcopied _ _

/-! ## Sums -/

/-- The time of all records of a name. -/
def spent (R : List Record) (name : List UInt8) : Rat :=
  ((R.filter fun r => r.name == name).map (·.seconds)).sum

/-- The time of all records. -/
def total (R : List Record) : Rat := (R.map (·.seconds)).sum

section Sums

variable {R : List Record} {r : Record} {name : List UInt8}

/-- One more record adds to its own name. -/
theorem spent_concat (R : List Record) (r : Record) (name : List UInt8) :
    spent (R ++ [r]) name = spent R name + if r.name = name then r.seconds else 0 := by
  rw [spent, List.filter_append, List.map_append, List.sum_append, spent]
  by_cases h : r.name = name
  · simp [h]
  · simp [h]

/-- And to the total. -/
theorem total_concat (R : List Record) (r : Record) : total (R ++ [r]) = total R + r.seconds := by
  rw [total, List.map_append, List.sum_append]
  simp [total]

/-- No time is negative. -/
theorem spent_nonneg (R : List Record) (name : List UInt8) : 0 ≤ spent R name := by
  induction R using List.reverseRecOn with
  | nil => exact le_refl _
  | append_singleton R r ih =>
    rw [spent_concat]
    have := r.nonneg
    split <;> linarith

/-- A name without a record has no time. -/
theorem spent_eq_zero (h : name ∉ R.map (·.name)) : spent R name = 0 := by
  have hnone : R.filter (fun r => r.name == name) = [] := by
    refine List.filter_eq_nil_iff.mpr fun r hr heq => h ?_
    exact List.mem_map.mpr ⟨r, hr, beq_iff_eq.mp heq⟩
  rw [spent, hnone]
  rfl

/-- A name with a time is that of a record. -/
theorem mem_of_spent (h : 0 < spent R name) : name ∈ R.map (·.name) := by
  by_contra hno
  rw [spent_eq_zero hno] at h
  exact lt_irrefl _ h

/-- The names of a list that is free of repetition take no more than the whole time. -/
theorem sum_spent_le (R : List Record) {ns : List (List UInt8)} (hnd : ns.Nodup) :
    (ns.map (spent R)).sum ≤ total R := by
  induction R using List.reverseRecOn with
  | nil =>
    have hzero : ns.map (spent []) = ns.map fun _ => 0 := List.map_congr_left fun n _ => rfl
    rw [hzero]
    simp [total]
  | append_singleton R r ih =>
    have hone : (ns.map fun n => if r.name = n then r.seconds else 0).sum ≤ r.seconds := by
      clear ih
      induction ns with
      | nil => exact r.nonneg
      | cons n ns ihn =>
        obtain ⟨hn, hnd⟩ := List.nodup_cons.mp hnd
        rw [List.map_cons, List.sum_cons]
        by_cases h : r.name = n
        · have hzero : (ns.map fun n => if r.name = n then r.seconds else 0)
              = ns.map fun _ => 0 := by
            refine List.map_congr_left fun m hm => if_neg ?_
            rintro rfl
            exact hn (h ▸ hm)
          rw [if_pos h, hzero]
          simp
        · rw [if_neg h, zero_add]
          exact ihn hnd
    have hsum : (ns.map (spent (R ++ [r]))).sum
        = (ns.map (spent R)).sum + (ns.map fun n => if r.name = n then r.seconds else 0).sum := by
      rw [← List.sum_map_add]
      exact congrArg List.sum (List.map_congr_left fun n _ => spent_concat R r n)
    rw [hsum, total_concat]
    linarith

end Sums

/-! ## The table -/

/-- The table stands for the records. -/
structure Holds (stats : Stats) (R : List Record) : Prop where
  nodup : (stats.calls.map (·.name)).Nodup
  names : ∀ name, name ∈ stats.calls.map (·.name) ↔ name ∈ R.map (·.name)
  sums : ∀ call ∈ stats.calls, call.seconds = spent R call.name
  total : stats.totalSeconds = total R
  generation : stats.generation = UInt64.ofNat R.length

section Table

variable {stats : Stats} {R : List Record}

/-- The empty table stands for no records. -/
theorem holds_start : Holds ⟨[], 0, 0⟩ [] where
  nodup := List.nodup_nil
  names := fun name => Iff.rfl
  sums := fun call hcall => absurd hcall List.not_mem_nil
  total := rfl
  generation := rfl

/-- Counting on modulo 2^64. -/
theorem generation_succ (n : Nat) : UInt64.ofNat n + 1 = UInt64.ofNat (n + 1) := by
  rw [UInt64.ofNat_add]
  rfl

/-- The table has no more entries than there are names. -/
theorem Holds.length_le (h : Holds stats R) :
    stats.calls.length = (R.map (·.name)).toFinset.card := by
  have hset : (R.map (·.name)).toFinset = (stats.calls.map (·.name)).toFinset := by
    ext name
    rw [List.mem_toFinset, List.mem_toFinset]
    exact (h.names name).symm
  rw [hset, List.toFinset_card_of_nodup h.nodup, List.length_map]

/-- What a time that is added does to a call of the table. -/
theorem modify_name (calls : List SyscallStat) (i : Nat) (seconds : Rat) :
    (calls.modify i fun call => { call with seconds := call.seconds + seconds }).map (·.name)
      = calls.map (·.name) := by
  refine List.ext_getElem? fun j => ?_
  rw [List.getElem?_map, List.getElem?_map, List.getElem?_modify]
  cases calls[j]? with
  | none => rfl
  | some call =>
    show some (if i = j then _ else _ : SyscallStat).name = some call.name
    split <;> rfl

/-- One more record is one more name, or an old one. -/
theorem names_concat (R : List Record) (r : Record) (name : List UInt8) :
    name ∈ (R ++ [r]).map (·.name) ↔ name ∈ R.map (·.name) ∨ name = r.name := by
  rw [List.map_append, List.mem_append]
  exact or_congr Iff.rfl List.mem_singleton

/-- The time of its name. -/
theorem spent_concat_self (R : List Record) (r : Record) :
    spent (R ++ [r]) r.name = spent R r.name + r.seconds := by
  rw [spent_concat, if_pos rfl]

/-- The times of the other names stay. -/
theorem spent_concat_ne (R : List Record) {r : Record} {name : List UInt8} (h : name ≠ r.name) :
    spent (R ++ [r]) name = spent R name := by
  rw [spent_concat, if_neg (Ne.symm h), add_zero]

/-- What `add_stat` does to the sum and to the generation. -/
theorem Holds.counted (h : Holds stats R) (r : Record) :
    stats.totalSeconds + r.seconds = Sperf.total (R ++ [r]) ∧
      stats.generation + 1 = UInt64.ofNat (R ++ [r]).length := by
  constructor
  · rw [h.total, total_concat]
  · rw [h.generation, generation_succ, List.length_append]
    rfl

/-- The record is added to the entry of its name. -/
theorem Holds.modify (h : Holds stats R) (r : Record) {i : Nat} (hi : i < stats.calls.length)
    (hname : (stats.calls[i]).name = r.name) :
    Holds
      { calls := stats.calls.modify i fun call => { call with seconds := call.seconds + r.seconds }
        totalSeconds := stats.totalSeconds + r.seconds
        generation := stats.generation + 1 } (R ++ [r]) := by
  obtain ⟨htotal, hgen⟩ := h.counted r
  have hold : r.name ∈ R.map (·.name) :=
    (h.names _).mp (List.mem_map.mpr ⟨_, List.getElem_mem hi, hname⟩)
  refine ⟨?nodup, fun name => ?names, ?sums, htotal, hgen⟩
  case nodup =>
    rw [modify_name]
    exact h.nodup
  case names =>
    rw [modify_name, h.names, names_concat]
    constructor
    · exact Or.inl
    · rintro (hmem | rfl)
      · exact hmem
      · exact hold
  case sums =>
    intro call hcall
    obtain ⟨j, hj⟩ := List.mem_iff_getElem?.mp hcall
    rw [List.getElem?_modify] at hj
    obtain ⟨call', hj', hmod⟩ := Option.map_eq_some_iff.mp hj
    by_cases hij : i = j
    · subst hij
      rw [List.getElem?_eq_getElem hi] at hj'
      obtain rfl := Option.some.inj hj'
      rw [if_pos rfl] at hmod
      rw [← hmod]
      show _ + _ = spent _ (stats.calls[i]).name
      rw [hname, spent_concat_self, h.sums _ (List.getElem_mem hi), hname]
    · rw [if_neg hij] at hmod
      obtain rfl : call' = call := hmod
      have hmem := List.mem_of_getElem? hj'
      refine (h.sums _ hmem).trans (spent_concat_ne R fun heq => hij ?_).symm
      -- two entries with one name
      have hlt : i < (stats.calls.map (·.name)).length := by rwa [List.length_map]
      refine (List.getElem?_inj hlt h.nodup).mp ?_
      rw [List.getElem?_map, List.getElem?_map, hj', List.getElem?_eq_getElem hi]
      exact congrArg some (hname.trans heq.symm)

/-- Where another name fits, there is room in the table. -/
theorem Holds.room (h : Holds stats R) {r : Record} (hfree : r.name ∉ R.map (·.name))
    (hroom : ((R ++ [r]).map (·.name)).toFinset.card ≤ maxSyscalls) :
    stats.calls.length < maxSyscalls := by
  have hset : ((R ++ [r]).map (·.name)).toFinset = insert r.name (R.map (·.name)).toFinset := by
    ext name
    rw [List.mem_toFinset, names_concat, Finset.mem_insert, List.mem_toFinset, or_comm]
  rw [hset, Finset.card_insert_of_notMem (by rwa [List.mem_toFinset])] at hroom
  rw [h.length_le]
  exact hroom

/-- The record gets an entry of its own. -/
theorem Holds.append (h : Holds stats R) (r : Record)
    (hnew : r.name ∉ stats.calls.map (·.name)) :
    Holds
      { calls := stats.calls ++ [⟨r.name, r.seconds⟩]
        totalSeconds := stats.totalSeconds + r.seconds
        generation := stats.generation + 1 } (R ++ [r]) := by
  obtain ⟨htotal, hgen⟩ := h.counted r
  have hfree : r.name ∉ R.map (·.name) := fun hmem => hnew ((h.names _).mpr hmem)
  refine ⟨?nodup, fun name => ?names, ?sums, htotal, hgen⟩
  case nodup =>
    rw [List.map_append]
    exact h.nodup.append (List.nodup_singleton _) (List.disjoint_singleton.mpr hnew)
  case names =>
    rw [List.map_append, List.mem_append, h.names, names_concat]
    exact or_congr Iff.rfl List.mem_singleton
  case sums =>
    intro call hcall
    rcases List.mem_append.mp hcall with hcall | hcall
    · have hne : call.name ≠ r.name := fun heq => hnew (List.mem_map.mpr ⟨call, hcall, heq⟩)
      rw [spent_concat_ne R hne]
      exact h.sums call hcall
    · rw [List.mem_singleton.mp hcall]
      show r.seconds = spent _ r.name
      rw [spent_concat_self, spent_eq_zero hfree, zero_add]

/-- **`add_stat`** adds a record, as long as there is room for its name. -/
theorem Holds.addStat (h : Holds stats R) (r : Record)
    (hroom : ((R ++ [r]).map (·.name)).toFinset.card ≤ maxSyscalls) :
    Holds (addStat stats r.name r.seconds) (R ++ [r]) := by
  rw [Sperf.addStat]
  cases hfind : stats.calls.findIdx? fun call => strcmp call.name r.name == 0 with
  | some i =>
    obtain ⟨hi, hname, -⟩ := List.findIdx?_eq_some_iff_getElem.mp hfind
    exact h.modify r hi ((strcmp_eq_iff _ _).mp (beq_iff_eq.mp hname))
  | none =>
    have hnew : r.name ∉ stats.calls.map (·.name) := by
      intro hmem
      obtain ⟨call, hcall, heq⟩ := List.mem_map.mp hmem
      have hno := List.findIdx?_eq_none_iff.mp hfind call hcall
      rw [beq_eq_false_iff_ne] at hno
      exact hno ((strcmp_eq_iff _ _).mpr heq)
    have hfree : r.name ∉ R.map (·.name) := fun hmem => hnew ((h.names _).mpr hmem)
    have htake : r.name.take (nameLen - 1) = r.name :=
      List.take_of_length_le (Nat.le_sub_one_of_lt r.short)
    dsimp only
    rw [if_pos (h.room hfree hroom), htake]
    exact h.append r hnew

end Table

end Sperf
