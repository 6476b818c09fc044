/-
  What a report says.

  1. **Specification (`TopFive R`)** — the first five names by time and then by name, with their
     shares.  It leaves no choice (`TopFive.unique`).
  2. **Program** — `pickTop` marks what it has used; that is `Ranking.top` on the calls with a
     positive time (`pickTop_eq`).
  3. **The crux (`Holds.topFive`)** — a table that stands for `R` is reported so: ranking in the
     table is ranking by `spent` (`Holds.ahead_iff`), and the percentages are the shares rounded
     down.
-/
import Mathlib.Algebra.Order.Floor.Ring
import Mathlib.Tactic.FieldSimp
import Mathlib.Tactic.Ring
import MiniLabs.Sperf.Totals

set_option linter.unusedVariables false

namespace Sperf

open Libc Ranking

/-! ## `pick_top` -/

/-- The calls that may be picked. -/
def candidates (calls : List SyscallStat) : List Nat :=
  (List.range calls.length).filter fun i => 0 < (call calls i).seconds

section Pick

variable {calls : List SyscallStat} {indices : List Nat}

/-- The candidates are the calls with a positive time. -/
theorem mem_candidates {i : Nat} :
    i ∈ candidates calls ↔ i < calls.length ∧ 0 < (call calls i).seconds := by
  rw [candidates, List.mem_filter, List.mem_range, decide_eq_true_iff]

/-- The best of those that are not used. -/
theorem pickBest_eq (calls : List SyscallStat) (indices : List Nat) :
    pickBest calls indices
      = best (Ahead calls) ((candidates calls).filter fun i => i ∉ indices) := by
  rw [best, candidates, List.filter_filter, List.foldl_filter, pickBest]
  congr 1
  funext b i
  by_cases hskip : i ∈ indices ∨ (call calls i).seconds ≤ 0
  · rw [if_pos hskip, if_neg]
    rcases hskip with hused | hzero
    · simp [hused]
    · simp [not_lt.mpr hzero]
  · obtain ⟨hfresh, hpos⟩ := not_or.mp hskip
    rw [if_neg hskip, if_pos]
    simp [hfresh, not_le.mp hpos]

/-- When as many are used as there are, nothing is left. -/
theorem all_used (hnd : indices.Nodup) (hsub : ∀ i ∈ indices, i < calls.length)
    (hfull : ¬ indices.length < calls.length) :
    ((candidates calls).filter fun i => i ∉ indices) = [] := by
  apply List.filter_eq_nil_iff.mpr
  intro i hi
  have hi := (mem_candidates.mp hi).1
  have hsub' : indices ⊆ List.range calls.length := fun j hj => List.mem_range.mpr (hsub j hj)
  have hperm := (List.subperm_of_subset hnd hsub').perm_of_length_le
    (by rw [List.length_range]; exact not_lt.mp hfull)
  simpa using hperm.mem_iff.mpr (List.mem_range.mpr hi)

/-- **`pick_top`** is repeated selection. -/
theorem pickTop_eq (hr : Ranks (Ahead calls) (candidates calls)) (room : Nat)
    (hnd : indices.Nodup) (hsub : ∀ i ∈ indices, i < calls.length) :
    pickTop calls room indices
      = indices ++ top (Ahead calls) room ((candidates calls).filter fun i => i ∉ indices) := by
  induction room generalizing indices with
  | zero => exact (List.append_nil _).symm
  | succ room ih =>
    rw [pickTop, top, pickBest_eq]
    by_cases hfull : indices.length < calls.length
    · rw [if_pos hfull]
      cases hb : best (Ahead calls) ((candidates calls).filter fun i => i ∉ indices) with
      | none => exact (List.append_nil _).symm
      | some b =>
        have hmem := (best_some hr.trans hr.irrefl hb).1
        have hfresh : b ∉ indices := by simpa using List.of_mem_filter hmem
        have hb := (mem_candidates.mp (List.mem_of_mem_filter hmem)).1
        have hrest : ((candidates calls).filter fun i => i ∉ indices).filter (fun i => i ≠ b)
            = (candidates calls).filter fun i => i ∉ indices ++ [b] := by
          rw [List.filter_filter]
          apply List.filter_congr
          intro i _
          simp [and_comm]
        show pickTop calls room (indices ++ [b])
          = indices ++ b :: top (Ahead calls) room
              (((candidates calls).filter fun i => i ∉ indices).filter fun i => i ≠ b)
        rw [ih (hnd.append (List.nodup_singleton b) (List.disjoint_singleton.mpr hfresh)), hrest,
          List.append_assoc]
        · rfl
        · intro i hi
          rcases List.mem_append.mp hi with hi | hi
          · exact hsub i hi
          · exact List.mem_singleton.mp hi ▸ hb
    · rw [if_neg hfull, all_used hnd hsub hfull]
      exact (List.append_nil _).symm

end Pick

/-! ## The specification -/

/-- `a` ranks above `b`: more time, or the same and first by name. -/
def Above (R : List Record) (a b : List UInt8) : Prop :=
  spent R b < spent R a ∨ spent R a = spent R b ∧ a < b

/-- **The top five** of the records. -/
structure TopFive (R : List Record) (lines : Report) : Prop where
  count : lines.length = min 5 ((R.map (·.name)).toFinset.filter fun n => 0 < spent R n).card
  nodup : (lines.map Prod.fst).Nodup
  order : (lines.map Prod.fst).Pairwise (Above R)
  above : ∀ n ∈ lines.map Prod.fst, ∀ m, m ∉ lines.map Prod.fst → ¬ Above R m n
  percent : ∀ l ∈ lines, l.2 = ⌊100 * spent R l.1 / total R + 1 / 10 ^ 9⌋
  hundred : (lines.map Prod.snd).sum ≤ 100

section Spec

variable {R R' : List Record} {lines lines' : Report} {a b c : List UInt8}

/-- No name is above itself. -/
theorem Above.irrefl (R : List Record) (a : List UInt8) : ¬ Above R a a := by
  rintro (hlt | ⟨-, hlt⟩)
  · exact lt_irrefl _ hlt
  · exact List.lt_irrefl _ hlt

/-- Being above is transitive. -/
theorem Above.trans (hab : Above R a b) (hbc : Above R b c) : Above R a c := by
  rcases hab with hab | ⟨hab, hnab⟩
  · rcases hbc with hbc | ⟨hbc, -⟩
    · exact Or.inl (lt_trans hbc hab)
    · exact Or.inl (hbc ▸ hab)
  · rcases hbc with hbc | ⟨hbc, hnbc⟩
    · exact Or.inl (hab ▸ hbc)
    · exact Or.inr ⟨hab.trans hbc, List.lt_trans hnab hnbc⟩

/-- Of two names one is above the other. -/
theorem Above.total (R : List Record) (hne : a ≠ b) : Above R a b ∨ Above R b a := by
  rcases lt_trichotomy (spent R a) (spent R b) with hlt | heq | hgt
  · exact Or.inr (Or.inl hlt)
  · by_cases hab : a < b
    · exact Or.inl (Or.inr ⟨heq, hab⟩)
    · by_cases hba : b < a
      · exact Or.inr (Or.inr ⟨heq.symm, hba⟩)
      · exact absurd (List.le_antisymm hba hab) hne
  · exact Or.inl (Or.inl hgt)

/-- The order of the records does not matter for the time of a name. -/
theorem spent_perm (hp : R'.Perm R) : spent R' = spent R := by
  funext name
  exact ((hp.filter _).map _).sum_eq

/-- Nor for the time of all. -/
theorem total_perm (hp : R'.Perm R) : total R' = total R := (hp.map _).sum_eq

/-- The specification does not see the order of the records. -/
theorem TopFive.perm (h : TopFive R' lines) (hp : R'.Perm R) : TopFive R lines := by
  have hnames : (R'.map (·.name)).toFinset = (R.map (·.name)).toFinset :=
    List.toFinset_eq_of_perm _ _ (hp.map _)
  have habove : Above R' = Above R := by
    funext a b
    rw [Above, Above, spent_perm hp]
  obtain ⟨hcount, hnodup, horder, hout, hpercent, hhundred⟩ := h
  rw [hnames, spent_perm hp] at hcount
  rw [habove] at horder hout
  rw [spent_perm hp, total_perm hp] at hpercent
  exact ⟨hcount, hnodup, horder, hout, hpercent, hhundred⟩

/-- **The specification leaves no choice.** -/
theorem TopFive.unique (h : TopFive R lines) (h' : TopFive R lines') : lines = lines' := by
  have hfst : lines.map Prod.fst = lines'.map Prod.fst := by
    refine selected_unique (Above.irrefl R) (fun _ _ _ => Above.trans)
      (fun _ _ => Above.total R) h.order h'.order ?_ h.above h'.above
    rw [List.length_map, List.length_map, h.count, h'.count]
  have hsnd : ∀ {ls : Report}, TopFive R ls →
      ls = (ls.map Prod.fst).map fun n => (n, ⌊100 * spent R n / total R + 1 / 10 ^ 9⌋) := by
    intro ls hls
    rw [List.map_map]
    refine (List.map_id ls).symm.trans (List.map_congr_left fun l hl => ?_)
    exact Prod.ext rfl (hls.percent l hl)
  rw [hsnd h, hsnd h', hfst]

/-- The shares of different names are a hundred at most, even when each is rounded up a bit. -/
theorem shares_le {ns : List (List UInt8)} (hpos : 0 < total R) (hnd : ns.Nodup)
    (hlen : ns.length ≤ 5) :
    (ns.map fun n => ⌊100 * spent R n / total R + 1 / 10 ^ 9⌋).sum ≤ 100 := by
  have hfloor : ∀ ms : List (List UInt8),
      (((ms.map fun n => ⌊100 * spent R n / total R + 1 / 10 ^ 9⌋).sum : Int) : Rat)
        ≤ 100 * (ms.map (spent R)).sum / total R + ms.length / 10 ^ 9 := by
    intro ms
    induction ms with
    | nil => simp
    | cons n ms ih =>
      have hn := Int.floor_le (100 * spent R n / total R + 1 / 10 ^ 9)
      rw [List.map_cons, List.sum_cons, List.map_cons, List.sum_cons, List.length_cons,
        Int.cast_add, Nat.cast_succ]
      have hsplit : 100 * (spent R n + (ms.map (spent R)).sum) / total R
          = 100 * spent R n / total R + 100 * (ms.map (spent R)).sum / total R := by
        rw [mul_add, add_div]
      rw [hsplit, add_div]
      linarith
  have hsum : 100 * (ns.map (spent R)).sum / total R ≤ 100 := by
    rw [div_le_iff₀ hpos]
    have := sum_spent_le R hnd
    linarith
  have hbound := hfloor ns
  have hfive : (ns.length : Rat) ≤ 5 := by exact_mod_cast hlen
  have hlt : (((ns.map fun n => ⌊100 * spent R n / total R + 1 / 10 ^ 9⌋).sum : Int) : Rat)
      < (101 : Int) := by
    apply lt_of_le_of_lt hbound
    push_cast
    linarith
  have := Int.cast_lt.mp hlt
  omega

end Spec

/-! ## `print_report` -/

/-- For what is not negative, the conversion rounds down. -/
theorem toInt_eq_floor {x : Rat} (hx : 0 ≤ x) : toInt x = ⌊x⌋ := by
  rw [toInt, Int.tdiv_eq_ediv_of_nonneg (Rat.num_nonneg.mpr hx), Rat.floor_def']

section Report

variable {stats : Stats} {R : List Record} {i j : Nat}

/-- A call of the table. -/
theorem call_mem {calls : List SyscallStat} (hi : i < calls.length) : call calls i ∈ calls := by
  rw [call, List.getD_eq_getElem?_getD, List.getElem?_eq_getElem hi]
  exact List.getElem_mem hi

/-- A call of the table has the time of its name. -/
theorem Holds.seconds (h : Holds stats R) (hi : i < stats.calls.length) :
    (call stats.calls i).seconds = spent R (call stats.calls i).name := h.sums _ (call_mem hi)

/-- A name is in the table once. -/
theorem Holds.name_inj (h : Holds stats R) (hi : i < stats.calls.length)
    (hj : j < stats.calls.length)
    (heq : (call stats.calls i).name = (call stats.calls j).name) : i = j := by
  have hget : ∀ {k : Nat}, k < stats.calls.length →
      (stats.calls.map (·.name))[k]? = some (call stats.calls k).name := by
    intro k hk
    rw [List.getElem?_map, call, List.getD_eq_getElem?_getD, List.getElem?_eq_getElem hk]
    rfl
  have hlt : i < (stats.calls.map (·.name)).length := by rwa [List.length_map]
  refine (List.getElem?_inj hlt h.nodup).mp ?_
  rw [hget hi, hget hj, heq]

/-- The test on calls is the order of their names. -/
theorem Holds.ahead_iff (h : Holds stats R) (hi : i < stats.calls.length)
    (hj : j < stats.calls.length) :
    Ahead stats.calls i j ↔ Above R (call stats.calls i).name (call stats.calls j).name := by
  rw [Ahead, Above, h.seconds hi, h.seconds hj, strcmp_lt_iff]

/-- No call is ahead of itself. -/
theorem ahead_irrefl (calls : List SyscallStat) (i : Nat) : ¬ Ahead calls i i := by
  rintro (hlt | ⟨-, hlt⟩)
  · exact lt_irrefl _ hlt
  · exact List.lt_irrefl _ ((strcmp_lt_iff _ _).mp hlt)

/-- Being ahead is transitive. -/
theorem ahead_trans {calls : List SyscallStat} {k : Nat} (hij : Ahead calls i j)
    (hjk : Ahead calls j k) : Ahead calls i k := by
  rcases hij with hij | ⟨hij, hnij⟩
  · rcases hjk with hjk | ⟨hjk, -⟩
    · exact Or.inl (lt_trans hjk hij)
    · exact Or.inl (hjk ▸ hij)
  · rcases hjk with hjk | ⟨hjk, hnjk⟩
    · exact Or.inl (hij ▸ hjk)
    · refine Or.inr ⟨hij.trans hjk, (strcmp_lt_iff _ _).mpr ?_⟩
      exact List.lt_trans ((strcmp_lt_iff _ _).mp hnij) ((strcmp_lt_iff _ _).mp hnjk)

/-- **The candidates are ranked**, as `Ranking` needs them. -/
theorem Holds.ranks (h : Holds stats R) : Ranks (Ahead stats.calls) (candidates stats.calls) where
  irrefl := ahead_irrefl stats.calls
  trans := fun _ _ _ => ahead_trans
  total := by
    intro i hi j hj hne
    have hi := (mem_candidates.mp hi).1
    have hj := (mem_candidates.mp hj).1
    rw [h.ahead_iff hi hj, h.ahead_iff hj hi]
    exact Above.total R fun heq => hne (h.name_inj hi hj heq)

/-- The candidates are the names with a positive time. -/
theorem Holds.candidates_card (h : Holds stats R) :
    (candidates stats.calls).length
      = ((R.map (·.name)).toFinset.filter fun n => 0 < spent R n).card := by
  have hnd : (candidates stats.calls).Nodup := List.nodup_range.filter _
  have hinj : ((candidates stats.calls).map fun i => (call stats.calls i).name).Nodup := by
    apply hnd.map_on
    intro i hi j hj heq
    exact h.name_inj (mem_candidates.mp hi).1 (mem_candidates.mp hj).1 heq
  have hset : ((candidates stats.calls).map fun i => (call stats.calls i).name).toFinset
      = (R.map (·.name)).toFinset.filter fun n => 0 < spent R n := by
    ext name
    rw [List.mem_toFinset, Finset.mem_filter, List.mem_toFinset]
    constructor
    · intro hname
      obtain ⟨i, hi, rfl⟩ := List.mem_map.mp hname
      obtain ⟨hi, hpos⟩ := mem_candidates.mp hi
      rw [h.seconds hi] at hpos
      exact ⟨mem_of_spent hpos, hpos⟩
    · rintro ⟨hname, hpos⟩
      obtain ⟨c, hc, rfl⟩ := List.mem_map.mp ((h.names name).mpr hname)
      obtain ⟨i, hi, hget⟩ := List.mem_iff_getElem.mp hc
      have hcall : call stats.calls i = c := by
        rw [call, List.getD_eq_getElem?_getD, List.getElem?_eq_getElem hi, hget]
        rfl
      refine List.mem_map.mpr ⟨i, mem_candidates.mpr ⟨hi, ?_⟩, by rw [hcall]⟩
      rw [hcall, h.sums c hc]
      exact hpos
  rw [← hset, List.toFinset_card_of_nodup hinj, List.length_map]

/-- **A report** of a table that stands for the records is their top five. -/
theorem Holds.topFive (h : Holds stats R) (hpos : 0 < Sperf.total R) :
    ∃ lines, printReport stats = some lines ∧ TopFive R lines := by
  have hr := h.ranks
  let picked := top (Ahead stats.calls) 5 (candidates stats.calls)
  have hpick : pickTop stats.calls 5 [] = picked := by
    rw [pickTop_eq hr 5 List.nodup_nil fun i hi => absurd hi List.not_mem_nil]
    simp [picked]
  have hcand : ∀ i ∈ picked, i ∈ candidates stats.calls := top_subset 5 _ hr
  have hlt : ∀ i ∈ picked, i < stats.calls.length := fun i hi => (mem_candidates.mp (hcand i hi)).1
  have hlen : picked.length = min 5 (candidates stats.calls).length :=
    length_top 5 _ hr (List.nodup_range.filter _)
  have hfst : (picked.map (reportLine stats)).map Prod.fst
      = picked.map fun i => (call stats.calls i).name := by
    rw [List.map_map]
    rfl
  have hnd : (picked.map fun i => (call stats.calls i).name).Nodup :=
    (top_nodup hr).map_on fun i hi j hj heq => h.name_inj (hlt i hi) (hlt j hj) heq
  have hpercent : ∀ i ∈ picked, (reportLine stats i).2
      = ⌊100 * spent R (call stats.calls i).name / Sperf.total R + 1 / 10 ^ 9⌋ := by
    intro i hi
    have hshare : 0 ≤ 100 * spent R (call stats.calls i).name / Sperf.total R :=
      div_nonneg (mul_nonneg (by norm_num) (spent_nonneg _ _)) hpos.le
    rw [reportLine, h.seconds (hlt i hi), h.total, mul_comm]
    exact toInt_eq_floor (by linarith)
  refine ⟨picked.map (reportLine stats), ?_, ?_⟩
  · rw [printReport, h.total, if_neg (not_le.mpr hpos), hpick]
  · refine ⟨?_, ?_, ?_, ?_, ?_, ?_⟩
    · rw [List.length_map, hlen, h.candidates_card]
    · rw [hfst]
      exact hnd
    · rw [hfst]
      refine List.pairwise_map.mpr ((top_pairwise 5 _ hr).imp_of_mem fun {i j} hi hj hij => ?_)
      exact (h.ahead_iff (hlt i hi) (hlt j hj)).mp hij
    · rw [hfst]
      intro n hn m hm habove
      obtain ⟨i, hi, rfl⟩ := List.mem_map.mp hn
      -- what ranks above has a positive time, so it is a candidate
      have hposi := (mem_candidates.mp (hcand i hi)).2
      rw [h.seconds (hlt i hi)] at hposi
      have hposm : 0 < spent R m := by
        rcases habove with hlt | ⟨heq, -⟩
        · exact lt_trans hposi hlt
        · rw [heq]
          exact hposi
      obtain ⟨c, hc, rfl⟩ := List.mem_map.mp ((h.names m).mpr (mem_of_spent hposm))
      obtain ⟨j, hj, hget⟩ := List.mem_iff_getElem.mp hc
      have hcall : call stats.calls j = c := by
        rw [call, List.getD_eq_getElem?_getD, List.getElem?_eq_getElem hj, hget]
        rfl
      rw [← hcall] at hposm habove hm
      have hout : j ∉ picked := fun hmem => hm (List.mem_map.mpr ⟨j, hmem, rfl⟩)
      have hjc : j ∈ candidates stats.calls :=
        mem_candidates.mpr ⟨hj, by rw [h.seconds hj]; exact hposm⟩
      exact top_above 5 _ hr hi hjc hout ((h.ahead_iff hj (hlt i hi)).mpr habove)
    · intro l hl
      obtain ⟨i, hi, rfl⟩ := List.mem_map.mp hl
      exact hpercent i hi
    · have hsnd : (picked.map (reportLine stats)).map Prod.snd
          = (picked.map fun i => (call stats.calls i).name).map fun n =>
              ⌊100 * spent R n / Sperf.total R + 1 / 10 ^ 9⌋ := by
        rw [List.map_map, List.map_map]
        exact List.map_congr_left fun i hi => hpercent i hi
      rw [hsnd]
      apply shares_le hpos hnd
      rw [List.length_map, hlen]
      exact Nat.min_le_left _ _

end Report

end Sperf
