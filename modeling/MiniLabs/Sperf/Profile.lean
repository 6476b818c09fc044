/-
  The last report of a run.

  1. **Specification** — `LastReport rounds waited lines`: these lines are the last report that is
     printed, and no record comes in behind it.

  2. **The crux (`Kept`)** — the invariant of the loop: the table stands for the records so far,
     and the last generation that was printed is that of some earlier round, whose report is the
     top five of the records up to there.  A last report is due unless the generation is the one
     that was printed.

  3. **When it holds** — the generation counts modulo 2 ^ 64.  `last_report_iff`: if `waitpid`
     answers, a trace of fewer records gets the top five of all records as its last report,
     whatever the clock says; a longer one need not, as the count can be back where it was when a
     report was printed (`late_rounds`).

  4. **When `waitpid` fails** — `run_profiler` returns before its last report: the records behind
     the last report of the loop are in none (`one_unreported`).
-/
import MiniLabs.Sperf.Report

set_option linter.unusedVariables false

namespace Sperf

/-- The records of the trace. -/
def recordsOf (rounds : List Round) : List Record := rounds.filterMap (·.record)

/-- The last report printed has these lines, and no record came in behind it. -/
def LastReport (rounds : List Round) (waited : Option Status) (lines : Report) : Prop :=
  ∃ before after, (runProfiler rounds waited).printed = before ++ some lines :: after ∧
    (∀ o ∈ after, o = none) ∧ recordsOf (rounds.drop (before.length + 1)) = []

/-- There is no more room than for so many names. -/
def Fits (R : List Record) : Prop := (R.map (·.name)).toFinset.card ≤ maxSyscalls

section Run

variable {rounds : List Round} {r : Round} {p : Profiler} {R : List Record} {n : Nat}

/-- Rounds behind one another. -/
theorem recordsOf_append (rounds later : List Round) :
    recordsOf (rounds ++ later) = recordsOf rounds ++ recordsOf later := List.filterMap_append

/-- A round has one record or none. -/
theorem recordsOf_single (r : Round) : recordsOf [r] = r.record.toList := by
  rw [recordsOf, List.filterMap_cons]
  cases r.record <;> rfl

/-- Fewer records fit as well. -/
theorem Fits.left {R R' : List Record} (h : Fits (R ++ R')) : Fits R := by
  refine Nat.le_trans (Finset.card_le_card ?_) h
  intro name hname
  rw [List.mem_toFinset] at hname ⊢
  rw [List.map_append]
  exact List.mem_append_left _ hname

/-- A report is among what was printed, the last one, behind the first `n` rounds. -/
def Printed (rounds : List Round) (printed : List (Option Report)) (n : Nat) : Prop :=
  ∃ before after lines, printed = before ++ some lines :: after ∧ before.length + 1 = n ∧
    (∀ o ∈ after, o = none) ∧ TopFive (recordsOf (rounds.take n)) lines

/-- The invariant of the loop. -/
structure Kept (rounds : List Round) (p : Profiler) : Prop where
  holds : Holds p.stats (recordsOf rounds)
  length : p.printed.length = rounds.length
  last : ∃ n ≤ rounds.length,
    p.printedGeneration = UInt64.ofNat (recordsOf (rounds.take n)).length ∧
      (0 < total (recordsOf (rounds.take n)) → Printed rounds p.printed n)

/-- The invariant holds at the start. -/
theorem kept_start : Kept [] Profiler.start := by
  refine ⟨holds_start, rfl, 0, Nat.le_refl _, rfl, fun hpos => ?_⟩
  exact absurd hpos (lt_irrefl _)

/-- A record that is added. -/
theorem Holds.add (h : Holds p.stats R) (hroom : Fits (R ++ recordsOf [r])) :
    Holds (p.add r).stats (R ++ recordsOf [r]) := by
  rw [recordsOf_single] at hroom ⊢
  rw [Profiler.add]
  cases hr : r.record with
  | none =>
    rw [Option.toList_none, List.append_nil]
    exact h
  | some record =>
    rw [hr] at hroom
    exact h.addStat record hroom

/-- Adding a record prints nothing. -/
theorem add_printed (p : Profiler) (r : Round) :
    (p.add r).printed = p.printed ∧ (p.add r).printedGeneration = p.printedGeneration := by
  rw [Profiler.add]
  cases r.record with
  | none => exact ⟨rfl, rfl⟩
  | some record => exact ⟨rfl, rfl⟩

/-- **One round** keeps the invariant. -/
theorem Kept.round (h : Kept rounds p) (hroom : Fits (recordsOf (rounds ++ [r]))) :
    Kept (rounds ++ [r]) (p.round r) := by
  rw [recordsOf_append] at hroom
  have hholds := h.holds.add hroom
  obtain ⟨hprinted, hgeneration⟩ := add_printed p r
  have hall : recordsOf (rounds ++ [r]) = recordsOf rounds ++ recordsOf [r] :=
    recordsOf_append rounds [r]
  rw [Profiler.round, Profiler.report]
  by_cases hdue : (p.add r).Due r.checked
  · rw [if_pos hdue]
    refine ⟨?_, ?_, (rounds ++ [r]).length, Nat.le_refl _, ?_, fun hpos => ?_⟩
    · rw [hall]
      exact hholds
    · show ((p.add r).printed ++ [_]).length = _
      rw [hprinted, List.length_append, List.length_append, h.length]
      rfl
    · rw [List.take_length, hall]
      exact hholds.generation
    · rw [List.take_length, hall] at hpos
      obtain ⟨lines, hlines, htop⟩ := hholds.topFive hpos
      refine ⟨p.printed, [], lines, ?_, ?_, fun o ho => absurd ho List.not_mem_nil, ?_⟩
      · show (p.add r).printed ++ [_] = _
        rw [hprinted, hlines]
      · rw [h.length, List.length_append]
        rfl
      · rw [List.take_length, hall]
        exact htop
  · rw [if_neg hdue]
    obtain ⟨n, hn, hgen, hlast⟩ := h.last
    have htake : (rounds ++ [r]).take n = rounds.take n := List.take_append_of_le_length hn
    refine ⟨?_, ?_, n, ?_, ?_, fun hpos => ?_⟩
    · rw [hall]
      exact hholds
    · show ((p.add r).printed ++ [none]).length = _
      rw [hprinted, List.length_append, List.length_append, h.length]
      rfl
    · rw [List.length_append]
      exact Nat.le_add_right_of_le hn
    · rw [htake]
      exact hgeneration.trans hgen
    · rw [htake] at hpos
      obtain ⟨before, after, lines, hout, hlen, hnone, htop⟩ := hlast hpos
      refine ⟨before, after ++ [none], lines, ?_, hlen, ?_, by rw [htake]; exact htop⟩
      · show (p.add r).printed ++ [none] = _
        rw [hprinted, hout, List.append_assoc]
        rfl
      · intro o ho
        rcases List.mem_append.mp ho with ho | ho
        · exact hnone o ho
        · exact List.mem_singleton.mp ho

/-- One more round. -/
theorem runRounds_concat (rounds : List Round) (r : Round) :
    runRounds (rounds ++ [r]) = (runRounds rounds).round r := List.foldl_concat _ _ _ _

/-- **Every run** keeps the invariant. -/
theorem kept (rounds : List Round) (hroom : Fits (recordsOf rounds)) :
    Kept rounds (runRounds rounds) := by
  induction rounds using List.reverseRecOn with
  | nil => exact kept_start
  | append_singleton rounds r ih =>
    rw [runRounds_concat]
    refine (ih ?_).round hroom
    rw [recordsOf_append] at hroom
    exact hroom.left

/-- **The last report** of a trace of fewer than 2 ^ 64 records. -/
theorem lastReport_topFive (rounds : List Round) (hroom : Fits (recordsOf rounds))
    (hpos : 0 < total (recordsOf rounds)) (hlen : (recordsOf rounds).length < 2 ^ 64)
    (status : Status) :
    ∃ lines, TopFive (recordsOf rounds) lines ∧ LastReport rounds (some status) lines := by
  have hk := kept rounds hroom
  obtain ⟨lines, hlines, htop⟩ := hk.holds.topFive hpos
  by_cases hdue : (runRounds rounds).stats.generation = (runRounds rounds).printedGeneration
  · obtain ⟨n, hn, hgen, hlast⟩ := hk.last
    -- no record came in behind the round that printed
    have hcut : recordsOf rounds = recordsOf (rounds.take n) ++ recordsOf (rounds.drop n) := by
      rw [← recordsOf_append, List.take_append_drop]
    have hsame := hk.holds.generation.symm.trans (hdue.trans hgen)
    have hcount : (recordsOf rounds).length
        = (recordsOf (rounds.take n)).length + (recordsOf (rounds.drop n)).length := by
      rw [← List.length_append, ← hcut]
    have hnat := congrArg UInt64.toNat hsame
    rw [UInt64.toNat_ofNat', UInt64.toNat_ofNat', Nat.mod_eq_of_lt hlen,
      Nat.mod_eq_of_lt (by omega)] at hnat
    have hlater : recordsOf (rounds.drop n) = [] := List.eq_nil_of_length_eq_zero (by omega)
    rw [hlater, List.append_nil] at hcut
    rw [hcut] at hpos
    obtain ⟨before, after, lines', hout, hbefore, hnone, htop'⟩ := hlast hpos
    refine ⟨lines', by rw [hcut]; exact htop', before, after ++ [none], ?_, ?_, ?_⟩
    · dsimp only [runProfiler]
      rw [if_neg (not_not.mpr hdue), hout, List.append_assoc]
      rfl
    · intro o ho
      rcases List.mem_append.mp ho with ho | ho
      · exact hnone o ho
      · exact List.mem_singleton.mp ho
    · rw [hbefore]
      exact hlater
  · refine ⟨lines, htop, (runRounds rounds).printed, [], ?_, ?_, ?_⟩
    · dsimp only [runProfiler]
      rw [if_pos hdue, hlines]
    · exact fun o ho => absurd ho List.not_mem_nil
    · rw [hk.length, List.drop_eq_nil_of_le (Nat.le_succ _)]
      rfl

end Run

/-! ## Longer traces -/

section Late

variable {R : List Record} {m : Nat} {p : Profiler}

/-- A clock that makes a report due behind record `m` alone. -/
def lateRound (m i : Nat) (record : Record) : Round :=
  ⟨some record, 1, if i + 1 = m then 101 else 1, 1⟩

/-- The rounds of a trace with that clock. -/
def lateRounds (m : Nat) (R : List Record) : List Round := R.mapIdx (lateRound m)

/-- One more late round. -/
theorem lateRounds_concat (m : Nat) (R : List Record) (record : Record) :
    lateRounds m (R ++ [record]) = lateRounds m R ++ [lateRound m R.length record] :=
  List.mapIdx_concat

/-- Every late round has its record. -/
theorem recordsOf_late (m : Nat) (R : List Record) : recordsOf (lateRounds m R) = R := by
  induction R using List.reverseRecOn with
  | nil => rfl
  | append_singleton R record ih =>
    rw [lateRounds_concat, recordsOf_append, ih]
    rfl

/-- What the loop does under that clock. -/
structure Late (m : Nat) (R : List Record) (p : Profiler) : Prop where
  generation : p.stats.generation = UInt64.ofNat R.length
  clock : p.lastReport = if R = [] then 0 else 1
  shown : p.printedGeneration = if R.length < m then 0 else UInt64.ofNat m
  length : p.printed.length = R.length
  quiet : ∀ i lines, p.printed[i]? = some (some lines) → i + 1 = m

/-- Every record is a new generation. -/
theorem addStat_generation (stats : Stats) (name : List UInt8) (seconds : Rat) :
    (addStat stats name seconds).generation = stats.generation + 1 := by
  rw [addStat]
  split <;> rfl

/-- A count below 2^64 is not 0. -/
theorem ofNat_ne_zero (hm : 0 < m) (hlt : m < 2 ^ 64) : UInt64.ofNat m ≠ 0 := by
  intro h
  have hnat := congrArg UInt64.toNat h
  rw [UInt64.toNat_ofNat', Nat.mod_eq_of_lt hlt] at hnat
  have hzero : m = 0 := hnat
  omega

/-- When a record comes in, the generation goes up and the clock runs. -/
theorem Late.add (h : Late m R p) (record : Record) :
    (p.add (lateRound m R.length record)).stats.generation = UInt64.ofNat (R.length + 1) ∧
      (p.add (lateRound m R.length record)).lastReport = 1 := by
  constructor
  · rw [← generation_succ, ← h.generation]
    exact addStat_generation _ _ _
  · show (if p.lastReport = 0 then 1 else p.lastReport) = 1
    rw [h.clock]
    split <;> rfl

/-- What stands there already is where it was. -/
theorem Late.printed (h : Late m R p) {o : Option Report} {i : Nat} {lines : Report}
    (hget : (p.printed ++ [o])[i]? = some (some lines)) :
    i + 1 = m ∨ i = R.length ∧ o = some lines := by
  rcases Nat.lt_or_ge i p.printed.length with hi | hi
  · rw [List.getElem?_append_left hi] at hget
    exact Or.inl (h.quiet i lines hget)
  · rw [List.getElem?_append_right hi] at hget
    obtain ⟨hlast, hget⟩ := List.getElem?_eq_some_iff.mp hget
    rw [List.length_singleton] at hlast
    rw [h.length] at hi hlast
    refine Or.inr ⟨by omega, ?_⟩
    rw [List.getElem_singleton] at hget
    exact hget

/-- Record `m` makes a report due. -/
theorem Late.due (h : Late m R p) (hm : m < 2 ^ 64) (hat : R.length + 1 = m) (record : Record) :
    (p.add (lateRound m R.length record)).Due (lateRound m R.length record).checked := by
  obtain ⟨hgen, hclock⟩ := h.add record
  refine ⟨by rw [hclock]; decide, ?_, ?_⟩
  · rw [hclock]
    show (if R.length + 1 = m then (101 : Int) else 1) - 1 ≥ refreshMs
    rw [if_pos hat]
    decide
  · rw [hgen, (add_printed p _).2, h.shown, if_pos (by omega), hat]
    exact ofNat_ne_zero (by omega) hm

/-- No other record does. -/
theorem Late.not_due (h : Late m R p) (hat : ¬ R.length + 1 = m) (record : Record) :
    ¬ (p.add (lateRound m R.length record)).Due (lateRound m R.length record).checked := by
  rintro ⟨-, hwait, -⟩
  rw [(h.add record).2] at hwait
  change (if R.length + 1 = m then (101 : Int) else 1) - 1 ≥ refreshMs at hwait
  rw [if_neg hat] at hwait
  exact absurd hwait (by decide)

/-- **One round under that clock.** -/
theorem Late.round (h : Late m R p) (hm : m < 2 ^ 64) (record : Record) :
    Late m (R ++ [record]) (p.round (lateRound m R.length record)) := by
  obtain ⟨hgen, hclock⟩ := h.add record
  obtain ⟨hprinted, hshown⟩ := add_printed p (lateRound m R.length record)
  have hlength : (R ++ [record]).length = R.length + 1 := List.length_append
  have hnil : ¬ R ++ [record] = [] := by simp
  have hcount : ∀ o : Option Report,
      ((p.add (lateRound m R.length record)).printed ++ [o]).length = (R ++ [record]).length := by
    intro o
    rw [hprinted, List.length_append, h.length, hlength]
    rfl
  rw [Profiler.round, Profiler.report]
  by_cases hat : R.length + 1 = m
  · rw [if_pos (h.due hm hat record)]
    refine ⟨?generation, ?clock, ?shown, hcount _, fun i lines hget => ?quiet⟩
    case generation =>
      rw [hlength]
      exact hgen
    case clock =>
      rw [if_neg hnil]
      rfl
    case shown =>
      rw [hlength, if_neg (by omega), ← hat]
      exact hgen
    case quiet =>
      change ((p.add _).printed ++ [_])[i]? = _ at hget
      rw [hprinted] at hget
      rcases h.printed hget with hi | ⟨hi, -⟩
      · exact hi
      · rw [hi]
        exact hat
  · rw [if_neg (h.not_due hat record)]
    refine ⟨?generation, ?clock, ?shown, hcount _, fun i lines hget => ?quiet⟩
    case generation =>
      rw [hlength]
      exact hgen
    case clock =>
      rw [if_neg hnil]
      exact hclock
    case shown =>
      show (p.add _).printedGeneration = _
      rw [hshown, h.shown, hlength]
      by_cases hlt : R.length < m
      · rw [if_pos hlt, if_pos (by omega)]
      · rw [if_neg hlt, if_neg (by omega)]
    case quiet =>
      change ((p.add _).printed ++ [_])[i]? = _ at hget
      rw [hprinted] at hget
      rcases h.printed hget with hi | ⟨-, ho⟩
      · exact hi
      · cases ho

/-- **What late rounds lead to.**. -/
theorem late (hm : m < 2 ^ 64) (R : List Record) : Late m R (runRounds (lateRounds m R)) := by
  induction R using List.reverseRecOn with
  | nil =>
    refine ⟨rfl, rfl, ?_, rfl, fun i lines h => ?_⟩
    · cases m with
      | zero => rfl
      | succ m => rfl
    · exact absurd h (by simp [lateRounds, runRounds, Profiler.start])
  | append_singleton R record ih =>
    rw [lateRounds_concat, runRounds_concat]
    exact ih.round hm record

/-- **A trace that is too long** has a clock under which records come in behind the last
    report. -/
theorem late_rounds (hlong : 2 ^ 64 ≤ R.length) (status : Status) :
    ∃ rounds, recordsOf rounds = R ∧ ∀ lines, ¬ LastReport rounds (some status) lines := by
  have hm : R.length % 2 ^ 64 < 2 ^ 64 := Nat.mod_lt _ (by decide)
  refine ⟨lateRounds (R.length % 2 ^ 64) R, recordsOf_late _ R, ?_⟩
  have hl := late hm R
  generalize hmm : R.length % 2 ^ 64 = m at hl hm ⊢
  rintro lines ⟨before, after, hout, -, hlater⟩
  have hsame : (runRounds (lateRounds m R)).stats.generation
      = (runRounds (lateRounds m R)).printedGeneration := by
    rw [hl.generation, hl.shown, if_neg (by omega)]
    apply UInt64.toNat_inj.mp
    rw [UInt64.toNat_ofNat', UInt64.toNat_ofNat', hmm, Nat.mod_eq_of_lt hm]
  dsimp only [runProfiler] at hout
  rw [if_neg (not_not.mpr hsame)] at hout
  -- the report can only be that behind record `m`
  have hget : ((runRounds (lateRounds m R)).printed ++ [none])[before.length]?
      = some (some lines) := by
    rw [hout, List.getElem?_append_right (Nat.le_refl _), Nat.sub_self]
    rfl
  have hat : before.length + 1 = m := by
    rcases Nat.lt_or_ge before.length (runRounds (lateRounds m R)).printed.length with hi | hi
    · rw [List.getElem?_append_left hi] at hget
      exact hl.quiet _ _ hget
    · rw [List.getElem?_append_right hi] at hget
      obtain ⟨hlast, hget⟩ := List.getElem?_eq_some_iff.mp hget
      rw [List.getElem_singleton] at hget
      cases hget
  rw [hat] at hlater
  have hlen : (recordsOf ((lateRounds m R).drop m)).length + m = R.length := by
    have hdrop : recordsOf ((lateRounds m R).drop m) = R.drop m := by
      have hmap : (lateRounds m R).drop m = (R.drop m).mapIdx fun i => lateRound m (m + i) := by
        refine List.ext_getElem? fun i => ?_
        rw [List.getElem?_drop, lateRounds, List.getElem?_mapIdx, List.getElem?_mapIdx,
          List.getElem?_drop]
      rw [hmap, recordsOf]
      generalize R.drop m = S
      induction S using List.reverseRecOn with
      | nil => rfl
      | append_singleton S record ih =>
        rw [List.mapIdx_concat, List.filterMap_append, ih]
        rfl
    rw [hdrop, List.length_drop]
    omega
  rw [hlater, List.length_nil] at hlen
  omega

end Late

/-- **The final profile.**  If `waitpid` answers, the last report is the top five of all records,
    whatever the order of the records and whatever the clock says, when there are fewer than
    2 ^ 64 records. -/
theorem last_report_iff (R : List Record) (hroom : Fits R) (hpos : 0 < total R) :
    (∃ lines, TopFive R lines ∧ ∀ rounds status, (recordsOf rounds).Perm R →
      LastReport rounds (some status) lines) ↔ R.length < 2 ^ 64 := by
  constructor
  · rintro ⟨lines, -, hlast⟩
    by_contra hlong
    obtain ⟨rounds, rfl, hno⟩ := late_rounds (Nat.le_of_not_lt hlong) .other
    exact hno lines (hlast rounds .other (List.Perm.refl _))
  · intro hlen
    obtain ⟨lines, htop, -⟩ := lastReport_topFive (lateRounds 0 R)
      (by rw [recordsOf_late]; exact hroom) (by rw [recordsOf_late]; exact hpos)
      (by rw [recordsOf_late]; exact hlen) .other
    rw [recordsOf_late] at htop
    refine ⟨lines, htop, fun rounds status hp => ?_⟩
    have hnames : ((recordsOf rounds).map (·.name)).toFinset = (R.map (·.name)).toFinset :=
      List.toFinset_eq_of_perm _ _ (hp.map _)
    have hroom' : Fits (recordsOf rounds) := by
      rw [Fits, hnames]
      exact hroom
    obtain ⟨lines', htop', hlast⟩ := lastReport_topFive rounds hroom'
      (by rw [total_perm hp]; exact hpos) (by rw [hp.length_eq]; exact hlen) status
    rw [htop.unique (htop'.perm hp)]
    exact hlast

/-- Half a second of reading and a quarter of writing. -/
def readWrite : List Record :=
  [⟨ascii "read", 1 / 2, by decide, by norm_num⟩, ⟨ascii "write", 1 / 4, by decide, by norm_num⟩]

theorem last_report_iff_read_write :
    ∃ lines, TopFive readWrite lines ∧ ∀ rounds status, (recordsOf rounds).Perm readWrite →
      LastReport rounds (some status) lines := by
  refine (last_report_iff readWrite (by unfold Fits; decide) ?_).mpr (by decide)
  norm_num [total, readWrite]

/-- A second of reading. -/
def secondRead : Record := ⟨ascii "read", 1, by decide, by norm_num⟩

/-- A trace of one record is over before a report is due, and `waitpid` fails: nothing is
    printed. -/
theorem one_unreported :
    Fits [secondRead] ∧ 0 < total [secondRead] ∧
      ∃ rounds, recordsOf rounds = [secondRead] ∧ ∀ lines, ¬ LastReport rounds none lines := by
  refine ⟨by unfold Fits; decide, by norm_num [total, secondRead], [⟨some secondRead, 1, 1, 1⟩],
    rfl, ?_⟩
  rintro lines ⟨before, after, hout, -⟩
  have hnothing : (runProfiler [⟨some secondRead, 1, 1, 1⟩] none).printed = [none] := rfl
  rw [hnothing] at hout
  cases before with
  | nil => cases hout
  | cons o before => exact absurd (List.cons.inj hout).2 (by simp)

end Sperf
