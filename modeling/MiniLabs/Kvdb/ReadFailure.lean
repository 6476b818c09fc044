/-
  kvdb — what the callers of `read_all_or_eof` make of a failed read.

  1. **Program** — `read_all_or_eof` returns -1 both for a tail that is too short and for a read
     that failed, and both scanners take either for the end of the records.
  2. **Specification** — a call that meets a failed read returns -1, and leaves the file alone.
  3. **The crux (`failedRecord`)** — the schedule of reads is followed through a file of valid
     records to the record in which the first read fails.
       * `validPrefixLoop_failed` — `valid_prefix_end` returns the offset of that record;
       * `getLoop_failed`         — `kvdb_get` has the last value it had found before it;
       * `put_after_failed_read`  — so `kvdb_put` returns 0 and cuts off the records from there on;
       * `refused_iff`            — and only a `kvdb_get` whose key had not been met yet returns -1.
  4. **What is idealised** — only reads fail here; every other call succeeds, perhaps after
     interruptions (`QuietBut`).
-/
import MiniLabs.Kvdb.Scanners

set_option linter.unusedVariables false

namespace Kvdb

open RecordLog World

/-! ## Where a scan fails -/

/-- The index of the record in which the first read fails, the end of the file counting as the
    index behind the last record; `none` if the scan gets to the end without failure.  The read
    at the end of the file moves nothing, so the first call that is not interrupted ends it. -/
def failedRecord : List Rec → List Outcome → Option Nat
  | [], s => if transfer 1 s = none then some 0 else none
  | r :: rs, s =>
    match transferRec r s with
    | none => some 0
    | some s => (failedRecord rs s).map (· + 1)

/-- A failure is in the first record or in one of the others. -/
theorem failedRecord_cons {r : Rec} {rs : List Rec} {s : List Outcome} {j : Nat}
    (h : failedRecord (r :: rs) s = some j) :
    (transferRec r s = none ∧ j = 0) ∨
      ∃ s' i, transferRec r s = some s' ∧ failedRecord rs s' = some i ∧ j = i + 1 := by
  rw [failedRecord] at h
  cases ht : transferRec r s with
  | none =>
    rw [ht] at h
    exact Or.inl ⟨rfl, (Option.some.inj h).symm⟩
  | some s' =>
    rw [ht] at h
    obtain ⟨i, hi, hj⟩ := Option.map_eq_some_iff.mp h
    exact Or.inr ⟨s', i, rfl, hi, hj.symm⟩

/-- The first of some records is the next one. -/
theorem nextRec_encAll_cons (r : Rec) (rs : List Rec) :
    nextRec (framing.encAll (r :: rs)) = some (r, framing.encAll rs) := nextRec_bytes r _

/-- The scan of `valid_prefix_end` ends where the failed record begins. -/
theorem validPrefixLoop_failed {rs : List Rec} (hrs : ∀ r ∈ rs, r.valid = true) {w : World}
    (hq : w.QuietBut) (hrem : w.rem = framing.encAll rs) {j : Nat}
    (hfail : failedRecord rs (w.env .read) = some j) :
    (validPrefixLoop w.pos w).1 = ((w.pos + (framing.encAll (rs.take j)).length : Nat) : Int) := by
  induction rs generalizing w j with
  | nil =>
    have hnone : nextRec w.rem = none := by
      rw [hrem]
      exact nextRec_short (show [].length < sizeofRecord by decide)
    rcases validPrefixLoop_round hq w.pos with ⟨w', heq, -⟩ | ⟨r, t, w', hrec, -⟩
    · rw [heq, List.take_nil]
      rfl
    · rw [hnone] at hrec
      nomatch hrec
  | cons r rs ih =>
    have hsome : nextRec w.rem = some (r, framing.encAll rs) := by
      rw [hrem, nextRec_encAll_cons]
    rcases failedRecord_cons hfail with ⟨hnone, rfl⟩ | ⟨s', i, hs', hi, rfl⟩
    · -- the first record cannot be read
      rcases validPrefixLoop_round hq w.pos with ⟨w', heq, -⟩ | ⟨r', t, w', hrec, -, hread, -⟩
      · rw [heq, List.take_zero]
        rfl
      · rw [hsome] at hrec
        obtain ⟨rfl, -⟩ := Prod.mk.inj (Option.some.inj hrec)
        rw [hnone] at hread
        nomatch hread
    · -- the first record is read and counts, so the scan goes on behind it
      rcases validPrefixLoop_round hq w.pos with
        ⟨w', -, -, hstop⟩ | ⟨r', t, w', hrec, -, hread, hR, hp, heq⟩
      · exact absurd hstop (not_prefixStop hsome (hrs r List.mem_cons_self)
          (by rw [hs']; exact Option.some_ne_none s'))
      · rw [hsome] at hrec
        obtain ⟨rfl, rfl⟩ := Prod.mk.inj (Option.some.inj hrec)
        rw [hs'] at hread
        rw [Option.some.inj hread] at hi
        rw [heq, ih (fun q hq => hrs q (List.mem_cons_of_mem _ hq)) (hR.quietBut hq)
          (rem_behind hsome hR.file hp) hi, hp, List.take_succ_cons, framing.encAll_cons,
          List.length_append, framing_enc, Nat.add_assoc]

/-- The loop of `kvdb_get` ends with what the records before the failed one hold. -/
theorem getLoop_failed {rs : List Rec} (hrs : ∀ r ∈ rs, r.valid = true) (key : List UInt8)
    (best : Option (List UInt8)) {w : World} (hq : w.QuietBut)
    (hrem : w.rem = framing.encAll rs) {j : Nat} (hfail : failedRecord rs (w.env .read) = some j) :
    (getLoop key best w).1 = .break ((lookup key (framing.encAll (rs.take j))).or best) := by
  have hnil : lookup key (framing.encAll []) = none :=
    lookup_of_none (nextRec_short (show [].length < sizeofRecord by decide))
  induction rs generalizing w best j with
  | nil =>
    have hnone : nextRec w.rem = none := by
      rw [hrem]
      exact nextRec_short (show [].length < sizeofRecord by decide)
    rcases getLoop_round hq key best with ⟨w', heq, -⟩ | ⟨r, t, w', hrec, -⟩
    · rw [heq, List.take_nil, hnil, Option.none_or]
    · rw [hnone] at hrec
      nomatch hrec
  | cons r rs ih =>
    have hsome : nextRec w.rem = some (r, framing.encAll rs) := by
      rw [hrem, nextRec_encAll_cons]
    rcases failedRecord_cons hfail with ⟨hnone, rfl⟩ | ⟨s', i, hs', hi, rfl⟩
    · rcases getLoop_round hq key best with ⟨w', heq, -⟩ | ⟨r', t, w', hrec, hread, -⟩
      · rw [heq, List.take_zero, hnil, Option.none_or]
      · rw [hsome] at hrec
        obtain ⟨rfl, -⟩ := Prod.mk.inj (Option.some.inj hrec)
        rw [hnone] at hread
        nomatch hread
    · rcases getLoop_round hq key best with
        ⟨w', -, -, hstop⟩ | ⟨r', t, w', hrec, hread, hR, hp, heq⟩
      · exact absurd hstop (not_getStop hsome (by rw [hs']; exact Option.some_ne_none s'))
      · rw [hsome] at hrec
        obtain ⟨rfl, rfl⟩ := Prod.mk.inj (Option.some.inj hrec)
        rw [hs'] at hread
        rw [Option.some.inj hread] at hi
        rw [heq, ih (fun q hq => hrs q (List.mem_cons_of_mem _ hq)) _ (hR.quietBut hq)
          (rem_behind hsome hR.file hp) hi, List.take_succ_cons,
          lookup_cons (nextRec_encAll_cons r (rs.take i)), Option.or_assoc]
        split <;> rfl

/-! ## The calls -/

/-- **The scan of a put takes a failed `read` for the end**: it stops in front of the record. -/
theorem validPrefixEnd_failed {rs : List Rec} (hrs : ∀ r ∈ rs, r.valid = true) {w : World}
    (hq : w.QuietBut) (hfile : w.file = framing.encAll rs) {j : Nat}
    (hfail : failedRecord rs (w.env .read) = some j) :
    (validPrefixEnd w).1 = ((framing.encAll (rs.take j)).length : Nat) := by
  obtain ⟨h1, hp, hR, hread⟩ := lseekSet_quiet hq 0
  have hrem : (w.lseekSet 0).2.rem = framing.encAll rs := by
    rw [rem, hp, hR.file, List.drop_zero, hfile]
  have hspec := validPrefixLoop_failed hrs (hR.quietBut hq) hrem (hread ▸ hfail)
  rw [hp, Nat.zero_add] at hspec
  rw [validPrefixEnd, if_neg (by rw [h1]; omega)]
  exact hspec

/-- **A put whose scan fails** returns 0 all the same, and the records from the failed one on
    are gone. -/
theorem put_after_failed_read {rs : List Rec} (hrs : ∀ r ∈ rs, r.valid = true) {w : World}
    (hq : w.QuietBut) (hfile : w.file = framing.encAll rs) {j : Nat}
    (hfail : failedRecord rs (w.env .read) = some j) {db : KvdbT} (hdb : 0 ≤ db.fd)
    {key value : CString} (h : Accepts key.bytes value.bytes) :
    (kvdbPut (some db) (some key) (some value) w).1 = 0 ∧
      (kvdbPut (some db) (some key) (some value) w).2.file =
        framing.encAll (rs.take j ++ [Rec.new kvdbCommitted h]) := by
  obtain ⟨-, ha⟩ := lockDb_quiet hq
  have hoff := validPrefixEnd_failed hrs (ha.toReads.quietBut hq) (ha.file.trans hfile)
    (ha.read ▸ hfail)
  obtain ⟨h0, hW⟩ := kvdbPut_effects hq hdb h hoff
  have hsplit : framing.encAll rs = framing.encAll (rs.take j) ++ framing.encAll (rs.drop j) := by
    rw [← framing.encAll_append, List.take_append_drop]
  refine ⟨h0, ?_⟩
  rw [hW.file, hfile, applyAll_putEffects h (by rw [hsplit, List.length_append]; omega), hsplit,
    List.take_left, framing.encAll_append]
  simp

/-- **A get whose scan fails** answers from the records before the failed one. -/
theorem get_after_failed_read {rs : List Rec} (hrs : ∀ r ∈ rs, r.valid = true) {w : World}
    (hq : w.QuietBut) (hfile : w.file = framing.encAll rs) {j : Nat}
    (hfail : failedRecord rs (w.env .read) = some j) {db : KvdbT} (hdb : 0 ≤ db.fd)
    {key : CString} (hkey : key.IsKey) {buf : Bool} {length : Nat}
    (hbuf : buf = false → length = 0) :
    (kvdbGet (some db) (some key) buf length w).1 =
      answer (lookup key.bytes (framing.encAll (rs.take j))) buf length := by
  obtain ⟨hl, ha⟩ := lockDb_quiet hq
  have hql := ha.toReads.quietBut hq
  obtain ⟨h1, hp, hR, hread⟩ := lseekSet_quiet hql 0
  have hrem : ((lockDb w).2.lseekSet 0).2.rem = framing.encAll rs := by
    rw [rem, hp, hR.file, ha.file, List.drop_zero, hfile]
  have hspec := getLoop_failed hrs key.bytes none (hR.quietBut hql) hrem
    (hread ▸ ha.read ▸ hfail)
  rw [Option.or_none] at hspec
  obtain ⟨hk0, hk1⟩ := hkey
  have hargs : ¬ (db.fd < 0 ∨ (buf = false ∧ length ≠ 0)) := by
    intro hbad
    rcases hbad with hfd | ⟨hb, hne⟩
    · omega
    · exact hne (hbuf hb)
  rw [kvdbGet]
  dsimp only
  rw [if_neg hargs, if_neg (by omega), if_neg (by rw [hl]; simp), if_neg (by rw [h1]; omega),
    hspec]

/-! ## Refusing -/

/-- The two calls that scan the file. -/
inductive Op
  | put (key value : CString)
  | get (key : CString) (buf : Bool) (length : Nat)

/-- The arguments pass the checks in front of the scan. -/
def Op.Scans : Op → Prop
  | .put key value => Accepts key.bytes value.bytes
  | .get key buf length => key.IsKey ∧ (buf = false → length = 0)

/-- The call returns -1; a put leaves the bytes of the file as they were. -/
def Op.Refused (db : KvdbT) (w : World) : Op → Prop
  | .put key value =>
    (kvdbPut (some db) (some key) (some value) w).1 = -1 ∧
      (kvdbPut (some db) (some key) (some value) w).2.file = w.file
  | .get key buf length => (kvdbGet (some db) (some key) buf length w).1.rc = -1

/-- A get whose key stands in none of the records `rs`. -/
def Op.Misses (rs : List Rec) : Op → Prop
  | .put _ _ => False
  | .get key _ _ => ∀ r ∈ rs, r.key ≠ key.bytes

/-- Among valid records a key has no value exactly when no record has that key. -/
theorem lookup_encAll_eq_none {rs : List Rec} (hrs : ∀ r ∈ rs, r.valid = true)
    (key : List UInt8) :
    lookup key (framing.encAll rs) = none ↔ ∀ r ∈ rs, r.key ≠ key := by
  rw [lookup_encAll, lastValue, Option.map_eq_none_iff, List.getLast?_eq_none_iff,
    List.filter_eq_nil_iff]
  apply forall₂_congr
  intro r hr
  simp [Rec.counts, hrs r hr]

/-- A get answers `-1` exactly where it has found nothing. -/
theorem answer_refused_iff (best : Option (List UInt8)) (buf : Bool) (length : Nat) :
    (answer best buf length).rc = -1 ↔ best = none := by
  cases best with
  | none => simp [answer]
  | some v =>
    rw [answer]
    dsimp only
    split
    · constructor
      · intro h
        dsimp only at h
        omega
      · intro h
        exact absurd h (Option.some_ne_none v)
    · simp

/-- **Who notices a failed read.**  On every file of valid records and every schedule in which
    some read of the scan fails, the call returns -1 (and a put leaves the file alone) exactly
    when it is a get whose key stands in none of the records before the failed one. -/
theorem refused_iff {rs : List Rec} (hrs : ∀ r ∈ rs, r.valid = true) {w : World}
    (hq : w.QuietBut) (hfile : w.file = framing.encAll rs) {j : Nat}
    (hfail : failedRecord rs (w.env .read) = some j) {db : KvdbT} (hdb : 0 ≤ db.fd)
    {op : Op} (hop : op.Scans) : op.Refused db w ↔ op.Misses (rs.take j) := by
  cases op with
  | put key value =>
    obtain ⟨h0, -⟩ := put_after_failed_read hrs hq hfile hfail hdb hop
    constructor
    · intro h
      have := h.1
      omega
    · exact False.elim
  | get key buf length =>
    show (kvdbGet (some db) (some key) buf length w).1.rc = -1 ↔ _
    rw [get_after_failed_read hrs hq hfile hfail hdb hop.1 hop.2, answer_refused_iff]
    exact lookup_encAll_eq_none (fun r hr => hrs r (List.mem_of_mem_take hr)) key.bytes

/-- The file holds one record and the reads go as `reads` says. -/
def oneRecord (reads : List Outcome) : World :=
  ⟨framing.encAll [smallRec kvdbCommitted 97 49], 0,
    fun c => if c = .read then reads else [], []⟩

/-- Nothing but `read` fails in this world. -/
theorem oneRecord_quietBut (reads : List Outcome) : (oneRecord reads).QuietBut := by
  constructor
  · intro c hc
    rw [oneRecord]
    dsimp only
    rw [if_neg hc]
    exact List.not_mem_nil
  · intro o ho
    exact absurd ho List.not_mem_nil

/-- The value of the only record cannot be read; a get of another key returns -1. -/
theorem refused_iff_other_key :
    Op.Refused ⟨0⟩ (oneRecord [.ok, .ok, .fail]) (.get (oneByte 98 (by decide)) true 8) := by
  have hvalid : ∀ r ∈ [smallRec kvdbCommitted 97 49], r.valid = true := by decide +kernel
  have hfail : failedRecord [smallRec kvdbCommitted 97 49]
      ((oneRecord [.ok, .ok, .fail]).env .read) = some 0 := by decide +kernel
  have hop : Op.Scans (.get (oneByte 98 (by decide)) true 8) :=
    ⟨⟨by decide, by decide⟩, fun h => (nomatch h)⟩
  apply (refused_iff hvalid (oneRecord_quietBut _) rfl hfail (Int.le_refl 0) hop).mpr
  intro r hr
  exact absurd hr List.not_mem_nil

/-- The first read of all fails: the put returns 0 and the record is gone. -/
theorem put_mistakes_failure_for_end :
    ¬ ∀ (rs : List Rec) (w : World) (j : Nat) (op : Op), (∀ r ∈ rs, r.valid = true) →
      w.QuietBut → w.file = framing.encAll rs → failedRecord rs (w.env .read) = some j →
      op.Scans → op.Refused ⟨0⟩ w := by
  intro h
  have hput := h [smallRec kvdbCommitted 97 49] (oneRecord [.fail]) 0
    (.put (oneByte 98 (by decide)) (oneByte 50 (by decide))) (by decide +kernel)
    (oneRecord_quietBut _) rfl (by decide +kernel) ⟨by decide, by decide, by decide⟩
  have hrc := hput.1
  revert hrc
  decide +kernel

end Kvdb
