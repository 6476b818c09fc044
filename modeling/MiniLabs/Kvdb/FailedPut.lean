/-
  kvdb — a put whose system calls fail.

  1. **Program** — `kvdb_put` along any schedule of `lseek`, `ftruncate`, `write`, `pwrite` and
     `fsync`, each of which may fail, and with transfers that may be cut short anywhere before that.
  2. **Specification** — a put that returns -1 has changed nothing that a get can see.
  3. **The crux (`kvdbPut_outcome`)** — the scan returns the end of the file or, if an `lseek`
     fails, -1 (`validPrefixEnd_seeks`); with what `appendRecord` and `commitRecord` do, a put does
     a beginning of `putEffects`, and one that returns -1 has done all of them exactly when
     `LastFsyncFails`.  With the images of the crash proof this gives `failed_put_unseen_iff`: the
     one failure that is seen is that of the `fsync` behind the commit word.
  4. **What is idealised** — reads, allocations and locks succeed here (`Sure`); a read that fails
     is the subject of `Kvdb.ReadFailure`.
-/
import MiniLabs.Kvdb.Crash
import MiniLabs.Kvdb.Scanners

set_option linter.unusedVariables false

namespace Kvdb

open RecordLog World

namespace World

/-- Reads, allocations and locks do not fail. -/
structure Sure (w : World) : Prop where
  reads : Outcome.fail ∉ w.env .read
  allocs : Outcome.fail ∉ w.env .malloc
  locks : Outcome.fail ∉ w.env .flock

/-- A world that only reads stays sure. -/
theorem Reads.sure {w w' : World} (h : w.Reads w') (hs : w.Sure) : w'.Sure where
  reads := fun hm => hs.reads ((h.later .read).subset hm)
  allocs := fun hm => hs.allocs ((h.later .malloc).subset hm)
  locks := fun hm => hs.locks ((h.later .flock).subset hm)

end World

/-! ## The scan -/

/-- An `lseek` that fails ends the scan. -/
theorem validPrefixLoop_no_seek {w : World} (hl : (w.next .lseek).1 = .fail) (ve : Int) :
    validPrefixLoop ve w = (-1, (w.next .lseek).2) := by
  rw [validPrefixLoop_eq]
  dsimp only
  rw [lseekCur_fail hl, if_pos (by decide), lseekCur_world]

/-- The loop of `valid_prefix_end` over valid records: it makes one `lseek` for each record and
    one at the end of the file. -/
theorem validPrefixLoop_seeks {rs : List Rec} (hrs : ∀ r ∈ rs, r.valid = true) {w : World}
    (hs : w.Sure) (hrem : w.rem = framing.encAll rs) :
    w.Reads (validPrefixLoop w.pos w).2 ∧
    (∀ c, c ≠ .read → c ≠ .malloc → c ≠ .lseek →
      (validPrefixLoop w.pos w).2.env c = w.env c) ∧
    (Outcome.fail ∉ (w.env .lseek).take (rs.length + 1) →
      (validPrefixLoop w.pos w).1 = ((w.pos + (framing.encAll rs).length : Nat) : Int) ∧
      (validPrefixLoop w.pos w).2.env .lseek = (w.env .lseek).drop (rs.length + 1)) ∧
    (Outcome.fail ∈ (w.env .lseek).take (rs.length + 1) → (validPrefixLoop w.pos w).1 = -1) := by
  induction rs generalizing w with
  | nil =>
    have hnone : nextRec w.rem = none := by
      rw [hrem]
      exact nextRec_short (show [].length < sizeofRecord by decide)
    have htake := next_take_one .lseek w
    by_cases hl : (w.next .lseek).1 = .fail
    · rw [validPrefixLoop_no_seek hl]
      exact ⟨next_reads _ w, fun c _ _ hc => next_env_ne hc w, fun h => absurd hl (htake.mp h),
        fun _ => rfl⟩
    · rcases validPrefixLoop_scanned hs.allocs hl w.pos with
        ⟨w', heq, hS, -⟩ | ⟨r, t, w', hrec, -⟩
      · rw [heq]
        refine ⟨hS.toReads, hS.others, fun _ => ⟨rfl, ?_⟩, fun h => absurd h (htake.mpr hl)⟩
        rw [hS.seeks, List.length_nil, List.drop_one]
      · rw [hnone] at hrec
        exact absurd hrec (Option.some_ne_none _).symm
  | cons r rs ih =>
    have hsome : nextRec w.rem = some (r, framing.encAll rs) := by
      rw [hrem]
      exact nextRec_bytes r _
    have htake := next_take_succ .lseek (rs.length + 1) w
    by_cases hl : (w.next .lseek).1 = .fail
    · rw [validPrefixLoop_no_seek hl]
      exact ⟨next_reads _ w, fun c _ _ hc => next_env_ne hc w,
        fun h => absurd hl (htake.mp h).1, fun _ => rfl⟩
    · rcases validPrefixLoop_scanned hs.allocs hl w.pos with
        ⟨w', -, -, hstop⟩ | ⟨r', t, w', hrec, -, -, hS, hp, heq⟩
      · exact absurd hstop (not_prefixStop hsome (hrs r List.mem_cons_self)
          (transferRec_quiet r hs.reads))
      · rw [hsome] at hrec
        obtain ⟨rfl, rfl⟩ := Prod.mk.inj (Option.some.inj hrec)
        obtain ⟨hR, henv, hall, hfail⟩ := ih (fun q hq => hrs q (List.mem_cons_of_mem _ hq))
          (hS.toReads.sure hs) (rem_behind hsome hS.file hp)
        rw [next_env_self, ← hS.seeks] at htake
        rw [heq]
        refine ⟨hS.toReads.trans hR, fun c h1 h2 h3 => (henv c h1 h2 h3).trans (hS.others c h1 h2 h3),
          fun h => ?_, fun h => ?_⟩
        · obtain ⟨hend, hdrop⟩ := hall (htake.mp h).2
          constructor
          · rw [hend, hp, framing.encAll_cons, List.length_append, framing_enc, Nat.add_assoc]
          · rw [hdrop, hS.seeks, ← List.drop_one, List.drop_drop, Nat.add_comm]
            rfl
        · refine hfail (Classical.byContradiction fun hno => ?_)
          exact htake.mpr ⟨hl, hno⟩ h

/-- **The scan of a put** over a file of valid records, with one more `lseek` in front. -/
theorem validPrefixEnd_seeks {rs : List Rec} (hrs : ∀ r ∈ rs, r.valid = true) {w : World}
    (hs : w.Sure) (hfile : w.file = framing.encAll rs) :
    w.Reads (validPrefixEnd w).2 ∧
    (∀ c, c ≠ .read → c ≠ .malloc → c ≠ .lseek → (validPrefixEnd w).2.env c = w.env c) ∧
    (Outcome.fail ∉ (w.env .lseek).take (rs.length + 2) →
      (validPrefixEnd w).1 = ((framing.encAll rs).length : Int) ∧
      (validPrefixEnd w).2.env .lseek = (w.env .lseek).drop (rs.length + 2)) ∧
    (Outcome.fail ∈ (w.env .lseek).take (rs.length + 2) → (validPrefixEnd w).1 = -1) := by
  have htake := next_take_succ .lseek (rs.length + 1) w
  have hR := next_reads .lseek w
  rw [validPrefixEnd, lseekSet_eq]
  by_cases hl : (w.next .lseek).1 = .fail
  · rw [if_pos hl, if_pos (show (-1 : Int) < 0 by decide)]
    exact ⟨hR, fun c _ _ hc => next_env_ne hc w, fun h => absurd hl (htake.mp h).1, fun _ => rfl⟩
  · rw [if_neg hl, if_neg (show ¬ ((0 : Nat) : Int) < 0 by decide)]
    have hseek : w.Reads ((w.next .lseek).2.seek 0) := ⟨hR.file, hR.trace, hR.later⟩
    have hrem : ((w.next .lseek).2.seek 0).rem = framing.encAll rs := by
      rw [rem, hseek.file, hfile]
      rfl
    obtain ⟨hR', henv, hall, hfail⟩ := validPrefixLoop_seeks hrs (hseek.sure hs) hrem
    refine ⟨hseek.trans hR', fun c h1 h2 h3 => (henv c h1 h2 h3).trans (next_env_ne h3 w),
      fun h => ?_, fun h => ?_⟩
    · obtain ⟨hend, hdrop⟩ := hall (htake.mp h).2
      refine ⟨hend.trans ?_, hdrop.trans ?_⟩
      · show ((0 + (framing.encAll rs).length : Nat) : Int) = _
        rw [Nat.zero_add]
      · show ((w.next .lseek).2.env .lseek).drop _ = _
        rw [next_env_self, ← List.drop_one, List.drop_drop, Nat.add_comm]
    · exact hfail (Classical.byContradiction fun hno => htake.mpr ⟨hl, hno⟩ h)

/-! ## The whole put -/

/-- Every call of a put succeeds except the `fsync` behind the commit word.  The scan makes one
    `lseek` in front, one for each of the records `rs` and one at the end of the file; one more
    stands in front of the record. -/
structure LastFsyncFails (rs : List Rec) (key value : List UInt8) (env : Call → List Outcome) :
    Prop where
  seeks : Outcome.fail ∉ (env .lseek).take (rs.length + 3)
  truncates : Outcome.fail ∉ (env .ftruncate).take 1
  writes : transferPut key value (env .write) ≠ none
  syncs : Outcome.fail ∉ (env .fsync).take 1
  commits : ∀ o ∈ (env .pwrite).take 1, o.whole = true
  fails : (env .fsync)[1]? = some .fail

/-- Only the second entry of the schedule decides about the second call. -/
theorem fail_second_iff (s : List Outcome) :
    Outcome.fail ∈ s.tail.take 1 ↔ s[1]? = some .fail := by
  match s with
  | [] => simp
  | [o] => simp
  | o :: o' :: s => simp [eq_comm]

/-- The condition, taken apart at the end of the scan. -/
theorem lastFsyncFails_iff {rs : List Rec} {key value : List UInt8}
    {env env' : Call → List Outcome} (hl : env' .lseek = (env .lseek).drop (rs.length + 2))
    (he : ∀ c, c ≠ .read → c ≠ .malloc → c ≠ .lseek → c ≠ .flock → env' c = env c) :
    LastFsyncFails rs key value env ↔
      Outcome.fail ∉ (env .lseek).take (rs.length + 2) ∧ Appends key value env' ∧
        (∀ o ∈ (env' .pwrite).take 1, o.whole = true) ∧
        Outcome.fail ∈ (env' .fsync).tail.take 1 := by
  have ht := he .ftruncate (by decide) (by decide) (by decide) (by decide)
  have hw := he .write (by decide) (by decide) (by decide) (by decide)
  have hf := he .fsync (by decide) (by decide) (by decide) (by decide)
  have hp := he .pwrite (by decide) (by decide) (by decide) (by decide)
  have hseeks : Outcome.fail ∉ (env .lseek).take (rs.length + 3) ↔
      Outcome.fail ∉ (env .lseek).take (rs.length + 2) ∧ Outcome.fail ∉ (env' .lseek).take 1 := by
    rw [show rs.length + 3 = rs.length + 2 + 1 from rfl, List.take_add, List.mem_append, not_or, hl]
  rw [hf, hp, fail_second_iff]
  constructor
  · intro h
    obtain ⟨hscan, hseek⟩ := hseeks.mp h.seeks
    exact ⟨hscan, ⟨ht ▸ h.truncates, hseek, hw ▸ h.writes, hf ▸ h.syncs⟩, h.commits, h.fails⟩
  · rintro ⟨hscan, hA, hC, hF⟩
    exact ⟨hseeks.mpr ⟨hscan, hA.seeks⟩, ht ▸ hA.truncates, hw ▸ hA.writes, hf ▸ hA.syncs, hC, hF⟩

/-- **What a put does to a file of valid records**, whichever calls fail: a beginning of its
    effects, and all of them before a -1 exactly when only the last `fsync` failed. -/
theorem kvdbPut_outcome {rs : List Rec} (hrs : ∀ r ∈ rs, r.valid = true) {w : World}
    (hs : w.Sure) (hfile : w.file = framing.encAll rs) {db : KvdbT} (hdb : 0 ≤ db.fd)
    {key value : CString} (h : Accepts key.bytes value.bytes) :
    ∃ n, Wrote ((putEffects h (framing.encAll rs).length).take n) w
        (kvdbPut (some db) (some key) (some value) w).2 ∧
      (((kvdbPut (some db) (some key) (some value) w).1 = 0 ∧
        ¬ LastFsyncFails rs key.bytes value.bytes w.env) ∨
      ((kvdbPut (some db) (some key) (some value) w).1 = -1 ∧
        (1 + ((Rec.new 0 h).bytes.length + 4) ≤ n ↔
          LastFsyncFails rs key.bytes value.bytes w.env))) := by
  obtain ⟨hl, ha, hle⟩ := lockDb_sure hs.locks
  obtain ⟨hR, hse, hall, hfail⟩ :=
    validPrefixEnd_seeks hrs (ha.toReads.sure hs) (ha.file.trans hfile)
  rw [hle .lseek (by decide)] at hall hfail
  have hargs : ¬ (key.strlen = 0 ∨ kvdbMaxKey < key.strlen ∨ kvdbMaxValue < value.strlen) := by
    obtain ⟨h1, h2, h3⟩ := h
    unfold CString.strlen
    omega
  rw [kvdbPut]
  dsimp only
  rw [if_neg (by omega), if_neg hargs, if_neg (by rw [hl]; decide)]
  -- `w₁` is the state behind the scan
  obtain ⟨w₁, hw₁⟩ : ∃ w₁, w₁ = (validPrefixEnd (lockDb w).2).2 := ⟨_, rfl⟩
  have hRR : w.Reads w₁ := by
    rw [hw₁]
    exact ha.toReads.trans hR
  have he : ∀ c, c ≠ .read → c ≠ .malloc → c ≠ .lseek → c ≠ .flock → w₁.env c = w.env c := by
    intro c h1 h2 h3 h4
    rw [hw₁, hse c h1 h2 h3, hle c h4]
  rw [← hw₁] at hall ⊢
  by_cases hscan : Outcome.fail ∈ (w.env .lseek).take (rs.length + 2)
  · -- the scan returns -1, and nothing is written
    have hno : ¬ LastFsyncFails rs key.bytes value.bytes w.env := fun hL =>
      hL.seeks (List.take_subset_take_left _ (by omega) hscan)
    have hnone : appendRecord (-1) key.bytes value.bytes w₁ = (false, w₁) := by
      rw [appendRecord, if_pos (by decide)]
    rw [hfail hscan, hnone, if_pos rfl]
    exact ⟨0, (hRR.trans (flock_aside _).toReads).wrote, Or.inr ⟨rfl, iff_of_false (by omega) hno⟩⟩
  obtain ⟨hend, hdrop⟩ := hall hscan
  rw [hend, lastFsyncFails_iff hdrop he]
  rcases appendRecord_outcome h (framing.encAll rs).length w₁ with
    ⟨hA, hApp, hW, hfs, hpw⟩ | ⟨hA, hApp, n, hn, hW⟩
  swap
  · rw [if_pos hA]
    exact ⟨n, hRR.thenWrote (hW.reads (flock_aside _).toReads),
      Or.inr ⟨rfl, iff_of_false (by omega) fun hL => hApp hL.2.1⟩⟩
  rw [if_neg (by rw [hA]; decide), ← hfs, ← hpw]
  -- `w₂` is the state behind the first `fsync`
  obtain ⟨w₂, hw₂⟩ : ∃ w₂, w₂ = (appendRecord ((framing.encAll rs).length : Int) key.bytes
    value.bytes w₁).2 := ⟨_, rfl⟩
  rw [← hw₂] at hW ⊢
  rcases commitRecord_outcome (framing.encAll rs).length w₂ with
    ⟨hC, hCom, hW'⟩ | ⟨hC, hCom, j, hj, hwhole, hW'⟩
  · rw [if_neg (by rw [hC]; decide)]
    refine ⟨1 + ((Rec.new 0 h).bytes.length + 4), ?_,
      Or.inl ⟨rfl, fun hL => hCom.syncs hL.2.2.2⟩⟩
    rw [take_putEffects]
    exact hRR.thenWrote ((hW.trans hW').reads (flock_aside _).toReads)
  · rw [if_pos hC]
    refine ⟨1 + ((Rec.new 0 h).bytes.length + j), ?_, Or.inr ⟨rfl, fun hn => ?_, fun hL => ?_⟩⟩
    · rw [take_putEffects]
      exact hRR.thenWrote ((hW.trans hW').reads (flock_aside _).toReads)
    · have hwh := hwhole.mp (by omega)
      exact ⟨hscan, hApp, hwh, Classical.byContradiction fun hno => hCom ⟨hwh, hno⟩⟩
    · have hj4 := hwhole.mpr hL.2.2.1
      omega

/-! ## What a get sees of it -/

/-- Nothing of a call shows: every key reads as before, and the next put without failures
    succeeds, sets its own key and leaves the others alone. -/
structure Unseen (before after : List UInt8) : Prop where
  same : ∀ key : CString, SameAnswers key before after
  next : ∀ (db : KvdbT) (key value : CString) (w : World), 0 ≤ db.fd →
    Accepts key.bytes value.bytes → w.Quiet → w.file = after →
    (kvdbPut (some db) (some key) (some value) w).1 = 0 ∧
      (∀ w' : World, w'.Quiet → w'.file = (kvdbPut (some db) (some key) (some value) w).2.file →
        ∀ length, (kvdbGet (some db) (some key) true length w').1 =
          answer (some value.bytes) true length) ∧
      ∀ key' : CString, key' ≠ key →
        SameAnswers key' after (kvdbPut (some db) (some key) (some value) w).2.file

/-- What a get finds in an image is the last value among its valid records. -/
theorem lookup_image (img : Image) (key : List UInt8) :
    lookup key img.bytes = lastValue key (validPrefix img.bytes) := by
  rw [img.lookup_bytes, img.validPrefix_bytes]
  rfl

/-- The next put works on every image. -/
theorem Unseen.of_image {before : List UInt8} {img : Image}
    (h : ∀ key : CString, key.IsKey → lookup key.bytes before = lookup key.bytes img.bytes) :
    Unseen before img.bytes where
  same := fun key => SameAnswers.of_lookup (h key)
  next := by
    intro db key value w hdb hacc hq hfile
    refine ⟨(kvdbPut_spec hq hdb hacc).1, ?_, ?_⟩
    · intro w' hq' hfile' length
      have hown : lookup key.bytes (kvdbPut (some db) (some key) (some value) w).2.file =
          some value.bytes := by
        have hvalid : (Rec.new kvdbCommitted hacc).valid = true := by rw [Rec.new_valid]; rfl
        rw [kvdbPut_file hq hdb hacc, lookup_encAll, lastValue, List.filter_append,
          List.filter_cons_of_pos (by simp [Rec.counts, hvalid]), List.filter_nil,
          List.getLast?_concat]
        rfl
      rw [(kvdbGet_spec hq' hdb ⟨hacc.1, hacc.2.1⟩ (fun hb => absurd hb (by decide))).1, hfile',
        hown]
    · intro key' hne
      apply SameAnswers.of_lookup
      intro _
      rw [lookup_put hq hdb hacc hne, hfile, lookup_image]

/-- A file of valid records is an image with nothing behind them. -/
def Image.ofRecords (rs : List Rec) (hrs : ∀ r ∈ rs, r.valid = true) : Image where
  recs := rs
  tail := []
  recs_valid := hrs
  torn := ⟨⟨0, 0, 0, [0], [], by decide, by decide, by decide⟩, by decide, List.nil_prefix⟩

/-- An image of records has their bytes and nothing behind. -/
@[simp] theorem Image.ofRecords_bytes (rs : List Rec) (hrs : ∀ r ∈ rs, r.valid = true) :
    (Image.ofRecords rs hrs).bytes = framing.encAll rs := List.append_nil _

/-- **What a failed put shows.**  On every file of valid records, for every key and value and
    every choice of failing calls: a put that returns -1 has changed nothing a get can see, and
    the next put works, exactly when it is not the case that only the `fsync` behind the commit
    word failed, for a value that the key did not have already. -/
theorem failed_put_unseen_iff {rs : List Rec} (hrs : ∀ r ∈ rs, r.valid = true) {w : World}
    (hs : w.Sure) (hfile : w.file = framing.encAll rs) {db : KvdbT} (hdb : 0 ≤ db.fd)
    (key value : CString) :
    ((kvdbPut (some db) (some key) (some value) w).1 = -1 →
      Unseen w.file (kvdbPut (some db) (some key) (some value) w).2.file) ↔
    ¬ (Accepts key.bytes value.bytes ∧ LastFsyncFails rs key.bytes value.bytes w.env ∧
      lookup key.bytes w.file ≠ some value.bytes) := by
  have himg : w.file = (Image.ofRecords rs hrs).bytes := by
    rw [Image.ofRecords_bytes]
    exact hfile
  by_cases hacc : Accepts key.bytes value.bytes
  swap
  · rw [kvdbPut_rejects hacc, himg]
    exact iff_of_true (fun _ => Unseen.of_image fun _ _ => rfl) fun h => hacc h.1
  obtain ⟨n, hW, hrc⟩ := kvdbPut_outcome hrs hs hfile hdb hacc
  obtain ⟨img', hbytes, hstore⟩ :=
    Refines.crash (d := ⟨w.file, fun _ => 0⟩) himg hacc n
  have hfile' : (kvdbPut (some db) (some key) (some value) w).2.file = img'.bytes :=
    hW.file.trans hbytes
  have hlook : ∀ k, lookup k w.file = (Image.ofRecords rs hrs).store k := by
    intro k
    rw [himg, Image.lookup_bytes]
  have hwhole := wholeCommit_take hacc (framing.encAll (Image.ofRecords rs hrs).recs).length n
  rw [hfile']
  rcases hrc with ⟨h0, hno⟩ | ⟨h1, hall⟩
  · refine iff_of_true (fun h => ?_) fun h => hno h.2.1
    rw [h0] at h
    exact absurd h (by decide)
  · constructor
    · rintro h ⟨-, hL, hne⟩
      -- the new value is in the file
      have hsame := (sameAnswers_iff ⟨hacc.1, hacc.2.1⟩ _ _).mp ((h h1).same key)
      rw [img'.lookup_bytes, hstore, if_pos (hwhole.mpr (hall.mpr hL))] at hsame
      exact hne (hsame.trans (if_pos rfl))
    · intro h _
      apply Unseen.of_image
      intro k hk
      rw [hlook, img'.lookup_bytes, hstore]
      by_cases hL : LastFsyncFails rs key.bytes value.bytes w.env
      · -- the key had that value already
        have hold : lookup key.bytes w.file = some value.bytes :=
          Classical.byContradiction fun hne => h ⟨hacc, hL, hne⟩
        rw [if_pos (hwhole.mpr (hall.mpr hL)), Store.insert]
        by_cases hkey : k.bytes = key.bytes
        · rw [if_pos hkey, hkey, ← hlook, hold]
        · rw [if_neg hkey]
      · rw [if_neg fun hw => hL (hall.mp (hwhole.mp hw))]

/-- The schedules of a put on `file` whose `fsync` calls turn out as listed. -/
def syncing (file : List UInt8) (syncs : List Outcome) : World :=
  ⟨file, 0, fun c => if c = .fsync then syncs else [], []⟩

/-- A world in which only `fsync` may fail is sure. -/
theorem syncing_sure (file : List UInt8) (syncs : List Outcome) : (syncing file syncs).Sure :=
  ⟨List.not_mem_nil, List.not_mem_nil, List.not_mem_nil⟩

/-- The first `fsync` fails: nothing shows. -/
theorem failed_put_unseen_iff_first :
    Unseen [] (kvdbPut (some ⟨0⟩) (some (oneByte 97 (by decide))) (some (oneByte 49 (by decide)))
      (syncing [] [.fail])).2.file := by
  have hvalid : ∀ r ∈ ([] : List Rec), r.valid = true := fun r hr => absurd hr List.not_mem_nil
  refine (failed_put_unseen_iff hvalid (syncing_sure _ _) rfl (Int.le_refl 0) _ _).mpr
    (fun h => ?_) (by decide +kernel)
  exact h.2.1.syncs List.mem_cons_self

/-- Only the second `fsync` fails: the put returns -1 and the new value is there to be read. -/
theorem failed_put_seen :
    ¬ ∀ (rs : List Rec) (w : World) (db : KvdbT) (key value : CString),
      (∀ r ∈ rs, r.valid = true) → w.Sure → w.file = framing.encAll rs → 0 ≤ db.fd →
      (kvdbPut (some db) (some key) (some value) w).1 = -1 →
      Unseen w.file (kvdbPut (some db) (some key) (some value) w).2.file := by
  intro h
  have hunseen := h [] (syncing [] [.ok, .fail]) ⟨0⟩ (oneByte 97 (by decide))
    (oneByte 49 (by decide)) (fun r hr => absurd hr List.not_mem_nil) (syncing_sure _ _) rfl
    (Int.le_refl 0) (by decide +kernel)
  have hget := hunseen.same (oneByte 97 (by decide)) ⟨0⟩ true 8 (quietWorld _) (quietWorld _)
    (quietWorld_quiet _) (quietWorld_quiet _) rfl rfl
  revert hget
  decide +kernel

end Kvdb
