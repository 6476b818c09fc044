/-
  kvdb — where the two scanners part.

  1. **Program** — `valid_prefix_end` stops at the first record that is not committed or whose
     checksum is off; the loop of `kvdb_get` walks past such a record and reads what stands behind
     it.  A put cuts the file where `valid_prefix_end` stopped, so it takes the records behind with
     it.
  2. **Specification** — a put of one key does not change what a get of another key answers.
  3. **The crux (`stranded`)** — the records of the walk behind the valid prefix.
       * `lookup_put`        — what a key reads after a put, from the valid prefix alone;
       * `put_keeps_get_iff` — the other keys read the same before and after a put exactly when no
         stranded record changes what its key reads.
     `put_destroys_stranded` is a file of three records with a bad one in the middle.
  4. **What is idealised** — no call fails (`Quiet`), so what differs is the reading alone.
-/
import MiniLabs.Kvdb.Put

set_option linter.unusedVariables false

namespace Kvdb

open RecordLog World

/-! ## The records behind the valid prefix -/

/-- The records `kvdb_get` meets from the first one that does not count. -/
def stranded (file : List UInt8) : List Rec := (framing.walk file).dropWhile Rec.valid

/-- The value of the last record in `rs` that counts for the key. -/
def lastValue (key : List UInt8) (rs : List Rec) : Option (List UInt8) :=
  (rs.filter (Rec.counts key)).getLast?.map Rec.value

/-- No stranded record changes what a key other than `key` reads. -/
def Harmless (key : CString) (file : List UInt8) : Prop :=
  ∀ key' : CString, key' ≠ key → key'.IsKey →
    lastValue key'.bytes (stranded file) = none ∨
      lastValue key'.bytes (stranded file) = lastValue key'.bytes (validPrefix file)

/-- Before the put a stranded record is read first. -/
theorem lookup_split (key file : List UInt8) :
    lookup key file = (lastValue key (stranded file)).or (lastValue key (validPrefix file)) := by
  rw [lookup, framing.lastOf_split _ Rec.valid]
  exact Option.map_or

/-- Among records the last value of the key is found. -/
theorem lookup_encAll (key : List UInt8) (rs : List Rec) :
    lookup key (framing.encAll rs) = lastValue key rs := by
  have hnone : framing.lastOf (Rec.counts key) [] = none :=
    framing.lastOf_of_none _ (nextRec_short (show [].length < sizeofRecord by decide))
  have h := framing.lastOf_encAll_append (Rec.counts key) rs []
  rw [List.append_nil, hnone, Option.none_or] at h
  rw [lookup, h, lastValue]

/-- After the put another key reads the valid prefix alone. -/
theorem lookup_put {w : World} (hq : w.Quiet) {db : KvdbT} (hdb : 0 ≤ db.fd)
    {key value : CString} (h : Accepts key.bytes value.bytes) {key' : CString}
    (hne : key' ≠ key) :
    lookup key'.bytes (kvdbPut (some db) (some key) (some value) w).2.file =
      lastValue key'.bytes (validPrefix w.file) := by
  have hnew : Rec.counts key'.bytes (Rec.new kvdbCommitted h) = false := by
    have hbytes : key.bytes ≠ key'.bytes := by
      intro heq
      obtain ⟨a, ha⟩ := key
      obtain ⟨b, hb⟩ := key'
      subst heq
      exact hne rfl
    simp [Rec.counts, hbytes]
  rw [kvdbPut_file hq hdb h, lookup_encAll, lastValue, List.filter_append,
    List.filter_cons_of_neg (by simp [hnew]), List.filter_nil, List.append_nil, lastValue]

/-! ## Equal answers -/

/-- `kvdb_get` of the key answers the same on both files, for every handle and every buffer,
    as long as no call fails. -/
def SameAnswers (key : CString) (before after : List UInt8) : Prop :=
  ∀ (db : KvdbT) (buf : Bool) (length : Nat) (w w' : World), w.Quiet → w'.Quiet →
    w.file = before → w'.file = after →
    (kvdbGet (some db) (some key) buf length w).1 =
      (kvdbGet (some db) (some key) buf length w').1

/-- A buffer that is long enough tells two values apart. -/
theorem answer_inj {a b : Option (List UInt8)}
    (h : ∀ length, answer a true length = answer b true length) : a = b := by
  cases a with
  | none =>
    cases b with
    | none => rfl
    | some v =>
      have hrc := congrArg GetResult.rc (h 1)
      simp only [answer, true_and, Nat.one_pos, if_true] at hrc
      split at hrc <;> omega
  | some u =>
    cases b with
    | none =>
      have hrc := congrArg GetResult.rc (h 1)
      simp only [answer, true_and, Nat.one_pos, if_true] at hrc
      split at hrc <;> omega
    | some v =>
      have hl := congrArg GetResult.stored (h (u.length + v.length + 1))
      simp only [answer, true_and, Nat.succ_pos, if_true] at hl
      rw [if_neg (by omega), if_neg (by omega), List.take_length, List.take_length] at hl
      rw [List.append_cancel_right hl]

/-- A key that is not accepted is answered with `-1` on every file. -/
theorem kvdbGet_rejects {key : CString} (hkey : ¬ key.IsKey) (db : KvdbT) (buf : Bool)
    (length : Nat) (w : World) : (kvdbGet (some db) (some key) buf length w).1 = ⟨-1, []⟩ := by
  unfold CString.IsKey at hkey
  rw [kvdbGet]
  dsimp only
  split
  · rfl
  · rw [if_pos (by omega)]

/-- The answers agree exactly when the files hold the same value. -/
theorem sameAnswers_iff {key : CString} (hkey : key.IsKey) (before after : List UInt8) :
    SameAnswers key before after ↔ lookup key.bytes before = lookup key.bytes after := by
  constructor
  · intro h
    apply answer_inj
    intro length
    have hquiet : ∀ file, (World.mk file 0 (fun _ => []) []).Quiet := fun file =>
      ⟨⟨fun _ _ => List.not_mem_nil, fun _ h => (nomatch h)⟩, List.not_mem_nil⟩
    have hbuf : true = false → length = 0 := fun h => nomatch h
    have hdb : 0 ≤ (KvdbT.mk 0).fd := Int.le_refl 0
    have heq := h ⟨0⟩ true length _ _ (hquiet before) (hquiet after) rfl rfl
    rwa [(kvdbGet_spec (hquiet before) hdb hkey hbuf).1,
      (kvdbGet_spec (hquiet after) hdb hkey hbuf).1] at heq
  · intro heq db buf length w w' hq hq' hw hw'
    by_cases hargs : 0 ≤ db.fd ∧ (buf = false → length = 0)
    · rw [(kvdbGet_spec hq hargs.1 hkey hargs.2).1, (kvdbGet_spec hq' hargs.1 hkey hargs.2).1,
        hw, hw', heq]
    · -- a bad handle or a missing buffer: `-1` before the file is looked at
      have hbad : db.fd < 0 ∨ (buf = false ∧ length ≠ 0) := by
        by_cases hfd : db.fd < 0
        · exact Or.inl hfd
        · exact Or.inr (Classical.not_imp.mp fun hb => hargs ⟨by omega, hb⟩)
      rw [kvdbGet, kvdbGet]
      dsimp only
      rw [if_pos hbad, if_pos hbad]

/-- Files that hold the same value for a key, if it is one, answer the same. -/
theorem SameAnswers.of_lookup {key : CString} {before after : List UInt8}
    (h : key.IsKey → lookup key.bytes before = lookup key.bytes after) :
    SameAnswers key before after := by
  by_cases hkey : key.IsKey
  · exact (sameAnswers_iff hkey _ _).mpr (h hkey)
  · intro db buf length w w' _ _ _ _
    rw [kvdbGet_rejects hkey, kvdbGet_rejects hkey]

/-! ## Puts and the other keys -/

/-- A put that returned 0 had a handle and accepted lengths. -/
theorem kvdbPut_returned {w : World} {db : KvdbT} {key value : CString}
    (h0 : (kvdbPut (some db) (some key) (some value) w).1 = 0) :
    0 ≤ db.fd ∧ Accepts key.bytes value.bytes := by
  constructor
  · apply Int.not_lt.mp
    intro hlt
    rw [kvdbPut] at h0
    dsimp only at h0
    rw [if_pos hlt] at h0
    nomatch h0
  · apply Classical.byContradiction
    intro hacc
    rw [kvdbPut_rejects hacc] at h0
    nomatch h0

/-- **What a put destroys.**  On every file, a put that returns 0 without a failing call leaves
    the answers for all other keys as they were exactly when the stranded records are
    harmless. -/
theorem put_keeps_get_iff {w : World} (hq : w.Quiet) {db : KvdbT} {key value : CString}
    (h0 : (kvdbPut (some db) (some key) (some value) w).1 = 0) :
    (∀ key' : CString, key' ≠ key →
      SameAnswers key' w.file (kvdbPut (some db) (some key) (some value) w).2.file) ↔
      Harmless key w.file := by
  obtain ⟨hdb, hacc⟩ := kvdbPut_returned h0
  have hor : ∀ a b : Option (List UInt8), a.or b = b ↔ a = none ∨ a = b := by
    intro a b
    cases a <;> simp
  constructor
  · intro h key' hne hkey
    have heq := (sameAnswers_iff hkey _ _).mp (h key' hne)
    rw [lookup_put hq hdb hacc hne, lookup_split] at heq
    exact (hor _ _).mp heq
  · intro h key' hne
    apply SameAnswers.of_lookup
    intro hkey
    rw [lookup_put hq hdb hacc hne, lookup_split]
    exact (hor _ _).mpr (h key' hne hkey)

/-- A state in which no call fails. -/
def quietWorld (file : List UInt8) : World := ⟨file, 0, fun _ => [], []⟩

/-- Nothing fails in a quiet world. -/
theorem quietWorld_quiet (file : List UInt8) : (quietWorld file).Quiet :=
  ⟨⟨fun _ _ => List.not_mem_nil, fun _ h => (nomatch h)⟩, List.not_mem_nil⟩

/-- A key or a value of one byte. -/
def oneByte (b : UInt8) (h : b ≠ 0) : CString := ⟨[b], by simpa using h.symm⟩

/-- A record of one key byte and one value byte with the commit word `c`. -/
def smallRec (c : UInt32) (k v : UInt8) : Rec :=
  Rec.new c (show Accepts [k] [v] from 
    ⟨Nat.one_pos, show 1 ≤ kvdbMaxKey by decide, show 1 ≤ kvdbMaxValue by decide⟩)

/-- Behind one good record and a torn one nothing is stranded: the first key keeps its
    answers. -/
theorem put_keeps_get_iff_torn :
    SameAnswers (oneByte 97 (by decide))
      ((smallRec kvdbCommitted 97 49).bytes ++ (smallRec 0 98 50).bytes.take 7)
      (kvdbPut (some ⟨0⟩) (some (oneByte 107 (by decide))) (some (oneByte 51 (by decide)))
        (quietWorld ((smallRec kvdbCommitted 97 49).bytes ++
          (smallRec 0 98 50).bytes.take 7))).2.file := by
  refine (put_keeps_get_iff (quietWorld_quiet _) (by decide +kernel)).mpr ?_ _ (by decide)
  intro key' hne hkey
  have hnone : stranded (quietWorld ((smallRec kvdbCommitted 97 49).bytes ++
      (smallRec 0 98 50).bytes.take 7)).file = [] := by decide +kernel
  exact Or.inl (by rw [hnone]; rfl)

/-- An uncommitted record between two good ones: the put cuts off the last record, which
    `kvdb_get` could read. -/
theorem put_destroys_stranded :
    ¬ ∀ (w : World) (db : KvdbT) (key value key' : CString), w.Quiet →
      (kvdbPut (some db) (some key) (some value) w).1 = 0 → key' ≠ key →
      SameAnswers key' w.file (kvdbPut (some db) (some key) (some value) w).2.file := by
  intro h
  have hsame := h
    (quietWorld ((smallRec kvdbCommitted 97 49).bytes ++ (smallRec 0 98 50).bytes ++
      (smallRec kvdbCommitted 99 51).bytes))
    ⟨0⟩ (oneByte 100 (by decide)) (oneByte 52 (by decide)) (oneByte 99 (by decide))
    (quietWorld_quiet _) (by decide +kernel) (by decide)
  have hget := hsame ⟨0⟩ true 8 (quietWorld _) (quietWorld _) (quietWorld_quiet _)
    (quietWorld_quiet _) rfl rfl
  revert hget
  decide +kernel

end Kvdb
