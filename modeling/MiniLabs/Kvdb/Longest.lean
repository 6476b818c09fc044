/-
  kvdb — the valid prefix is the longest one, and a put lands right behind it.

  1. **Program** — `valid_prefix_end` on any file, the file after a put, and what a get and a second
     scan find in it.
  2. **Specification** — `Committed p` says on the bytes of `p` that it is one valid committed
     record, and `Records` that a string is some of these in a row; the specification does not
     mention the code.
  3. **The crux (`committed_iff`)** — these are the encodings of the valid `Rec`s, so
     `valid_prefix_end` is read off `framing.goodEnd`, and no longer prefix is a row of records.
  4. **What is idealised** — no call fails on the way (`Quiet`).
-/
import Mathlib.Data.List.TakeWhile
import MiniLabs.Kvdb.Scanners

set_option linter.unusedVariables false

namespace Kvdb

open RecordLog World

/-- The bytes of one valid committed record. -/
structure Committed (p : List UInt8) : Prop where
  magic : (RecordT.ofBytes p).magic = 0x4b564442
  committed : (RecordT.ofBytes p).committed = 0xc01117ed
  key_pos : 1 ≤ (RecordT.ofBytes p).keyLen.toNat
  key_le : (RecordT.ofBytes p).keyLen.toNat ≤ 65536
  value_le : (RecordT.ofBytes p).valueLen.toNat ≤ 16777216
  length : p.length = 24 + (RecordT.ofBytes p).keyLen.toNat + (RecordT.ofBytes p).valueLen.toNat
  checksum : (RecordT.ofBytes p).checksum =
    recordChecksum (RecordT.ofBytes p).keyLen (RecordT.ofBytes p).valueLen
      ((p.drop 24).take (RecordT.ofBytes p).keyLen.toNat)
      ((p.drop 24).drop (RecordT.ofBytes p).keyLen.toNat)

/-- Valid committed records in a row. -/
def Records (s : List UInt8) : Prop :=
  ∃ ps : List (List UInt8), (∀ p ∈ ps, Committed p) ∧ s = ps.flatten

/-- The header is read from the first 24 bytes. -/
theorem ofBytes_take {s : List UInt8} (h : sizeofRecord ≤ s.length) :
    RecordT.ofBytes (s.take sizeofRecord) = RecordT.ofBytes s := by
  have hlen : (s.take sizeofRecord).length = sizeofRecord := by
    rw [List.length_take]
    exact Nat.min_eq_left h
  have hback := RecordT.ofBytes_bytes (RecordT.ofBytes (s.take sizeofRecord)) (s.drop sizeofRecord)
  rw [RecordT.bytes_ofBytes hlen, List.take_append_drop] at hback
  exact hback.symm

/-- The header and the body of an encoded record. -/
theorem Rec.ofBytes_bytes (r : Rec) : RecordT.ofBytes r.bytes = r.header := by
  rw [Rec.bytes, List.append_assoc, RecordT.ofBytes_bytes]

/-- Behind the header stand the key and the value. -/
theorem Rec.drop_bytes (r : Rec) : r.bytes.drop 24 = r.key ++ r.value := by
  rw [Rec.bytes, List.append_assoc]
  exact List.drop_left' (RecordT.length_bytes _)

/-- **The valid committed records** are the encodings of the valid `Rec`s. -/
theorem committed_iff (p : List UInt8) : Committed p ↔ ∃ r : Rec, r.valid = true ∧ p = r.bytes := by
  constructor
  · intro h
    have hlen : sizeofRecord ≤ p.length := by
      rw [h.length, sizeofRecord]
      omega
    have hbody : (RecordT.ofBytes p).keyLen.toNat + (RecordT.ofBytes p).valueLen.toNat
        ≤ (p.drop sizeofRecord).length := by
      rw [List.length_drop, h.length, sizeofRecord]
      omega
    obtain ⟨r, t, hrec, hhdr, hkey, hvalue⟩ := nextRec_some (ofBytes_take hlen).symm hlen h.magic
      h.key_pos h.key_le h.value_le hbody
    have hsplit := nextRec_sound hrec
    have hall : t = [] := by
      have hlength := congrArg List.length hsplit
      rw [List.length_append, Rec.length_bytes, ← Rec.header_keyLen, ← Rec.header_valueLen, hhdr,
        h.length, sizeofRecord] at hlength
      exact List.length_eq_zero_iff.mp (by omega)
    refine ⟨r, (Rec.valid_iff r).mpr ?_, by rw [hsplit, hall, List.append_nil]⟩
    have hrest : ((p.drop sizeofRecord).drop (RecordT.ofBytes p).keyLen.toNat).take
        (RecordT.ofBytes p).valueLen.toNat
          = (p.drop sizeofRecord).drop (RecordT.ofBytes p).keyLen.toNat := by
      apply List.take_of_length_le
      rw [List.length_drop, List.length_drop, h.length, sizeofRecord]
      omega
    rw [hhdr, hkey, hvalue, hrest]
    exact ⟨h.committed, h.checksum.symm⟩
  · rintro ⟨r, hvalid, rfl⟩
    have hhdr := r.ofBytes_bytes
    have hbody := r.drop_bytes
    obtain ⟨hcommitted, hsum⟩ := (Rec.valid_iff r).mp hvalid
    constructor
    · rw [hhdr]
      rfl
    · rw [hhdr]
      exact hcommitted
    · rw [hhdr, Rec.header_keyLen]
      exact r.key_pos
    · rw [hhdr, Rec.header_keyLen]
      exact r.key_le
    · rw [hhdr, Rec.header_valueLen]
      exact r.value_le
    · rw [hhdr, Rec.header_keyLen, Rec.header_valueLen, Rec.length_bytes, sizeofRecord]
    · rw [hhdr, hbody, Rec.header_keyLen, List.take_left, List.drop_left]
      exact hsum.symm

/-- `Records` are the bytes of a list of valid records. -/
theorem records_iff (s : List UInt8) :
    Records s ↔ ∃ rs : List Rec, (∀ r ∈ rs, r.valid = true) ∧ s = framing.encAll rs := by
  constructor
  · rintro ⟨ps, hps, rfl⟩
    induction ps with
    | nil => exact ⟨[], fun r hr => absurd hr List.not_mem_nil, rfl⟩
    | cons p ps ih =>
      obtain ⟨r, hr, rfl⟩ := (committed_iff p).mp (hps p List.mem_cons_self)
      obtain ⟨rs, hrs, hall⟩ := ih fun q hq => hps q (List.mem_cons_of_mem _ hq)
      refine ⟨r :: rs, fun x hx => ?_, by rw [List.flatten_cons, hall]; rfl⟩
      rcases List.mem_cons.mp hx with rfl | hx
      · exact hr
      · exact hrs x hx
  · rintro ⟨rs, hrs, rfl⟩
    refine ⟨rs.map Rec.bytes, fun p hp => ?_, List.flatMap_def⟩
    obtain ⟨r, hr, rfl⟩ := List.mem_map.mp hp
    exact (committed_iff _).mpr ⟨r, hrs r hr, rfl⟩

/-- `n` is the length of the longest beginning of `s` that is a row of records. -/
structure LongestRecords (s : List UInt8) (n : Nat) : Prop where
  le : n ≤ s.length
  records : Records (s.take n)
  longest : ∀ m ≤ s.length, Records (s.take m) → m ≤ n

/-- Where the scan ends is where the longest front of records does. -/
theorem goodEnd_longestRecords (s : List UInt8) :
    LongestRecords s (framing.goodEnd Rec.valid s) := by
  refine ⟨framing.goodEnd_le _ _, (records_iff _).mpr ⟨framing.goodPrefix Rec.valid s, ?_, ?_⟩, ?_⟩
  · intro r hr
    exact List.mem_takeWhile_imp hr
  · exact framing.take_goodEnd _ _
  · intro m hm hrecords
    obtain ⟨rs, hrs, htake⟩ := (records_iff _).mp hrecords
    have hle := framing.goodEnd_longest hrs (htake ▸ List.take_prefix m s)
    rwa [← htake, List.length_take, Nat.min_eq_left hm] at hle

/-- What is promised of the file that a put leaves. -/
structure Landed (file : List UInt8) (key value : CString) (after : List UInt8) : Prop where
  file : ∃ (n : Nat) (record : List UInt8), LongestRecords file n ∧ after = file.take n ++ record ∧
    Committed record ∧ (record.drop 24).take key.strlen = key.bytes ∧
    (record.drop 24).drop key.strlen = value.bytes ∧ (RecordT.ofBytes record).reserved = 0
  get : ∀ (w : World) (db : KvdbT) (buf : Bool) (length : Nat), w.file = after → w.Quiet →
    0 ≤ db.fd → (buf = false → length = 0) →
    (kvdbGet (some db) (some key) buf length w).1 = answer (some value.bytes) buf length
  whole : ∀ w : World, w.file = after → w.Quiet → (validPrefixEnd w).1 = after.length

/-- A put that nothing disturbs lands. -/
theorem put_landed {w : World} (hq : w.Quiet) {db : KvdbT} (hdb : 0 ≤ db.fd) {key value : CString}
    (h : Accepts key.bytes value.bytes) :
    Landed w.file key value (kvdbPut (some db) (some key) (some value) w).2.file := by
  have hfile := kvdbPut_file hq hdb h
  have hvalid : (Rec.new kvdbCommitted h).valid = true := by
    rw [Rec.new_valid]
    rfl
  have hgood : ∀ r ∈ validPrefix w.file ++ [Rec.new kvdbCommitted h], r.valid = true := by
    intro r hr
    rcases List.mem_append.mp hr with hr | hr
    · exact List.mem_takeWhile_imp hr
    · rw [List.mem_singleton.mp hr]
      exact hvalid
  have hbody : (Rec.new kvdbCommitted h).bytes.drop 24 = key.bytes ++ value.bytes :=
    (Rec.new kvdbCommitted h).drop_bytes
  have hhdr := (Rec.new kvdbCommitted h).ofBytes_bytes
  refine ⟨⟨framing.goodEnd Rec.valid w.file, (Rec.new kvdbCommitted h).bytes,
    goodEnd_longestRecords _, ?_, (committed_iff _).mpr ⟨_, hvalid, rfl⟩, ?_, ?_, ?_⟩, ?_, ?_⟩
  · rw [hfile, framing.encAll_append, framing.take_goodEnd]
    exact congrArg _ (List.append_nil _)
  · rw [hbody]
    exact List.take_left
  · rw [hbody]
    exact List.drop_left
  · rw [hhdr]
    rfl
  · intro w' db' buf length hw' hq' hdb' hbuf
    have hlook : lookup key.bytes w'.file = some value.bytes := by
      have hcounts : (Rec.new kvdbCommitted h).counts key.bytes = true := by
        rw [Rec.counts, hvalid, Rec.new_key, beq_self_eq_true]
        rfl
      rw [hw', hfile, lookup_encAll, lastValue, List.filter_append,
        List.filter_cons_of_pos hcounts, List.filter_nil, List.getLast?_concat]
      rfl
    rw [(kvdbGet_spec hq' hdb' (show key.IsKey from ⟨h.1, h.2.1⟩) hbuf).1, hlook]
  · intro w' hw' hq'
    have hend : framing.goodPrefix Rec.valid w'.file
        = validPrefix w.file ++ [Rec.new kvdbCommitted h] := by
      have hnone : framing.goodPrefix Rec.valid [] = [] := by
        rw [Framing.goodPrefix, framing.walk_of_none (nextRec_short (by decide))]
        rfl
      have hall := framing.goodPrefix_encAll_append hgood hnone
      rwa [List.append_nil, ← hfile, ← hw'] at hall
    rw [validPrefixEnd_spec hq', Framing.goodEnd, hend, ← hfile]

/-- **The valid prefix** is the longest row of records, and a put lands right behind it. -/
theorem valid_prefix_longest (file : List UInt8) :
    (∀ w : World, w.file = file → w.Quiet →
      ∃ n : Nat, (validPrefixEnd w).1 = n ∧ LongestRecords file n) ∧
    (∀ (w : World) (db : KvdbT) (key value : CString), w.file = file → w.Quiet → 0 ≤ db.fd →
      Accepts key.bytes value.bytes →
      (kvdbPut (some db) (some key) (some value) w).1 = 0 ∧
        Landed file key value (kvdbPut (some db) (some key) (some value) w).2.file) := by
  constructor
  · rintro w rfl hq
    exact ⟨_, validPrefixEnd_spec hq, goodEnd_longestRecords _⟩
  · rintro w db key value rfl hq hdb h
    exact ⟨(kvdbPut_spec hq hdb h).1, put_landed hq hdb h⟩

end Kvdb
