/-
  kvdb — the file format as a record log.

  1. **Format** — a `Rec` is what both scanners accept as one record: the magic word, a key of 1 to
     65536 bytes, a value of at most 16 MiB, and all bytes of both present.  Whether it counts is a
     second question: it is `valid` when its commit word is whole and its checksum matches.
  2. **The crux (`framing`)** — the layout as an instance of `RecordLog.Framing`: a record is found
     where its bytes stand, and only there, so that both scanners become readings of one `walk`.
       * `valid_prefix_end` returns `framing.goodEnd Rec.valid` of the file;
       * `kvdb_get` finds the value of `lookup key`, the last valid record of that key.
  3. **What is idealised** — the words of a header are little-endian, as on the machines that the
     library is built for; the compiler puts no padding into `record_t`.
-/
import MiniLabs.Kvdb.Code
import MiniLabs.Lib.RecordLog

set_option linter.unusedVariables false

namespace Kvdb

open Words RecordLog

/-! ## Headers -/

/-- A header has 24 bytes. -/
@[simp] theorem RecordT.length_bytes (h : RecordT) : h.bytes.length = sizeofRecord := rfl

/-- A stored header is read back, whatever follows it. -/
theorem RecordT.ofBytes_bytes (h : RecordT) (s : List UInt8) :
    RecordT.ofBytes (h.bytes ++ s) = h := by
  have hd : ∀ v w : UInt32, ∀ s, (le32 v ++ s).drop 4 = s := fun v _ s => List.drop_left' rfl
  simp only [RecordT.bytes, RecordT.ofBytes, List.append_assoc]
  simp only [show (8 : Nat) = 4 + 4 from rfl, show (12 : Nat) = 4 + (4 + 4) from rfl,
    show (16 : Nat) = 4 + (4 + (4 + 4)) from rfl,
    show (20 : Nat) = 4 + (4 + (4 + (4 + 4))) from rfl, ← List.drop_drop,
    List.drop_left' (length_le32 _), ofLe32_le32]

/-- A header that was read from 24 bytes is stored as those bytes. -/
theorem RecordT.bytes_ofBytes {bs : List UInt8} (h : bs.length = sizeofRecord) :
    (RecordT.ofBytes bs).bytes = bs := by
  have h4 : ∀ n, n + 4 ≤ bs.length → le32 (ofLe32 (bs.drop n)) = (bs.drop n).take 4 := by
    intro n hn
    match hb : bs.drop n with
    | a :: b :: c :: d :: t => rw [le32_ofLe32]; rfl
    | [] | [_] | [_, _] | [_, _, _] =>
      have := congrArg List.length hb
      simp only [List.length_drop, List.length_cons, List.length_nil] at this
      omega
  have h0 := h4 0
  simp only [sizeofRecord] at h
  rw [List.drop_zero] at h0
  simp only [RecordT.bytes, RecordT.ofBytes]
  rw [h0 (by omega), h4 4 (by omega), h4 8 (by omega), h4 12 (by omega), h4 16 (by omega),
    h4 20 (by omega)]
  have hcut : ∀ n (s : List UInt8), bs.take n ++ (bs.drop n).take 4 = bs.take (n + 4) :=
    fun n _ => (List.take_add).symm
  rw [hcut 4 [], hcut 8 [], hcut 12 [], hcut 16 [], hcut 20 [],
    List.take_of_length_le (by omega)]

/-! ## Records -/

/-- A record both scanners can walk over. -/
structure Rec where
  committed : UInt32
  checksum : UInt32
  reserved : UInt32
  key : List UInt8
  value : List UInt8
  key_pos : 0 < key.length
  key_le : key.length ≤ kvdbMaxKey
  value_le : value.length ≤ kvdbMaxValue
  deriving DecidableEq

namespace Rec

/-- The header of the record. -/
def header (r : Rec) : RecordT where
  magic := kvdbMagic
  committed := r.committed
  keyLen := UInt32.ofNat r.key.length
  valueLen := UInt32.ofNat r.value.length
  checksum := r.checksum
  reserved := r.reserved

@[simp] theorem header_magic (r : Rec) : r.header.magic = kvdbMagic := rfl
@[simp] theorem header_committed (r : Rec) : r.header.committed = r.committed := rfl
@[simp] theorem header_checksum (r : Rec) : r.header.checksum = r.checksum := rfl

/-- The length of the key fits its field. -/
@[simp] theorem header_keyLen (r : Rec) : r.header.keyLen.toNat = r.key.length := by
  have := r.key_le
  simp only [header, kvdbMaxKey, UInt32.toNat_ofNat'] at *
  omega

/-- The length of the value fits its field. -/
@[simp] theorem header_valueLen (r : Rec) : r.header.valueLen.toNat = r.value.length := by
  have := r.value_le
  simp only [header, kvdbMaxValue, UInt32.toNat_ofNat'] at *
  omega

/-- The header is the one whose fields describe the record. -/
theorem header_eq {r : Rec} {h : RecordT} (hm : h.magic = kvdbMagic)
    (hc : h.committed = r.committed) (hs : h.checksum = r.checksum)
    (hr : h.reserved = r.reserved) (hk : h.keyLen.toNat = r.key.length)
    (hv : h.valueLen.toNat = r.value.length) : r.header = h := by
  obtain ⟨m, c, k, v, cs, rs⟩ := h
  dsimp only at hm hc hs hr hk hv
  rw [header, ← hk, ← hv, UInt32.ofNat_toNat, UInt32.ofNat_toNat, hm, hc, hs, hr]

/-- The record as it lies in the file. -/
def bytes (r : Rec) : List UInt8 := r.header.bytes ++ r.key ++ r.value

/-- A record has the bytes of its header, key and value. -/
@[simp] theorem length_bytes (r : Rec) :
    r.bytes.length = sizeofRecord + r.key.length + r.value.length := by
  rw [bytes, List.length_append, List.length_append, RecordT.length_bytes]

/-- The checksum a reader computes for the record. -/
def sum (r : Rec) : UInt32 :=
  recordChecksum r.header.keyLen r.header.valueLen r.key r.value

/-- The record counts: its commit word is whole and its checksum matches. -/
def valid (r : Rec) : Bool := r.committed = kvdbCommitted ∧ r.checksum = r.sum

end Rec

/-- Cut one record off the front of `s`. -/
def nextRec (s : List UInt8) : Option (Rec × List UInt8) :=
  let hdr := RecordT.ofBytes (s.take sizeofRecord)
  let body := s.drop sizeofRecord
  if h : sizeofRecord ≤ s.length ∧ hdr.magic = kvdbMagic ∧ 0 < hdr.keyLen.toNat ∧
      hdr.keyLen.toNat ≤ kvdbMaxKey ∧ hdr.valueLen.toNat ≤ kvdbMaxValue ∧
      hdr.keyLen.toNat + hdr.valueLen.toNat ≤ body.length then
    some ({ committed := hdr.committed, checksum := hdr.checksum, reserved := hdr.reserved,
            key := body.take hdr.keyLen.toNat,
            value := (body.drop hdr.keyLen.toNat).take hdr.valueLen.toNat,
            key_pos := by rw [List.length_take]; omega,
            key_le := by rw [List.length_take]; omega,
            value_le := by rw [List.length_take]; omega },
          body.drop (hdr.keyLen.toNat + hdr.valueLen.toNat))
  else none

/-- **A record that was written is read back**, whatever follows it. -/
theorem nextRec_bytes (r : Rec) (s : List UInt8) : nextRec (r.bytes ++ s) = some (r, s) := by
  have htake : (r.bytes ++ s).take sizeofRecord = r.header.bytes := by
    rw [Rec.bytes, List.append_assoc, List.append_assoc, List.take_left' (RecordT.length_bytes _)]
  have hdrop : (r.bytes ++ s).drop sizeofRecord = r.key ++ (r.value ++ s) := by
    rw [Rec.bytes, List.append_assoc, List.append_assoc, List.drop_left' (RecordT.length_bytes _)]
  have hhdr : RecordT.ofBytes r.header.bytes = r.header := by
    have := RecordT.ofBytes_bytes r.header []
    rwa [List.append_nil] at this
  have hk := r.key_pos
  have hkm := r.key_le
  have hvm := r.value_le
  unfold nextRec
  simp only [htake, hdrop, hhdr, Rec.header_keyLen, Rec.header_valueLen, List.take_left,
    List.drop_left]
  rw [dif_pos (by simp [sizeofRecord]; omega)]
  simp [← List.drop_drop, Rec.header]

/-- **What is read is there**: a record and the rest make up the bytes. -/
theorem nextRec_sound {s t : List UInt8} {r : Rec} (h : nextRec s = some (r, t)) :
    s = r.bytes ++ t := by
  unfold nextRec at h
  dsimp only at h
  split at h
  · rename_i hc
    obtain ⟨hr, ht⟩ := Prod.mk.inj (Option.some.inj h)
    obtain ⟨hlen, hmagic, hk, hkm, hvm, hbody⟩ := hc
    have hhdr : r.header = RecordT.ofBytes (s.take sizeofRecord) := by
      subst hr
      refine Rec.header_eq hmagic rfl rfl rfl ?_ ?_
      · rw [List.length_take]; omega
      · rw [List.length_take, List.length_drop]; omega
    have hs : s = s.take sizeofRecord ++ ((s.drop sizeofRecord).take
        (RecordT.ofBytes (s.take sizeofRecord)).keyLen.toNat ++ (((s.drop sizeofRecord).drop
        (RecordT.ofBytes (s.take sizeofRecord)).keyLen.toNat).take
        (RecordT.ofBytes (s.take sizeofRecord)).valueLen.toNat ++ t)) := by
      rw [← ht, ← List.drop_drop, List.take_append_drop, List.take_append_drop,
        List.take_append_drop]
    rw [Rec.bytes, hhdr, RecordT.bytes_ofBytes (by rw [List.length_take]; omega), ← hr]
    simpa only [List.append_assoc] using hs
  · nomatch h

/-- Fewer bytes than a header hold no record. -/
theorem nextRec_short {s : List UInt8} (h : s.length < sizeofRecord) : nextRec s = none := by
  apply dif_neg
  intro hc
  have := hc.1
  omega

/-- When `nextRec` finds a record, and which one: its header is what lies in the first 24 bytes,
    its key and its value are the bytes that follow. -/
theorem nextRec_some {s : List UInt8} {hdr : RecordT}
    (hhdr : hdr = RecordT.ofBytes (s.take sizeofRecord)) (hlen : sizeofRecord ≤ s.length)
    (hm : hdr.magic = kvdbMagic) (hk : 0 < hdr.keyLen.toNat)
    (hkm : hdr.keyLen.toNat ≤ kvdbMaxKey) (hvm : hdr.valueLen.toNat ≤ kvdbMaxValue)
    (hbody : hdr.keyLen.toNat + hdr.valueLen.toNat ≤ (s.drop sizeofRecord).length) :
    ∃ r t, nextRec s = some (r, t) ∧ r.header = hdr ∧
      r.key = (s.drop sizeofRecord).take hdr.keyLen.toNat ∧
      r.value = ((s.drop sizeofRecord).drop hdr.keyLen.toNat).take hdr.valueLen.toNat := by
  subst hhdr
  have hc := And.intro hlen (And.intro hm (And.intro hk (And.intro hkm (And.intro hvm hbody))))
  refine ⟨_, _, dif_pos hc, ?_, rfl, rfl⟩
  refine Rec.header_eq hm rfl rfl rfl ?_ ?_
  · rw [List.length_take]; omega
  · rw [List.length_take, List.length_drop]; omega

/-- The layout of the file. -/
def framing : Framing UInt8 Rec where
  enc := Rec.bytes
  next := nextRec
  enc_ne := fun r h => by
    have := congrArg List.length h
    simp [sizeofRecord] at this
  next_enc := nextRec_bytes
  next_sound := nextRec_sound

@[simp] theorem framing_enc (r : Rec) : framing.enc r = r.bytes := rfl
@[simp] theorem framing_next (s : List UInt8) : framing.next s = nextRec s := rfl

/-- The record is valid and its key is `key`. -/
def Rec.counts (key : List UInt8) (r : Rec) : Bool := r.valid && r.key == key

/-- The value of the last valid record of `key`. -/
def lookup (key : List UInt8) (file : List UInt8) : Option (List UInt8) :=
  (framing.lastOf (Rec.counts key) file).map Rec.value

/-- The records both scanners accept at the front of the file. -/
def validPrefix (file : List UInt8) : List Rec := framing.goodPrefix Rec.valid file

end Kvdb
