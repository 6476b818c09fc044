/-
  kvdb — a change of one byte is caught.

  1. **Program** — `fnv1a` over the lengths, the key and the value of a record, as `record_checksum`
     computes it, and what the two scanners make of a checksum that is off.
  2. **Specification** — one byte of a record is changed that is `Protected`, one of its key, its
     value or its checksum, and nothing else in the file.
  3. **The crux (`fnv1a_set`)** — a round of FNV-1a is injective in the byte and in the running
     state: an exclusive or, then a product with an odd number.  So a different byte makes a
     different state, and every later round carries the difference on.
  4. **From bytes to records** — `corrupted` puts this on records: there is a record of the same
     shape in the same place whose checksum is off.  `kvdb_get` walks past it, and
     `valid_prefix_end` stops in front of it (`corruption_caught`).
-/
import Mathlib.Data.List.TakeWhile
import MiniLabs.Kvdb.Longest

set_option linter.unusedVariables false

namespace Kvdb

open RecordLog World Words

/-! ## FNV-1a -/

/-- One round. -/
def fnvStep (h : UInt32) (p : UInt8) : UInt32 := (h ^^^ p.toUInt32) * 16777619

/-- The hash takes in one byte after the other. -/
theorem fnv1a_cons (p : UInt8) (data : List UInt8) (h : UInt32) :
    fnv1a (p :: data) h = fnv1a data (fnvStep h p) := by
  rw [fnv1a, List.foldl_cons, fnv1a, fnvStep]

/-- The FNV prime has an inverse. -/
theorem mul_prime_inj {a b : UInt32} (h : a * 16777619 = b * 16777619) : a = b := by
  have hinv : (16777619 : UInt32) * 899433627 = 1 := by decide
  calc a = a * (16777619 * 899433627) := by rw [hinv, UInt32.mul_one]
    _ = b * (16777619 * 899433627) := by rw [← UInt32.mul_assoc, h, UInt32.mul_assoc]
    _ = b := by rw [hinv, UInt32.mul_one]

/-- A step is injective in the state, as the factor is odd. -/
theorem fnvStep_state {h h' : UInt32} {p : UInt8} (heq : fnvStep h p = fnvStep h' p) : h = h' := by
  rw [fnvStep, fnvStep] at heq
  exact (UInt32.xor_left_inj _).mp (mul_prime_inj heq)

/-- A step is injective in the byte. -/
theorem fnvStep_byte {h : UInt32} {p p' : UInt8} (heq : fnvStep h p = fnvStep h p') : p = p' := by
  rw [fnvStep, fnvStep] at heq
  exact UInt8.toUInt32_inj.mp ((UInt32.xor_right_inj _).mp (mul_prime_inj heq))

/-- Different states stay different. -/
theorem fnv1a_state {data : List UInt8} {h h' : UInt32} (heq : fnv1a data h = fnv1a data h') :
    h = h' := by
  induction data generalizing h h' with
  | nil => exact heq
  | cons p data ih =>
    rw [fnv1a_cons, fnv1a_cons] at heq
    exact fnvStep_state (ih heq)

/-- **One byte.**  Another byte anywhere makes another hash. -/
theorem fnv1a_set {data : List UInt8} {i : Nat} {b : UInt8} (hi : i < data.length)
    (hb : data[i]? ≠ some b) (h : UInt32) : fnv1a (data.set i b) h ≠ fnv1a data h := by
  induction data generalizing i h with
  | nil => exact absurd hi (Nat.not_lt_zero i)
  | cons p data ih =>
    cases i with
    | zero =>
      rw [List.set_cons_zero, fnv1a_cons, fnv1a_cons]
      exact fun heq => hb (congrArg some (fnvStep_byte (fnv1a_state heq)).symm)
    | succ i =>
      rw [List.set_cons_succ, fnv1a_cons, fnv1a_cons]
      exact ih (Nat.lt_of_succ_lt_succ hi) hb (fnvStep h p)

/-! ## Records -/

namespace Rec

/-- The checksum is the hash of the two lengths, the key and the value, in this order. -/
theorem sum_eq (r : Rec) : r.sum = fnv1a r.value (fnv1a r.key (fnv1a (le32 r.header.valueLen)
    (fnv1a (le32 r.header.keyLen) 2166136261))) := by
  rw [sum, recordChecksum, header_keyLen, header_valueLen, List.take_length, List.take_length]

/-- The record with one byte of the key changed. -/
def setKey (r : Rec) (j : Nat) (b : UInt8) : Rec :=
  { r with
    key := r.key.set j b
    key_pos := by rw [List.length_set]; exact r.key_pos
    key_le := by rw [List.length_set]; exact r.key_le }

/-- The record with one byte of the value changed. -/
def setValue (r : Rec) (j : Nat) (b : UInt8) : Rec :=
  { r with
    value := r.value.set j b
    value_le := by rw [List.length_set]; exact r.value_le }

/-- The record with another checksum. -/
def setChecksum (r : Rec) (c : UInt32) : Rec := { r with checksum := c }

/-- Another byte in the key leaves the header. -/
theorem setKey_header (r : Rec) (j : Nat) (b : UInt8) : (r.setKey j b).header = r.header := by
  rw [header, header, setKey]
  dsimp only
  rw [List.length_set]

/-- Another byte in the value leaves the header. -/
theorem setValue_header (r : Rec) (j : Nat) (b : UInt8) : (r.setValue j b).header = r.header := by
  rw [header, header, setValue]
  dsimp only
  rw [List.length_set]

/-- A record whose checksum is off. -/
theorem not_valid {r : Rec} (h : r.sum ≠ r.checksum) : r.valid = false := by
  rw [valid, decide_eq_false]
  exact fun hv => h hv.2.symm

/-- A valid record has the checksum of its contents. -/
theorem sum_of_valid {r : Rec} (h : r.valid = true) : r.sum = r.checksum := by
  rw [valid, decide_eq_true_iff] at h
  exact h.2.symm

end Rec

section Changes

variable {r : Rec} {j : Nat} {b : UInt8}

/-- **Another byte in the key is another sum.**. -/
theorem setKey_sum (hvalid : r.valid = true) (hj : j < r.key.length) (hb : r.key[j]? ≠ some b) :
    (r.setKey j b).sum ≠ (r.setKey j b).checksum := by
  show _ ≠ r.checksum
  rw [← Rec.sum_of_valid hvalid, Rec.sum_eq, Rec.sum_eq, Rec.setKey_header]
  exact fun heq => fnv1a_set hj hb _ (fnv1a_state heq)

/-- **Another byte in the value is another sum.**. -/
theorem setValue_sum (hvalid : r.valid = true) (hj : j < r.value.length)
    (hb : r.value[j]? ≠ some b) : (r.setValue j b).sum ≠ (r.setValue j b).checksum := by
  show _ ≠ r.checksum
  rw [← Rec.sum_of_valid hvalid, Rec.sum_eq, Rec.sum_eq, Rec.setValue_header]
  exact fnv1a_set hj hb _

/-- The bytes of the key begin at 24. -/
theorem setKey_bytes (hj : j < r.key.length) : r.bytes.set (24 + j) b = (r.setKey j b).bytes := by
  have hlen : r.header.bytes.length = 24 := RecordT.length_bytes _
  rw [Rec.bytes, Rec.bytes, Rec.setKey_header, List.append_assoc, List.append_assoc,
    List.set_append_right _ _ (by omega), hlen, Nat.add_sub_cancel_left, List.set_append_left _ _ hj]
  rfl

/-- The bytes of the value begin behind the key. -/
theorem setValue_bytes : r.bytes.set (24 + r.key.length + j) b = (r.setValue j b).bytes := by
  have hlen : (r.header.bytes ++ r.key).length = 24 + r.key.length := by
    rw [List.length_append, RecordT.length_bytes, sizeofRecord]
  rw [Rec.bytes, Rec.bytes, Rec.setValue_header, List.set_append_right _ _ (by omega), hlen,
    Nat.add_sub_cancel_left]
  rfl

/-- Four bytes are the bytes of a word. -/
theorem le32_of_length {bs : List UInt8} (h : bs.length = 4) : le32 (ofLe32 bs) = bs := by
  match bs, h with
  | [a, c, d, e], _ => exact le32_ofLe32 a c d e []

/-- The checksum has the four bytes from 16 on. -/
theorem setChecksum_bytes (hj : j < 4) :
    r.bytes.set (16 + j) b
      = (r.setChecksum (ofLe32 ((le32 r.checksum).set j b))).bytes := by
  have hword : le32 (ofLe32 ((le32 r.checksum).set j b)) = (le32 r.checksum).set j b :=
    le32_of_length (by rw [List.length_set]; rfl)
  have hcut : ∀ s : Rec, s.bytes = (le32 kvdbMagic ++ le32 s.committed ++
      le32 (UInt32.ofNat s.key.length) ++ le32 (UInt32.ofNat s.value.length)) ++
      (le32 s.checksum ++ (le32 s.reserved ++ s.key ++ s.value)) := by
    intro s
    simp only [Rec.bytes, Rec.header, RecordT.bytes, List.append_assoc]
  have hlen : (le32 kvdbMagic ++ le32 r.committed ++ le32 (UInt32.ofNat r.key.length) ++
      le32 (UInt32.ofNat r.value.length)).length = 16 := rfl
  rw [hcut, hcut, List.set_append_right _ _ (by omega), hlen, Nat.add_sub_cancel_left,
    List.set_append_left _ _ (by rw [length_le32]; exact hj)]
  show _ = _ ++ (le32 (ofLe32 ((le32 r.checksum).set j b)) ++ _)
  rw [hword]
  rfl

/-- **Another checksum is not that of the contents.**. -/
theorem setChecksum_sum (hvalid : r.valid = true) {c : UInt32} (hc : c ≠ r.checksum) :
    (r.setChecksum c).sum ≠ (r.setChecksum c).checksum := by
  have hsum : (r.setChecksum c).sum = r.sum := rfl
  rw [hsum, Rec.sum_of_valid hvalid]
  exact hc.symm

/-- The places of a record that its checksum protects: the checksum, the key and the value. -/
def Rec.Protected (r : Rec) (k : Nat) : Prop := 16 ≤ k ∧ k < 20 ∨ 24 ≤ k ∧ k < r.bytes.length

/-- **One byte of a record.**  A valid record with a changed byte is a record that does not count. -/
theorem corrupted (hvalid : r.valid = true) {k : Nat} (hk : r.Protected k)
    (hb : r.bytes[k]? ≠ some b) :
    ∃ r' : Rec, r.bytes.set k b = r'.bytes ∧ r'.sum ≠ r'.checksum := by
  have hlen : r.header.bytes.length = 24 := RecordT.length_bytes _
  rcases hk with ⟨hge, hlt⟩ | ⟨hge, hlt⟩
  · obtain ⟨j, rfl⟩ := Nat.exists_eq_add_of_le hge
    have hj : j < 4 := by omega
    refine ⟨_, setChecksum_bytes hj, setChecksum_sum hvalid fun hsame => hb ?_⟩
    have hback := setChecksum_bytes (r := r) (b := b) hj
    rw [hsame] at hback
    have hbytes : r.bytes.set (16 + j) b = r.bytes := hback
    rw [← hbytes, List.getElem?_set_self]
    rw [Rec.length_bytes, sizeofRecord]
    omega
  · obtain ⟨j, rfl⟩ := Nat.exists_eq_add_of_le hge
    rw [Rec.length_bytes, sizeofRecord] at hlt
    rcases Nat.lt_or_ge j r.key.length with hkey | hvalue
    · refine ⟨_, setKey_bytes hkey, setKey_sum hvalid hkey fun hsame => hb ?_⟩
      rw [Rec.bytes, List.append_assoc, List.getElem?_append_right (by omega), hlen,
        Nat.add_sub_cancel_left, List.getElem?_append_left hkey]
      exact hsame
    · obtain ⟨i, rfl⟩ := Nat.exists_eq_add_of_le hvalue
      rw [← Nat.add_assoc] at hb ⊢
      refine ⟨_, setValue_bytes, setValue_sum hvalid (by omega) fun hsame => hb ?_⟩
      have hfront : (r.header.bytes ++ r.key).length = 24 + r.key.length := by
        rw [List.length_append, hlen]
      rw [Rec.bytes, List.getElem?_append_right (by omega), hfront, Nat.add_sub_cancel_left]
      exact hsame

end Changes

/-! ## Files -/

section Files

variable {pre post : List Rec} {r r' : Rec}

/-- A record that does not count is walked past. -/
theorem lookup_bad (hbad : r'.valid = false) (key : List UInt8) :
    lookup key (framing.encAll (pre ++ r' :: post)) = lookup key (framing.encAll (pre ++ post)) := by
  have hno : ¬ r'.counts key = true := by
    rw [Rec.counts, hbad]
    exact Bool.false_ne_true
  rw [lookup_encAll, lookup_encAll, lastValue, lastValue, List.filter_append,
    List.filter_cons_of_neg hno, List.filter_append]

/-- The valid prefix ends in front of it. -/
theorem goodEnd_bad (hpre : ∀ s ∈ pre, s.valid = true) (hbad : r'.valid = false) :
    framing.goodEnd Rec.valid (framing.encAll (pre ++ r' :: post))
      = (framing.encAll pre).length := by
  have hnil : framing.goodPrefix Rec.valid (framing.encAll (r' :: post)) = [] := by
    rw [Framing.goodPrefix, framing.encAll_cons, framing.walk_enc_append,
      List.takeWhile_cons_of_neg (by rw [hbad]; exact Bool.false_ne_true)]
  rw [Framing.goodEnd, framing.encAll_append, framing.goodPrefix_encAll_append hpre hnil]

/-- **Any change of one byte is caught.** -/
theorem corruption_caught (hvalid : ∀ s ∈ pre ++ r :: post, s.valid = true) {k : Nat}
    (hk : r.Protected k) {b : UInt8} (hb : r.bytes[k]? ≠ some b) :
    (RecordT.ofBytes (r.bytes.set k b)).checksum ≠
      recordChecksum (RecordT.ofBytes (r.bytes.set k b)).keyLen
        (RecordT.ofBytes (r.bytes.set k b)).valueLen
        (((r.bytes.set k b).drop 24).take (RecordT.ofBytes (r.bytes.set k b)).keyLen.toNat)
        (((r.bytes.set k b).drop 24).drop (RecordT.ofBytes (r.bytes.set k b)).keyLen.toNat) ∧
    (∀ key : CString, SameAnswers key (framing.encAll (pre ++ post))
      ((framing.encAll (pre ++ r :: post)).set ((framing.encAll pre).length + k) b)) ∧
    (∀ w : World, w.file
        = (framing.encAll (pre ++ r :: post)).set ((framing.encAll pre).length + k) b →
      w.Quiet → (validPrefixEnd w).1 = (framing.encAll pre).length) := by
  have hr : r.valid = true := hvalid r (List.mem_append_right _ List.mem_cons_self)
  obtain ⟨r', hbytes, hsum⟩ := corrupted hr hk hb
  have hbad := Rec.not_valid hsum
  have hin : k < r.bytes.length := by
    have hlen := r.length_bytes
    rw [sizeofRecord] at hlen
    rcases hk with ⟨-, hlt⟩ | ⟨-, hlt⟩
    · omega
    · exact hlt
  have hfile : (framing.encAll (pre ++ r :: post)).set ((framing.encAll pre).length + k) b
      = framing.encAll (pre ++ r' :: post) := by
    rw [framing.encAll_append, framing.encAll_append, framing.encAll_cons, framing.encAll_cons,
      List.set_append_right _ _ (Nat.le_add_right _ _), Nat.add_sub_cancel_left, framing_enc,
      framing_enc, List.set_append_left _ _ hin, hbytes]
  refine ⟨?_, fun key => ?_, fun w hw hq => ?_⟩
  · rw [hbytes, r'.ofBytes_bytes, r'.drop_bytes, Rec.header_keyLen, List.take_left,
      List.drop_left]
    exact hsum.symm
  · rw [hfile]
    exact SameAnswers.of_lookup fun _ => (lookup_bad hbad key.bytes).symm
  · rw [validPrefixEnd_spec hq, hw, hfile]
    exact congrArg Int.ofNat
      (goodEnd_bad (fun s hs => hvalid s (List.mem_append_left _ hs)) hbad)

end Files

/-- The second of two records loses its value byte. -/
theorem corruption_caught_second :
    SameAnswers (oneByte 98 (by decide))
      (framing.encAll ([smallRec kvdbCommitted 97 49] ++ []))
      ((framing.encAll ([smallRec kvdbCommitted 97 49] ++ smallRec kvdbCommitted 98 50 :: [])).set
        ((framing.encAll [smallRec kvdbCommitted 97 49]).length + 25) 51) := by
  have hvalid : ∀ s ∈ [smallRec kvdbCommitted 97 49] ++ smallRec kvdbCommitted 98 50 :: [],
      s.valid = true := by decide +kernel
  have hbyte : (smallRec kvdbCommitted 98 50).bytes[25]? ≠ some 51 := by decide +kernel
  exact (corruption_caught hvalid (Or.inr ⟨by decide, by decide⟩) hbyte).2.1 _

end Kvdb
