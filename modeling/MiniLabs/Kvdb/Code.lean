/-
  kvdb — the library itself, function by function.

  1. **Program** — `write_all`, `read_all_or_eof`, the two scanners, `kvdb_put` and `kvdb_get`, each
     under its own name over `World`.  The loops of the source are recursive functions; results keep
     the integer codes of the source (`-1` for errors, `1` and `0` of `read_all_or_eof`).
  2. **The crux (`scan_decreases`)** — each loop ends because a round either uses up one
     interruption of the schedule or moves the file offset towards the end of the file.
  3. **What is idealised** — the mutexes do not appear: a call holds the exclusive lock of the file
     for its whole body, so calls come one after the other (`Kvdb.Locks` has the lock and what it
     does not keep apart).  `malloc` gives memory or does not; what it gives is not shared.  The
     `off_t` offsets of `valid_prefix_end` are exact: there is no file of 2^63 bytes.
-/
import MiniLabs.Kvdb.Syscall
import MiniLabs.Lib.Words

set_option linter.unusedVariables false

namespace Kvdb

open Words

/-- `KVDB_MAGIC`. -/
def kvdbMagic : UInt32 := 0x4b564442
/-- `KVDB_COMMITTED`. -/
def kvdbCommitted : UInt32 := 0xc01117ed
/-- `KVDB_MAX_KEY`. -/
def kvdbMaxKey : Nat := 65536
/-- `KVDB_MAX_VALUE`. -/
def kvdbMaxValue : Nat := 16777216

/-- A C string: the bytes before the terminating NUL. -/
structure CString where
  bytes : List UInt8
  noNul : (0 : UInt8) ∉ bytes
  deriving DecidableEq

/-- `strlen`. -/
def CString.strlen (s : CString) : Nat := s.bytes.length

/-- `record_t`, the header that stands before the key and the value of each record. -/
structure RecordT where
  magic : UInt32
  committed : UInt32
  keyLen : UInt32
  valueLen : UInt32
  checksum : UInt32
  reserved : UInt32
  deriving DecidableEq, Repr

/-- `sizeof(record_t)`. -/
def sizeofRecord : Nat := 24

/-- `offsetof(record_t, committed)`. -/
def offsetofCommitted : Nat := 4

/-- The header as it lies in memory. -/
def RecordT.bytes (rec : RecordT) : List UInt8 :=
  le32 rec.magic ++ le32 rec.committed ++ le32 rec.keyLen ++ le32 rec.valueLen ++
    le32 rec.checksum ++ le32 rec.reserved

/-- The header that lies in a 24-byte buffer. -/
def RecordT.ofBytes (bs : List UInt8) : RecordT where
  magic := ofLe32 bs
  committed := ofLe32 (bs.drop 4)
  keyLen := ofLe32 (bs.drop 8)
  valueLen := ofLe32 (bs.drop 12)
  checksum := ofLe32 (bs.drop 16)
  reserved := ofLe32 (bs.drop 20)

/-- `fnv1a`. -/
def fnv1a (data : List UInt8) (h : UInt32) : UInt32 :=
  data.foldl (fun h p => (h ^^^ p.toUInt32) * 16777619) h

/-- `record_checksum`. -/
def recordChecksum (keyLen valueLen : UInt32) (key value : List UInt8) : UInt32 :=
  let h : UInt32 := 2166136261
  let h := fnv1a (le32 keyLen) h
  let h := fnv1a (le32 valueLen) h
  let h := fnv1a (key.take keyLen.toNat) h
  fnv1a (value.take valueLen.toNat) h

/-! ## Transfers that go on until all bytes are moved -/

/-- `write_all`: it goes on after a short write and after `EINTR`, and fails with any other
    error. -/
def writeAll (bs : List UInt8) (w : World) : Int × World :=
  if hbs : bs = [] then (0, w)
  else
    match h : (w.write bs).1 with
    | .error .eintr => writeAll bs (w.write bs).2
    | .error .other => (-1, (w.write bs).2)
    | .ok n => writeAll (bs.drop n) (w.write bs).2
termination_by (w.env .write).length + bs.length
decreasing_by
  · have := (World.write_measure hbs w).1 h
    omega
  · have := (World.write_measure hbs w).2 n h
    rw [List.length_drop]
    omega

/-- The result code of `read_all_or_eof`, the bytes it put into the buffer, and the state. -/
structure ReadResult where
  code : Int
  data : List UInt8
  world : World

/-- `read_all_or_eof`; `got` is what the buffer holds already, so `done` is its length. -/
def readAllOrEof (len : Nat) (got : List UInt8) (w : World) : ReadResult :=
  if hlt : got.length < len then
    match h : (w.read (len - got.length)).1 with
    | .error .eintr => readAllOrEof len got (w.read (len - got.length)).2
    | .error .other => ⟨-1, got, (w.read (len - got.length)).2⟩
    | .ok bs =>
      if hbs : bs = [] then
        ⟨if got.length = 0 then 0 else -1, got, (w.read (len - got.length)).2⟩
      else readAllOrEof len (got ++ bs) (w.read (len - got.length)).2
  else ⟨1, got, w⟩
termination_by (w.env .read).length + (len - got.length)
decreasing_by
  · have := (World.read_measure (show 0 < len - got.length by omega) w).1 h
    omega
  · have := (World.read_measure (show 0 < len - got.length by omega) w).2 bs h hbs
    rw [List.length_append]
    omega

/-! ### The rounds of `read_all_or_eof` -/

section Rounds

variable {len : Nat} {got : List UInt8} {w : World}

/-- Nothing is left to read. -/
theorem readAllOrEof_done (h : len ≤ got.length) : readAllOrEof len got w = ⟨1, got, w⟩ := by
  rw [readAllOrEof, dif_neg (by omega)]

/-- An interrupted `read` is made again. -/
theorem readAllOrEof_eintr (hlt : got.length < len)
    (h : (w.read (len - got.length)).1 = .error .eintr) :
    readAllOrEof len got w = readAllOrEof len got (w.read (len - got.length)).2 := by
  rw [readAllOrEof, dif_pos hlt]
  split <;> simp_all

/-- Any other failure ends the loop with `-1`, and what has been read is lost. -/
theorem readAllOrEof_other (hlt : got.length < len)
    (h : (w.read (len - got.length)).1 = .error .other) :
    readAllOrEof len got w = ⟨-1, got, (w.read (len - got.length)).2⟩ := by
  rw [readAllOrEof, dif_pos hlt]
  split <;> simp_all

/-- The end of the file is 0 in front of a record, and an error inside of one. -/
theorem readAllOrEof_eof (hlt : got.length < len) (h : (w.read (len - got.length)).1 = .ok []) :
    readAllOrEof len got w =
      ⟨if got.length = 0 then 0 else -1, got, (w.read (len - got.length)).2⟩ := by
  rw [readAllOrEof, dif_pos hlt]
  split <;> simp_all

/-- A `read` that brings something is followed by one for the rest. -/
theorem readAllOrEof_more (hlt : got.length < len) {bs : List UInt8} (hbs : bs ≠ [])
    (h : (w.read (len - got.length)).1 = .ok bs) :
    readAllOrEof len got w = readAllOrEof len (got ++ bs) (w.read (len - got.length)).2 := by
  rw [readAllOrEof, dif_pos hlt]
  split <;> simp_all

end Rounds

/-- What `read_all_or_eof` does whatever the environment: the file stays as it is, the buffer
    receives bytes of the file from the offset on, the offset moves past them, and a positive
    result code means that all the bytes asked for are there. -/
theorem readAllOrEof_take (len : Nat) (got : List UInt8) (w : World) :
    (readAllOrEof len got w).world.file = w.file ∧
    (readAllOrEof len got w).world.trace = w.trace ∧
    ∃ d, (readAllOrEof len got w).data = got ++ d ∧ d <+: w.file.drop w.pos ∧
      (readAllOrEof len got w).world.pos = w.pos + d.length ∧
      (0 < (readAllOrEof len got w).code → len ≤ got.length + d.length) := by
  induction got, w using readAllOrEof.induct len with
  | case1 got w hlt h ih =>
    rw [readAllOrEof_eintr hlt h]
    have hpos : (w.read (len - got.length)).2.pos = w.pos := World.read_error_pos h
    rw [World.read_file, World.read_trace, hpos] at ih
    exact ih
  | case2 got w hlt h =>
    rw [readAllOrEof_other hlt h]
    exact ⟨World.read_file _ _, World.read_trace _ _, [], by simp, List.nil_prefix,
      by simp [World.read_error_pos h], by simp⟩
  | case3 got w hlt h =>
    rw [readAllOrEof_eof hlt h]
    refine ⟨World.read_file _ _, World.read_trace _ _, [], by simp, List.nil_prefix,
      (World.read_ok h).2, ?_⟩
    split <;> simp
  | case4 got w hlt bs h hbs ih =>
    rw [readAllOrEof_more hlt hbs h]
    obtain ⟨hpre, hpos⟩ := World.read_ok h
    rw [World.read_file, World.read_trace, hpos] at ih
    obtain ⟨hf, ht, d, hd, hdpre, hdpos, hcode⟩ := ih
    refine ⟨hf, ht, bs ++ d, by rw [hd, List.append_assoc], ?_, ?_, ?_⟩
    · obtain ⟨s, hs⟩ := hpre
      obtain ⟨u, hu⟩ := hdpre
      have hsu : s = d ++ u := by
        rw [← List.drop_drop, ← hs, List.drop_left] at hu
        exact hu.symm
      exact ⟨u, by rw [List.append_assoc, ← hsu, hs]⟩
    · rw [hdpos, List.length_append]; omega
    · intro h; have := hcode h; rw [List.length_append] at this ⊢; omega
  | case5 got w hge =>
    rw [readAllOrEof_done (by omega)]
    exact ⟨rfl, rfl, [], by simp, List.nil_prefix, rfl, by simp; omega⟩

/-! ## The two scanners -/

/-- The body of a record: `none` unless both `read_all_or_eof` calls return 1. -/
def readBody (hdr : RecordT) (w : World) : Option (List UInt8 × List UInt8) × World :=
  let k := readAllOrEof hdr.keyLen.toNat [] w
  if k.code ≠ 1 then (none, k.world)
  else
    let v := readAllOrEof hdr.valueLen.toNat [] k.world
    if v.code ≠ 1 then (none, v.world)
    else (some (k.data, v.data), v.world)

/-- Reading a key and a value writes nothing, and the offset only grows. -/
theorem readBody_file (hdr : RecordT) (w : World) :
    (readBody hdr w).2.file = w.file ∧ (readBody hdr w).2.trace = w.trace ∧
      w.pos ≤ (readBody hdr w).2.pos := by
  obtain ⟨hf, ht, d, -, -, hp, -⟩ := readAllOrEof_take hdr.keyLen.toNat [] w
  obtain ⟨hf', ht', d', -, -, hp', -⟩ :=
    readAllOrEof_take hdr.valueLen.toNat [] (readAllOrEof hdr.keyLen.toNat [] w).world
  have hk : w.pos ≤ (readAllOrEof hdr.keyLen.toNat [] w).world.pos := by omega
  unfold readBody
  dsimp only
  split
  · exact ⟨hf, ht, hk⟩
  · split <;> exact ⟨hf'.trans hf, ht'.trans ht, Nat.le_trans hk (hp' ▸ Nat.le_add_right _ _)⟩

/-- The header was read in full and the offset has moved past it, inside the file. -/
theorem header_progress {w : World} (h : 0 < (readAllOrEof sizeofRecord [] w).code) :
    (readAllOrEof sizeofRecord [] w).world.file = w.file ∧
      w.pos < (readAllOrEof sizeofRecord [] w).world.pos ∧ w.pos < w.file.length := by
  obtain ⟨hf, -, d, -, hd, hp, hc⟩ := readAllOrEof_take sizeofRecord [] w
  have hlen := hc h
  have hle := hd.length_le
  simp only [sizeofRecord, List.length_nil, List.length_drop] at hlen hle
  exact ⟨hf, by omega, by omega⟩

/-- A round of either scanner moves the offset towards the end of the file. -/
theorem scan_decreases (hdr : RecordT) {w : World}
    (h : 0 < (readAllOrEof sizeofRecord [] w).code) :
    (readBody hdr (readAllOrEof sizeofRecord [] w).world.malloc.2.malloc.2).2.file.length -
        (readBody hdr (readAllOrEof sizeofRecord [] w).world.malloc.2.malloc.2).2.pos <
      w.file.length - w.pos := by
  obtain ⟨hf, hp, hlt⟩ := header_progress h
  obtain ⟨hbf, -, hbp⟩ :=
    readBody_file hdr (readAllOrEof sizeofRecord [] w).world.malloc.2.malloc.2
  simp only [World.malloc_file, World.malloc_pos] at hbf hbp
  rw [hbf, hf]
  omega

/-- The loop of `valid_prefix_end`: it stops in front of the first record that is not whole, not in
    shape, not committed or not what its checksum says, and where a `read` fails. -/
def validPrefixLoop (validEnd : Int) (w : World) : Int × World :=
  let recOff := w.lseekCur.1
  let w₁ := w.lseekCur.2
  if recOff < 0 then (-1, w₁)
  else
    let r := readAllOrEof sizeofRecord [] w₁
    if h0 : r.code = 0 then (validEnd, r.world)
    else
      let hdr := RecordT.ofBytes r.data
      if hbad : r.code < 0 ∨ hdr.magic ≠ kvdbMagic ∨ hdr.committed ≠ kvdbCommitted ∨
          hdr.keyLen.toNat = 0 ∨ kvdbMaxKey < hdr.keyLen.toNat ∨
          kvdbMaxValue < hdr.valueLen.toNat then (validEnd, r.world)
      else
        let k := r.world.malloc
        let v := k.2.malloc
        if k.1 = false ∨ v.1 = false then (-1, v.2)
        else
          let body := readBody hdr v.2
          match body.1 with
          | none => (validEnd, body.2)
          | some (key, value) =>
            if recordChecksum hdr.keyLen hdr.valueLen key value ≠ hdr.checksum then
              (validEnd, body.2)
            else
              validPrefixLoop (recOff + sizeofRecord + hdr.keyLen.toNat + hdr.valueLen.toNat)
                body.2
termination_by w.file.length - w.pos
decreasing_by
  have hr : 0 < r.code := by omega
  have hdec := scan_decreases hdr hr
  rwa [World.lseekCur_file, World.lseekCur_pos] at hdec

/-- `valid_prefix_end`. -/
def validPrefixEnd (w : World) : Int × World :=
  if (w.lseekSet 0).1 < 0 then (-1, (w.lseekSet 0).2)
  else validPrefixLoop 0 (w.lseekSet 0).2

/-- How the loop of `kvdb_get` ends: `break` with the value found so far, or `goto out` when
    an allocation failed. -/
inductive GetExit
  | break (best : Option (List UInt8))
  | out
  deriving DecidableEq, Repr

/-- The loop of `kvdb_get`: it remembers the last value of the key and steps over records that do
    not count.  Where a `read` fails it ends as it does at the end of the file. -/
def getLoop (key : List UInt8) (best : Option (List UInt8)) (w : World) : GetExit × World :=
  let r := readAllOrEof sizeofRecord [] w
  if h0 : r.code = 0 then (.break best, r.world)
  else
    let hdr := RecordT.ofBytes r.data
    if hbad : r.code < 0 ∨ hdr.magic ≠ kvdbMagic ∨ hdr.keyLen.toNat = 0 ∨
        kvdbMaxKey < hdr.keyLen.toNat ∨ kvdbMaxValue < hdr.valueLen.toNat then
      (.break best, r.world)
    else
      let k := r.world.malloc
      let v := k.2.malloc
      if k.1 = false ∨ v.1 = false then (.out, v.2)
      else
        let body := readBody hdr v.2
        match body.1 with
        | none => (.break best, body.2)
        | some (k, v) =>
          let checksum := recordChecksum hdr.keyLen hdr.valueLen k v
          if hdr.committed = kvdbCommitted ∧ hdr.checksum = checksum ∧
              hdr.keyLen.toNat = key.length ∧ k.take key.length = key then
            let copy := body.2.malloc
            if copy.1 = false then (.out, copy.2)
            else getLoop key (some v) copy.2
          else getLoop key best body.2
termination_by w.file.length - w.pos
decreasing_by
  · have hr : 0 < r.code := by omega
    have hdec := scan_decreases hdr hr
    rwa [← World.malloc_file body.2, ← World.malloc_pos body.2] at hdec
  · have hr : 0 < r.code := by omega
    exact scan_decreases hdr hr

/-! ## The calls of the library -/

/-- `struct kvdb_t`, as far as `kvdb_put` and `kvdb_get` look at it. -/
structure KvdbT where
  fd : Int
  deriving DecidableEq, Repr

/-- The `flock(LOCK_EX)` loop of `lock_db`, which goes on after `EINTR`. -/
def lockDb (w : World) : Int × World :=
  match h : w.flock.1 with
  | .error .eintr => lockDb w.flock.2
  | .error .other => (-1, w.flock.2)
  | .ok () => (0, w.flock.2)
termination_by (w.env .flock).length
decreasing_by exact World.flock_measure h

/-- `unlock_db`: the result of `flock(LOCK_UN)` is not looked at. -/
def unlockDb (w : World) : World := w.flock.2

/-- The header `kvdb_put` writes first: complete but not committed. -/
def newRecord (key value : List UInt8) : RecordT where
  magic := kvdbMagic
  committed := 0
  keyLen := UInt32.ofNat key.length
  valueLen := UInt32.ofNat value.length
  checksum := recordChecksum (UInt32.ofNat key.length) (UInt32.ofNat value.length) key value
  reserved := 0

/-- The `||` chain of `kvdb_put` up to the first `fsync`: true when every call succeeds. -/
def appendRecord (off : Int) (key value : List UInt8) (w : World) : Bool × World :=
  if off < 0 then (false, w)
  else
    let t := w.ftruncate off.toNat
    if t.1 ≠ 0 then (false, t.2)
    else
      let s := t.2.lseekSet off.toNat
      if s.1 < 0 then (false, s.2)
      else
        let h := writeAll (newRecord key value).bytes s.2
        if h.1 ≠ 0 then (false, h.2)
        else
          let k := writeAll key h.2
          if k.1 ≠ 0 then (false, k.2)
          else
            let v := writeAll value k.2
            if v.1 ≠ 0 then (false, v.2)
            else
              let f := v.2.fsync
              (f.1 = 0, f.2)

/-- The commit step of `kvdb_put`: one `pwrite` of the commit word, then `fsync`. -/
def commitRecord (off : Int) (w : World) : Bool × World :=
  let p := w.pwrite (le32 kvdbCommitted) (off.toNat + offsetofCommitted)
  if p.1 ≠ 4 then (false, p.2)
  else
    let f := p.2.fsync
    (f.1 = 0, f.2)

/-- `kvdb_put`: the end of the valid records is found, the file cut there, the record appended and
    committed.  A missing `db`, `key` or `value` is a NULL pointer. -/
def kvdbPut (db : Option KvdbT) (key value : Option CString) (w : World) : Int × World :=
  match db, key, value with
  | some db, some key, some value =>
    if db.fd < 0 then (-1, w)
    else if key.strlen = 0 ∨ kvdbMaxKey < key.strlen ∨ kvdbMaxValue < value.strlen then (-1, w)
    else
      let l := lockDb w
      if l.1 ≠ 0 then (-1, l.2)
      else
        let off := validPrefixEnd l.2
        let a := appendRecord off.1 key.bytes value.bytes off.2
        if a.1 = false then (-1, unlockDb a.2)
        else
          let c := commitRecord off.1 a.2
          if c.1 = false then (-1, unlockDb c.2) else (0, unlockDb c.2)
  | _, _, _ => (-1, w)

/-- The result of `kvdb_get` and the bytes it stores at the start of the caller's buffer. -/
structure GetResult where
  rc : Int
  stored : List UInt8
  deriving DecidableEq, Repr

/-- What `kvdb_get` answers for the value found; `buf` says whether the pointer is not NULL. -/
def answer (best : Option (List UInt8)) (buf : Bool) (length : Nat) : GetResult :=
  match best with
  | none => ⟨-1, []⟩
  | some best =>
    if buf = true ∧ 0 < length then
      let n := if length ≤ best.length then length - 1 else best.length
      ⟨n, best.take n ++ [0]⟩
    else ⟨0, []⟩

/-- `kvdb_get`: the file is read from its start, and the last value of the key copied as far as the
    buffer goes. -/
def kvdbGet (db : Option KvdbT) (key : Option CString) (buf : Bool) (length : Nat) (w : World) :
    GetResult × World :=
  match db, key with
  | some db, some key =>
    if db.fd < 0 ∨ (buf = false ∧ length ≠ 0) then (⟨-1, []⟩, w)
    else if key.strlen = 0 ∨ kvdbMaxKey < key.strlen then (⟨-1, []⟩, w)
    else
      let l := lockDb w
      if l.1 ≠ 0 then (⟨-1, []⟩, l.2)
      else
        let s := l.2.lseekSet 0
        if s.1 < 0 then (⟨-1, []⟩, unlockDb s.2)
        else
          let g := getLoop key.bytes none s.2
          match g.1 with
          | .break best => (answer best buf length, unlockDb g.2)
          | .out => (⟨-1, []⟩, unlockDb g.2)
  | _, _ => (⟨-1, []⟩, w)

end Kvdb
