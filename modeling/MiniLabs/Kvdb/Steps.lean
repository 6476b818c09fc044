/-
  kvdb — `kvdb_put` and `kvdb_get`, one system call at a time.

  1. **Program** — `Kvdb.Code` has the two calls as functions of a world.  Here they are again as a
     machine: a `Place` is a place between two system calls, with the variables that the code still
     needs there, and `Place.step` makes the next call and goes on to the next place.  A place inside
     `read_all_or_eof` knows by its `Site` where it returns to, a place inside a scanner by its
     `Scan` which of the two scanners it is in, and a place inside `write_all` has the buffers that
     are still to be written.
  2. **Specification** — the functions of `Kvdb.Code`: from its start the machine gets to `Place.finished`
     with the result of the function, in the world that the function leaves (`put_runs`,
     `get_runs`).
  3. **The crux (`validPrefix_runs`, `getLoop_runs`)** — every loop of the source is a recursive
     function, and its machine runs to what the function returns by induction over the rounds: the
     reads and writes by the recursion of `readAllOrEof` and `writeAll`, the scanners by what a
     round leaves of the file.
  4. **What is idealised** — as in `Kvdb.Syscall`.  What the code computes between two system calls
     takes no step of its own: it touches nothing that another process can see.
-/
import MiniLabs.Kvdb.Put
import MiniLabs.Lib.Stepping

set_option linter.unusedVariables false

namespace Kvdb

open World Words

/-- What a call returns. -/
inductive Reply
  | put (rc : Int)
  | get (r : GetResult)

/-- The arguments of a call. -/
inductive Job
  | put (key value : List UInt8)
  | get (key : List UInt8) (buf : Bool) (length : Nat)

/-- What it returns when it fails. -/
def Job.failure : Job → Reply
  | .put _ _ => .put (-1)
  | .get _ _ _ => .get ⟨-1, []⟩

/-- The two scanners, with their variables. -/
inductive Scan
  /-- `valid_prefix_end`, with the offset of the record that is being read. -/
  | valid (key value : List UInt8) (validEnd recOff : Int)
  /-- The loop of `kvdb_get`, with the value found so far. -/
  | find (key : List UInt8) (buf : Bool) (length : Nat) (best : Option (List UInt8))

/-- The three calls of `read_all_or_eof` in a scanner. -/
inductive Site
  | header
  | key (hdr : RecordT)
  | value (hdr : RecordT) (key : List UInt8)

/-- A place between two system calls. -/
inductive Place
  /-- `flock(LOCK_EX)`. -/
  | lock (job : Job)
  /-- `lseek(fd, 0, SEEK_SET)`. -/
  | rewind (job : Job)
  /-- `lseek(fd, 0, SEEK_CUR)`. -/
  | tell (key value : List UInt8) (validEnd : Int)
  /-- `read` in `read_all_or_eof`, of which `got` is in the buffer. -/
  | read (scan : Scan) (site : Site) (len : Nat) (got : List UInt8)
  /-- `malloc` for the key. -/
  | mallocKey (scan : Scan) (hdr : RecordT)
  /-- `malloc` for the value; `key` says whether there was memory for the key. -/
  | mallocValue (scan : Scan) (hdr : RecordT) (key : Bool)
  /-- `malloc` for the copy of a value that was found. -/
  | copy (key : List UInt8) (buf : Bool) (length : Nat) (value : List UInt8)
  /-- `ftruncate`. -/
  | truncate (off : Int) (key value : List UInt8)
  /-- `lseek(fd, off, SEEK_SET)`. -/
  | seek (off : Int) (key value : List UInt8)
  /-- `write` in `write_all`, with what is left of its buffer and the buffers behind it. -/
  | write (off : Int) (bs : List UInt8) (buffers : List (List UInt8))
  /-- The first `fsync`. -/
  | sync (off : Int)
  /-- `pwrite` of the commit word. -/
  | commit (off : Int)
  /-- The second `fsync`. -/
  | syncCommit
  /-- `flock(LOCK_UN)`. -/
  | unlock (r : Reply)
  | finished (r : Reply)

/-- The result, when the call is over. -/
def Place.result : Place → Option Reply
  | .finished r => some r
  | _ => none

/-! ## Between the system calls -/

/-- `kvdb_put` behind `valid_prefix_end`. -/
def appendAt (key value : List UInt8) (off : Int) : Place :=
  if off < 0 then .unlock (.put (-1)) else .truncate off key value

/-- `kvdb_get` behind its loop. -/
def answerWith (buf : Bool) (length : Nat) : GetExit → Place
  | .break best => .unlock (.get (answer best buf length))
  | .out => .unlock (.get ⟨-1, []⟩)

/-- The loop of the scanner is left. -/
def Scan.stop : Scan → Place
  | .valid key value validEnd _ => appendAt key value validEnd
  | .find _ buf length best => answerWith buf length (.break best)

/-- An allocation has failed. -/
def Scan.noMemory : Scan → Place
  | .valid key value _ _ => appendAt key value (-1)
  | .find _ buf length _ => answerWith buf length .out

/-- The scanner does not go past this header. -/
def Scan.refuses : Scan → RecordT → Prop
  | .valid _ _ _ _, hdr => hdr.magic ≠ kvdbMagic ∨ hdr.committed ≠ kvdbCommitted ∨
      hdr.keyLen.toNat = 0 ∨ kvdbMaxKey < hdr.keyLen.toNat ∨ kvdbMaxValue < hdr.valueLen.toNat
  | .find _ _ _ _, hdr => hdr.magic ≠ kvdbMagic ∨
      hdr.keyLen.toNat = 0 ∨ kvdbMaxKey < hdr.keyLen.toNat ∨ kvdbMaxValue < hdr.valueLen.toNat

instance : (scan : Scan) → (hdr : RecordT) → Decidable (scan.refuses hdr)
  | .valid _ _ _ _, _ => inferInstanceAs (Decidable (_ ∨ _))
  | .find _ _ _ _, _ => inferInstanceAs (Decidable (_ ∨ _))

/-- A whole record has been read. -/
def Scan.record : Scan → RecordT → List UInt8 → List UInt8 → Place
  | .valid key value validEnd recOff, hdr, k, v =>
    if recordChecksum hdr.keyLen hdr.valueLen k v ≠ hdr.checksum then appendAt key value validEnd
    else .tell key value (recOff + sizeofRecord + hdr.keyLen.toNat + hdr.valueLen.toNat)
  | .find key buf length best, hdr, k, v =>
    if hdr.committed = kvdbCommitted ∧ hdr.checksum = recordChecksum hdr.keyLen hdr.valueLen k v ∧
        hdr.keyLen.toNat = key.length ∧ k.take key.length = key then
      .copy key buf length v
    else .read (.find key buf length best) .header sizeofRecord []

/-- `read_all_or_eof` has returned. -/
def Scan.got (scan : Scan) (site : Site) (code : Int) (data : List UInt8) : Place :=
  match site with
  | .header =>
    if code = 0 then scan.stop
    else if code < 0 ∨ scan.refuses (RecordT.ofBytes data) then scan.stop
    else .mallocKey scan (RecordT.ofBytes data)
  | .key hdr =>
    if code ≠ 1 then scan.stop else .read scan (.value hdr data) hdr.valueLen.toNat []
  | .value hdr key => if code ≠ 1 then scan.stop else scan.record hdr key data

/-- `write_all` has returned 0. -/
def wrote (off : Int) : List (List UInt8) → Place
  | [] => .sync off
  | bs :: buffers => .write off bs buffers

/-! ## The machine -/

/-- **The next system call**, and where the code goes from there. -/
def Place.step : Place → World → Place × World
  | .lock job, w =>
    match w.flock.1 with
    | .error .eintr => (.lock job, w.flock.2)
    | .error .other => (.finished job.failure, w.flock.2)
    | .ok () => (.rewind job, w.flock.2)
  | .rewind job, w =>
    if (w.lseekSet 0).1 < 0 then (.unlock job.failure, (w.lseekSet 0).2)
    else
      match job with
      | .put key value => (.tell key value 0, (w.lseekSet 0).2)
      | .get key buf length => (.read (.find key buf length none) .header sizeofRecord [],
          (w.lseekSet 0).2)
  | .tell key value validEnd, w =>
    if w.lseekCur.1 < 0 then (appendAt key value (-1), w.lseekCur.2)
    else (.read (.valid key value validEnd w.lseekCur.1) .header sizeofRecord [], w.lseekCur.2)
  | .read scan site len got, w =>
    if got.length < len then
      match (w.read (len - got.length)).1 with
      | .error .eintr => (.read scan site len got, (w.read (len - got.length)).2)
      | .error .other => (scan.got site (-1) got, (w.read (len - got.length)).2)
      | .ok bs =>
        if bs = [] then
          (scan.got site (if got.length = 0 then 0 else -1) got, (w.read (len - got.length)).2)
        else (.read scan site len (got ++ bs), (w.read (len - got.length)).2)
    else (scan.got site 1 got, w)
  | .mallocKey scan hdr, w => (.mallocValue scan hdr w.malloc.1, w.malloc.2)
  | .mallocValue scan hdr key, w =>
    if key = false ∨ w.malloc.1 = false then (scan.noMemory, w.malloc.2)
    else (.read scan (.key hdr) hdr.keyLen.toNat [], w.malloc.2)
  | .copy key buf length value, w =>
    if w.malloc.1 = false then (answerWith buf length .out, w.malloc.2)
    else (.read (.find key buf length (some value)) .header sizeofRecord [], w.malloc.2)
  | .truncate off key value, w =>
    if (w.ftruncate off.toNat).1 ≠ 0 then (.unlock (.put (-1)), (w.ftruncate off.toNat).2)
    else (.seek off key value, (w.ftruncate off.toNat).2)
  | .seek off key value, w =>
    if (w.lseekSet off.toNat).1 < 0 then (.unlock (.put (-1)), (w.lseekSet off.toNat).2)
    else (.write off (newRecord key value).bytes [key, value], (w.lseekSet off.toNat).2)
  | .write off bs buffers, w =>
    if bs = [] then (wrote off buffers, w)
    else
      match (w.write bs).1 with
      | .error .eintr => (.write off bs buffers, (w.write bs).2)
      | .error .other => (.unlock (.put (-1)), (w.write bs).2)
      | .ok n => (.write off (bs.drop n) buffers, (w.write bs).2)
  | .sync off, w =>
    if w.fsync.1 = 0 then (.commit off, w.fsync.2) else (.unlock (.put (-1)), w.fsync.2)
  | .commit off, w =>
    if (w.pwrite (le32 kvdbCommitted) (off.toNat + offsetofCommitted)).1 ≠ 4 then
      (.unlock (.put (-1)), (w.pwrite (le32 kvdbCommitted) (off.toNat + offsetofCommitted)).2)
    else (.syncCommit, (w.pwrite (le32 kvdbCommitted) (off.toNat + offsetofCommitted)).2)
  | .syncCommit, w =>
    if w.fsync.1 = 0 then (.unlock (.put 0), w.fsync.2) else (.unlock (.put (-1)), w.fsync.2)
  | .unlock r, w => (.finished r, unlockDb w)
  | .finished r, w => (.finished r, w)

/-- Some steps. -/
abbrev Runs : Place × World → Place × World → Prop := Stepping.Runs Place.step Place.result

/-! ## The transfers -/

/-- **`read_all_or_eof`**, by its own recursion. -/
theorem read_runs (scan : Scan) (site : Site) (len : Nat) (got : List UInt8) (w : World) :
    Runs (.read scan site len got, w)
      (scan.got site (readAllOrEof len got w).code (readAllOrEof len got w).data,
        (readAllOrEof len got w).world) := by
  induction got, w using readAllOrEof.induct len with
  | case1 got w hlt h ih =>
    rw [readAllOrEof_eintr hlt h]
    refine .next rfl ?_ ih
    rw [Place.step, if_pos hlt, h]
  | case2 got w hlt h =>
    rw [readAllOrEof_other hlt h]
    refine .one rfl ?_
    rw [Place.step, if_pos hlt, h]
  | case3 got w hlt h =>
    rw [readAllOrEof_eof hlt h]
    refine .one rfl ?_
    rw [Place.step, if_pos hlt, h]
    exact if_pos rfl
  | case4 got w hlt bs h hbs ih =>
    rw [readAllOrEof_more hlt hbs h]
    refine .next rfl ?_ ih
    rw [Place.step, if_pos hlt, h]
    exact if_neg hbs
  | case5 got w hge =>
    rw [readAllOrEof_done (by omega)]
    refine .one rfl ?_
    rw [Place.step, if_neg hge]

/-- **`write_all`**, by its own recursion. -/
theorem write_runs (off : Int) (buffers : List (List UInt8)) (bs : List UInt8) (w : World) :
    Runs (.write off bs buffers, w)
      (if (writeAll bs w).1 ≠ 0 then .unlock (.put (-1)) else wrote off buffers,
        (writeAll bs w).2) := by
  induction bs, w using writeAll.induct with
  | case1 w =>
    rw [writeAll, dif_pos rfl]
    exact .one rfl (by rw [Place.step, if_pos rfl]; rfl)
  | case2 bs w hbs h ih =>
    rw [writeAll_round hbs, h]
    refine .next rfl ?_ ih
    rw [Place.step, if_neg hbs, h]
  | case3 bs w hbs h =>
    rw [writeAll_round hbs, h]
    refine .one rfl ?_
    rw [Place.step, if_neg hbs, h]
    rfl
  | case4 bs w hbs n h ih =>
    rw [writeAll_round hbs, h]
    refine .next rfl ?_ ih
    rw [Place.step, if_neg hbs, h]

/-! ## The scanners -/

/-- The scanner behind a body. -/
def Scan.body (scan : Scan) (hdr : RecordT) : Option (List UInt8 × List UInt8) → Place
  | none => scan.stop
  | some (k, v) => scan.record hdr k v

/-- The machine reads a key and a value as `readBody` does. -/
theorem body_runs (scan : Scan) (hdr : RecordT) (w : World) :
    Runs (.read scan (.key hdr) hdr.keyLen.toNat [], w)
      (scan.body hdr (readBody hdr w).1, (readBody hdr w).2) := by
  refine (read_runs scan (.key hdr) hdr.keyLen.toNat [] w).trans ?_
  generalize hk : readAllOrEof hdr.keyLen.toNat [] w = k
  rw [readBody, hk, Scan.got]
  dsimp only
  by_cases hkey : k.code ≠ 1
  · rw [if_pos hkey, if_pos hkey]
    exact .refl _
  · rw [if_neg hkey, if_neg hkey]
    refine (read_runs scan (.value hdr k.data) hdr.valueLen.toNat [] k.world).trans ?_
    generalize readAllOrEof hdr.valueLen.toNat [] k.world = v
    rw [Scan.got]
    by_cases hvalue : v.code ≠ 1
    · rw [if_pos hvalue, if_pos hvalue]
      exact .refl _
    · rw [if_neg hvalue, if_neg hvalue]
      exact .refl _

/-- Where a round of a scanner leads. -/
def Scan.round (scan : Scan) (w : World) : Place × World :=
  let hdr := RecordT.ofBytes (headerAt w).data
  if (headerAt w).code = 0 then (scan.stop, (headerAt w).world)
  else if (headerAt w).code < 0 ∨ scan.refuses hdr then (scan.stop, (headerAt w).world)
  else if (headerAt w).world.malloc.1 = false ∨ (headerAt w).world.malloc.2.malloc.1 = false then
    (scan.noMemory, (headerAt w).world.malloc.2.malloc.2)
  else (scan.body hdr (bodyAt w).1, (bodyAt w).2)

/-- **A round**: the header, the two buffers and the body. -/
theorem round_runs (scan : Scan) (w : World) :
    Runs (.read scan .header sizeofRecord [], w) (scan.round w) := by
  refine (read_runs scan .header sizeofRecord [] w).trans ?_
  rw [Scan.round, Scan.got]
  change Runs (if (headerAt w).code = 0 then scan.stop
    else if (headerAt w).code < 0 ∨ scan.refuses (RecordT.ofBytes (headerAt w).data) then scan.stop
    else .mallocKey scan (RecordT.ofBytes (headerAt w).data), (headerAt w).world) _
  by_cases hend : (headerAt w).code = 0
  · rw [if_pos hend, if_pos hend]
    exact .refl _
  rw [if_neg hend, if_neg hend]
  by_cases hbad : (headerAt w).code < 0 ∨ scan.refuses (RecordT.ofBytes (headerAt w).data)
  · rw [if_pos hbad, if_pos hbad]
    exact .refl _
  rw [if_neg hbad, if_neg hbad]
  refine .next rfl rfl ?_
  by_cases hmem : (headerAt w).world.malloc.1 = false ∨
      (headerAt w).world.malloc.2.malloc.1 = false
  · rw [if_pos hmem]
    exact .one rfl (if_pos hmem)
  rw [if_neg hmem]
  exact .next rfl (if_neg hmem) (body_runs scan _ _)

/-- **`valid_prefix_end`**: a round goes on with less of the file behind it. -/
theorem validPrefix_runs (key value : List UInt8) (validEnd : Int) (w : World) :
    Runs (.tell key value validEnd, w)
      (appendAt key value (validPrefixLoop validEnd w).1, (validPrefixLoop validEnd w).2) := by
  induction hn : w.file.length - w.pos using Nat.strongRecOn generalizing validEnd w with
  | _ n ih =>
    subst hn
    rw [validPrefixLoop_eq]
    dsimp only
    by_cases hoff : w.lseekCur.1 < 0
    · rw [if_pos hoff]
      exact .one rfl (if_pos hoff)
    rw [if_neg hoff]
    refine .next rfl (if_neg hoff) ((round_runs _ _).trans ?_)
    rw [Scan.round]
    by_cases hend : (headerAt w.lseekCur.2).code = 0
    · rw [if_pos hend, if_pos hend]
      exact .refl _
    rw [if_neg hend, if_neg hend]
    by_cases hbad : (headerAt w.lseekCur.2).code < 0 ∨
        (Scan.valid key value validEnd w.lseekCur.1).refuses (RecordT.ofBytes (headerAt w.lseekCur.2).data)
    · rw [if_pos hbad]
      dsimp only [Scan.refuses] at hbad
      rw [if_pos hbad]
      exact .refl _
    rw [if_neg hbad]
    dsimp only [Scan.refuses] at hbad
    rw [if_neg hbad]
    by_cases hmem : (headerAt w.lseekCur.2).world.malloc.1 = false ∨
        (headerAt w.lseekCur.2).world.malloc.2.malloc.1 = false
    · rw [if_pos hmem, if_pos hmem]
      exact .refl _
    rw [if_neg hmem, if_neg hmem]
    cases hbody : (bodyAt w.lseekCur.2).1 with
    | none => exact .refl _
    | some kv =>
      dsimp only [Scan.body, Scan.record]
      split
      · exact .refl _
      · have hcode : 0 < (headerAt w.lseekCur.2).code := by omega
        have hless := scan_decreases (RecordT.ofBytes (headerAt w.lseekCur.2).data) hcode
        rw [lseekCur_file, lseekCur_pos] at hless
        exact ih _ hless _ _ rfl

/-- **The loop of `kvdb_get`**. -/
theorem getLoop_runs (key : List UInt8) (buf : Bool) (length : Nat) (best : Option (List UInt8))
    (w : World) :
    Runs (.read (.find key buf length best) .header sizeofRecord [], w)
      (answerWith buf length (getLoop key best w).1, (getLoop key best w).2) := by
  induction hn : w.file.length - w.pos using Nat.strongRecOn generalizing best w with
  | _ n ih =>
    subst hn
    refine (round_runs _ _).trans ?_
    rw [getLoop_eq, Scan.round]
    dsimp only
    by_cases hend : (headerAt w).code = 0
    · rw [if_pos hend, if_pos hend]
      exact .refl _
    rw [if_neg hend, if_neg hend]
    by_cases hbad : (headerAt w).code < 0 ∨
        (Scan.find key buf length best).refuses (RecordT.ofBytes (headerAt w).data)
    · rw [if_pos hbad]
      dsimp only [Scan.refuses] at hbad
      rw [if_pos hbad]
      exact .refl _
    rw [if_neg hbad]
    dsimp only [Scan.refuses] at hbad
    rw [if_neg hbad]
    by_cases hmem : (headerAt w).world.malloc.1 = false ∨
        (headerAt w).world.malloc.2.malloc.1 = false
    · rw [if_pos hmem, if_pos hmem]
      exact .refl _
    rw [if_neg hmem, if_neg hmem]
    have hcode : 0 < (headerAt w).code := by omega
    have hless := scan_decreases (RecordT.ofBytes (headerAt w).data) hcode
    cases hbody : (bodyAt w).1 with
    | none => exact .refl _
    | some kv =>
      dsimp only [Scan.body, Scan.record]
      split
      · by_cases hcopy : (bodyAt w).2.malloc.1 = false
        · rw [if_pos hcopy]
          exact .one rfl (if_pos hcopy)
        · rw [if_neg hcopy]
          refine .next rfl (if_neg hcopy) (ih _ ?_ _ _ rfl)
          rw [malloc_file, malloc_pos]
          exact hless
      · exact ih _ hless _ _ rfl

/-! ## The calls -/

/-- **`lock_db`**, by its own recursion. -/
theorem lock_runs (job : Job) (w : World) :
    Runs (.lock job, w)
      (if (lockDb w).1 ≠ 0 then .finished job.failure else .rewind job, (lockDb w).2) := by
  induction w using lockDb.induct with
  | case1 w h ih =>
    rw [lockDb_eintr h]
    refine .next rfl ?_ ih
    rw [Place.step, h]
  | case2 w h =>
    rw [lockDb_other h]
    refine .one rfl ?_
    rw [Place.step, h]
    rfl
  | case3 w h =>
    rw [lockDb_ok h]
    refine .one rfl ?_
    rw [Place.step, h]
    rfl

/-- **The `||` chain** up to the first `fsync`. -/
theorem append_runs (off : Int) (key value : List UInt8) (w : World) :
    Runs (appendAt key value off, w)
      (if (appendRecord off key value w).1 = false then .unlock (.put (-1)) else .commit off,
        (appendRecord off key value w).2) := by
  rw [appendAt, appendRecord]
  by_cases hoff : off < 0
  · rw [if_pos hoff, if_pos hoff]
    exact .refl _
  rw [if_neg hoff, if_neg hoff]
  dsimp only
  by_cases ht : (w.ftruncate off.toNat).1 ≠ 0
  · rw [if_pos ht]
    exact .one rfl (if_pos ht)
  rw [if_neg ht]
  refine .next rfl (if_neg ht) ?_
  generalize (w.ftruncate off.toNat).2 = w
  by_cases hs : (w.lseekSet off.toNat).1 < 0
  · rw [if_pos hs]
    exact .one rfl (if_pos hs)
  rw [if_neg hs]
  refine .next rfl (if_neg hs) ?_
  generalize (w.lseekSet off.toNat).2 = w
  refine (write_runs _ _ _ _).trans ?_
  by_cases hh : (writeAll (newRecord key value).bytes w).1 ≠ 0
  · rw [if_pos hh, if_pos hh]
    exact .refl _
  rw [if_neg hh, if_neg hh]
  generalize (writeAll (newRecord key value).bytes w).2 = w
  refine (write_runs _ _ _ _).trans ?_
  by_cases hk : (writeAll key w).1 ≠ 0
  · rw [if_pos hk, if_pos hk]
    exact .refl _
  rw [if_neg hk, if_neg hk]
  generalize (writeAll key w).2 = w
  refine (write_runs _ _ _ _).trans ?_
  by_cases hv : (writeAll value w).1 ≠ 0
  · rw [if_pos hv, if_pos hv]
    exact .refl _
  rw [if_neg hv, if_neg hv]
  generalize (writeAll value w).2 = w
  change Runs (.sync off, w) _
  refine .one rfl ?_
  rw [Place.step]
  by_cases hf : w.fsync.1 = 0
  · simp [hf]
  · simp [hf]

/-- **The commit.** -/
theorem commit_runs (off : Int) (w : World) :
    Runs (.commit off, w)
      (.unlock (.put (if (commitRecord off w).1 = false then -1 else 0)), (commitRecord off w).2) := by
  rw [commitRecord]
  dsimp only
  by_cases hp : (w.pwrite (le32 kvdbCommitted) (off.toNat + offsetofCommitted)).1 ≠ 4
  · rw [if_pos hp]
    exact .one rfl (if_pos hp)
  rw [if_neg hp]
  refine .next rfl (if_neg hp) (.one rfl ?_)
  rw [Place.step]
  by_cases hf : (w.pwrite (le32 kvdbCommitted) (off.toNat + offsetofCommitted)).2.fsync.1 = 0
  · simp [hf]
  · simp [hf]

/-- `kvdb_put` begins. -/
def putStart (key value : CString) : Place :=
  if key.strlen = 0 ∨ kvdbMaxKey < key.strlen ∨ kvdbMaxValue < value.strlen then .finished (.put (-1))
  else .lock (.put key.bytes value.bytes)

/-- `kvdb_get` begins. -/
def getStart (key : CString) (buf : Bool) (length : Nat) : Place :=
  if buf = false ∧ length ≠ 0 then .finished (.get ⟨-1, []⟩)
  else if key.strlen = 0 ∨ kvdbMaxKey < key.strlen then .finished (.get ⟨-1, []⟩)
  else .lock (.get key.bytes buf length)

/-- **The machine is `kvdb_put`.** -/
theorem put_runs {db : KvdbT} (hdb : 0 ≤ db.fd) (key value : CString) (w : World) :
    Runs (putStart key value, w)
      (.finished (.put (kvdbPut (some db) (some key) (some value) w).1),
        (kvdbPut (some db) (some key) (some value) w).2) := by
  rw [putStart, kvdbPut, if_neg (Int.not_lt.mpr hdb)]
  by_cases hlen : key.strlen = 0 ∨ kvdbMaxKey < key.strlen ∨ kvdbMaxValue < value.strlen
  · rw [if_pos hlen, if_pos hlen]
    exact .refl _
  rw [if_neg hlen, if_neg hlen]
  dsimp only
  refine (lock_runs _ w).trans ?_
  by_cases hlock : (lockDb w).1 ≠ 0
  · rw [if_pos hlock, if_pos hlock]
    exact .refl _
  rw [if_neg hlock, if_neg hlock]
  generalize (lockDb w).2 = w
  -- `valid_prefix_end` and the chain behind it
  have hend : Runs (.rewind (.put key.bytes value.bytes), w)
      (appendAt key.bytes value.bytes (validPrefixEnd w).1, (validPrefixEnd w).2) := by
    rw [validPrefixEnd]
    by_cases hseek : (w.lseekSet 0).1 < 0
    · rw [if_pos hseek]
      exact .one rfl (if_pos hseek)
    · rw [if_neg hseek]
      exact .next rfl (if_neg hseek) (validPrefix_runs _ _ _ _)
  refine hend.trans ?_
  generalize validPrefixEnd w = e
  refine (append_runs _ _ _ _).trans ?_
  generalize appendRecord e.1 key.bytes value.bytes e.2 = a
  by_cases ha : a.1 = false
  · rw [if_pos ha, if_pos ha]
    exact .one rfl rfl
  rw [if_neg ha, if_neg ha]
  refine (commit_runs _ _).trans ?_
  generalize commitRecord e.1 a.2 = c
  by_cases hc : c.1 = false
  · rw [if_pos hc, if_pos hc]
    exact .one rfl rfl
  · rw [if_neg hc, if_neg hc]
    exact .one rfl rfl

/-- **The machine is `kvdb_get`.** -/
theorem get_runs {db : KvdbT} (hdb : 0 ≤ db.fd) (key : CString) (buf : Bool) (length : Nat)
    (w : World) :
    Runs (getStart key buf length, w)
      (.finished (.get (kvdbGet (some db) (some key) buf length w).1),
        (kvdbGet (some db) (some key) buf length w).2) := by
  rw [getStart, kvdbGet]
  dsimp only
  by_cases hbuf : buf = false ∧ length ≠ 0
  · rw [if_pos hbuf, if_pos (.inr hbuf)]
    exact .refl _
  rw [if_neg hbuf, if_neg (not_or.mpr ⟨Int.not_lt.mpr hdb, hbuf⟩)]
  by_cases hlen : key.strlen = 0 ∨ kvdbMaxKey < key.strlen
  · rw [if_pos hlen, if_pos hlen]
    exact .refl _
  rw [if_neg hlen, if_neg hlen]
  refine (lock_runs _ w).trans ?_
  by_cases hlock : (lockDb w).1 ≠ 0
  · rw [if_pos hlock, if_pos hlock]
    exact .refl _
  rw [if_neg hlock, if_neg hlock]
  generalize (lockDb w).2 = w
  by_cases hseek : (w.lseekSet 0).1 < 0
  · rw [if_pos hseek]
    exact .next rfl (if_pos hseek) (.one rfl rfl)
  rw [if_neg hseek]
  refine .next rfl (if_neg hseek) ((getLoop_runs _ _ _ _ _).trans ?_)
  generalize getLoop key.bytes none (w.lseekSet 0).2 = g
  cases hexit : g.1 with
  | «break» best => exact .one rfl rfl
  | out => exact .one rfl rfl

/-! ## What a step does to the file -/

namespace World

variable (w : World)

/-- `lseek` writes nothing. -/
theorem lseekSet_reads (off : Nat) : w.Reads (w.lseekSet off).2 := by
  have hR := w.next_reads .lseek
  rw [lseekSet_eq]
  split
  · exact hR
  · exact ⟨hR.file, hR.trace, hR.later⟩

/-- `fsync` writes nothing. -/
theorem fsync_reads : w.Reads w.fsync.2 := by
  have hR := w.next_reads .fsync
  unfold fsync
  split <;> rename_i heq <;> rw [heq] at hR <;> exact hR

/-- `ftruncate` writes what it has emitted. -/
theorem ftruncate_wrote (len : Nat) : ∃ es, Wrote es w (w.ftruncate len).2 := by
  have hR := w.next_reads .ftruncate
  unfold ftruncate
  split <;> rename_i heq <;> rw [heq] at hR
  · exact ⟨_, hR.wrote⟩
  · exact ⟨_, hR.thenWrote (emit_wrote _ _)⟩

/-- `write` writes what it has emitted. -/
theorem write_wrote (bs : List UInt8) : ∃ es, Wrote es w (w.write bs).2 := by
  have hR := w.next_reads .write
  unfold write
  split <;> rename_i heq <;> rw [heq] at hR
  · exact ⟨_, hR.wrote⟩
  · exact ⟨_, hR.wrote⟩
  · exact ⟨_, hR.thenWrote (push_wrote _ _)⟩
  · exact ⟨_, hR.thenWrote (push_wrote _ _)⟩

/-- `pwrite` writes what it has emitted. -/
theorem pwrite_wrote (bs : List UInt8) (off : Nat) : ∃ es, Wrote es w (w.pwrite bs off).2 := by
  have hR := w.next_reads .pwrite
  unfold pwrite
  split <;> rename_i heq <;> rw [heq] at hR
  · exact ⟨_, hR.wrote⟩
  · exact ⟨_, hR.wrote⟩
  · exact ⟨_, hR.thenWrote (emit_wrote _ _)⟩
  · exact ⟨_, hR.thenWrote (emit_wrote _ _)⟩

end World

/-- **A step adds its effects** to those of the call, and makes them. -/
theorem step_wrote (pc : Place) (w : World) : ∃ es, Wrote es w (pc.step w).2 := by
  have hflock := w.flock_aside.toReads.wrote
  have hmalloc := w.malloc_aside.toReads.wrote
  have hfsync := w.fsync_reads.wrote
  cases pc with
  | lock job =>
    rw [Place.step]
    split <;> exact ⟨_, hflock⟩
  | rewind job =>
    have hseek := (w.lseekSet_reads 0).wrote
    cases job <;> rw [Place.step] <;> split <;> exact ⟨_, hseek⟩
  | tell key value validEnd =>
    have htell := w.lseekCur_aside.toReads.wrote
    rw [Place.step]
    split <;> exact ⟨_, htell⟩
  | read scan site len got =>
    have hread := (read_reads (len - got.length) w).wrote
    rw [Place.step]
    split
    · split
      · exact ⟨_, hread⟩
      · exact ⟨_, hread⟩
      · split <;> exact ⟨_, hread⟩
    · exact ⟨_, (Reads.refl w).wrote⟩
  | mallocKey scan hdr => exact ⟨_, hmalloc⟩
  | mallocValue scan hdr key =>
    rw [Place.step]
    split <;> exact ⟨_, hmalloc⟩
  | copy key buf length value =>
    rw [Place.step]
    split <;> exact ⟨_, hmalloc⟩
  | truncate off key value =>
    rw [Place.step]
    split <;> exact w.ftruncate_wrote _
  | seek off key value =>
    have hseek := (w.lseekSet_reads off.toNat).wrote
    rw [Place.step]
    split <;> exact ⟨_, hseek⟩
  | write off bs buffers =>
    rw [Place.step]
    split
    · exact ⟨_, (Reads.refl w).wrote⟩
    · split <;> exact w.write_wrote _
  | sync off =>
    rw [Place.step]
    split <;> exact ⟨_, hfsync⟩
  | commit off =>
    rw [Place.step]
    split <;> exact w.pwrite_wrote _ _
  | syncCommit =>
    rw [Place.step]
    split <;> exact ⟨_, hfsync⟩
  | unlock r => exact ⟨_, hflock⟩
  | finished r => exact ⟨_, (Reads.refl w).wrote⟩

/-- Some steps add their effects. -/
theorem Runs.wrote {a b : Place × World} (h : Runs a b) : ∃ es, Wrote es a.2 b.2 := by
  induction h with
  | refl => exact ⟨[], (Reads.refl _).wrote⟩
  | tail _ hstep ih =>
    obtain ⟨es, hes⟩ := ih
    obtain ⟨-, rfl⟩ := hstep
    obtain ⟨fs, hfs⟩ := step_wrote _ _
    exact ⟨es ++ fs, hes.trans hfs⟩

end Kvdb
