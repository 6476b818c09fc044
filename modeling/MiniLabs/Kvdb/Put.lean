/-
  kvdb — what `kvdb_put` does to the file, effect by effect.

  1. **Program** — `appendRecord` and `commitRecord`, the two parts of `kvdb_put`, along the
     schedules of their calls, failing ones included (`appendRecord_outcome`,
     `commitRecord_outcome`).
  2. **Specification** — without failures a put that accepts its key and its value has a fixed list
     of effects, `putEffects`: cut the file at the end of its good prefix, append the uncommitted
     record byte by byte, overwrite the commit word byte by byte (`kvdbPut_effects`).
  3. **The crux (`applyAll_putEffects`)** — the file after any beginning of that list, that is, at
     every place where the process can die: the old file, or the good prefix followed by a beginning
     of the uncommitted record, or the good prefix followed by the whole record with some bytes of
     the commit word stored.
  4. **What is idealised** — as in `Kvdb.Syscall`; that a transfer reaches the file byte by byte in
     order is where a crash in the middle of it is decided.
-/
import MiniLabs.Kvdb.Scan

set_option linter.unusedVariables false

namespace Kvdb

open RecordLog World Words

/-! ## Effects of transfers -/

@[simp] theorem applyAll_nil (file : List UInt8) : applyAll [] file = file := rfl

/-- Effects are applied one behind the other. -/
theorem applyAll_append (es fs : List Effect) (file : List UInt8) :
    applyAll (es ++ fs) file = applyAll fs (applyAll es file) := List.foldl_append

/-- Each byte is one effect. -/
@[simp] theorem length_bytesAt (mk : Nat → UInt8 → Effect) (pos : Nat) (bs : List UInt8) :
    (bytesAt mk pos bs).length = bs.length := by
  induction bs generalizing pos with
  | nil => rfl
  | cons b bs ih => rw [bytesAt, List.length_cons, List.length_cons, ih]

/-- Bytes written behind one another. -/
theorem bytesAt_append (mk : Nat → UInt8 → Effect) (pos : Nat) (as bs : List UInt8) :
    bytesAt mk pos (as ++ bs) = bytesAt mk pos as ++ bytesAt mk (pos + as.length) bs := by
  induction as generalizing pos with
  | nil => rfl
  | cons a as ih =>
    rw [List.cons_append, bytesAt, bytesAt, ih, List.length_cons, List.cons_append,
      Nat.add_right_comm, Nat.add_assoc]

/-- The first effects are those of the first bytes. -/
theorem take_bytesAt (mk : Nat → UInt8 → Effect) (pos : Nat) (bs : List UInt8) (n : Nat) :
    (bytesAt mk pos bs).take n = bytesAt mk pos (bs.take n) := by
  induction bs generalizing pos n with
  | nil => simp [bytesAt]
  | cons b bs ih =>
    cases n with
    | zero => rfl
    | succ n => rw [bytesAt, List.take_succ_cons, List.take_succ_cons, bytesAt, ih]

/-- Writing at the end of the file appends. -/
theorem applyAll_write (file bs : List UInt8) :
    applyAll (bytesAt .write file.length bs) file = file ++ bs := by
  induction bs generalizing file with
  | nil => rw [bytesAt, applyAll_nil, List.append_nil]
  | cons b bs ih =>
    have hb : Effect.apply file (.write file.length b) = file ++ [b] := by
      simp [Effect.apply, setByte]
    have := ih (file ++ [b])
    rw [List.length_append, List.length_singleton] at this
    rw [bytesAt, applyAll, List.foldl_cons, hb, ← applyAll, this, List.append_assoc]
    rfl

/-- Overwriting in the middle of the file replaces the bytes there. -/
theorem applyAll_pwrite (front old back bs : List UInt8) (h : bs.length = old.length) :
    applyAll (bytesAt .pwrite front.length bs) (front ++ (old ++ back)) =
      front ++ (bs ++ back) := by
  induction bs generalizing front old with
  | nil =>
    obtain rfl : old = [] := List.length_eq_zero_iff.mp h.symm
    rfl
  | cons b bs ih =>
    obtain ⟨o, old', rfl⟩ : ∃ o old', old = o :: old' := by
      cases old with
      | nil => simp at h
      | cons o old' => exact ⟨o, old', rfl⟩
    have hb : Effect.apply (front ++ (o :: old' ++ back)) (.pwrite front.length b) =
        (front ++ [b]) ++ (old' ++ back) := by
      simp [Effect.apply, setByte]
    have := ih (front ++ [b]) old' (by simpa using h)
    rw [List.length_append, List.length_singleton] at this
    rw [bytesAt, applyAll, List.foldl_cons, hb, ← applyAll, this]
    simp

namespace World

/-- `w'` is reached from `w` by calls whose effects on the file are `es`. -/
structure Wrote (es : List Effect) (w w' : World) : Prop where
  file : w'.file = applyAll es w.file
  trace : w'.trace = w.trace ++ es
  later : ∀ c, w'.env c <:+ w.env c

/-- What only reads has written nothing. -/
theorem Reads.wrote {w w' : World} (h : w.Reads w') : Wrote [] w w' :=
  ⟨h.file, by rw [h.trace, List.append_nil], h.later⟩

/-- What was written is written in this order. -/
theorem Wrote.trans {es fs : List Effect} {w w' w'' : World} (h : Wrote es w w')
    (h' : Wrote fs w' w'') : Wrote (es ++ fs) w w'' :=
  ⟨by rw [h'.file, h.file, applyAll_append], by rw [h'.trace, h.trace, List.append_assoc],
    fun c => (h'.later c).trans (h.later c)⟩

/-- Reading afterwards adds nothing to what was written. -/
theorem Wrote.reads {es : List Effect} {w w' w'' : World} (h : Wrote es w w')
    (h' : w'.Reads w'') : Wrote es w w'' := by
  simpa using h.trans h'.wrote

/-- Reading before adds nothing to what was written. -/
theorem Reads.thenWrote {es : List Effect} {w w' w'' : World} (h : w.Reads w')
    (h' : Wrote es w' w'') : Wrote es w w'' := by
  simpa using h.wrote.trans h'

/-- Writing uses up the schedule, so it stays quiet. -/
theorem Wrote.quietBut {es : List Effect} {w w' : World} (h : Wrote es w w')
    (hq : w.QuietBut) : w'.QuietBut := quietBut_of_later h.later hq

/-- What is emitted is what was written. -/
theorem emit_wrote (es : List Effect) (w : World) : Wrote es w (w.emit es) :=
  ⟨rfl, rfl, fun _ => List.suffix_refl _⟩

/-- `write` writes its bytes from the offset on. -/
theorem push_wrote (bs : List UInt8) (w : World) :
    Wrote (bytesAt .write w.pos bs) w (w.push bs) := ⟨rfl, rfl, fun _ => List.suffix_refl _⟩

/-- A `write` that transfers `n` bytes stores the first `n` and moves the offset past them. -/
theorem write_ok {bs : List UInt8} {w : World} {n : Nat} (h : (w.write bs).1 = .ok n) :
    Wrote (bytesAt .write w.pos (bs.take n)) w (w.write bs).2 ∧
      (w.write bs).2.pos = w.pos + (bs.take n).length := by
  have hR := w.next_reads .write
  have hp := w.next_pos .write
  unfold write at h ⊢
  split at h <;> rename_i heq <;> rw [heq] at hR hp <;> dsimp only at hR hp
  · nomatch h
  · nomatch h
  · obtain rfl := Except.ok.inj h
    rw [List.take_length, ← hp]
    exact ⟨hR.thenWrote (push_wrote _ _), rfl⟩
  · rename_i m w'
    obtain rfl := Except.ok.inj h
    have hmin : bs.take (min bs.length (m + 1)) = bs.take (m + 1) := by
      rcases Nat.le_total bs.length (m + 1) with hle | hle
      · rw [Nat.min_eq_left hle, List.take_length, List.take_of_length_le hle]
      · rw [Nat.min_eq_right hle]
    rw [hmin, ← hp]
    exact ⟨hR.thenWrote (push_wrote _ _), rfl⟩

/-- A `write` that fails has written nothing and stays where it is. -/
theorem write_eintr {bs : List UInt8} {w : World} {e : Errno} (h : (w.write bs).1 = .error e) :
    w.Reads (w.write bs).2 ∧ (w.write bs).2.pos = w.pos := by
  have hR := w.next_reads .write
  have hp := w.next_pos .write
  unfold write at h ⊢
  split at h <;> rename_i heq <;> rw [heq] at hR hp
  · exact ⟨hR, hp⟩
  · exact ⟨hR, hp⟩
  · nomatch h
  · nomatch h

/-- `write` uses up its own schedule only. -/
theorem write_env_ne {c : Call} (hc : c ≠ .write) (bs : List UInt8) (w : World) :
    (w.write bs).2.env c = w.env c := by
  have he := next_env_ne hc w
  unfold write
  split <;> rename_i w' heq <;> rw [heq] at he <;> exact he

/-- `write` uses up one entry of its schedule. -/
theorem write_env (bs : List UInt8) (w : World) :
    (w.write bs).2.env .write = (w.env .write).tail := by
  have he := next_env_self .write w
  unfold write
  split <;> rename_i w' heq <;> rw [heq] at he <;> exact he

/-- One `write` moves as many bytes along the schedule as it transfers. -/
theorem transfer_write {bs : List UInt8} (hbs : bs ≠ []) (w : World) :
    match (w.write bs).1 with
    | .error .eintr =>
      transfer bs.length (w.env .write) = transfer bs.length ((w.write bs).2.env .write)
    | .error .other => transfer bs.length (w.env .write) = none
    | .ok n =>
      transfer bs.length (w.env .write) =
        transfer (bs.drop n).length ((w.write bs).2.env .write) := by
  obtain ⟨k, hk⟩ := Nat.exists_eq_succ_of_ne_zero (mt List.length_eq_zero_iff.mp hbs)
  rw [write_env, hk]
  unfold write next
  cases hs : w.env .write with
  | nil => simp [transfer]
  | cons o s =>
    cases o with
    | ok => simp [transfer]
    | short m =>
      show transfer (k - m) s = transfer (bs.drop (min bs.length (m + 1))).length s
      rw [List.length_drop, hk]
      congr 1
      omega
    | eintr => rfl
    | fail => rfl

end World

/-- The bytes that a failing `write_all` got to the file: a beginning of all it was given. -/
def Began (off : Nat) (bs : List UInt8) (w w' : World) : Prop :=
  ∃ m, m ≤ bs.length ∧ Wrote (bytesAt .write off (bs.take m)) w w'

/-- What has begun on some bytes has begun on more. -/
theorem Began.extend {off : Nat} {as : List UInt8} {w w' : World} (h : Began off as w w')
    (bs : List UInt8) : Began off (as ++ bs) w w' := by
  obtain ⟨m, hm, hW⟩ := h
  refine ⟨m, by rw [List.length_append]; omega, ?_⟩
  rwa [List.take_append_of_le_length hm]

/-- What has written some bytes and begun on the next has begun on both. -/
theorem Began.behind {off : Nat} {as bs : List UInt8} {w w' w'' : World}
    (h : Wrote (bytesAt .write off as) w w') (h' : Began (off + as.length) bs w' w'') :
    Began off (as ++ bs) w w'' := by
  obtain ⟨m, hm, hW⟩ := h'
  refine ⟨as.length + m, by rw [List.length_append]; omega, ?_⟩
  rw [List.take_length_add_append, bytesAt_append]
  exact h.trans hW

/-- The rounds of `write_all`. -/
theorem writeAll_round {bs : List UInt8} (hbs : bs ≠ []) (w : World) :
    writeAll bs w =
      match (w.write bs).1 with
      | .error .eintr => writeAll bs (w.write bs).2
      | .error .other => (-1, (w.write bs).2)
      | .ok n => writeAll (bs.drop n) (w.write bs).2 := by
  rw [writeAll, dif_neg hbs]
  split <;> simp_all

/-- `write_all` uses up the schedule of `write` only. -/
theorem writeAll_env_ne {c : Call} (hc : c ≠ .write) (bs : List UInt8) (w : World) :
    (writeAll bs w).2.env c = w.env c := by
  induction bs, w using writeAll.induct with
  | case1 w => rw [writeAll, dif_pos rfl]
  | case2 bs w hbs h ih => rw [writeAll_round hbs, h, ih, write_env_ne hc]
  | case3 bs w hbs h => rw [writeAll_round hbs, h, write_env_ne hc]
  | case4 bs w hbs n h ih => rw [writeAll_round hbs, h, ih, write_env_ne hc]

/-- `write_all` along a schedule: all the bytes, if the schedule has room for them; otherwise
    -1, with a beginning of the bytes in the file. -/
theorem writeAll_schedule (bs : List UInt8) (w : World) :
    (∃ s, transfer bs.length (w.env .write) = some s ∧ (writeAll bs w).1 = 0 ∧
      Wrote (bytesAt .write w.pos bs) w (writeAll bs w).2 ∧
      (writeAll bs w).2.pos = w.pos + bs.length ∧ (writeAll bs w).2.env .write = s) ∨
    (transfer bs.length (w.env .write) = none ∧ (writeAll bs w).1 = -1 ∧
      Began w.pos bs w (writeAll bs w).2) := by
  induction bs, w using writeAll.induct with
  | case1 w =>
    rw [writeAll, dif_pos rfl, List.length_nil, transfer_zero]
    exact Or.inl ⟨_, rfl, rfl, (Reads.refl w).wrote, rfl, rfl⟩
  | case2 bs w hbs h ih =>
    obtain ⟨hR, hp⟩ := write_eintr h
    have ht := transfer_write hbs w
    rw [h] at ht
    rw [writeAll_round hbs, h, ht]
    rw [hp] at ih
    rcases ih with ⟨s, hs, h0, hW, hpos, hs'⟩ | ⟨hn, h1, m, hm, hW⟩
    · exact Or.inl ⟨s, hs, h0, hR.thenWrote hW, hpos, hs'⟩
    · exact Or.inr ⟨hn, h1, m, hm, hR.thenWrote hW⟩
  | case3 bs w hbs h =>
    obtain ⟨hR, -⟩ := write_eintr h
    have ht := transfer_write hbs w
    rw [h] at ht
    rw [writeAll_round hbs, h, ht]
    exact Or.inr ⟨rfl, rfl, 0, Nat.zero_le _, hR.wrote⟩
  | case4 bs w hbs n h ih =>
    obtain ⟨hW, hp⟩ := write_ok h
    have ht := transfer_write hbs w
    rw [h] at ht
    rw [writeAll_round hbs, h, ht]
    rw [hp] at ih
    rcases ih with ⟨s, hs, h0, hW', hpos, hs'⟩ | ⟨hn, h1, hB⟩
    · refine Or.inl ⟨s, hs, h0, ?_, ?_, hs'⟩
      · have hsplit : bytesAt .write w.pos bs = bytesAt .write w.pos (bs.take n) ++
            bytesAt .write (w.pos + (bs.take n).length) (bs.drop n) := by
          rw [← bytesAt_append, List.take_append_drop]
        rw [hsplit]
        exact hW.trans hW'
      · dsimp only
        rw [hpos, Nat.add_assoc, ← List.length_append, List.take_append_drop]
    · have hbegan := Began.behind hW hB
      rw [List.take_append_drop] at hbegan
      exact Or.inr ⟨hn, h1, hbegan⟩

/-! ## The effects of a put -/

/-- The lengths `kvdb_put` accepts. -/
def Accepts (key value : List UInt8) : Prop :=
  0 < key.length ∧ key.length ≤ kvdbMaxKey ∧ value.length ≤ kvdbMaxValue

/-- The record of `key` and `value` with commit word `c`. -/
def Rec.new (c : UInt32) {key value : List UInt8} (h : Accepts key value) : Rec where
  committed := c
  checksum := recordChecksum (UInt32.ofNat key.length) (UInt32.ofNat value.length) key value
  reserved := 0
  key := key
  value := value
  key_pos := h.1
  key_le := h.2.1
  value_le := h.2.2

section Effects

variable {key value : List UInt8} (h : Accepts key value)

@[simp] theorem Rec.new_key (c : UInt32) : (Rec.new c h).key = key := rfl
@[simp] theorem Rec.new_value (c : UInt32) : (Rec.new c h).value = value := rfl

/-- Only the commit word decides whether the record counts. -/
theorem Rec.new_valid (c : UInt32) : (Rec.new c h).valid = decide (c = kvdbCommitted) := by
  simp only [Rec.valid, Rec.sum, Rec.new, Rec.header, and_true]

/-- The bytes of the new record, before it is committed. -/
theorem Rec.new_bytes : (Rec.new 0 h).bytes = (newRecord key value).bytes ++ key ++ value := rfl

/-- All the effects of a put whose record begins at `off`. -/
def putEffects (off : Nat) : List Effect :=
  .truncate off :: (bytesAt .write off (Rec.new 0 h).bytes ++
    bytesAt .pwrite (off + offsetofCommitted) (le32 kvdbCommitted))

/-- The commit word after its first `j` bytes were stored. -/
def commitWord (j : Nat) : UInt32 := ofLe32 ((le32 kvdbCommitted).take j ++ (le32 0).drop j)

/-- A commit word that is written halfway. -/
theorem le32_commitWord (j : Nat) :
    le32 (commitWord j) = (le32 kvdbCommitted).take j ++ (le32 0).drop j := by
  match j with
  | 0 | 1 | 2 | 3 => decide
  | j + 4 =>
    rw [commitWord, List.take_of_length_le (by rw [length_le32]; omega),
      List.drop_of_length_le (by rw [length_le32]; omega), ofLe32_le32, List.append_nil]

/-- The commit word is whole only when all four of its bytes are there. -/
theorem commitWord_eq_iff (j : Nat) : commitWord j = kvdbCommitted ↔ 4 ≤ j := by
  match j with
  | 0 | 1 | 2 | 3 => decide
  | j + 4 =>
    refine ⟨fun _ => by omega, fun _ => le32_inj ?_⟩
    rw [le32_commitWord, List.take_of_length_le (by rw [length_le32]; omega),
      List.drop_of_length_le (by rw [length_le32]; omega), List.append_nil]

/-- What is behind the offset is cut off before anything is written. -/
theorem applyAll_truncate {file : List UInt8} {off : Nat} (hoff : off ≤ file.length)
    (es : List Effect) : applyAll (.truncate off :: es) file = applyAll es (file.take off) := by
  rw [applyAll, List.foldl_cons, Effect.apply, Nat.sub_eq_zero_of_le hoff, List.replicate_zero,
    List.append_nil]
  rfl

/-- A put that dies while it appends leaves a beginning of the uncommitted record. -/
theorem applyAll_putEffects_append {file : List UInt8} {off : Nat} (hoff : off ≤ file.length)
    {m : Nat} (hm : m ≤ (Rec.new 0 h).bytes.length) :
    applyAll ((putEffects h off).take (1 + m)) file =
      file.take off ++ (Rec.new 0 h).bytes.take m := by
  have hlen : (file.take off).length = off := by rw [List.length_take]; omega
  rw [putEffects, Nat.add_comm, List.take_succ_cons, applyAll_truncate hoff,
    List.take_append_of_le_length (by rw [length_bytesAt]; exact hm), take_bytesAt]
  have := applyAll_write (file.take off) ((Rec.new 0 h).bytes.take m)
  rwa [hlen] at this

/-- A put that dies while it commits leaves the whole record, its commit word begun. -/
theorem applyAll_putEffects_commit {file : List UInt8} {off : Nat} (hoff : off ≤ file.length)
    (j : Nat) :
    applyAll ((putEffects h off).take (1 + ((Rec.new 0 h).bytes.length + j))) file =
      file.take off ++ (Rec.new (commitWord j) h).bytes := by
  have hlen : (file.take off).length = off := by rw [List.length_take]; omega
  have happ := applyAll_write (file.take off) (Rec.new 0 h).bytes
  rw [hlen] at happ
  -- the commit word is what stands between the magic and the rest of the record
  have hcut : ∀ c, (Rec.new c h).bytes = le32 kvdbMagic ++ (le32 c ++
      (le32 (UInt32.ofNat key.length) ++ (le32 (UInt32.ofNat value.length) ++
        (le32 (Rec.new 0 h).checksum ++ (le32 0 ++ (key ++ value)))))) := by
    intro c
    simp only [Rec.bytes, Rec.header, RecordT.bytes, Rec.new, List.append_assoc]
  rw [putEffects, Nat.add_comm 1, List.take_succ_cons, applyAll_truncate hoff, List.take_append,
    List.take_of_length_le (by rw [length_bytesAt]; omega), length_bytesAt,
    Nat.add_sub_cancel_left, take_bytesAt, applyAll_append, happ, hcut 0, hcut (commitWord j),
    le32_commitWord]
  generalize le32 (UInt32.ofNat key.length) ++ (le32 (UInt32.ofNat value.length) ++
    (le32 (Rec.new 0 h).checksum ++ (le32 0 ++ (key ++ value)))) = back
  have hfront : (file.take off ++ le32 kvdbMagic).length = off + offsetofCommitted := by
    rw [List.length_append, hlen]; rfl
  have hover := applyAll_pwrite (file.take off ++ le32 kvdbMagic) ((le32 0).take j)
    ((le32 0).drop j ++ back) ((le32 kvdbCommitted).take j)
    (by rw [List.length_take, List.length_take]; rfl)
  rw [hfront] at hover
  rw [← List.append_assoc, ← List.append_assoc (file.take off)]
  have hsplit : le32 0 ++ back = (le32 0).take j ++ ((le32 0).drop j ++ back) := by
    rw [← List.append_assoc, List.take_append_drop]
  rw [hsplit, hover]
  simp only [List.append_assoc]

/-- A put cuts the file once and then writes its record and the commit word. -/
@[simp] theorem length_putEffects (off : Nat) :
    (putEffects h off).length = 1 + ((Rec.new 0 h).bytes.length + 4) := by
  rw [putEffects, List.length_cons, List.length_append, length_bytesAt, length_bytesAt,
    length_le32, Nat.add_comm]

/-- The file after a complete put. -/
theorem applyAll_putEffects {file : List UInt8} {off : Nat} (hoff : off ≤ file.length) :
    applyAll (putEffects h off) file = file.take off ++ (Rec.new kvdbCommitted h).bytes := by
  have := applyAll_putEffects_commit h hoff 4
  rwa [← length_putEffects h off, List.take_length, (commitWord_eq_iff 4).mpr (Nat.le_refl _)]
    at this

end Effects

/-- The effects up to the first `j` bytes of the commit word. -/
theorem take_putEffects {key value : List UInt8} (h : Accepts key value) (off j : Nat) :
    (putEffects h off).take (1 + ((Rec.new 0 h).bytes.length + j)) =
      (.truncate off :: bytesAt .write off (Rec.new 0 h).bytes) ++
        bytesAt .pwrite (off + offsetofCommitted) ((Words.le32 kvdbCommitted).take j) := by
  rw [putEffects, Nat.add_comm 1, List.take_succ_cons, List.take_append,
    List.take_of_length_le (by rw [length_bytesAt]; omega), length_bytesAt,
    Nat.add_sub_cancel_left, take_bytesAt, List.cons_append]

/-! ## The calls of a put -/

namespace World

/-- `ftruncate` fails and does nothing, or cuts the file. -/
theorem ftruncate_eq (len : Nat) (w : World) :
    w.ftruncate len = if (w.next .ftruncate).1 = .fail then (-1, (w.next .ftruncate).2)
      else (0, (w.next .ftruncate).2.emit [.truncate len]) := by
  unfold ftruncate
  split <;> rename_i heq <;> rw [heq]
  · rfl
  · rename_i hne
    exact (if_neg hne).symm

/-- `fsync` writes nothing that a reader could see. -/
theorem fsync_eq (w : World) :
    w.fsync = (if (w.next .fsync).1 = .fail then -1 else 0, (w.next .fsync).2) := by
  unfold fsync
  split <;> rename_i heq <;> rw [heq]
  · rfl
  · rename_i hne
    rw [if_neg hne]

end World

/-- The calls of `kvdb_put` from `ftruncate` to the first `fsync` succeed. -/
structure Appends (key value : List UInt8) (env : Call → List Outcome) : Prop where
  truncates : Outcome.fail ∉ (env .ftruncate).take 1
  seeks : Outcome.fail ∉ (env .lseek).take 1
  writes : transferPut key value (env .write) ≠ none
  syncs : Outcome.fail ∉ (env .fsync).take 1

/-- A `pwrite` of four bytes that turns out so stores them all. -/
def Outcome.whole : Outcome → Bool
  | .ok => true
  | .short n => 3 ≤ n
  | .eintr => false
  | .fail => false

/-- The three `write_all` calls of `kvdb_put`. -/
def writeRecord (key value : List UInt8) (w : World) : Bool × World :=
  let h := writeAll (newRecord key value).bytes w
  if h.1 ≠ 0 then (false, h.2)
  else
    let k := writeAll key h.2
    if k.1 ≠ 0 then (false, k.2)
    else
      let v := writeAll value k.2
      (v.1 = 0, v.2)

/-- The append, call by call. -/
theorem appendRecord_eq (off : Nat) (key value : List UInt8) (w : World) :
    appendRecord off key value w =
      let t := w.ftruncate off
      let s := t.2.lseekSet off
      let r := writeRecord key value s.2
      if t.1 ≠ 0 then (false, t.2)
      else if s.1 < 0 then (false, s.2)
      else if r.1 = false then (false, r.2)
      else (r.2.fsync.1 = 0, r.2.fsync.2) := by
  rw [appendRecord, if_neg (by omega), Int.toNat_natCast]
  dsimp only
  congr 2
  rw [writeRecord]
  dsimp only
  split
  · rfl
  split
  · rfl
  split
  · rename_i hv
    rw [if_pos (decide_eq_false hv)]
  · rename_i hv
    rw [if_neg (by rwa [decide_eq_false_iff_not])]

/-- The record is written whole, or a beginning of it. -/
theorem writeRecord_outcome {key value : List UInt8} (h : Accepts key value) (w : World) :
    (∀ c, c ≠ .write → (writeRecord key value w).2.env c = w.env c) ∧
    (((writeRecord key value w).1 = true ∧ transferPut key value (w.env .write) ≠ none ∧
      Wrote (bytesAt .write w.pos (Rec.new 0 h).bytes) w (writeRecord key value w).2) ∨
    ((writeRecord key value w).1 = false ∧ transferPut key value (w.env .write) = none ∧
      Began w.pos (Rec.new 0 h).bytes w (writeRecord key value w).2)) := by
  have hlen : (newRecord key value).bytes.length = sizeofRecord := RecordT.length_bytes _
  have henv : ∀ (bs : List UInt8) (w : World) c, c ≠ .write → (writeAll bs w).2.env c = w.env c :=
    fun bs w c hc => writeAll_env_ne hc bs w
  rw [writeRecord, transferPut, Rec.new_bytes]
  dsimp only
  rcases writeAll_schedule (newRecord key value).bytes w with
    ⟨s₁, hs₁, ha, hWa, hpa, hea⟩ | ⟨hna, ha, hB⟩
  swap
  · -- the header does not get through
    rw [hlen] at hna
    rw [ha, if_pos (by decide), hna, List.append_assoc]
    exact ⟨henv _ w, Or.inr ⟨rfl, rfl, hB.extend _⟩⟩
  rw [hlen] at hs₁
  rw [ha, if_neg (by decide), hs₁, Option.bind_some]
  obtain ⟨w₁, hw₁⟩ : ∃ w₁, w₁ = (writeAll (newRecord key value).bytes w).2 := ⟨_, rfl⟩
  have he₁ : ∀ c, c ≠ .write → w₁.env c = w.env c := by
    rw [hw₁]
    exact henv _ w
  rw [← hw₁] at hWa hpa hea ⊢
  rcases writeAll_schedule key w₁ with ⟨s₂, hs₂, hb, hWb, hpb, heb⟩ | ⟨hnb, hb, hB⟩
  swap
  · -- the key does not
    rw [hea] at hnb
    rw [hpa] at hB
    rw [hb, if_pos (by decide), hnb]
    exact ⟨fun c hc => (henv _ w₁ c hc).trans (he₁ c hc),
      Or.inr ⟨rfl, rfl, (Began.behind hWa hB).extend _⟩⟩
  rw [hea] at hs₂
  rw [hpa] at hWb hpb
  have hWab := hWa.trans hWb
  rw [← bytesAt_append] at hWab
  rw [hb, if_neg (by decide), hs₂, Option.bind_some]
  obtain ⟨w₂, hw₂⟩ : ∃ w₂, w₂ = (writeAll key w₁).2 := ⟨_, rfl⟩
  have he₂ : ∀ c, c ≠ .write → w₂.env c = w.env c := by
    intro c hc
    rw [hw₂, henv _ w₁ c hc, he₁ c hc]
  rw [← hw₂] at hWab hpb heb ⊢
  rw [Nat.add_assoc, ← List.length_append] at hpb
  rcases writeAll_schedule value w₂ with ⟨s₃, hs₃, hc, hWc, -, -⟩ | ⟨hnc, hc, hB⟩
  · rw [heb] at hs₃
    rw [hpb] at hWc
    rw [hc, hs₃, bytesAt_append]
    exact ⟨fun c hc => (henv _ w₂ c hc).trans (he₂ c hc),
      Or.inl ⟨rfl, Option.some_ne_none s₃, hWab.trans hWc⟩⟩
  · -- the value does not
    rw [heb] at hnc
    rw [hpb] at hB
    rw [hc, hnc]
    exact ⟨fun c hc => (henv _ w₂ c hc).trans (he₂ c hc),
      Or.inr ⟨rfl, rfl, Began.behind hWab hB⟩⟩

/-- A beginning of the record behind the cut is a beginning of the effects. -/
theorem Began.effects {key value : List UInt8} (h : Accepts key value) {off : Nat}
    {w w' w'' : World} (hT : Wrote [.truncate off] w w')
    (hB : Began off (Rec.new 0 h).bytes w' w'') :
    ∃ n, n ≤ 1 + (Rec.new 0 h).bytes.length ∧ Wrote ((putEffects h off).take n) w w'' := by
  obtain ⟨m, hm, hW⟩ := hB
  refine ⟨1 + m, by omega, ?_⟩
  have htake : (putEffects h off).take (1 + m) =
      [.truncate off] ++ bytesAt .write off ((Rec.new 0 h).bytes.take m) := by
    rw [putEffects, Nat.add_comm, List.take_succ_cons,
      List.take_append_of_le_length (by rw [length_bytesAt]; exact hm), take_bytesAt]
    rfl
  rw [htake]
  exact hT.trans hW

/-- **The calls up to the first `fsync`**: the whole record without its commit word, or a
    beginning of the effects up to there. -/
theorem appendRecord_outcome {key value : List UInt8} (h : Accepts key value) (off : Nat)
    (w : World) :
    ((appendRecord off key value w).1 = true ∧ Appends key value w.env ∧
      Wrote (.truncate off :: bytesAt .write off (Rec.new 0 h).bytes) w
        (appendRecord off key value w).2 ∧
      (appendRecord off key value w).2.env .fsync = (w.env .fsync).tail ∧
      (appendRecord off key value w).2.env .pwrite = w.env .pwrite) ∨
    ((appendRecord off key value w).1 = false ∧ ¬ Appends key value w.env ∧
      ∃ n, n ≤ 1 + (Rec.new 0 h).bytes.length ∧
        Wrote ((putEffects h off).take n) w (appendRecord off key value w).2) := by
  rw [appendRecord_eq, ftruncate_eq]
  by_cases ht : (w.next .ftruncate).1 = .fail
  · rw [if_pos ht]
    refine Or.inr ⟨rfl, fun hA => (next_take_one _ w).mp hA.truncates ht, 0, Nat.zero_le _, ?_⟩
    exact (next_reads _ w).wrote
  rw [if_neg ht]
  -- `w₁` is the state behind `ftruncate`
  obtain ⟨w₁, hw₁⟩ : ∃ w₁, w₁ = (w.next .ftruncate).2.emit [.truncate off] := ⟨_, rfl⟩
  have hT : Wrote [.truncate off] w w₁ := by
    rw [hw₁]
    exact (next_reads _ w).thenWrote (emit_wrote _ _)
  have he₁ : ∀ c, c ≠ .ftruncate → w₁.env c = w.env c := by
    intro c hc
    rw [hw₁]
    exact next_env_ne hc w
  rw [← hw₁]
  dsimp only
  rw [if_neg (by decide), lseekSet_eq]
  by_cases hl : (w₁.next .lseek).1 = .fail
  · rw [if_pos hl, if_pos (show (-1 : Int) < 0 by decide)]
    refine Or.inr ⟨rfl, fun hA => ?_, 1, by omega, ?_⟩
    · refine (next_take_one _ w₁).mp ?_ hl
      rw [he₁ _ (by decide)]
      exact hA.seeks
    · rw [putEffects]
      exact hT.reads (next_reads _ w₁)
  rw [if_neg hl, if_neg (show ¬ (off : Int) < 0 by omega)]
  -- `w₂` is the state behind `lseek`
  obtain ⟨w₂, hw₂⟩ : ∃ w₂, w₂ = (w₁.next .lseek).2.seek off := ⟨_, rfl⟩
  have hT₂ : Wrote [.truncate off] w w₂ := by
    have hR := next_reads .lseek w₁
    rw [hw₂]
    exact hT.reads ⟨hR.file, hR.trace, hR.later⟩
  have he₂ : ∀ c, c ≠ .ftruncate → c ≠ .lseek → w₂.env c = w.env c := by
    intro c hc hc'
    rw [hw₂, ← he₁ c hc]
    exact next_env_ne hc' w₁
  have hp₂ : w₂.pos = off := by rw [hw₂]; rfl
  rw [← hw₂]
  dsimp only
  obtain ⟨henv, hwrite⟩ := writeRecord_outcome h w₂
  rw [hp₂, he₂ .write (by decide) (by decide)] at hwrite
  rcases hwrite with ⟨hr, hput, hW⟩ | ⟨hr, hput, hB⟩
  swap
  · rw [if_pos hr]
    exact Or.inr ⟨rfl, fun hA => hA.writes hput, hB.effects h hT₂⟩
  rw [if_neg (by rw [hr]; decide)]
  -- `w₃` is the state in front of `fsync`
  obtain ⟨w₃, hw₃⟩ : ∃ w₃, w₃ = (writeRecord key value w₂).2 := ⟨_, rfl⟩
  have he₃ : ∀ c, c ≠ .ftruncate → c ≠ .lseek → c ≠ .write → w₃.env c = w.env c := by
    intro c h1 h2 h3
    rw [hw₃, henv c h3, he₂ c h1 h2]
  rw [← hw₃] at hW ⊢
  rw [fsync_eq]
  by_cases hf : (w₃.next .fsync).1 = .fail
  · rw [if_pos hf]
    refine Or.inr ⟨rfl, fun hA => ?_, Began.effects h hT₂ ⟨_, Nat.le_refl _, ?_⟩⟩
    · refine (next_take_one _ w₃).mp ?_ hf
      rw [he₃ _ (by decide) (by decide) (by decide)]
      exact hA.syncs
    · rw [List.take_length]
      exact hW.reads (next_reads _ w₃)
  · rw [if_neg hf]
    refine Or.inl ⟨rfl, ⟨?_, ?_, hput, ?_⟩, hT₂.trans (hW.reads (next_reads _ w₃)), ?_, ?_⟩
    · exact (next_take_one _ w).mpr ht
    · rw [← he₁ _ (by decide)]
      exact (next_take_one _ w₁).mpr hl
    · rw [← he₃ _ (by decide) (by decide) (by decide)]
      exact (next_take_one _ w₃).mpr hf
    · show (w₃.next .fsync).2.env .fsync = _
      rw [next_env_self, he₃ _ (by decide) (by decide) (by decide)]
    · show (w₃.next .fsync).2.env .pwrite = _
      rw [next_env_ne (by decide), he₃ _ (by decide) (by decide) (by decide)]

namespace World

/-- `pwrite` uses up its own schedule only. -/
theorem pwrite_env_ne {c : Call} (hc : c ≠ .pwrite) (bs : List UInt8) (off : Nat) (w : World) :
    (w.pwrite bs off).2.env c = w.env c := by
  have he := next_env_ne hc w
  unfold pwrite
  split <;> rename_i w' heq <;> rw [heq] at he <;> exact he

/-- The `pwrite` of four bytes stores them all or returns something else than 4. -/
theorem pwrite_outcome {bs : List UInt8} (hbs : bs.length = 4) (off : Nat) (w : World) :
    ((∀ o ∈ (w.env .pwrite).take 1, o.whole = true) ∧ (w.pwrite bs off).1 = 4 ∧
      Wrote (bytesAt .pwrite off bs) w (w.pwrite bs off).2) ∨
    ((¬ ∀ o ∈ (w.env .pwrite).take 1, o.whole = true) ∧ (w.pwrite bs off).1 ≠ 4 ∧
      ∃ j, j ≤ 3 ∧ Wrote (bytesAt .pwrite off (bs.take j)) w (w.pwrite bs off).2) := by
  have hR := next_reads .pwrite w
  have hnext : (w.next .pwrite).1 = (w.env .pwrite).headD .ok := by
    unfold next
    split <;> rename_i h <;> rw [h] <;> rfl
  have hwhole : (∀ o ∈ (w.env .pwrite).take 1, o.whole = true) ↔
      (w.next .pwrite).1.whole = true := by
    rw [hnext]
    cases w.env .pwrite with
    | nil => simp [Outcome.whole]
    | cons o s => simp
  rw [hwhole]
  obtain ⟨o, w', hn⟩ : ∃ o w', w.next .pwrite = (o, w') := ⟨_, _, rfl⟩
  rw [hn] at hR
  rw [pwrite, hn]
  dsimp only at hR ⊢
  cases o with
  | ok => exact Or.inl ⟨rfl, by rw [hbs]; rfl, hR.thenWrote (emit_wrote _ _)⟩
  | short n =>
    rcases Nat.lt_or_ge n 3 with hlt | hge
    · refine Or.inr ⟨?_, ?_, n + 1, by omega, hR.thenWrote (emit_wrote _ _)⟩
      · simp only [Outcome.whole, decide_eq_true_eq]
        omega
      · dsimp only
        rw [hbs]
        omega
    · refine Or.inl ⟨?_, ?_, ?_⟩
      · simp only [Outcome.whole, decide_eq_true_eq]
        exact hge
      · dsimp only
        rw [hbs]
        omega
      · dsimp only
        rw [List.take_of_length_le (by omega)]
        exact hR.thenWrote (emit_wrote _ _)
  | eintr =>
    exact Or.inr ⟨by decide, show (-1 : Int) ≠ 4 by decide, 0, Nat.zero_le 3, hR.wrote⟩
  | fail =>
    exact Or.inr ⟨by decide, show (-1 : Int) ≠ 4 by decide, 0, Nat.zero_le 3, hR.wrote⟩

end World

/-- The `pwrite` and the `fsync` of the commit step succeed. -/
structure Commits (env : Call → List Outcome) : Prop where
  commits : ∀ o ∈ (env .pwrite).take 1, o.whole = true
  syncs : Outcome.fail ∉ (env .fsync).take 1

/-- **The commit step**: it fails with a part of the commit word in the file, or, when only the
    `fsync` fails, with all of it. -/
theorem commitRecord_outcome (off : Nat) (w : World) :
    ((commitRecord off w).1 = true ∧ Commits w.env ∧
      Wrote (bytesAt .pwrite (off + offsetofCommitted) (Words.le32 kvdbCommitted)) w
        (commitRecord off w).2) ∨
    ((commitRecord off w).1 = false ∧ ¬ Commits w.env ∧ ∃ j, j ≤ 4 ∧
      (j = 4 ↔ ∀ o ∈ (w.env .pwrite).take 1, o.whole = true) ∧
      Wrote (bytesAt .pwrite (off + offsetofCommitted) ((Words.le32 kvdbCommitted).take j)) w
        (commitRecord off w).2) := by
  rw [commitRecord, Int.toNat_natCast]
  rcases pwrite_outcome (Words.length_le32 kvdbCommitted) (off + offsetofCommitted) w with
    ⟨hwhole, h4, hW⟩ | ⟨hpart, h4, j, hj, hW⟩
  · dsimp only
    rw [if_neg (fun h => h h4)]
    rw [fsync_eq]
    obtain ⟨w₁, hw₁⟩ : ∃ w₁, w₁ =
      (w.pwrite (Words.le32 kvdbCommitted) (off + offsetofCommitted)).2 := ⟨_, rfl⟩
    have he : w₁.env .fsync = w.env .fsync := by rw [hw₁, pwrite_env_ne (by decide)]
    rw [← hw₁] at hW ⊢
    have hW' := hW.reads (next_reads .fsync w₁)
    by_cases hf : (w₁.next .fsync).1 = .fail
    · rw [if_pos hf]
      refine Or.inr ⟨rfl, fun hC => ?_, 4, Nat.le_refl 4, iff_of_true rfl hwhole, hW'⟩
      refine (next_take_one _ w₁).mp ?_ hf
      rw [he]
      exact hC.syncs
    · rw [if_neg hf]
      refine Or.inl ⟨rfl, ⟨hwhole, ?_⟩, hW'⟩
      rw [← he]
      exact (next_take_one _ w₁).mpr hf
  · dsimp only
    rw [if_pos h4]
    exact Or.inr ⟨rfl, fun hC => hpart hC.commits, j, by omega,
      iff_of_false (by omega) hpart, hW⟩

/-- In a quiet world every call of the append succeeds. -/
theorem appends_quiet {w : World} (hq : w.QuietBut) (key value : List UInt8) :
    Appends key value w.env where
  truncates := fun h => hq.1 .ftruncate (by decide) (List.mem_of_mem_take h)
  seeks := fun h => hq.1 .lseek (by decide) (List.mem_of_mem_take h)
  writes := transferPut_quiet key value (hq.1 .write (by decide))
  syncs := fun h => hq.1 .fsync (by decide) (List.mem_of_mem_take h)

/-- In a quiet world every call of the commit succeeds. -/
theorem commits_quiet {w : World} (hq : w.QuietBut) : Commits w.env where
  commits := by
    intro o ho
    rw [hq.2 o (List.mem_of_mem_take ho)]
    rfl
  syncs := fun h => hq.1 .fsync (by decide) (List.mem_of_mem_take h)

/-- In a quiet world the whole record is appended. -/
theorem appendRecord_quiet {w : World} (hq : w.QuietBut) {key value : List UInt8}
    (h : Accepts key value) (off : Nat) :
    (appendRecord off key value w).1 = true ∧
      Wrote (.truncate off :: bytesAt .write off (Rec.new 0 h).bytes) w
        (appendRecord off key value w).2 := by
  rcases appendRecord_outcome h off w with ⟨hA, -, hW, -⟩ | ⟨-, hno, -⟩
  · exact ⟨hA, hW⟩
  · exact absurd (appends_quiet hq key value) hno

/-- In a quiet world the whole commit word is written. -/
theorem commitRecord_quiet {w : World} (hq : w.QuietBut) (off : Nat) :
    (commitRecord off w).1 = true ∧
      Wrote (bytesAt .pwrite (off + offsetofCommitted) (le32 kvdbCommitted)) w
        (commitRecord off w).2 := by
  rcases commitRecord_outcome off w with ⟨hC, -, hW⟩ | ⟨-, hno, -⟩
  · exact ⟨hC, hW⟩
  · exact absurd (commits_quiet hq) hno

/-- **A put without failures** (reads perhaps excepted) that takes `off` for the end of the good
    prefix returns 0 and has the effects `putEffects`. -/
theorem kvdbPut_effects {w : World} (hq : w.QuietBut) {db : KvdbT} (hdb : 0 ≤ db.fd)
    {key value : CString} (h : Accepts key.bytes value.bytes) {off : Nat}
    (hoff : (validPrefixEnd (lockDb w).2).1 = off) :
    (kvdbPut (some db) (some key) (some value) w).1 = 0 ∧
      Wrote (putEffects h off) w (kvdbPut (some db) (some key) (some value) w).2 := by
  obtain ⟨hl, ha⟩ := lockDb_quiet hq
  have hql := ha.toReads.quietBut hq
  have hR := validPrefixEnd_reads hql
  have hqv := hR.quietBut hql
  obtain ⟨hA, hWA⟩ := appendRecord_quiet hqv h off
  obtain ⟨hC, hWC⟩ := commitRecord_quiet (hWA.quietBut hqv) off
  obtain ⟨h1, h2, h3⟩ := h
  unfold kvdbPut CString.strlen
  dsimp only
  rw [if_neg (by omega), if_neg (by omega), if_neg (by simp [hl]), hoff,
    if_neg (by simp [hA]), if_neg (by simp [hC])]
  exact ⟨rfl, ha.toReads.thenWrote (hR.thenWrote (hWA.trans (hWC.reads
    (flock_aside _).toReads)))⟩

/-- A put whose key or value has no acceptable length does nothing. -/
theorem kvdbPut_rejects {w : World} {db : KvdbT} {key value : CString}
    (h : ¬ Accepts key.bytes value.bytes) :
    kvdbPut (some db) (some key) (some value) w = (-1, w) := by
  unfold Accepts at h
  unfold kvdbPut CString.strlen
  dsimp only
  split
  · rfl
  · rw [if_pos (by omega)]

/-- The effects of a put without failures: it takes the end of the good prefix. -/
theorem kvdbPut_spec {w : World} (hq : w.Quiet) {db : KvdbT} (hdb : 0 ≤ db.fd)
    {key value : CString} (h : Accepts key.bytes value.bytes) :
    (kvdbPut (some db) (some key) (some value) w).1 = 0 ∧
      Wrote (putEffects h (framing.goodEnd Rec.valid w.file)) w
        (kvdbPut (some db) (some key) (some value) w).2 := by
  obtain ⟨-, ha⟩ := lockDb_quiet hq.but
  apply kvdbPut_effects hq.but hdb h
  rw [validPrefixEnd_spec (ha.toReads.quiet hq), ha.file]

/-- The file after a put without failures: the good prefix, then the new record. -/
theorem kvdbPut_file {w : World} (hq : w.Quiet) {db : KvdbT} (hdb : 0 ≤ db.fd)
    {key value : CString} (h : Accepts key.bytes value.bytes) :
    (kvdbPut (some db) (some key) (some value) w).2.file =
      framing.encAll (validPrefix w.file ++ [Rec.new kvdbCommitted h]) := by
  rw [(kvdbPut_spec hq hdb h).2.file, applyAll_putEffects h (framing.goodEnd_le _ _),
    framing.take_goodEnd, framing.encAll_append]
  simp [validPrefix]

end Kvdb
