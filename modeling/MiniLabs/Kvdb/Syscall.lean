/-
  kvdb — the file and the system calls it is reached through.

  1. **State** — `World` is what one call of the library sees: the bytes of the database file, the
     offset of its own open file description, and `env`, which fixes how the coming system calls of
     each kind turn out.  `env c = []` means that every further call of kind `c` succeeds in full;
     an explicit list may cut a transfer short, interrupt it, or fail it.
  2. **Crash points** — whatever changes the file goes through `World.emit`, which applies the
     change byte by byte and appends it to `trace`.  A process that dies inside a call leaves the
     file as some prefix of that trace made it, so `trace` is also the list of all the places where
     it can die.
  3. **The crux (`write_measure`, `read_measure`)** — a transfer uses up one interruption of the
     schedule or moves at least one byte, so the loops around it end.
  4. **What is idealised** — a `read` or `write` of a positive number of bytes that does not fail
     transfers at least one byte (on a regular file only the end of the file makes `read` return 0);
     what was written before `fsync` is on the disk in the order in which it was written; offsets
     and sizes do not overflow `off_t`.
-/
import Mathlib.Data.List.Basic

set_option linter.unusedVariables false

namespace Kvdb

/-- The kinds of calls whose result depends on the environment. -/
inductive Call
  | read | write | pwrite | lseek | ftruncate | fsync | malloc | flock
  deriving DecidableEq, Repr

/-- How one call turns out. -/
inductive Outcome
  /-- Complete success. -/
  | ok
  /-- A transfer of at most `n + 1` bytes. -/
  | short (n : Nat)
  /-- Failure with `errno == EINTR`. -/
  | eintr
  /-- Failure with another `errno` (or a NULL result). -/
  | fail
  deriving DecidableEq, Repr

/-- The errors the code tells apart. -/
inductive Errno
  | eintr | other
  deriving DecidableEq, Repr

/-- The smallest changes of a file that a crash can separate. -/
inductive Effect
  | truncate (len : Nat)
  | write (pos : Nat) (b : UInt8)
  | pwrite (pos : Nat) (b : UInt8)
  deriving DecidableEq, Repr

/-- Store one byte; a hole before it is filled with zeros. -/
def setByte (file : List UInt8) (pos : Nat) (b : UInt8) : List UInt8 :=
  if pos < file.length then file.set pos b
  else file ++ List.replicate (pos - file.length) 0 ++ [b]

/-- The file after one effect. -/
def Effect.apply (file : List UInt8) : Effect → List UInt8
  | .truncate len => file.take len ++ List.replicate (len - file.length) 0
  | .write pos b => setByte file pos b
  | .pwrite pos b => setByte file pos b

/-- The file after a list of effects. -/
def applyAll (es : List Effect) (file : List UInt8) : List UInt8 := es.foldl Effect.apply file

/-- One effect for each byte of a transfer that begins at `pos`. -/
def bytesAt (mk : Nat → UInt8 → Effect) : Nat → List UInt8 → List Effect
  | _, [] => []
  | pos, b :: bs => mk pos b :: bytesAt mk (pos + 1) bs

/-- The file, the offset of the open file description, the outcomes of the coming calls and
    the effects so far. -/
structure World where
  file : List UInt8
  pos : Nat
  env : Call → List Outcome
  trace : List Effect

namespace World

/-- The outcome of the next call of kind `c`. -/
def next (c : Call) (w : World) : Outcome × World :=
  match w.env c with
  | [] => (.ok, w)
  | o :: os => (o, { w with env := fun d => if d = c then os else w.env d })

/-- Apply effects to the file and record them. -/
def emit (es : List Effect) (w : World) : World :=
  { w with file := applyAll es w.file, trace := w.trace ++ es }

/-- `lseek(fd, off, SEEK_SET)`. -/
def lseekSet (off : Nat) (w : World) : Int × World :=
  match w.next .lseek with
  | (.fail, w) => (-1, w)
  | (_, w) => (off, { w with pos := off })

/-- `lseek(fd, 0, SEEK_CUR)`. -/
def lseekCur (w : World) : Int × World :=
  match w.next .lseek with
  | (.fail, w) => (-1, w)
  | (_, w) => (w.pos, w)

/-- Transfer at most `n` bytes from the current offset. -/
def take (n : Nat) (w : World) : List UInt8 × World :=
  ((w.file.drop w.pos).take n,
    { w with pos := w.pos + ((w.file.drop w.pos).take n).length })

/-- `read(fd, buf, len)`: the bytes transferred, none of them at the end of the file. -/
def read (len : Nat) (w : World) : Except Errno (List UInt8) × World :=
  match w.next .read with
  | (.eintr, w) => (.error .eintr, w)
  | (.fail, w) => (.error .other, w)
  | (.ok, w) => (.ok (w.take len).1, (w.take len).2)
  | (.short n, w) => (.ok (w.take (min len (n + 1))).1, (w.take (min len (n + 1))).2)

/-- Write all of `bs` at the current offset. -/
def push (bs : List UInt8) (w : World) : World :=
  { w.emit (bytesAt .write w.pos bs) with pos := w.pos + bs.length }

/-- `write(fd, bs, len)`: the number of bytes transferred. -/
def write (bs : List UInt8) (w : World) : Except Errno Nat × World :=
  match w.next .write with
  | (.eintr, w) => (.error .eintr, w)
  | (.fail, w) => (.error .other, w)
  | (.ok, w) => (.ok bs.length, w.push bs)
  | (.short n, w) => (.ok (min bs.length (n + 1)), w.push (bs.take (n + 1)))

/-- `pwrite(fd, bs, len, off)`: the number of bytes transferred, or -1. -/
def pwrite (bs : List UInt8) (off : Nat) (w : World) : Int × World :=
  match w.next .pwrite with
  | (.eintr, w) => (-1, w)
  | (.fail, w) => (-1, w)
  | (.ok, w) => (bs.length, w.emit (bytesAt .pwrite off bs))
  | (.short n, w) => ((min bs.length (n + 1) : Nat), w.emit (bytesAt .pwrite off (bs.take (n + 1))))

/-- `ftruncate(fd, len)`: it is only called to make a file shorter. -/
def ftruncate (len : Nat) (w : World) : Int × World :=
  match w.next .ftruncate with
  | (.fail, w) => (-1, w)
  | (_, w) => (0, w.emit [.truncate len])

/-- `fsync(fd)`: what was written is in `file` already, so there is nothing to do. -/
def fsync (w : World) : Int × World :=
  match w.next .fsync with
  | (.fail, w) => (-1, w)
  | (_, w) => (0, w)

/-- `malloc`: whether the result is not NULL. -/
def malloc (w : World) : Bool × World :=
  match w.next .malloc with
  | (.fail, w) => (false, w)
  | (_, w) => (true, w)

/-- `flock(fd, op)`. -/
def flock (w : World) : Except Errno Unit × World :=
  match w.next .flock with
  | (.eintr, w) => (.error .eintr, w)
  | (.fail, w) => (.error .other, w)
  | (_, w) => (.ok (), w)

/-! ## What a call uses up and what it leaves alone -/

/-- No call adds to a schedule. -/
theorem next_env_le (c d : Call) (w : World) :
    ((w.next c).2.env d).length ≤ (w.env d).length := by
  unfold next
  split
  · exact Nat.le_refl _
  · rename_i o os h
    by_cases hd : d = c
    · subst hd; simp [h]
    · simp [hd]

/-- A call that does not succeed uses up an entry. -/
theorem next_env_lt {c : Call} {w : World} (h : (w.next c).1 ≠ .ok) :
    ((w.next c).2.env c).length < (w.env c).length := by
  unfold next at h ⊢
  split
  · rename_i hc
    simp [hc] at h
  · rename_i o os hc
    simp [hc]

@[simp] theorem next_file (c : Call) (w : World) : (w.next c).2.file = w.file := by
  unfold next; split <;> rfl

@[simp] theorem next_pos (c : Call) (w : World) : (w.next c).2.pos = w.pos := by
  unfold next; split <;> rfl

@[simp] theorem next_trace (c : Call) (w : World) : (w.next c).2.trace = w.trace := by
  unfold next; split <;> rfl

/-- An interrupted transfer uses up one interruption; any other moves at least one byte. -/
theorem write_measure {bs : List UInt8} (hbs : bs ≠ []) (w : World) :
    ((w.write bs).1 = .error .eintr →
      ((w.write bs).2.env .write).length < (w.env .write).length) ∧
    ∀ n, (w.write bs).1 = .ok n →
      ((w.write bs).2.env .write).length ≤ (w.env .write).length ∧ 0 < n ∧ n ≤ bs.length := by
  have hpos := List.length_pos_iff.mpr hbs
  have hle := next_env_le .write .write w
  have hlt := @next_env_lt .write w
  unfold write
  split <;> rename_i w' heq <;> rw [heq] at hle hlt
  · exact ⟨fun _ => hlt (by simp), fun n h => by simp at h⟩
  · exact ⟨fun h => by simp at h, fun n h => by simp at h⟩
  · exact ⟨fun h => by simp at h, fun n h => ⟨hle, by simp at h; omega⟩⟩
  · exact ⟨fun h => by simp at h, fun n h => ⟨hle, by simp at h; omega⟩⟩

/-- **A round of reading gets nearer to its end**: an interruption is used up, or bytes are read. -/
theorem read_measure {len : Nat} (hlen : 0 < len) (w : World) :
    ((w.read len).1 = .error .eintr →
      ((w.read len).2.env .read).length < (w.env .read).length) ∧
    ∀ bs, (w.read len).1 = .ok bs → bs ≠ [] →
      ((w.read len).2.env .read).length ≤ (w.env .read).length ∧
        0 < bs.length ∧ bs.length ≤ len := by
  have hle := next_env_le .read .read w
  have hlt := @next_env_lt .read w
  unfold read
  split <;> rename_i w' heq <;> rw [heq] at hle hlt
  · exact ⟨fun _ => hlt (by simp), fun bs h => by simp at h⟩
  · exact ⟨fun h => by simp at h, fun bs h => by simp at h⟩
  · refine ⟨fun h => by simp at h, fun bs h hbs => ⟨hle, List.length_pos_iff.mpr hbs, ?_⟩⟩
    simp only [take, Except.ok.injEq] at h
    rw [← h, List.length_take]
    omega
  · refine ⟨fun h => by simp at h, fun bs h hbs => ⟨hle, List.length_pos_iff.mpr hbs, ?_⟩⟩
    simp only [take, Except.ok.injEq] at h
    rw [← h, List.length_take]
    omega

/-- What a `read` that is neither interrupted nor failed does: it takes bytes of the file from
    the offset on, and moves the offset past them. -/
theorem read_ok {len : Nat} {w : World} {bs : List UInt8} (h : (w.read len).1 = .ok bs) :
    bs <+: w.file.drop w.pos ∧ (w.read len).2.pos = w.pos + bs.length := by
  unfold read at h ⊢
  split at h <;> rename_i w' heq
  · nomatch h
  · nomatch h
  all_goals
    have hf : w'.file = w.file := by have := w.next_file .read; rwa [heq] at this
    have hp : w'.pos = w.pos := by have := w.next_pos .read; rwa [heq] at this
    simp only [take, hf, hp, Except.ok.injEq] at h
    subst h
    simp only [take, hf, hp]
    exact ⟨List.take_prefix _ _, trivial⟩

/-- A `read` that fails leaves the offset. -/
theorem read_error_pos {len : Nat} {w : World} {e : Errno} (h : (w.read len).1 = .error e) :
    (w.read len).2.pos = w.pos := by
  unfold read at h ⊢
  split at h <;> rename_i w' heq
  · have := w.next_pos .read; rwa [heq] at this
  · have := w.next_pos .read; rwa [heq] at this
  · nomatch h
  · nomatch h

/-! The calls that do not write differ from `next` in the offset at most. -/

/-- `read` changes the offset and the schedule, and nothing else. -/
theorem read_world (len : Nat) (w : World) :
    ∃ p, (w.read len).2 = { (w.next .read).2 with pos := p } := by
  unfold read
  split
  all_goals
    rename_i w' heq
    rw [heq]
    exact ⟨_, rfl⟩

/-- `malloc` only uses up its schedule. -/
theorem malloc_world (w : World) : w.malloc.2 = (w.next .malloc).2 := by
  unfold malloc; split <;> rename_i heq <;> rw [heq]

/-- Asking for the offset only uses up the schedule of `lseek`. -/
theorem lseekCur_world (w : World) : w.lseekCur.2 = (w.next .lseek).2 := by
  unfold lseekCur; split <;> rename_i heq <;> rw [heq]

/-- `flock` only uses up its schedule. -/
theorem flock_world (w : World) : w.flock.2 = (w.next .flock).2 := by
  unfold flock; split <;> rename_i heq <;> rw [heq]

@[simp] theorem read_file (len : Nat) (w : World) : (w.read len).2.file = w.file := by
  obtain ⟨p, hp⟩ := read_world len w
  rw [hp]
  exact next_file _ w

@[simp] theorem read_trace (len : Nat) (w : World) : (w.read len).2.trace = w.trace := by
  obtain ⟨p, hp⟩ := read_world len w
  rw [hp]
  exact next_trace _ w

@[simp] theorem malloc_file (w : World) : w.malloc.2.file = w.file := by
  rw [malloc_world, next_file]

@[simp] theorem malloc_pos (w : World) : w.malloc.2.pos = w.pos := by
  rw [malloc_world, next_pos]

@[simp] theorem lseekCur_file (w : World) : w.lseekCur.2.file = w.file := by
  rw [lseekCur_world, next_file]

@[simp] theorem lseekCur_pos (w : World) : w.lseekCur.2.pos = w.pos := by
  rw [lseekCur_world, next_pos]

/-- An interrupted `flock` has used up an entry of its schedule. -/
theorem flock_measure {w : World} (h : w.flock.1 = .error .eintr) :
    (w.flock.2.env .flock).length < (w.env .flock).length := by
  have hlt := @next_env_lt .flock w
  unfold flock at h ⊢
  split <;> rename_i heq <;> rw [heq] at h hlt
  · exact hlt (by simp)
  · nomatch h
  · rename_i o w' h1 h2
    cases o <;> simp_all

end World

end Kvdb
