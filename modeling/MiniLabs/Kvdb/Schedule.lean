/-
  kvdb — reading along a schedule of transfers.

  1. **Program** — `read_all_or_eof`, whose reads are followed through an arbitrary schedule of
     short, interrupted and failing transfers.
  2. **The crux (`readAllOrEof_full`)** — `transfer n s` is what is left of the schedule `s` after
     `n` bytes have been moved, or `none` when one of the calls failed on the way, and
     `read_all_or_eof` follows the schedule exactly as long as the bytes it wants are there.
  3. **Frame facts** — two relations between states carry those of everything that does not write:
     `Reads` (the file is untouched, the schedules have only moved on) and `Aside` (moreover the
     offset and the schedule of reads are untouched).
  4. **Kinds of schedules** — `Quiet` has no failing call at all, `QuietBut` none but failing reads.
-/
import MiniLabs.Kvdb.Log

set_option linter.unusedVariables false

namespace Kvdb

open RecordLog

/-! ## Schedules -/

/-- What remains of a schedule of reads after `n` bytes were read; `none` if a call failed. -/
def transfer : Nat → List Outcome → Option (List Outcome)
  | 0, s => some s
  | _ + 1, [] => some []
  | _ + 1, .ok :: s => some s
  | n + 1, .short m :: s => transfer (n - m) s
  | n + 1, .eintr :: s => transfer (n + 1) s
  | _ + 1, .fail :: _ => none

/-- A schedule without failures lets any transfer come to its end. -/
theorem transfer_quiet : ∀ (n : Nat) (s : List Outcome), Outcome.fail ∉ s →
    ∃ s', transfer n s = some s' ∧ Outcome.fail ∉ s'
  | 0, s, h => ⟨s, by cases s <;> rfl, h⟩
  | _ + 1, [], h => ⟨[], rfl, h⟩
  | _ + 1, .ok :: s, h => ⟨s, rfl, fun hm => h (List.mem_cons_of_mem _ hm)⟩
  | n + 1, .short m :: s, h =>
    transfer_quiet (n - m) s (fun hm => h (List.mem_cons_of_mem _ hm))
  | n + 1, .eintr :: s, h =>
    transfer_quiet (n + 1) s (fun hm => h (List.mem_cons_of_mem _ hm))
  | _ + 1, .fail :: _, h => absurd List.mem_cons_self h

@[simp] theorem transfer_zero (s : List Outcome) : transfer 0 s = some s := by cases s <;> rfl

/-- What remains of a schedule of writes after the header, the key and the value. -/
def transferPut (key value : List UInt8) (s : List Outcome) : Option (List Outcome) :=
  (transfer sizeofRecord s).bind fun s =>
    (transfer key.length s).bind (transfer value.length)

/-- A schedule without failures lets a key and a value be read. -/
theorem transferPut_quiet (key value : List UInt8) {s : List Outcome} (h : Outcome.fail ∉ s) :
    transferPut key value s ≠ none := by
  obtain ⟨s₁, h₁, q₁⟩ := transfer_quiet sizeofRecord s h
  obtain ⟨s₂, h₂, q₂⟩ := transfer_quiet key.length s₁ q₁
  obtain ⟨s₃, h₃, q₃⟩ := transfer_quiet value.length s₂ q₂
  rw [transferPut, h₁, Option.bind_some, h₂, Option.bind_some, h₃]
  exact Option.some_ne_none s₃

namespace World

/-- No call fails, reads perhaps excepted.  The one `pwrite` of the code is not repeated, so an
    interrupted or short `pwrite` is a failure too. -/
def QuietBut (w : World) : Prop :=
  (∀ c, c ≠ .read → Outcome.fail ∉ w.env c) ∧ ∀ o ∈ w.env .pwrite, o = .ok

/-- No call fails. -/
def Quiet (w : World) : Prop := w.QuietBut ∧ Outcome.fail ∉ w.env .read

theorem Quiet.but {w : World} (h : w.Quiet) : w.QuietBut := h.1

/-- `w'` is reached from `w` by calls that leave the file alone. -/
structure Reads (w w' : World) : Prop where
  file : w'.file = w.file
  trace : w'.trace = w.trace
  later : ∀ c, w'.env c <:+ w.env c

/-- Doing nothing only reads. -/
theorem Reads.refl (w : World) : w.Reads w := ⟨rfl, rfl, fun c => List.suffix_refl _⟩

/-- Reading and reading again only reads. -/
theorem Reads.trans {w w' w'' : World} (h : w.Reads w') (h' : w'.Reads w'') : w.Reads w'' :=
  ⟨h'.file.trans h.file, h'.trace.trans h.trace, fun c => (h'.later c).trans (h.later c)⟩

/-- What is left of a quiet schedule is quiet. -/
theorem quietBut_of_later {w w' : World} (h : ∀ c, w'.env c <:+ w.env c) (hq : w.QuietBut) :
    w'.QuietBut :=
  ⟨fun c hne hc => hq.1 c hne ((h c).subset hc), fun o ho => hq.2 o ((h .pwrite).subset ho)⟩

/-- A quiet world stays quiet while it is read. -/
theorem Reads.quietBut {w w' : World} (h : w.Reads w') (hq : w.QuietBut) : w'.QuietBut :=
  quietBut_of_later h.later hq

theorem Reads.quiet {w w' : World} (h : w.Reads w') (hq : w.Quiet) : w'.Quiet :=
  ⟨h.quietBut hq.1, fun hc => hq.2 ((h.later .read).subset hc)⟩

/-- The bytes from the offset on. -/
def rem (w : World) : List UInt8 := w.file.drop w.pos

/-- `w` with another schedule of reads. -/
def withReads (s : List Outcome) (w : World) : World :=
  { w with env := fun d => if d = .read then s else w.env d }

/-- `w` with another offset. -/
def seek (p : Nat) (w : World) : World := { w with pos := p }

@[simp] theorem withReads_file (s : List Outcome) (w : World) : (w.withReads s).file = w.file := rfl
@[simp] theorem withReads_pos (s : List Outcome) (w : World) : (w.withReads s).pos = w.pos := rfl
@[simp] theorem withReads_trace (s : List Outcome) (w : World) :
    (w.withReads s).trace = w.trace := rfl
@[simp] theorem withReads_rem (s : List Outcome) (w : World) : (w.withReads s).rem = w.rem := rfl
@[simp] theorem withReads_read (s : List Outcome) (w : World) :
    (w.withReads s).env .read = s := rfl
@[simp] theorem withReads_withReads (s t : List Outcome) (w : World) :
    (w.withReads s).withReads t = w.withReads t := by
  unfold withReads
  congr 1
  funext d
  by_cases h : d = .read <;> simp [h]

/-- A world has its own schedule of reads. -/
theorem withReads_self {w : World} {s : List Outcome} (h : w.env .read = s) :
    w.withReads s = w := by
  unfold withReads
  congr 1
  funext d
  by_cases hd : d = .read
  · subst hd; simp [h]
  · simp [hd]

/-- An empty schedule means success. -/
theorem next_nil {w : World} {c : Call} (h : w.env c = []) : w.next c = (.ok, w) := by
  unfold next
  rw [h]

/-- The first entry is what becomes of the next `read`. -/
theorem next_read_cons {w : World} {o : Outcome} {s : List Outcome} (h : w.env .read = o :: s) :
    w.next .read = (o, w.withReads s) := by
  unfold next
  rw [h]
  rfl

/-- Taking an outcome only reads. -/
theorem next_reads (c : Call) (w : World) : w.Reads (w.next c).2 := by
  refine ⟨w.next_file c, w.next_trace c, fun d => ?_⟩
  unfold next
  split
  · exact List.suffix_refl _
  · rename_i o os h
    by_cases hd : d = c
    · subst hd; simp [h]
    · simp [hd]

/-- The schedules of the other calls stay. -/
theorem next_env_ne {c d : Call} (h : d ≠ c) (w : World) : (w.next c).2.env d = w.env d := by
  unfold next
  split
  · rfl
  · simp [h]

/-- A call does not fail where its schedule has no failure. -/
theorem next_ne_fail {c : Call} {w : World} (h : Outcome.fail ∉ w.env c) :
    (w.next c).1 ≠ .fail := by
  unfold next
  split
  · simp
  · rename_i o os hc
    intro ho
    apply h
    rw [hc, ← show o = .fail from ho]
    exact List.mem_cons_self

/-- The schedule of the call loses its first entry. -/
@[simp] theorem next_env_self (c : Call) (w : World) : (w.next c).2.env c = (w.env c).tail := by
  unfold next
  split <;> rename_i h <;> simp [h]

/-- None of the next `n + 1` calls fails: the next one does not, and then none of the `n`
    behind it. -/
theorem next_take_succ (c : Call) (n : Nat) (w : World) :
    Outcome.fail ∉ (w.env c).take (n + 1) ↔
      (w.next c).1 ≠ .fail ∧ Outcome.fail ∉ ((w.next c).2.env c).take n := by
  rw [next_env_self]
  unfold next
  split <;> rename_i h
  · simp [h]
  · rename_i o
    rw [h, List.take_succ_cons, List.tail_cons, List.mem_cons, not_or]
    exact and_congr_left fun _ => ne_comm

/-- The first entry alone decides whether the next call fails. -/
theorem next_take_one (c : Call) (w : World) :
    Outcome.fail ∉ (w.env c).take 1 ↔ (w.next c).1 ≠ .fail := by
  rw [next_take_succ c 0 w, List.take_zero]
  exact and_iff_left List.not_mem_nil

/-! ## Calls beside the reads -/

/-- `w'` differs from `w` in the schedules of calls other than `read` only. -/
structure Aside (w w' : World) : Prop extends w.Reads w' where
  pos : w'.pos = w.pos
  read : w'.env .read = w.env .read

theorem Aside.trans {w w' w'' : World} (h : w.Aside w') (h' : w'.Aside w'') : w.Aside w'' :=
  ⟨h.toReads.trans h'.toReads, h'.pos.trans h.pos, h'.read.trans h.read⟩

/-- What is left to read is as it was. -/
theorem Aside.rem {w w' : World} (h : w.Aside w') : w'.rem = w.rem := by
  rw [World.rem, World.rem, h.file, h.pos]

/-- The outcome of any other call leaves the reads alone. -/
theorem next_aside {c : Call} (hc : c ≠ .read) (w : World) : w.Aside (w.next c).2 :=
  ⟨w.next_reads c, w.next_pos c, next_env_ne (Ne.symm hc) w⟩

/-- `malloc` leaves the reads alone. -/
theorem malloc_aside (w : World) : w.Aside w.malloc.2 :=
  w.malloc_world ▸ next_aside (by decide) w

/-- Asking for the offset leaves the reads alone. -/
theorem lseekCur_aside (w : World) : w.Aside w.lseekCur.2 :=
  w.lseekCur_world ▸ next_aside (by decide) w

/-- `flock` leaves the reads alone. -/
theorem flock_aside (w : World) : w.Aside w.flock.2 :=
  w.flock_world ▸ next_aside (by decide) w

/-- `malloc` gives memory where its schedule has no failure. -/
theorem malloc_sure {w : World} (h : Outcome.fail ∉ w.env .malloc) : w.malloc.1 = true := by
  have hn := next_ne_fail h
  unfold malloc
  split
  · rename_i heq; rw [heq] at hn; exact absurd rfl hn
  · rfl

/-- `malloc` gives memory in a quiet world. -/
theorem malloc_quiet {w : World} (h : w.QuietBut) : w.malloc.1 = true :=
  malloc_sure (h.1 .malloc (by decide))

/-- `lseek(fd, 0, SEEK_CUR)` answers the offset. -/
theorem lseekCur_ok {w : World} (h : (w.next .lseek).1 ≠ .fail) : w.lseekCur.1 = w.pos := by
  have hp := w.next_pos .lseek
  unfold lseekCur
  split <;> rename_i heq <;> rw [heq] at h hp
  · exact absurd rfl h
  · exact congrArg Nat.cast hp

/-- `lseek` that fails answers `-1`. -/
theorem lseekCur_fail {w : World} (h : (w.next .lseek).1 = .fail) : w.lseekCur.1 = -1 := by
  rw [lseekCur, show w.next .lseek = (.fail, (w.next .lseek).2) from Prod.ext h rfl]

/-- `lseek(fd, off, SEEK_SET)` fails or goes to the offset. -/
theorem lseekSet_eq (off : Nat) (w : World) :
    w.lseekSet off = if (w.next .lseek).1 = .fail then (-1, (w.next .lseek).2)
      else ((off : Int), (w.next .lseek).2.seek off) := by
  unfold lseekSet
  split <;> rename_i heq <;> rw [heq]
  · rfl
  · rename_i hne
    exact (if_neg hne).symm

/-- In a quiet world `lseek` goes to the offset and reads nothing. -/
theorem lseekSet_quiet {w : World} (h : w.QuietBut) (off : Nat) :
    (w.lseekSet off).1 = off ∧ (w.lseekSet off).2.pos = off ∧ w.Reads (w.lseekSet off).2 ∧
      (w.lseekSet off).2.env .read = w.env .read := by
  have hn := next_ne_fail (h.1 .lseek (by decide))
  have ha := next_aside (c := .lseek) (by decide) w
  rw [lseekSet_eq, if_neg hn]
  exact ⟨rfl, rfl, ⟨ha.file, ha.trace, ha.later⟩, ha.read⟩

/-! ## One read -/

/-- Without a schedule `read` brings all that is asked for, as far as the file goes. -/
theorem read_nil {w : World} (h : w.env .read = []) (n : Nat) :
    w.read n = (.ok (w.rem.take n), w.seek (w.pos + (w.rem.take n).length)) := by
  simp only [read, next_nil h]
  rfl

/-- A `read` that succeeds brings the same. -/
theorem read_ok_cons {w : World} {s : List Outcome} (h : w.env .read = .ok :: s) (n : Nat) :
    w.read n =
      (.ok (w.rem.take n), (w.withReads s).seek (w.pos + (w.rem.take n).length)) := by
  simp only [read, next_read_cons h]
  rfl

/-- A short `read` brings some of it, one byte at least. -/
theorem read_short_cons {w : World} {s : List Outcome} {m : Nat} (h : w.env .read = .short m :: s)
    (n : Nat) :
    w.read n = (.ok (w.rem.take (min n (m + 1))),
      (w.withReads s).seek (w.pos + (w.rem.take (min n (m + 1))).length)) := by
  simp only [read, next_read_cons h]
  rfl

/-- An interrupted `read` brings nothing and stays where it is. -/
theorem read_eintr_cons {w : World} {s : List Outcome} (h : w.env .read = .eintr :: s) (n : Nat) :
    w.read n = (.error .eintr, w.withReads s) := by
  simp only [read, next_read_cons h]

/-- A `read` that fails brings nothing and stays where it is. -/
theorem read_fail_cons {w : World} {s : List Outcome} (h : w.env .read = .fail :: s) (n : Nat) :
    w.read n = (.error .other, w.withReads s) := by
  simp only [read, next_read_cons h]

/-- `read` only reads. -/
theorem read_reads (n : Nat) (w : World) : w.Reads (w.read n).2 := by
  obtain ⟨p, hp⟩ := read_world n w
  have hR := w.next_reads .read
  rw [hp]
  exact ⟨hR.file, hR.trace, hR.later⟩

/-- `read` uses up its own schedule only. -/
theorem read_env_ne {c : Call} (hc : c ≠ .read) (n : Nat) (w : World) :
    (w.read n).2.env c = w.env c := by
  obtain ⟨p, hp⟩ := read_world n w
  rw [hp]
  exact next_env_ne hc w

end World

/-! ## `read_all_or_eof` along a schedule -/

section ReadAll

open World

/-- `read_all_or_eof` only reads. -/
theorem readAllOrEof_reads (len : Nat) (got : List UInt8) (w : World) :
    w.Reads (readAllOrEof len got w).world := by
  induction got, w using readAllOrEof.induct len with
  | case1 got w hlt h ih => rw [readAllOrEof_eintr hlt h]; exact (read_reads _ w).trans ih
  | case2 got w hlt h => rw [readAllOrEof_other hlt h]; exact read_reads _ w
  | case3 got w hlt h => rw [readAllOrEof_eof hlt h]; exact read_reads _ w
  | case4 got w hlt bs h hbs ih =>
    rw [readAllOrEof_more hlt hbs h]; exact (read_reads _ w).trans ih
  | case5 got w hge => rw [readAllOrEof_done (by omega)]; exact Reads.refl w

/-- `read_all_or_eof` uses up the schedule of `read` only. -/
theorem readAllOrEof_env_ne {c : Call} (hc : c ≠ .read) (len : Nat) (got : List UInt8)
    (w : World) : (readAllOrEof len got w).world.env c = w.env c := by
  induction got, w using readAllOrEof.induct len with
  | case1 got w hlt h ih => rw [readAllOrEof_eintr hlt h, ih, read_env_ne hc]
  | case2 got w hlt h => rw [readAllOrEof_other hlt h, read_env_ne hc]
  | case3 got w hlt h => rw [readAllOrEof_eof hlt h, read_env_ne hc]
  | case4 got w hlt bs h hbs ih => rw [readAllOrEof_more hlt hbs h, ih, read_env_ne hc]
  | case5 got w hge => rw [readAllOrEof_done (by omega)]

/-- Nothing is wanted any more. -/
theorem readAllOrEof_nothing {len : Nat} {got : List UInt8} {w : World}
    (hge : len ≤ got.length) (s' : List Outcome) (hs' : some (w.env .read) = some s') :
    readAllOrEof len got w = ⟨1, got ++ w.rem.take (len - got.length),
      (w.withReads s').seek (w.pos + (len - got.length))⟩ := by
  rw [readAllOrEof_done hge, withReads_self (Option.some.inj hs'), Nat.sub_eq_zero_of_le hge,
    List.take_zero, List.append_nil]
  rfl

/-- All that is wanted comes with one call. -/
theorem readAllOrEof_at_once {len : Nat} {got : List UInt8} {w w' : World}
    (hlt : got.length < len) (hle : len ≤ got.length + w.rem.length)
    (hr : w.read (len - got.length) = (.ok (w.rem.take (len - got.length)),
      w'.seek (w.pos + (w.rem.take (len - got.length)).length))) :
    readAllOrEof len got w = ⟨1, got ++ w.rem.take (len - got.length),
      w'.seek (w.pos + (len - got.length))⟩ := by
  have hlen : (w.rem.take (len - got.length)).length = len - got.length := by
    rw [List.length_take]; omega
  have hne : w.rem.take (len - got.length) ≠ [] := List.length_pos_iff.mp (by omega)
  rw [readAllOrEof_more hlt hne (by rw [hr]), hr,
    readAllOrEof_done (by rw [List.length_append]; omega), hlen]

/-- Reading bytes that are all there: by induction on the schedule, each outcome that moves
    bytes moves the front of what is still wanted. -/
theorem readAllOrEof_full (len : Nat) : ∀ (s : List Outcome) (got : List UInt8) (w : World),
    w.env .read = s → len ≤ got.length + w.rem.length →
    (∀ s', transfer (len - got.length) s = some s' →
      readAllOrEof len got w = ⟨1, got ++ w.rem.take (len - got.length),
        (w.withReads s').seek (w.pos + (len - got.length))⟩) ∧
    (transfer (len - got.length) s = none → (readAllOrEof len got w).code = -1) := by
  intro s
  induction s with
  | nil =>
    intro got w hs hle
    rcases Nat.lt_or_ge got.length len with hlt | hge
    · have hk : len - got.length = (len - got.length - 1) + 1 := by omega
      rw [hk, transfer, ← hk]
      refine ⟨fun s' hs' => ?_, fun h => nomatch h⟩
      rw [readAllOrEof_at_once hlt hle (read_nil hs _), withReads_self]
      exact hs.trans (Option.some.inj hs')
    · rw [Nat.sub_eq_zero_of_le hge, transfer_zero, ← Nat.sub_eq_zero_of_le hge]
      exact ⟨fun s' hs' => readAllOrEof_nothing hge s' (hs ▸ hs'), fun h => nomatch h⟩
  | cons o s ih =>
    intro got w hs hle
    rcases Nat.lt_or_ge got.length len with hlt | hge
    · obtain ⟨k, hk⟩ := Nat.exists_eq_add_of_lt hlt
      have hk' : len - got.length = k + 1 := by omega
      cases o with
      | ok =>
        rw [hk', transfer, ← hk']
        refine ⟨fun s' hs' => ?_, fun h => nomatch h⟩
        obtain rfl := Option.some.inj hs'
        exact readAllOrEof_at_once hlt hle (read_ok_cons hs _)
      | short m =>
        have hr := read_short_cons hs (len - got.length)
        have hlen : (w.rem.take (min (len - got.length) (m + 1))).length
            = min (len - got.length) (m + 1) := by
          rw [List.length_take]; omega
        have hne : w.rem.take (min (len - got.length) (m + 1)) ≠ [] :=
          List.length_pos_iff.mp (by omega)
        have hmore := readAllOrEof_more hlt hne (by rw [hr])
        rw [hr, hlen] at hmore
        have hsub : len - (got ++ w.rem.take (min (len - got.length) (m + 1))).length = k - m := by
          rw [List.length_append, hlen]; omega
        have hrem : ((w.withReads s).seek (w.pos + min (len - got.length) (m + 1))).rem
            = w.rem.drop (min (len - got.length) (m + 1)) := by
          rw [rem, rem, List.drop_drop]; rfl
        obtain ⟨ihs, ihn⟩ := ih (got ++ w.rem.take (min (len - got.length) (m + 1)))
          ((w.withReads s).seek (w.pos + min (len - got.length) (m + 1))) rfl
          (by rw [hrem, List.length_append, hlen, List.length_drop]; omega)
        rw [hsub] at ihs ihn
        rw [hk', transfer, hmore]
        refine ⟨fun s' hs' => ?_, ihn⟩
        rw [ihs s' hs', hrem, List.append_assoc, ← List.take_add]
        have h1 : min (len - got.length) (m + 1) + (k - m) = k + 1 := by omega
        have h2 : w.pos + min (len - got.length) (m + 1) + (k - m) = w.pos + (k + 1) := by omega
        simp only [h1]
        congr 1
        show ((w.withReads s).withReads s').seek _ = (w.withReads s').seek _
        rw [withReads_withReads, ← h2]
        rfl
      | eintr =>
        have hr := read_eintr_cons hs (len - got.length)
        have hmore := readAllOrEof_eintr hlt (by rw [hr])
        rw [hr] at hmore
        obtain ⟨ihs, ihn⟩ := ih got (w.withReads s) rfl hle
        rw [hk', transfer, ← hk', hmore]
        refine ⟨fun s' hs' => ?_, ihn⟩
        rw [ihs s' hs', withReads_withReads]
        rfl
      | fail =>
        have hr := read_fail_cons hs (len - got.length)
        rw [hk', transfer]
        refine ⟨fun s' hs' => (nomatch hs'), fun _ => ?_⟩
        rw [readAllOrEof_other hlt (by rw [hr])]
    · rw [Nat.sub_eq_zero_of_le hge, transfer_zero, ← Nat.sub_eq_zero_of_le hge]
      exact ⟨fun s' hs' => readAllOrEof_nothing hge s' (hs ▸ hs'), fun h => nomatch h⟩

/-- The result codes of `read_all_or_eof`. -/
theorem readAllOrEof_code (len : Nat) (got : List UInt8) (w : World) :
    (readAllOrEof len got w).code = 1 ∨ (readAllOrEof len got w).code = 0 ∨
      (readAllOrEof len got w).code = -1 := by
  induction got, w using readAllOrEof.induct len with
  | case1 got w hlt h ih => rw [readAllOrEof_eintr hlt h]; exact ih
  | case2 got w hlt h => rw [readAllOrEof_other hlt h]; exact Or.inr (Or.inr rfl)
  | case3 got w hlt h =>
    rw [readAllOrEof_eof hlt h]
    by_cases hg : got.length = 0
    · exact Or.inr (Or.inl (if_pos hg))
    · exact Or.inr (Or.inr (if_neg hg))
  | case4 got w hlt bs h hbs ih => rw [readAllOrEof_more hlt hbs h]; exact ih
  | case5 got w hge => rw [readAllOrEof_done (by omega)]; exact Or.inl rfl

/-- A tail shorter than what is wanted is not taken for a complete read. -/
theorem readAllOrEof_short {len : Nat} {w : World} (h : w.rem.length < len) :
    (readAllOrEof len [] w).code ≤ 0 := by
  obtain ⟨-, -, d, -, hd, -, hc⟩ := readAllOrEof_take len [] w
  have hle : d.length ≤ w.rem.length := hd.length_le
  rcases readAllOrEof_code len [] w with h1 | h1 | h1
  · have := hc (by omega)
    rw [List.length_nil] at this
    omega
  · omega
  · omega

end ReadAll

end Kvdb
