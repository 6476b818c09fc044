/-
  kvdb — runs with crashes refine a map.

  1. **Program** — a run is a list of `Event`s on one database file: puts and gets through any
     handles, and puts whose process dies after some number of their effects.
  2. **Specification** — a `Store`, a partial map from keys to values; `storeAfter` is the map a run
     should have produced, computed only from what the puts returned and from whether a crashed put
     got its whole commit word written.
  3. **The crux (`Refines.step`)** — the invariant is carried by a type.  An `Image` is a list of
     valid records followed by a beginning of at most one record that does not count; `Refines` says
     that the file is such an image and that the store is the last-write-wins reading of its
     records.  Every event takes an image to an image, whatever byte a crash stops at.
  4. **What is idealised** — system calls may be short or interrupted, but none fails (`Quiet`;
     `Kvdb.ReadFailure` and `Kvdb.FailedPut` are about those that do), and what a process wrote
     before it died is in the file.
-/
import MiniLabs.Kvdb.Put

set_option linter.unusedVariables false

namespace Kvdb

open RecordLog World

/-! ## The abstract map -/

/-- The abstract database: a partial map from keys to values. -/
abbrev Store := List UInt8 → Option (List UInt8)

/-- The empty database. -/
def Store.empty : Store := fun _ => none

/-- Set one key. -/
def Store.insert (M : Store) (key value : List UInt8) : Store :=
  fun k => if k = key then some value else M k

/-! ## Runs -/

/-- The file and the offset of every open handle. -/
structure Disk where
  file : List UInt8
  pos : Nat → Nat

/-- One call, or one put that does not survive. -/
inductive Event
  | put (handle : Nat) (key value : CString) (env : Call → List Outcome)
  /-- The process dies after the first `n` effects of its put. -/
  | crash (handle : Nat) (key value : CString) (env : Call → List Outcome) (n : Nat)
  | get (handle : Nat) (key : CString) (buf : Bool) (length : Nat) (env : Call → List Outcome)

/-- What a call through a handle starts from. -/
def Disk.world (d : Disk) (handle : Nat) (env : Call → List Outcome) : World :=
  ⟨d.file, d.pos handle, env, []⟩

/-- The handle with this number. -/
def handleOf (n : Nat) : KvdbT := ⟨n⟩

/-- A put through a handle. -/
def Disk.put (d : Disk) (handle : Nat) (key value : CString) (env : Call → List Outcome) :
    Int × World :=
  kvdbPut (some (handleOf handle)) (some key) (some value) (d.world handle env)

/-- A get through a handle. -/
def Disk.get (d : Disk) (handle : Nat) (key : CString) (buf : Bool) (length : Nat)
    (env : Call → List Outcome) : GetResult × World :=
  kvdbGet (some (handleOf handle)) (some key) buf length (d.world handle env)

/-- The disk after a call through a handle. -/
def Disk.after (d : Disk) (handle : Nat) (w : World) : Disk :=
  ⟨w.file, fun h => if h = handle then w.pos else d.pos h⟩

/-- The disk after an event; a crash keeps a beginning of the effects of the put. -/
def Disk.step (d : Disk) : Event → Disk
  | .put h key value env => d.after h (d.put h key value env).2
  | .crash h key value env n =>
    { d with file := applyAll ((d.put h key value env).2.trace.take n) d.file }
  | .get h key buf length env => d.after h (d.get h key buf length env).2

/-- The effect stores a byte of the commit word. -/
def Effect.isPwrite : Effect → Bool
  | .pwrite _ _ => true
  | _ => false

/-- All four bytes of the commit word were stored. -/
def wholeCommit (es : List Effect) : Bool := (es.filter Effect.isPwrite).length = 4

/-- The put that an event makes last: one that returned 0, or one that died after its whole
    commit word was written. -/
def Disk.commits (d : Disk) : Event → Option (List UInt8 × List UInt8)
  | .put h key value env =>
    if (d.put h key value env).1 = 0 then some (key.bytes, value.bytes) else none
  | .crash h key value env n =>
    if wholeCommit ((d.put h key value env).2.trace.take n) then some (key.bytes, value.bytes)
    else none
  | .get _ _ _ _ _ => none

/-- The abstract map after an event. -/
def Store.step (M : Store) : Option (List UInt8 × List UInt8) → Store
  | none => M
  | some (key, value) => M.insert key value

/-- The disk after a run. -/
def Disk.run (d : Disk) : List Event → Disk
  | [] => d
  | e :: es => (d.step e).run es

/-- The abstract map after a run. -/
def Disk.store (d : Disk) (M : Store) : List Event → Store
  | [] => M
  | e :: es => (d.step e).store (M.step (d.commits e)) es

/-- An empty file; the offsets of the handles do not matter. -/
def Disk.init (pos : Nat → Nat) : Disk := ⟨[], pos⟩

/-- The abstract map after a run that starts from an empty file. -/
def storeAfter (pos : Nat → Nat) (evs : List Event) : Store :=
  (Disk.init pos).store Store.empty evs

/-- No system call fails during the event. -/
def Event.Quiet : Event → Prop
  | .put _ _ _ env => (World.mk [] 0 env []).Quiet
  | .crash _ _ _ env _ => (World.mk [] 0 env []).Quiet
  | .get _ _ _ _ env => (World.mk [] 0 env []).Quiet

/-! ## Images -/

/-- What a run can leave in the file: valid records, then a beginning of at most one record
    that does not count. -/
structure Image where
  recs : List Rec
  tail : List UInt8
  recs_valid : ∀ r ∈ recs, r.valid = true
  torn : ∃ u : Rec, u.valid = false ∧ tail <+: u.bytes

namespace Image

/-- The file. -/
def bytes (img : Image) : List UInt8 := framing.encAll img.recs ++ img.tail

/-- The map the records stand for. -/
def store (img : Image) : Store :=
  fun key => ((img.recs.filter (Rec.counts key)).getLast?).map Rec.value

/-- Walking the tail: nothing, or the one record that does not count. -/
theorem walk_tail (img : Image) :
    framing.walk img.tail = [] ∨ ∃ u, u.valid = false ∧ framing.walk img.tail = [u] := by
  obtain ⟨u, hu, hpre⟩ := img.torn
  rcases Nat.lt_or_ge img.tail.length u.bytes.length with hlt | hge
  · exact Or.inl (framing.walk_of_none (framing.next_torn (u := u) ⟨hpre, hlt⟩))
  · refine Or.inr ⟨u, hu, ?_⟩
    have heq : img.tail = framing.encAll [u] ++ [] := by
      rw [List.append_nil]
      simpa using hpre.eq_of_length_le hge
    rw [heq, framing.walk_encAll_append, framing.walk_of_none (nextRec_short (by decide))]
    rfl

/-- The scan of an image finds its records and stops at the torn one. -/
theorem validPrefix_bytes (img : Image) : validPrefix img.bytes = img.recs := by
  apply framing.goodPrefix_encAll_append img.recs_valid
  rcases img.walk_tail with h | ⟨u, hu, h⟩
  · rw [Framing.goodPrefix, h]; rfl
  · rw [Framing.goodPrefix, h, List.takeWhile_cons_of_neg (by simp [hu])]

/-- The scan ends where the records of the image end. -/
theorem goodEnd_bytes (img : Image) :
    framing.goodEnd Rec.valid img.bytes = (framing.encAll img.recs).length := by
  rw [Framing.goodEnd]
  exact congrArg (fun rs => (framing.encAll rs).length) img.validPrefix_bytes

/-- The scan of `kvdb_get` reads the map off the image. -/
theorem lookup_bytes (img : Image) (key : List UInt8) : lookup key img.bytes = img.store key := by
  have htail : framing.lastOf (Rec.counts key) img.tail = none := by
    rw [Framing.lastOf]
    rcases img.walk_tail with h | ⟨u, hu, h⟩
    · rw [h]; rfl
    · rw [h, List.filter_cons_of_neg (by simp [Rec.counts, hu])]; rfl
  rw [lookup, bytes, framing.lastOf_encAll_append, htail]
  rfl

/-- The same records, another torn tail. -/
def withTail (img : Image) (u : Rec) (hu : u.valid = false) {tail : List UInt8}
    (h : tail <+: u.bytes) : Image := ⟨img.recs, tail, img.recs_valid, u, hu, h⟩

/-- One more valid record, and nothing behind it. -/
def push (img : Image) (r : Rec) (hr : r.valid = true) : Image where
  recs := img.recs ++ [r]
  tail := []
  recs_valid := by
    intro s hs
    rcases List.mem_append.mp hs with h | h
    · exact img.recs_valid s h
    · rw [List.mem_singleton.mp h]; exact hr
  torn := by
    obtain ⟨u, hu, -⟩ := img.torn
    exact ⟨u, hu, List.nil_prefix⟩

/-- One more record is one more insertion. -/
theorem store_push (img : Image) (r : Rec) (hr : r.valid = true) :
    (img.push r hr).store = img.store.insert r.key r.value := by
  funext key
  simp only [store, push, Store.insert, List.filter_append]
  by_cases hk : key = r.key
  · rw [if_pos hk, List.filter_cons_of_pos (by simp [Rec.counts, hr, hk]), List.filter_nil,
      List.getLast?_concat]
    rfl
  · rw [if_neg hk, List.filter_cons_of_neg (by simp [Rec.counts, Ne.symm hk]), List.filter_nil,
      List.append_nil]

end Image

/-! ## The invariant and one event -/

/-- The file is an image, and the abstract map is what its records stand for. -/
def Refines (d : Disk) (M : Store) : Prop := ∃ img : Image, d.file = img.bytes ∧ M = img.store

/-- The world of a quiet event is quiet. -/
theorem Event.Quiet.world {d : Disk} {h : Nat} {env : Call → List Outcome}
    (hq : (World.mk [] 0 env []).Quiet) : (d.world h env).Quiet := hq

/-- A put that the library refuses leaves the disk. -/
theorem Disk.put_rejects {d : Disk} {h : Nat} {key value : CString} {env : Call → List Outcome}
    (hacc : ¬ Accepts key.bytes value.bytes) : d.put h key value env = (-1, d.world h env) :=
  kvdbPut_rejects hacc

/-- The effects of a put on an image. -/
theorem Disk.put_trace {d : Disk} {img : Image} (hd : d.file = img.bytes) {h : Nat}
    {key value : CString} {env : Call → List Outcome} (hq : (World.mk [] 0 env []).Quiet)
    (hacc : Accepts key.bytes value.bytes) :
    (d.put h key value env).1 = 0 ∧
      (d.put h key value env).2.trace = putEffects hacc (framing.encAll img.recs).length ∧
      (d.put h key value env).2.file = applyAll (d.put h key value env).2.trace d.file := by
  obtain ⟨h0, hW⟩ := kvdbPut_spec (w := d.world h env) hq
    (show 0 ≤ (handleOf h).fd from Int.natCast_nonneg h) hacc
  have hend : framing.goodEnd Rec.valid (d.world h env).file
      = (framing.encAll img.recs).length := by
    rw [← img.goodEnd_bytes, ← hd]
    rfl
  rw [hend] at hW
  have htr : (d.put h key value env).2.trace = putEffects hacc (framing.encAll img.recs).length :=
    hW.trace
  exact ⟨h0, htr, htr ▸ hW.file⟩

/-- Of what `write` does nothing belongs to the commit word. -/
theorem filter_bytesAt_write (off : Nat) (bs : List UInt8) :
    (bytesAt Effect.write off bs).filter Effect.isPwrite = [] := by
  induction bs generalizing off with
  | nil => rfl
  | cons b bs ih => rw [bytesAt, List.filter_cons_of_neg (by simp [Effect.isPwrite]), ih]

/-- All that `pwrite` does belongs to the commit word. -/
theorem filter_bytesAt_pwrite (off : Nat) (bs : List UInt8) :
    (bytesAt Effect.pwrite off bs).filter Effect.isPwrite = bytesAt Effect.pwrite off bs := by
  induction bs generalizing off with
  | nil => rfl
  | cons b bs ih => rw [bytesAt, List.filter_cons_of_pos rfl, ih]

/-- The whole commit word is written exactly when all the effects are done. -/
theorem wholeCommit_take {key value : List UInt8} (h : Accepts key value) (off n : Nat) :
    wholeCommit ((putEffects h off).take n) = true ↔
      1 + ((Rec.new 0 h).bytes.length + 4) ≤ n := by
  cases n with
  | zero => simp [wholeCommit]
  | succ n =>
    rw [wholeCommit, decide_eq_true_iff, putEffects, List.take_succ_cons,
      List.filter_cons_of_neg (by simp [Effect.isPwrite]), List.take_append, take_bytesAt,
      take_bytesAt, length_bytesAt, List.filter_append, filter_bytesAt_write,
      filter_bytesAt_pwrite, List.nil_append, length_bytesAt, List.length_take,
      Words.length_le32]
    omega

/-- A crashed put takes an image to an image, and its store follows the commit word. -/
theorem Refines.crash {d : Disk} {img : Image} (hd : d.file = img.bytes)
    {key value : List UInt8} (h : Accepts key value) (n : Nat) :
    ∃ img' : Image,
      applyAll ((putEffects h (framing.encAll img.recs).length).take n) d.file = img'.bytes ∧
      img'.store = if wholeCommit ((putEffects h (framing.encAll img.recs).length).take n)
        then img.store.insert key value else img.store := by
  have hoff : (framing.encAll img.recs).length ≤ img.bytes.length := by
    rw [Image.bytes, List.length_append]; omega
  have htake : img.bytes.take (framing.encAll img.recs).length = framing.encAll img.recs := by
    rw [Image.bytes, List.take_left]
  have hbad : ∀ c, c ≠ kvdbCommitted → (Rec.new c h).valid = false := by
    intro c hc
    rw [Rec.new_valid]
    exact decide_eq_false hc
  rw [hd]
  rcases Nat.eq_zero_or_pos n with rfl | hn
  · exact ⟨img, rfl, by simp [wholeCommit]⟩
  · rcases Nat.lt_or_ge n (1 + ((Rec.new 0 h).bytes.length + 4)) with hlt | hge
    · rw [if_neg (by rw [wholeCommit_take]; omega)]
      rcases Nat.le_total (n - 1) (Rec.new 0 h).bytes.length with hle | hle
      · -- dead while appending: a beginning of the uncommitted record
        refine ⟨img.withTail (Rec.new 0 h) (hbad 0 (by decide)) (List.take_prefix (n - 1) _),
          ?_, rfl⟩
        have := applyAll_putEffects_append h hoff hle
        rw [htake, show 1 + (n - 1) = n by omega] at this
        exact this
      · -- dead while committing: the whole record, its commit word not yet whole
        obtain ⟨j, hj⟩ := Nat.exists_eq_add_of_le hle
        have hword : commitWord j ≠ kvdbCommitted := fun heq => by
          have := (commitWord_eq_iff j).mp heq
          omega
        refine ⟨img.withTail (Rec.new (commitWord j) h) (hbad _ hword) (List.prefix_refl _),
          ?_, rfl⟩
        have := applyAll_putEffects_commit h hoff j
        rw [htake, ← hj, show 1 + (n - 1) = n by omega] at this
        exact this
    · rw [if_pos (by rw [wholeCommit_take]; omega)]
      refine ⟨img.push (Rec.new kvdbCommitted h) (by rw [Rec.new_valid]; rfl), ?_,
        img.store_push _ _⟩
      rw [List.take_of_length_le (by rw [length_putEffects]; exact hge),
        applyAll_putEffects h hoff, htake]
      simp [Image.bytes, Image.push]

/-- **One event.**  Whatever the event and wherever a crash stops it, the new file stands for
    the new map. -/
theorem Refines.step {d : Disk} {M : Store} (hr : Refines d M) {e : Event} (hq : e.Quiet) :
    Refines (d.step e) (M.step (d.commits e)) := by
  obtain ⟨img, hd, rfl⟩ := hr
  cases e with
  | put h key value env =>
    by_cases hacc : Accepts key.bytes value.bytes
    · obtain ⟨h0, htr, hfile⟩ := Disk.put_trace hd hq hacc (h := h)
      obtain ⟨img', hb, hs⟩ :=
        Refines.crash hd hacc (putEffects hacc (framing.encAll img.recs).length).length
      rw [List.take_length] at hb hs
      refine ⟨img', ?_, ?_⟩
      · rw [← hb, ← htr]; exact hfile
      · have hwhole := (wholeCommit_take hacc (framing.encAll img.recs).length
          (putEffects hacc (framing.encAll img.recs).length).length).mpr
          (Nat.le_of_eq (length_putEffects _ _).symm)
        rw [List.take_length] at hwhole
        have hcommits : d.commits (.put h key value env) = some (key.bytes, value.bytes) := if_pos h0
        exact (congrArg img.store.step hcommits).trans (hs.trans (if_pos hwhole)).symm
    · refine ⟨img, ?_, ?_⟩
      · rw [Disk.step, Disk.put_rejects hacc]; exact hd
      · rw [Disk.commits, Disk.put_rejects hacc]; rfl
  | crash h key value env n =>
    by_cases hacc : Accepts key.bytes value.bytes
    · obtain ⟨-, htr, -⟩ := Disk.put_trace hd hq hacc (h := h)
      obtain ⟨img', hb, hs⟩ := Refines.crash hd hacc n
      refine ⟨img', ?_, ?_⟩
      · rw [Disk.step, htr]; exact hb
      · rw [hs, Disk.commits, htr]
        split <;> rfl
    · have htr : (d.put h key value env).2.trace = [] := by rw [Disk.put_rejects hacc]; rfl
      refine ⟨img, ?_, ?_⟩
      · rw [Disk.step, htr, List.take_nil]; exact hd
      · rw [Disk.commits, htr, List.take_nil]; rfl
  | get h key buf length env =>
    refine ⟨img, ?_, rfl⟩
    have hR := kvdbGet_reads (w := d.world h env) hq.1 (handleOf h) key buf length
    rw [← hd]
    exact hR.file

/-! ## Whole runs -/

/-- The map after two runs is that of the second on what the first has left. -/
theorem Disk.store_append (d : Disk) (M : Store) (es fs : List Event) :
    d.store M (es ++ fs) = (d.run es).store (d.store M es) fs := by
  induction es generalizing d M with
  | nil => rfl
  | cons e es ih => exact ih (d.step e) _

/-- The invariant holds after every run. -/
theorem Refines.run {d : Disk} {M : Store} (hr : Refines d M) {evs : List Event}
    (hq : ∀ e ∈ evs, e.Quiet) : Refines (d.run evs) (d.store M evs) := by
  induction evs generalizing d M with
  | nil => exact hr
  | cons e es ih =>
    exact ih (hr.step (hq e List.mem_cons_self)) fun f hf => hq f (List.mem_cons_of_mem _ hf)

/-- The empty file stands for the empty map. -/
theorem Refines.init (pos : Nat → Nat) : Refines (Disk.init pos) Store.empty := by
  let u : Rec := ⟨0, 0, 0, [0], [], by decide, by decide, by decide⟩
  exact ⟨⟨[], [], fun r hr => (nomatch hr), u, by decide, List.nil_prefix⟩, rfl, rfl⟩

/-- Some event of `evs` makes a put of `key` last. -/
def Disk.Overwrites (d : Disk) (evs : List Event) (key : List UInt8) : Prop :=
  ∃ pre e post value, evs = pre ++ e :: post ∧ (d.run pre).commits e = some (key, value)

/-- A key that no event overwrites keeps its value. -/
theorem Disk.store_untouched {d : Disk} {M : Store} {evs : List Event} {key : List UInt8}
    (h : ¬ d.Overwrites evs key) : d.store M evs key = M key := by
  induction evs generalizing d M with
  | nil => rfl
  | cons e es ih =>
    have htail : ¬ (d.step e).Overwrites es key := by
      rintro ⟨pre, f, post, value, rfl, hf⟩
      exact h ⟨e :: pre, f, post, value, rfl, hf⟩
    rw [store, ih htail]
    cases hc : d.commits e with
    | none => rfl
    | some p =>
      obtain ⟨k, v⟩ := p
      have hk : key ≠ k := by
        rintro rfl
        exact h ⟨[], e, es, v, rfl, hc⟩
      exact if_neg hk

/-- **Crash-consistent refinement.**  After every run from an empty file without failing calls,
    with crashes anywhere: (a) a put that returned 0 is in the map unless it was overwritten;
    (b) a crashed put is in the map as a whole or not at all; (c) `kvdb_get` answers through
    every handle according to the map. -/
theorem kvdb_crash_refinement (pos : Nat → Nat) (evs : List Event) (hq : ∀ e ∈ evs, e.Quiet) :
    (∀ pre h key value env post, evs = pre ++ .put h key value env :: post →
      (((Disk.init pos).run pre).put h key value env).1 = 0 →
      ¬ ((Disk.init pos).run (pre ++ [.put h key value env])).Overwrites post key.bytes →
      storeAfter pos evs key.bytes = some value.bytes) ∧
    (∀ pre h key value env n post, evs = pre ++ .crash h key value env n :: post →
      storeAfter pos (pre ++ [.crash h key value env n]) = storeAfter pos pre ∨
      storeAfter pos (pre ++ [.crash h key value env n]) =
        (storeAfter pos pre).insert key.bytes value.bytes) ∧
    (∀ (h : Nat) (key : CString) (length : Nat) (env : Call → List Outcome),
      key.IsKey → 1 ≤ length → (World.mk [] 0 env []).Quiet →
      (((Disk.init pos).run evs).get h key true length env).1 =
        match storeAfter pos evs key.bytes with
        | none => ⟨-1, []⟩
        | some v => ⟨(min v.length (length - 1) : Nat), v.take (min v.length (length - 1)) ++ [0]⟩) := by
  refine ⟨?_, ?_, ?_⟩
  · rintro pre h key value env post rfl hrc hover
    rw [← List.singleton_append, ← List.append_assoc, storeAfter, Disk.store_append,
      Disk.store_untouched hover, Disk.store_append, Disk.store, Disk.store, Disk.commits,
      if_pos hrc]
    exact if_pos rfl
  · rintro pre h key value env n post -
    rw [storeAfter, Disk.store_append, Disk.store, Disk.store, Disk.commits]
    split
    · exact Or.inr rfl
    · exact Or.inl rfl
  · intro h key length env hkey hlen henv
    obtain ⟨img, hd, hM⟩ := (Refines.init pos).run hq
    have hget := (kvdbGet_spec (w := ((Disk.init pos).run evs).world h env) henv
      (show 0 ≤ (handleOf h).fd from Int.natCast_nonneg h) hkey
      (show true = false → length = 0 from fun h => nomatch h)).1
    have hlook : lookup key.bytes (((Disk.init pos).run evs).world h env).file
        = storeAfter pos evs key.bytes := by
      rw [storeAfter, hM, ← img.lookup_bytes, ← hd]
      rfl
    rw [hlook] at hget
    rw [Disk.get, hget]
    cases storeAfter pos evs key.bytes with
    | none => rfl
    | some v =>
      have hn : (if length ≤ v.length then length - 1 else v.length) = min v.length (length - 1) := by
        split <;> omega
      simp only [answer, true_and]
      rw [if_pos (show 0 < length from hlen), hn]

/-- A put that survives, a second put that dies before its commit word is whole, and what a
    third handle then reads. -/
theorem kvdb_crash_refinement_run :
    (((Disk.init fun _ => 0).run
        [.put 0 ⟨[107], by decide⟩ ⟨[49, 50], by decide⟩ fun _ => [],
          .crash 1 ⟨[107], by decide⟩ ⟨[51], by decide⟩ (fun _ => []) 29]).get
      2 ⟨[107], by decide⟩ true 8 fun _ => []).1 = ⟨2, [49, 50, 0]⟩ := by
  have hquiet : (World.mk [] 0 (fun _ => []) []).Quiet :=
    ⟨⟨fun _ _ => List.not_mem_nil, fun _ h => (nomatch h)⟩, List.not_mem_nil⟩
  have h := (kvdb_crash_refinement (fun _ => 0)
    [.put 0 ⟨[107], by decide⟩ ⟨[49, 50], by decide⟩ fun _ => [],
      .crash 1 ⟨[107], by decide⟩ ⟨[51], by decide⟩ (fun _ => []) 29]
    (by
      intro e he
      rcases List.mem_cons.mp he with rfl | he
      · exact hquiet
      · rw [List.mem_singleton.mp he]; exact hquiet)).2.2
    2 ⟨[107], by decide⟩ 8 (fun _ => []) ⟨by decide, by decide⟩ (by decide) hquiet
  rw [h]
  decide +kernel

end Kvdb
