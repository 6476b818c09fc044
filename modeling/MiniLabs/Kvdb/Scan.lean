/-
  kvdb — what one round of each scanner does, and what a whole scan finds.

  1. **Program** — the loops of `valid_prefix_end` and of `kvdb_get`, which share the walk over the
     records and differ only in where they stop.
  2. **One round** — `validPrefixLoop_round` and `getLoop_round` say everything a round can do: it
     stops, for one of the reasons listed in `Stop`, or it has read exactly the record that
     `nextRec` finds at the offset and goes on behind it.
  3. **The crux (`validPrefixEnd_spec`, `getLoop_spec`)** — when no read fails, induction over the
     rounds gives the two specifications: `valid_prefix_end` is the end of the good prefix of the
     file, and the loop of `kvdb_get` finds the last valid record of its key.
  4. **What is idealised** — the file is not changed by others while a scan goes on: its caller has
     the lock.
-/
import MiniLabs.Kvdb.Schedule

set_option linter.unusedVariables false

namespace Kvdb

open RecordLog World

/-! ## Header and body -/

/-- The reads of one record: its header, its key and its value. -/
def transferRec (r : Rec) (s : List Outcome) : Option (List Outcome) :=
  (transfer sizeofRecord s).bind fun s =>
    (transfer r.key.length s).bind (transfer r.value.length)

/-- **One header**: it is not there or not read, or all of it is read. -/
theorem header_cases (w : World) :
    ((readAllOrEof sizeofRecord [] w).code ≤ 0 ∧
      (nextRec w.rem = none ∨ transfer sizeofRecord (w.env .read) = none)) ∨
    ∃ s, transfer sizeofRecord (w.env .read) = some s ∧ sizeofRecord ≤ w.rem.length ∧
      readAllOrEof sizeofRecord [] w =
        ⟨1, w.rem.take sizeofRecord, (w.withReads s).seek (w.pos + sizeofRecord)⟩ := by
  rcases Nat.lt_or_ge w.rem.length sizeofRecord with hlt | hge
  · exact Or.inl ⟨readAllOrEof_short hlt, Or.inl (nextRec_short hlt)⟩
  · obtain ⟨hsome, hnone⟩ := readAllOrEof_full sizeofRecord (w.env .read) [] w rfl (by simpa)
    cases ht : transfer sizeofRecord (w.env .read) with
    | none =>
      have := hnone ht
      exact Or.inl ⟨by omega, Or.inr rfl⟩
    | some s => exact Or.inr ⟨s, rfl, hge, hsome s ht⟩

/-- Reading a key and a value only reads. -/
theorem readBody_reads (hdr : RecordT) (w : World) : w.Reads (readBody hdr w).2 := by
  have hk := readAllOrEof_reads hdr.keyLen.toNat [] w
  have hv := readAllOrEof_reads hdr.valueLen.toNat [] (readAllOrEof hdr.keyLen.toNat [] w).world
  unfold readBody
  dsimp only
  split
  · exact hk
  · split <;> exact hk.trans hv

/-- **One key and value**: they are not there or not read, or both are read whole. -/
theorem body_cases (hdr : RecordT) (w : World) :
    ((readBody hdr w).1 = none ∧ (w.rem.length < hdr.keyLen.toNat + hdr.valueLen.toNat ∨
      (transfer hdr.keyLen.toNat (w.env .read)).bind (transfer hdr.valueLen.toNat) = none)) ∨
    ∃ s, (transfer hdr.keyLen.toNat (w.env .read)).bind (transfer hdr.valueLen.toNat) = some s ∧
      hdr.keyLen.toNat + hdr.valueLen.toNat ≤ w.rem.length ∧
      readBody hdr w = (some (w.rem.take hdr.keyLen.toNat,
        (w.rem.drop hdr.keyLen.toNat).take hdr.valueLen.toNat),
        (w.withReads s).seek (w.pos + hdr.keyLen.toNat + hdr.valueLen.toNat)) := by
  unfold readBody
  dsimp only
  rcases Nat.lt_or_ge w.rem.length hdr.keyLen.toNat with hlt | hge
  · have hc := readAllOrEof_short hlt
    exact Or.inl ⟨by rw [if_pos (by omega)], Or.inl (by omega)⟩
  · obtain ⟨hks, hkn⟩ := readAllOrEof_full hdr.keyLen.toNat (w.env .read) [] w rfl (by simpa)
    cases ht : transfer hdr.keyLen.toNat (w.env .read) with
    | none =>
      have := hkn ht
      exact Or.inl ⟨by rw [if_pos (by omega)], Or.inr rfl⟩
    | some s =>
      rw [hks s ht, if_neg (by simp)]
      have hrem : ((w.withReads s).seek (w.pos + hdr.keyLen.toNat)).rem
          = w.rem.drop hdr.keyLen.toNat := by
        rw [rem, rem, List.drop_drop]; rfl
      have hlen : ((w.withReads s).seek (w.pos + hdr.keyLen.toNat)).rem.length
          = w.rem.length - hdr.keyLen.toNat := by rw [hrem, List.length_drop]
      simp only [List.length_nil, Nat.sub_zero, List.nil_append, Option.bind_some]
      rcases Nat.lt_or_ge (w.rem.length - hdr.keyLen.toNat) hdr.valueLen.toNat with hlt | hge'
      · have hc := readAllOrEof_short (hlen ▸ hlt)
        exact Or.inl ⟨by rw [if_pos (by omega)], Or.inl (by omega)⟩
      · obtain ⟨hvs, hvn⟩ := readAllOrEof_full hdr.valueLen.toNat s []
          ((w.withReads s).seek (w.pos + hdr.keyLen.toNat)) rfl (by rw [hlen]; simpa)
        cases ht' : transfer hdr.valueLen.toNat s with
        | none =>
          have := hvn ht'
          exact Or.inl ⟨by rw [if_pos (by omega)], Or.inr rfl⟩
        | some s' =>
          refine Or.inr ⟨s', rfl, by omega, ?_⟩
          rw [hvs s' ht', if_neg (by simp), hrem]
          simp only [List.length_nil, Nat.sub_zero, List.nil_append]
          congr 1
          show (((w.withReads s).withReads s').seek _) = _
          rw [withReads_withReads]
          rfl

/-! ## One record -/

/-- The checks on a header that both scanners make. -/
def RecordT.Shape (hdr : RecordT) : Prop :=
  hdr.magic = kvdbMagic ∧ 0 < hdr.keyLen.toNat ∧ hdr.keyLen.toNat ≤ kvdbMaxKey ∧
    hdr.valueLen.toNat ≤ kvdbMaxValue

/-- The header read at `w`. -/
def headerAt (w : World) : ReadResult := readAllOrEof sizeofRecord [] w

/-- The body read behind that header, after the two allocations. -/
def bodyAt (w : World) : Option (List UInt8 × List UInt8) × World :=
  readBody (RecordT.ofBytes (headerAt w).data) (headerAt w).world.malloc.2.malloc.2

/-- Everything that can come of reading one record at `w`. -/
inductive RecordCase (w : World) : Prop
  | noHeader (hcode : (headerAt w).code ≤ 0)
      (hstop : nextRec w.rem = none ∨ transfer sizeofRecord (w.env .read) = none)
  | badHeader (hcode : (headerAt w).code = 1) (hbad : ¬ (RecordT.ofBytes (headerAt w).data).Shape)
      (hnone : nextRec w.rem = none)
  | cutBody (hcode : (headerAt w).code = 1) (hshape : (RecordT.ofBytes (headerAt w).data).Shape)
      (hbody : (bodyAt w).1 = none) (hnone : nextRec w.rem = none)
  | failedBody (hcode : (headerAt w).code = 1)
      (hshape : (RecordT.ofBytes (headerAt w).data).Shape) (hbody : (bodyAt w).1 = none)
      (r : Rec) (t : List UInt8) (hrec : nextRec w.rem = some (r, t))
      (hhdr : r.header = RecordT.ofBytes (headerAt w).data)
      (hfail : transferRec r (w.env .read) = none)
  | found (hcode : (headerAt w).code = 1) (hshape : (RecordT.ofBytes (headerAt w).data).Shape)
      (r : Rec) (t : List UInt8) (hrec : nextRec w.rem = some (r, t))
      (hhdr : r.header = RecordT.ofBytes (headerAt w).data)
      (hbody : (bodyAt w).1 = some (r.key, r.value))
      (hpos : (bodyAt w).2.pos = w.pos + r.bytes.length)
      (hread : transferRec r (w.env .read) = some ((bodyAt w).2.env .read))

/-- A header that is out of shape is no record. -/
theorem nextRec_none_of_shape {s : List UInt8}
    (h : ¬ (RecordT.ofBytes (s.take sizeofRecord)).Shape) : nextRec s = none :=
  dif_neg fun hc => h ⟨hc.2.1, hc.2.2.1, hc.2.2.2.1, hc.2.2.2.2.1⟩

/-- **One round of a scanner** comes to one of the cases. -/
theorem recordCase (w : World) : RecordCase w := by
  rcases header_cases w with ⟨hcode, hstop⟩ | ⟨s, hs, hlen, hread⟩
  · exact .noHeader hcode hstop
  · have hH : headerAt w = ⟨1, w.rem.take sizeofRecord,
        (w.withReads s).seek (w.pos + sizeofRecord)⟩ := hread
    have hdata : (headerAt w).data = w.rem.take sizeofRecord := by rw [hH]
    have hcode : (headerAt w).code = 1 := by rw [hH]
    by_cases hshape : (RecordT.ofBytes (headerAt w).data).Shape
    · obtain ⟨hm, hk, hkm, hvm⟩ := hshape
      -- the state in which the body is read
      have haside : ((w.withReads s).seek (w.pos + sizeofRecord)).Aside
          (headerAt w).world.malloc.2.malloc.2 := by
        rw [hH]
        exact (malloc_aside _).trans (malloc_aside _)
      have hrem : (headerAt w).world.malloc.2.malloc.2.rem = w.rem.drop sizeofRecord := by
        rw [haside.rem, rem, rem, List.drop_drop]
        rfl
      have hpos : (headerAt w).world.malloc.2.malloc.2.pos = w.pos + sizeofRecord := haside.pos
      have henv : (headerAt w).world.malloc.2.malloc.2.env .read = s := haside.read
      rcases body_cases (RecordT.ofBytes (headerAt w).data)
        (headerAt w).world.malloc.2.malloc.2 with ⟨hbody, hwhy⟩ | ⟨s', hs', hfit, hbody⟩
      · rw [hrem, henv] at hwhy
        rcases Nat.lt_or_ge (w.rem.drop sizeofRecord).length
          ((RecordT.ofBytes (headerAt w).data).keyLen.toNat +
            (RecordT.ofBytes (headerAt w).data).valueLen.toNat) with hlt | hge
        · refine .cutBody hcode ⟨hm, hk, hkm, hvm⟩ hbody (dif_neg fun hc => ?_)
          rw [hdata] at hlt
          have := hc.2.2.2.2.2
          omega
        · obtain ⟨r, t, hrec, hhdr, -, -⟩ :=
            nextRec_some (s := w.rem) (by rw [hdata]) hlen hm hk hkm hvm hge
          refine .failedBody hcode ⟨hm, hk, hkm, hvm⟩ hbody r t hrec hhdr ?_
          rcases hwhy with hlt | hnone
          · omega
          · rw [← hhdr, Rec.header_keyLen, Rec.header_valueLen] at hnone
            rw [transferRec, hs]
            exact hnone
      · rw [hrem] at hfit
        obtain ⟨r, t, hrec, hhdr, hkey, hval⟩ :=
          nextRec_some (s := w.rem) (by rw [hdata]) hlen hm hk hkm hvm hfit
        rw [hrem, hpos, ← hhdr, Rec.header_keyLen, Rec.header_valueLen] at hbody
        rw [henv, ← hhdr, Rec.header_keyLen, Rec.header_valueLen] at hs'
        rw [← hhdr, Rec.header_keyLen] at hkey
        rw [← hhdr, Rec.header_keyLen, Rec.header_valueLen] at hval
        have hB : bodyAt w = (some (r.key, r.value),
            ((headerAt w).world.malloc.2.malloc.2.withReads s').seek
              (w.pos + sizeofRecord + r.key.length + r.value.length)) := by
          rw [bodyAt, ← hhdr, hbody, ← hkey, ← hval]
        refine .found hcode ⟨hm, hk, hkm, hvm⟩ r t hrec hhdr (by rw [hB]) ?_ ?_
        · rw [hB, Rec.length_bytes]
          show w.pos + sizeofRecord + r.key.length + r.value.length = _
          omega
        · rw [hB, transferRec, hs]
          exact hs'
    · exact .badHeader hcode hshape (nextRec_none_of_shape (hdata ▸ hshape))

/-- Reading a header only reads. -/
theorem headerAt_reads (w : World) : w.Reads (headerAt w).world := readAllOrEof_reads _ _ _

/-- Reading what a header announces only reads. -/
theorem bodyAt_reads (w : World) : w.Reads (bodyAt w).2 :=
  (headerAt_reads w).trans (((malloc_aside _).trans (malloc_aside _)).toReads.trans
    (readBody_reads _ _))

/-- Reading a record takes from the schedules of reads and allocations only. -/
theorem bodyAt_env_ne {c : Call} (hr : c ≠ .read) (hm : c ≠ .malloc) (w : World) :
    (bodyAt w).2.env c = w.env c := by
  have hbody : ∀ hdr w', (readBody hdr w').2.env c = w'.env c := by
    intro hdr w'
    have hk := readAllOrEof_env_ne hr hdr.keyLen.toNat [] w'
    have hv := readAllOrEof_env_ne hr hdr.valueLen.toNat []
      (readAllOrEof hdr.keyLen.toNat [] w').world
    unfold readBody
    dsimp only
    split
    · exact hk
    · split <;> exact hv.trans hk
  rw [bodyAt, hbody, malloc_world, next_env_ne hm, malloc_world, next_env_ne hm, headerAt,
    readAllOrEof_env_ne hr]

/-- Behind a record stands the rest of the file. -/
theorem rem_behind {w w' : World} {r : Rec} {t : List UInt8} (hrec : nextRec w.rem = some (r, t))
    (hf : w'.file = w.file) (hp : w'.pos = w.pos + r.bytes.length) : w'.rem = t := by
  rw [rem, hf, hp, ← List.drop_drop]
  show w.rem.drop r.bytes.length = t
  rw [nextRec_sound hrec, List.drop_left]

/-! ## The rounds of the two loops -/

/-- The loop of `valid_prefix_end`, its reads named. -/
theorem validPrefixLoop_eq (ve : Int) (w : World) :
    validPrefixLoop ve w =
      let w₁ := w.lseekCur.2
      let hdr := RecordT.ofBytes (headerAt w₁).data
      if w.lseekCur.1 < 0 then (-1, w₁)
      else if (headerAt w₁).code = 0 then (ve, (headerAt w₁).world)
      else if (headerAt w₁).code < 0 ∨ hdr.magic ≠ kvdbMagic ∨ hdr.committed ≠ kvdbCommitted ∨
          hdr.keyLen.toNat = 0 ∨ kvdbMaxKey < hdr.keyLen.toNat ∨
          kvdbMaxValue < hdr.valueLen.toNat then (ve, (headerAt w₁).world)
      else if (headerAt w₁).world.malloc.1 = false ∨ (headerAt w₁).world.malloc.2.malloc.1 = false
        then (-1, (headerAt w₁).world.malloc.2.malloc.2)
      else match (bodyAt w₁).1 with
        | none => (ve, (bodyAt w₁).2)
        | some (key, value) =>
          if recordChecksum hdr.keyLen hdr.valueLen key value ≠ hdr.checksum then
            (ve, (bodyAt w₁).2)
          else validPrefixLoop (w.lseekCur.1 + sizeofRecord + hdr.keyLen.toNat + hdr.valueLen.toNat)
            (bodyAt w₁).2 := by
  rw [validPrefixLoop]
  rfl

/-- The loop of `kvdb_get`, its reads named. -/
theorem getLoop_eq (key : List UInt8) (best : Option (List UInt8)) (w : World) :
    getLoop key best w =
      let hdr := RecordT.ofBytes (headerAt w).data
      if (headerAt w).code = 0 then (.break best, (headerAt w).world)
      else if (headerAt w).code < 0 ∨ hdr.magic ≠ kvdbMagic ∨ hdr.keyLen.toNat = 0 ∨
          kvdbMaxKey < hdr.keyLen.toNat ∨ kvdbMaxValue < hdr.valueLen.toNat then
        (.break best, (headerAt w).world)
      else if (headerAt w).world.malloc.1 = false ∨ (headerAt w).world.malloc.2.malloc.1 = false
        then (.out, (headerAt w).world.malloc.2.malloc.2)
      else match (bodyAt w).1 with
        | none => (.break best, (bodyAt w).2)
        | some (k, v) =>
          if hdr.committed = kvdbCommitted ∧
              hdr.checksum = recordChecksum hdr.keyLen hdr.valueLen k v ∧
              hdr.keyLen.toNat = key.length ∧ k.take key.length = key then
            if (bodyAt w).2.malloc.1 = false then (.out, (bodyAt w).2.malloc.2)
            else getLoop key (some v) (bodyAt w).2.malloc.2
          else getLoop key best (bodyAt w).2 := by
  rw [getLoop]
  rfl

/-- A header in shape passes the test of the scanners. -/
theorem RecordT.Shape.passes {hdr : RecordT} (h : hdr.Shape) {code : Int} (hcode : code = 1) :
    ¬ (code < 0 ∨ hdr.magic ≠ kvdbMagic ∨ hdr.keyLen.toNat = 0 ∨
      kvdbMaxKey < hdr.keyLen.toNat ∨ kvdbMaxValue < hdr.valueLen.toNat) := by
  obtain ⟨hm, h1, h2, h3⟩ := h
  simp only [hm, ne_eq, not_true_eq_false, false_or]
  omega

/-- A header out of shape does not pass it. -/
theorem RecordT.Shape.fails {hdr : RecordT} (h : ¬ hdr.Shape) (code : Int) :
    code < 0 ∨ hdr.magic ≠ kvdbMagic ∨ hdr.keyLen.toNat = 0 ∨
      kvdbMaxKey < hdr.keyLen.toNat ∨ kvdbMaxValue < hdr.valueLen.toNat := by
  unfold RecordT.Shape at h
  by_cases hm : hdr.magic = kvdbMagic
  · exact Or.inr (Or.inr (by simp only [hm, true_and] at h; omega))
  · exact Or.inr (Or.inl hm)

/-- Why `valid_prefix_end` stops: there is no further record, or it does not count, or a read
    failed. -/
def PrefixStop (w : World) : Prop :=
  nextRec w.rem = none ∨
    ∃ r t, nextRec w.rem = some (r, t) ∧ (r.valid = false ∨ transferRec r (w.env .read) = none)

/-- Why the loop of `kvdb_get` stops. -/
def GetStop (w : World) : Prop :=
  nextRec w.rem = none ∨ ∃ r t, nextRec w.rem = some (r, t) ∧ transferRec r (w.env .read) = none

/-- Where a get stops the scan of a put stops as well. -/
theorem GetStop.prefixStop {w : World} (h : GetStop w) : PrefixStop w := by
  rcases h with h | ⟨r, t, hrec, hf⟩
  · exact Or.inl h
  · exact Or.inr ⟨r, t, hrec, Or.inr hf⟩

/-- A valid record that can be read does not stop `valid_prefix_end`. -/
theorem not_prefixStop {w : World} {r : Rec} {t : List UInt8} (hrec : nextRec w.rem = some (r, t))
    (hval : r.valid = true) (hread : transferRec r (w.env .read) ≠ none) : ¬ PrefixStop w := by
  rintro (hno | ⟨r', t', hrec', hbad⟩)
  · rw [hrec] at hno
    exact absurd hno (Option.some_ne_none _)
  · rw [hrec] at hrec'
    obtain ⟨rfl, -⟩ := Prod.mk.inj (Option.some.inj hrec')
    rcases hbad with hbad | hfail
    · rw [hval] at hbad
      exact absurd hbad (by decide)
    · exact hread hfail

/-- A record that can be read does not stop the loop of `kvdb_get`. -/
theorem not_getStop {w : World} {r : Rec} {t : List UInt8} (hrec : nextRec w.rem = some (r, t))
    (hread : transferRec r (w.env .read) ≠ none) : ¬ GetStop w := by
  rintro (hno | ⟨r', t', hrec', hfail⟩)
  · rw [hrec] at hno
    exact absurd hno (Option.some_ne_none _)
  · rw [hrec] at hrec'
    obtain ⟨rfl, -⟩ := Prod.mk.inj (Option.some.inj hrec')
    exact hread hfail

/-- A scanner without a header stops. -/
theorem GetStop.of_header {w : World}
    (h : nextRec w.rem = none ∨ transfer sizeofRecord (w.env .read) = none) : GetStop w := by
  rcases h with h | h
  · exact Or.inl h
  · cases hn : nextRec w.rem with
    | none => exact Or.inl hn
    | some p => exact Or.inr ⟨p.1, p.2, hn, by rw [transferRec, h]; rfl⟩

/-- A record is valid if it is committed and has the checksum of its contents. -/
theorem Rec.valid_iff (r : Rec) :
    r.valid = true ↔ r.header.committed = kvdbCommitted ∧
      recordChecksum r.header.keyLen r.header.valueLen r.key r.value = r.header.checksum := by
  rw [Rec.valid, decide_eq_true_iff]
  exact and_congr_right fun _ => eq_comm

/-- One round of the loop of `kvdb_get`. -/
theorem getLoop_round {w : World} (hq : w.QuietBut) (key : List UInt8)
    (best : Option (List UInt8)) :
    (∃ w', getLoop key best w = (.break best, w') ∧ w.Reads w' ∧ GetStop w) ∨
    ∃ r t w', nextRec w.rem = some (r, t) ∧ transferRec r (w.env .read) = some (w'.env .read) ∧
      w.Reads w' ∧ w'.pos = w.pos + r.bytes.length ∧
      getLoop key best w =
        getLoop key (if r.counts key then some r.value else best) w' := by
  have hR := headerAt_reads w
  have hRB := bodyAt_reads w
  have hk := malloc_quiet (hR.quietBut hq)
  have hv := malloc_quiet ((malloc_aside _).toReads.quietBut (hR.quietBut hq))
  rw [getLoop_eq]
  dsimp only
  cases recordCase w with
  | noHeader hcode hstop =>
    refine Or.inl ⟨_, ?_, hR, GetStop.of_header hstop⟩
    split
    · rfl
    · rw [if_pos (Or.inl (by omega))]
  | badHeader hcode hbad hnone =>
    refine Or.inl ⟨_, ?_, hR, Or.inl hnone⟩
    rw [if_neg (by omega), if_pos (RecordT.Shape.fails hbad _)]
  | cutBody hcode hshape hbody hnone =>
    refine Or.inl ⟨_, ?_, hRB, Or.inl hnone⟩
    rw [if_neg (by omega), if_neg (hshape.passes hcode), if_neg (by simp [hk, hv]), hbody]
  | failedBody hcode hshape hbody r t hrec hhdr hfail =>
    refine Or.inl ⟨_, ?_, hRB, Or.inr ⟨r, t, hrec, hfail⟩⟩
    rw [if_neg (by omega), if_neg (hshape.passes hcode), if_neg (by simp [hk, hv]), hbody]
  | found hcode hshape r t hrec hhdr hbody hpos hread =>
    rw [if_neg (by omega), if_neg (hshape.passes hcode), if_neg (by simp [hk, hv]), hbody]
    dsimp only
    rw [← hhdr]
    by_cases hmatch : r.valid = true ∧ r.key = key
    · have hval := (Rec.valid_iff r).mp hmatch.1
      have hkey := hmatch.2
      have hm := malloc_quiet (hRB.quietBut hq)
      have ha := malloc_aside (bodyAt w).2
      refine Or.inr ⟨r, t, (bodyAt w).2.malloc.2, hrec, ha.read ▸ hread, hRB.trans ha.toReads,
        ha.pos.trans hpos, ?_⟩
      rw [if_pos ⟨hval.1, hval.2.symm, by rw [Rec.header_keyLen, hkey],
        by rw [← hkey, List.take_length]⟩, if_neg (by simp [hm]),
        if_pos (by simp [Rec.counts, hmatch.1, hkey])]
    · refine Or.inr ⟨r, t, (bodyAt w).2, hrec, hread, hRB, hpos, ?_⟩
      rw [if_neg, if_neg (by simpa [Rec.counts] using hmatch)]
      rintro ⟨h1, h2, h3, h4⟩
      apply hmatch
      rw [Rec.header_keyLen] at h3
      refine ⟨(Rec.valid_iff r).mpr ⟨h1, h2.symm⟩, ?_⟩
      rw [← h4, ← h3, List.take_length]

/-- What a round of `valid_prefix_end` takes from the schedules: one `lseek`, and reads and
    allocations. -/
structure Scanned (w w' : World) : Prop extends w.Reads w' where
  seeks : w'.env .lseek = (w.env .lseek).tail
  others : ∀ c, c ≠ .read → c ≠ .malloc → c ≠ .lseek → w'.env c = w.env c

/-- A header is read from where the scanner stands. -/
theorem headerAt_scanned (w : World) : Scanned w (headerAt w.lseekCur.2).world := by
  refine ⟨(lseekCur_aside w).toReads.trans (headerAt_reads _), ?_, fun c hr _ hl => ?_⟩
  · rw [headerAt, readAllOrEof_env_ne (by decide), lseekCur_world, next_env_self]
  · rw [headerAt, readAllOrEof_env_ne hr, lseekCur_world, next_env_ne hl]

/-- A key and a value are read from behind the header. -/
theorem bodyAt_scanned (w : World) : Scanned w (bodyAt w.lseekCur.2).2 := by
  refine ⟨(lseekCur_aside w).toReads.trans (bodyAt_reads _), ?_, fun c hr hm hl => ?_⟩
  · rw [bodyAt_env_ne (by decide) (by decide), lseekCur_world, next_env_self]
  · rw [bodyAt_env_ne hr hm, lseekCur_world, next_env_ne hl]

/-- One round of `valid_prefix_end` whose `lseek(fd, 0, SEEK_CUR)` succeeds; it reads its
    record behind that. -/
theorem validPrefixLoop_scanned {w : World} (hm : Outcome.fail ∉ w.env .malloc)
    (hl : (w.next .lseek).1 ≠ .fail) (ve : Int) :
    (∃ w', validPrefixLoop ve w = (ve, w') ∧ Scanned w w' ∧ PrefixStop w) ∨
    ∃ r t w', nextRec w.rem = some (r, t) ∧ r.valid = true ∧
      transferRec r (w.env .read) = some (w'.env .read) ∧ Scanned w w' ∧
      w'.pos = w.pos + r.bytes.length ∧
      validPrefixLoop ve w = validPrefixLoop (w'.pos : Int) w' := by
  have ha := lseekCur_aside w
  have hrem := ha.rem
  have henv := ha.read
  have hR := headerAt_scanned w
  have hRB := bodyAt_scanned w
  have hm₁ : Outcome.fail ∉ (headerAt w.lseekCur.2).world.env .malloc :=
    fun h => hm ((hR.later .malloc).subset h)
  have hk := malloc_sure hm₁
  have hv := malloc_sure fun h => hm₁ (((malloc_aside _).later .malloc).subset h)
  have hoff := lseekCur_ok hl
  rw [validPrefixLoop_eq]
  dsimp only
  rw [hoff, if_neg (by omega)]
  cases recordCase w.lseekCur.2 with
  | noHeader hcode hstop =>
    rw [hrem, henv] at hstop
    refine Or.inl ⟨_, ?_, hR, (GetStop.of_header hstop).prefixStop⟩
    split
    · rfl
    · rw [if_pos (Or.inl (by omega))]
  | badHeader hcode hbad hnone =>
    rw [hrem] at hnone
    refine Or.inl ⟨_, ?_, hR, Or.inl hnone⟩
    rw [if_neg (by omega), if_pos]
    rcases RecordT.Shape.fails hbad (headerAt w.lseekCur.2).code with h | h | h
    · exact Or.inl h
    · exact Or.inr (Or.inl h)
    · exact Or.inr (Or.inr (Or.inr h))
  | cutBody hcode hshape hbody hnone =>
    rw [hrem] at hnone
    rw [if_neg (by omega)]
    split
    · exact Or.inl ⟨_, rfl, hR, Or.inl hnone⟩
    · rw [if_neg (by simp [hk, hv]), hbody]
      exact Or.inl ⟨_, rfl, hRB, Or.inl hnone⟩
  | failedBody hcode hshape hbody r t hrec hhdr hfail =>
    rw [hrem] at hrec
    rw [henv] at hfail
    rw [if_neg (by omega)]
    split
    · exact Or.inl ⟨_, rfl, hR, Or.inr ⟨r, t, hrec, Or.inr hfail⟩⟩
    · rw [if_neg (by simp [hk, hv]), hbody]
      exact Or.inl ⟨_, rfl, hRB, Or.inr ⟨r, t, hrec, Or.inr hfail⟩⟩
  | found hcode hshape r t hrec hhdr hbody hpos hread =>
    rw [hrem] at hrec
    rw [henv] at hread
    rw [if_neg (by omega), ← hhdr]
    by_cases hcom : r.header.committed = kvdbCommitted
    · have hp := hshape.passes hcode
      rw [← hhdr] at hp
      rw [if_neg (by simpa only [hcom, ne_eq, not_true_eq_false, false_or] using hp),
        if_neg (by simp [hk, hv]), hbody]
      dsimp only
      by_cases hsum : recordChecksum r.header.keyLen r.header.valueLen r.key r.value
          = r.header.checksum
      · refine Or.inr ⟨r, t, _, hrec, (Rec.valid_iff r).mpr ⟨hcom, hsum⟩, hread, hRB,
          by rw [hpos, ha.pos], ?_⟩
        rw [if_neg (by simp [hsum]), hpos, ha.pos, Rec.length_bytes, Rec.header_keyLen,
          Rec.header_valueLen]
        congr 1
        omega
      · have hbad : r.valid = false :=
          Bool.eq_false_iff.mpr fun h => hsum ((Rec.valid_iff r).mp h).2
        rw [if_pos (show _ ≠ _ from hsum)]
        exact Or.inl ⟨_, rfl, hRB, Or.inr ⟨r, t, hrec, Or.inl hbad⟩⟩
    · have hbad : r.valid = false :=
        Bool.eq_false_iff.mpr fun h => hcom ((Rec.valid_iff r).mp h).1
      rw [if_pos (Or.inr (Or.inr (Or.inl hcom)))]
      exact Or.inl ⟨_, rfl, hR, Or.inr ⟨r, t, hrec, Or.inl hbad⟩⟩

/-- One round of `valid_prefix_end` when no call but a read can fail. -/
theorem validPrefixLoop_round {w : World} (hq : w.QuietBut) (ve : Int) :
    (∃ w', validPrefixLoop ve w = (ve, w') ∧ w.Reads w' ∧ PrefixStop w) ∨
    ∃ r t w', nextRec w.rem = some (r, t) ∧ r.valid = true ∧
      transferRec r (w.env .read) = some (w'.env .read) ∧ w.Reads w' ∧
      w'.pos = w.pos + r.bytes.length ∧
      validPrefixLoop ve w = validPrefixLoop (w'.pos : Int) w' := by
  have hm := hq.1 .malloc (by decide)
  have hl := next_ne_fail (hq.1 .lseek (by decide))
  rcases validPrefixLoop_scanned hm hl ve with
    ⟨w', heq, hS, hstop⟩ | ⟨r, t, w', hrec, hval, hread, hS, hp, heq⟩
  · exact Or.inl ⟨w', heq, hS.toReads, hstop⟩
  · exact Or.inr ⟨r, t, w', hrec, hval, hread, hS.toReads, hp, heq⟩

/-! ## Whole scans -/

/-- Behind a record there is less left to read. -/
theorem rem_lt {w w' : World} {r : Rec} {t : List UInt8} (hrec : nextRec w.rem = some (r, t))
    (hR : w.Reads w') (hp : w'.pos = w.pos + r.bytes.length) : w'.rem.length < w.rem.length := by
  rw [rem_behind hrec hR.file hp]
  exact framing.next_lt hrec

/-- `valid_prefix_end` only reads. -/
theorem validPrefixLoop_reads {w : World} (hq : w.QuietBut) (ve : Int) :
    w.Reads (validPrefixLoop ve w).2 := by
  induction hn : w.rem.length using Nat.strongRecOn generalizing w ve with
  | _ n ih =>
    rcases validPrefixLoop_round hq ve with ⟨w', heq, hR, -⟩ | ⟨r, t, w', hrec, -, -, hR, hp, heq⟩
    · rw [heq]; exact hR
    · rw [heq]
      exact hR.trans (ih _ (hn ▸ rem_lt hrec hR hp) (hR.quietBut hq) _ rfl)

/-- The loop of `kvdb_get` only reads. -/
theorem getLoop_reads {w : World} (hq : w.QuietBut) (key : List UInt8)
    (best : Option (List UInt8)) : w.Reads (getLoop key best w).2 := by
  induction hn : w.rem.length using Nat.strongRecOn generalizing w best with
  | _ n ih =>
    rcases getLoop_round hq key best with ⟨w', heq, hR, -⟩ | ⟨r, t, w', hrec, -, hR, hp, heq⟩
    · rw [heq]; exact hR
    · rw [heq]
      exact hR.trans (ih _ (hn ▸ rem_lt hrec hR hp) (hR.quietBut hq) _ rfl)

/-- A record is read whole where `read` does not fail. -/
theorem transferRec_quiet (r : Rec) {s : List Outcome} (h : Outcome.fail ∉ s) :
    transferRec r s ≠ none := transferPut_quiet r.key r.value h

/-- **The scan of `valid_prefix_end`**: without failures it ends at the end of the good prefix
    of what it has before it. -/
theorem validPrefixLoop_spec {w : World} (hq : w.Quiet) :
    (validPrefixLoop w.pos w).1 = ((w.pos + framing.goodEnd Rec.valid w.rem : Nat) : Int) := by
  induction hn : w.rem.length using Nat.strongRecOn generalizing w with
  | _ n ih =>
    rcases validPrefixLoop_round hq.but w.pos with
      ⟨w', heq, -, hstop⟩ | ⟨r, t, w', hrec, hval, -, hR, hp, heq⟩
    · rw [heq]
      rcases hstop with hnone | ⟨r, t, hrec, hbad | hfail⟩
      · rw [framing.goodEnd_of_none _ hnone]; rfl
      · rw [framing.goodEnd_of_bad hrec hbad]; rfl
      · exact absurd hfail (transferRec_quiet r hq.2)
    · rw [heq, ih _ (hn ▸ rem_lt hrec hR hp) (hR.quiet hq) rfl, rem_behind hrec hR.file hp, hp,
        framing.goodEnd_of_good hrec hval, framing_enc, Nat.add_assoc]

/-- Without a next record nothing is found. -/
theorem lookup_of_none {key s : List UInt8} (h : nextRec s = none) : lookup key s = none := by
  rw [lookup, framing.lastOf_of_none _ h]
  rfl

/-- A record in front counts only for its own key, and only if no later one does. -/
theorem lookup_cons {key s t : List UInt8} {r : Rec} (h : nextRec s = some (r, t)) :
    lookup key s =
      (lookup key t).or (if r.counts key then some r.value else none) := by
  have hs : s = framing.encAll [r] ++ t := by simpa using nextRec_sound h
  rw [lookup, hs, framing.lastOf_encAll_append, lookup]
  by_cases hm : r.counts key = true
  · rw [if_pos hm, List.filter_cons_of_pos hm]
    cases framing.lastOf (Rec.counts key) t <;> rfl
  · rw [if_neg hm, List.filter_cons_of_neg hm]
    cases framing.lastOf (Rec.counts key) t <;> rfl

/-- **The scan of `kvdb_get`**: without failures it finds the last valid record of its key. -/
theorem getLoop_spec {w : World} (hq : w.Quiet) (key : List UInt8) (best : Option (List UInt8)) :
    ∃ w', getLoop key best w = (.break ((lookup key w.rem).or best), w') ∧ w.Reads w' := by
  induction hn : w.rem.length using Nat.strongRecOn generalizing w best with
  | _ n ih =>
    rcases getLoop_round hq.but key best with
      ⟨w', heq, hR, hstop⟩ | ⟨r, t, w', hrec, -, hR, hp, heq⟩
    · refine ⟨w', ?_, hR⟩
      rcases hstop with hnone | ⟨r, t, -, hfail⟩
      · rw [heq, lookup_of_none hnone]; rfl
      · exact absurd hfail (transferRec_quiet r hq.2)
    · obtain ⟨w'', heq', hR'⟩ := ih _ (hn ▸ rem_lt hrec hR hp) (hR.quiet hq)
        (if r.counts key then some r.value else best) rfl
      refine ⟨w'', ?_, hR.trans hR'⟩
      rw [heq, heq', rem_behind hrec hR.file hp, lookup_cons hrec, Option.or_assoc]
      split <;> rfl

/-! ## The calls -/

/-- After `EINTR` the lock is asked for again. -/
theorem lockDb_eintr {w : World} (h : w.flock.1 = .error .eintr) :
    lockDb w = lockDb w.flock.2 := by
  rw [lockDb]
  split <;> simp_all

/-- Any other failure of `flock` is `lock_db`'s. -/
theorem lockDb_other {w : World} (h : w.flock.1 = .error .other) :
    lockDb w = (-1, w.flock.2) := by
  rw [lockDb]
  split <;> simp_all

/-- A `flock` that succeeds takes the lock. -/
theorem lockDb_ok {w : World} (h : w.flock.1 = .ok ()) : lockDb w = (0, w.flock.2) := by
  rw [lockDb]
  split <;> simp_all

/-- When `flock` can only be interrupted the lock is taken in the end. -/
theorem lockDb_sure {w : World} (h : Outcome.fail ∉ w.env .flock) :
    (lockDb w).1 = 0 ∧ w.Aside (lockDb w).2 ∧
      ∀ c, c ≠ .flock → (lockDb w).2.env c = w.env c := by
  have henv : ∀ w : World, ∀ c, c ≠ .flock → w.flock.2.env c = w.env c := by
    intro w c hc
    rw [flock_world, next_env_ne hc]
  induction w using lockDb.induct with
  | case1 w hf ih =>
    have ha := flock_aside w
    obtain ⟨h0, ha', he⟩ := ih fun hm => h ((ha.later .flock).subset hm)
    rw [lockDb_eintr hf]
    exact ⟨h0, ha.trans ha', fun c hc => (he c hc).trans (henv w c hc)⟩
  | case2 w hf =>
    exfalso
    have hn := next_ne_fail h
    unfold flock at hf
    split at hf
    · nomatch hf
    · rename_i heq; rw [heq] at hn; exact hn rfl
    · nomatch hf
  | case3 w hf =>
    rw [lockDb_ok hf]
    exact ⟨rfl, flock_aside w, henv w⟩

/-- In a quiet world the lock is got, and the file is as it was. -/
theorem lockDb_quiet {w : World} (hq : w.QuietBut) : (lockDb w).1 = 0 ∧ w.Aside (lockDb w).2 := by
  obtain ⟨h0, ha, -⟩ := lockDb_sure (hq.1 .flock (by decide))
  exact ⟨h0, ha⟩

/-- The scan of a put only reads. -/
theorem validPrefixEnd_reads {w : World} (hq : w.QuietBut) : w.Reads (validPrefixEnd w).2 := by
  obtain ⟨h1, -, hR, -⟩ := lseekSet_quiet hq 0
  rw [validPrefixEnd, if_neg (by rw [h1]; omega)]
  exact hR.trans (validPrefixLoop_reads (hR.quietBut hq) 0)

/-- **`valid_prefix_end`** returns the length of the good prefix of the file. -/
theorem validPrefixEnd_spec {w : World} (hq : w.Quiet) :
    (validPrefixEnd w).1 = (framing.goodEnd Rec.valid w.file : Nat) := by
  obtain ⟨h1, hp, hR, -⟩ := lseekSet_quiet hq.but 0
  have hrem : (w.lseekSet 0).2.rem = w.file := by rw [rem, hp, hR.file, List.drop_zero]
  have hspec := validPrefixLoop_spec (hR.quiet hq)
  rw [hp, hrem, Nat.zero_add] at hspec
  rw [validPrefixEnd, if_neg (by rw [h1]; omega)]
  exact hspec

/-- A key the library accepts. -/
def CString.IsKey (key : CString) : Prop := 0 < key.strlen ∧ key.strlen ≤ kvdbMaxKey

/-- `kvdb_get` leaves the file alone, whatever its arguments. -/
theorem kvdbGet_reads {w : World} (hq : w.QuietBut) (db : KvdbT) (key : CString) (buf : Bool)
    (length : Nat) : w.Reads (kvdbGet (some db) (some key) buf length w).2 := by
  obtain ⟨hl, ha⟩ := lockDb_quiet hq
  have hql := ha.toReads.quietBut hq
  obtain ⟨h1, -, hR, -⟩ := lseekSet_quiet hql 0
  have hR' := getLoop_reads (hR.quietBut hql) key.bytes none
  have hall := ha.toReads.trans (hR.trans (hR'.trans (flock_aside _).toReads))
  rw [kvdbGet]
  dsimp only
  split
  · exact Reads.refl w
  · split
    · exact Reads.refl w
    · rw [if_neg (by rw [hl]; simp), if_neg (by rw [h1]; omega)]
      split <;> exact hall

/-- **`kvdb_get`** answers with the last valid record of the key. -/
theorem kvdbGet_spec {w : World} (hq : w.Quiet) {db : KvdbT} (hdb : 0 ≤ db.fd) {key : CString}
    (hkey : key.IsKey) {buf : Bool} {length : Nat} (hbuf : buf = false → length = 0) :
    (kvdbGet (some db) (some key) buf length w).1 = answer (lookup key.bytes w.file) buf length ∧
      w.Reads (kvdbGet (some db) (some key) buf length w).2 := by
  obtain ⟨hl, ha⟩ := lockDb_quiet hq.but
  have hql := ha.toReads.quiet hq
  obtain ⟨h1, hp, hR, -⟩ := lseekSet_quiet hql.but 0
  have hqs := hR.quiet hql
  obtain ⟨w', hloop, hR'⟩ := getLoop_spec hqs key.bytes none
  have hrem : ((lockDb w).2.lseekSet 0).2.rem = w.file := by
    rw [rem, hp, hR.file, ha.file, List.drop_zero]
  obtain ⟨hk0, hk1⟩ := hkey
  rw [kvdbGet]
  dsimp only
  rw [if_neg (by rintro (h | ⟨h, h'⟩); · omega
                 · exact h' (hbuf h)), if_neg (by omega), if_neg (by rw [hl]; simp),
    if_neg (by rw [h1]; omega), hloop, hrem, Option.or_none]
  exact ⟨rfl, ha.toReads.trans (hR.trans (hR'.trans (flock_aside w').toReads))⟩

end Kvdb
