/-
  Record logs — a byte stream cut into self-delimiting records.

  A `Framing` says how one record is written (`enc`) and how the next record is cut off the
  front of a stream (`next`), with the two laws that make a scanner trustworthy: `next` finds
  back every record that was written, whatever follows it, and it never reports a record whose
  encoding is not there.  Everything else is derived:

  * `walk`      — all the records a scanner meets before `next` gives up;
  * `goodPrefix`— the longest run of leading records that pass a test, and its length in bytes;
  * `lastOf`    — the last record a scanner meets that passes a test (last write wins);
  * `Torn`      — a strict beginning of one record, what an interrupted append leaves.

  The central fact is `walk_encAll_append`: written records are walked one by one and the walk
  goes on with what follows, so two scanners of one stream can be compared record by record.
-/
import Mathlib.Data.List.Basic

set_option linter.unusedVariables false

namespace RecordLog

/-- How records are laid out in a stream of symbols `β`. -/
structure Framing (β ρ : Type) where
  /-- The symbols of one record. -/
  enc : ρ → List β
  /-- Cut one record off the front; `none` when no complete record stands there. -/
  next : List β → Option (ρ × List β)
  enc_ne : ∀ r, enc r ≠ []
  /-- A written record is found back, whatever follows. -/
  next_enc : ∀ r s, next (enc r ++ s) = some (r, s)
  /-- A record that is found was written. -/
  next_sound : ∀ {s r t}, next s = some (r, t) → s = enc r ++ t

namespace Framing

variable {β ρ : Type} (F : Framing β ρ)

/-- A record takes bytes off the stream. -/
theorem next_lt {s t : List β} {r : ρ} (h : F.next s = some (r, t)) : t.length < s.length := by
  have hs := F.next_sound h
  have hne := List.length_pos_iff.mpr (F.enc_ne r)
  rw [hs, List.length_append]
  omega

/-- The records written one after the other. -/
def encAll (rs : List ρ) : List β := rs.flatMap F.enc

@[simp] theorem encAll_nil : F.encAll [] = [] := rfl

@[simp] theorem encAll_cons (r : ρ) (rs : List ρ) :
    F.encAll (r :: rs) = F.enc r ++ F.encAll rs := rfl

@[simp] theorem encAll_append (rs ss : List ρ) :
    F.encAll (rs ++ ss) = F.encAll rs ++ F.encAll ss := by
  simp [encAll]

/-- All the records met from the front of the stream until `next` gives up. -/
def walk (s : List β) : List ρ :=
  match h : F.next s with
  | none => []
  | some (r, t) => r :: walk t
termination_by s.length
decreasing_by exact F.next_lt h

/-- Without a record the walk is over. -/
theorem walk_of_none {s : List β} (h : F.next s = none) : F.walk s = [] := by
  rw [walk]
  split
  · rfl
  · rename_i heq
    rw [h] at heq
    nomatch heq

/-- A record, and the walk goes on behind it. -/
theorem walk_of_some {s t : List β} {r : ρ} (h : F.next s = some (r, t)) :
    F.walk s = r :: F.walk t := by
  rw [walk]
  split
  · rename_i heq
    rw [h] at heq
    nomatch heq
  · rename_i r' t' heq
    rw [h] at heq
    obtain ⟨rfl, rfl⟩ := Prod.mk.inj (Option.some.inj heq)
    rfl

@[simp] theorem walk_enc_append (r : ρ) (s : List β) : F.walk (F.enc r ++ s) = r :: F.walk s :=
  F.walk_of_some (F.next_enc r s)

/-- Written records are walked one by one, and the walk goes on with what follows. -/
@[simp] theorem walk_encAll_append (rs : List ρ) (s : List β) :
    F.walk (F.encAll rs ++ s) = rs ++ F.walk s := by
  induction rs with
  | nil => rfl
  | cons r rs ih => rw [encAll_cons, List.append_assoc, walk_enc_append, ih, List.cons_append]

/-- The stream begins with exactly the records that are walked. -/
theorem encAll_walk_prefix (s : List β) : F.encAll (F.walk s) <+: s := by
  induction s using walk.induct F with
  | case1 s h => rw [F.walk_of_none h]; exact List.nil_prefix
  | case2 s r t h ih =>
    obtain ⟨u, hu⟩ := ih
    refine ⟨u, ?_⟩
    rw [F.walk_of_some h, encAll_cons, List.append_assoc, hu]
    exact (F.next_sound h).symm

/-! ## The good prefix -/

/-- The leading records that pass the test `good`. -/
def goodPrefix (good : ρ → Bool) (s : List β) : List ρ := (F.walk s).takeWhile good

/-- How many symbols the good prefix takes up. -/
def goodEnd (good : ρ → Bool) (s : List β) : Nat := (F.encAll (F.goodPrefix good s)).length

/-- The leading records stand at the front of the stream. -/
theorem goodPrefix_prefix (good : ρ → Bool) (s : List β) :
    F.encAll (F.goodPrefix good s) <+: s := by
  have hsplit : F.encAll (F.walk s)
      = F.encAll (F.goodPrefix good s) ++ F.encAll ((F.walk s).dropWhile good) := by
    rw [← encAll_append, goodPrefix, List.takeWhile_append_dropWhile]
  exact List.IsPrefix.trans ⟨_, hsplit.symm⟩ (F.encAll_walk_prefix s)

/-- The stream up to the end of the leading records is their encoding. -/
theorem take_goodEnd (good : ρ → Bool) (s : List β) :
    s.take (F.goodEnd good s) = F.encAll (F.goodPrefix good s) :=
  (List.prefix_iff_eq_take.mp (F.goodPrefix_prefix good s)).symm

/-- The end is inside the stream. -/
theorem goodEnd_le (good : ρ → Bool) (s : List β) : F.goodEnd good s ≤ s.length :=
  (F.goodPrefix_prefix good s).length_le

/-- Without a record the end is the start. -/
theorem goodEnd_of_none (good : ρ → Bool) {s : List β} (h : F.next s = none) :
    F.goodEnd good s = 0 := by
  rw [goodEnd, goodPrefix, F.walk_of_none h]
  rfl

/-- The end is in front of a record that fails the test. -/
theorem goodEnd_of_bad {good : ρ → Bool} {s t : List β} {r : ρ} (h : F.next s = some (r, t))
    (hbad : good r = false) : F.goodEnd good s = 0 := by
  rw [goodEnd, goodPrefix, F.walk_of_some h, List.takeWhile_cons_of_neg (by simp [hbad])]
  rfl

/-- A record that passes belongs to the front. -/
theorem goodEnd_of_good {good : ρ → Bool} {s t : List β} {r : ρ} (h : F.next s = some (r, t))
    (hgood : good r = true) : F.goodEnd good s = (F.enc r).length + F.goodEnd good t := by
  rw [goodEnd, goodPrefix, F.walk_of_some h, List.takeWhile_cons_of_pos hgood, encAll_cons,
    List.length_append]
  rfl

/-- A stream of good records followed by something that is no good record: the good prefix is
    exactly those records. -/
theorem goodPrefix_encAll_append {good : ρ → Bool} {rs : List ρ} {s : List β}
    (hrs : ∀ r ∈ rs, good r = true) (hs : F.goodPrefix good s = []) :
    F.goodPrefix good (F.encAll rs ++ s) = rs := by
  rw [goodPrefix, walk_encAll_append, List.takeWhile_append_of_pos hrs]
  rw [goodPrefix] at hs
  rw [hs, List.append_nil]

/-- No run of good records at the front of the stream is longer than the good prefix. -/
theorem goodEnd_longest {good : ρ → Bool} {rs : List ρ} {s : List β}
    (hrs : ∀ r ∈ rs, good r = true) (h : F.encAll rs <+: s) :
    (F.encAll rs).length ≤ F.goodEnd good s := by
  obtain ⟨t, rfl⟩ := h
  rw [goodEnd, goodPrefix, walk_encAll_append, List.takeWhile_append_of_pos hrs, encAll_append,
    List.length_append]
  exact Nat.le_add_right _ _

/-! ## Last write wins -/

/-- The last record met that passes the test `p`. -/
def lastOf (p : ρ → Bool) (s : List β) : Option ρ := ((F.walk s).filter p).getLast?

/-- The last record is behind the written ones, or one of them. -/
theorem lastOf_encAll_append (p : ρ → Bool) (rs : List ρ) (s : List β) :
    F.lastOf p (F.encAll rs ++ s) = (F.lastOf p s).or ((rs.filter p).getLast?) := by
  rw [lastOf, walk_encAll_append, List.filter_append, List.getLast?_append]
  rfl

/-- Without a record there is no last one. -/
theorem lastOf_of_none (p : ρ → Bool) {s : List β} (h : F.next s = none) :
    F.lastOf p s = none := by
  rw [lastOf, F.walk_of_none h]
  rfl

/-- The last record that passes `p` is looked for behind the good prefix first. -/
theorem lastOf_split (p good : ρ → Bool) (s : List β) :
    F.lastOf p s = (((F.walk s).dropWhile good).filter p).getLast?.or
      (((F.goodPrefix good s).filter p).getLast?) := by
  have hsplit : F.walk s = F.goodPrefix good s ++ (F.walk s).dropWhile good := by
    rw [goodPrefix, List.takeWhile_append_dropWhile]
  rw [lastOf, hsplit, List.filter_append, List.getLast?_append, ← hsplit]

/-! ## Torn records -/

/-- `t` is a strict beginning of the record `u`. -/
def Torn (u : ρ) (t : List β) : Prop := t <+: F.enc u ∧ t.length < (F.enc u).length

/-- A torn record is not found: if a record stood at the front of `t`, the same record would
    stand at the front of the longer `enc u`, where only `u` does. -/
theorem next_torn {u : ρ} {t : List β} (h : F.Torn u t) : F.next t = none := by
  obtain ⟨⟨s, hs⟩, hlen⟩ := h
  cases hn : F.next t with
  | none => rfl
  | some p =>
    exfalso
    obtain ⟨r, rest⟩ := p
    have ht := F.next_sound hn
    have h1 : F.next (F.enc u ++ []) = some (r, rest ++ s) := by
      rw [List.append_nil, ← hs, ht, List.append_assoc, F.next_enc]
    rw [F.next_enc] at h1
    obtain ⟨hu, hrest⟩ := Prod.mk.inj (Option.some.inj h1)
    rw [ht, ← hu, List.length_append] at hlen
    omega

end Framing
end RecordLog
