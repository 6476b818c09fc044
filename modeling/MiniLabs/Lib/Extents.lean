/-
  Extents — lists of things that occupy half-open stretches of an address space.

  `e : β → Extent` says what each thing occupies.  Three measures of a list matter:

  * `Ordered` — the things stand one behind the other and do not overlap;
  * `Covers`  — the addresses they occupy;
  * `total`   — how much they occupy altogether;
  * `Stretch` — a stretch of occupied addresses that ends on both sides.

  `Ordered.replace` exchanges a stretch of the list for things that stay within what the stretch
  covered, `Ordered.place` finds the one place where a disjoint thing goes.  When no two things
  touch, the stretches are the things themselves (`Spaced.stretch_iff`).
-/
import Mathlib.Algebra.Order.Ring.Int
import Mathlib.Data.List.Basic

set_option linter.unusedVariables false

namespace Extents

/-- The addresses from `start` on, `len` of them. -/
structure Extent where
  start : Nat
  len : Nat
  deriving DecidableEq, Repr

/-- The first address behind the extent. -/
def Extent.stop (e : Extent) : Nat := e.start + e.len

/-- The address lies in the extent. -/
def Extent.Has (e : Extent) (x : Nat) : Prop := e.start ≤ x ∧ x < e.stop

section Lists

variable {β : Type} (e : β → Extent)

/-- Each thing ends before the next ones begin. -/
def Ordered (bs : List β) : Prop := bs.Pairwise fun a b => (e a).stop ≤ (e b).start

/-- Some thing of the list occupies the address. -/
def Covers (bs : List β) (x : Nat) : Prop := ∃ b ∈ bs, (e b).Has x

/-- The length of all extents together. -/
def total (bs : List β) : Nat := (bs.map fun b => (e b).len).sum

@[simp] theorem covers_nil (x : Nat) : ¬ Covers e [] x := by
  rintro ⟨b, hb, -⟩
  exact absurd hb List.not_mem_nil

@[simp] theorem covers_cons (b : β) (bs : List β) (x : Nat) :
    Covers e (b :: bs) x ↔ (e b).Has x ∨ Covers e bs x := by
  simp [Covers]

@[simp] theorem covers_append (bs cs : List β) (x : Nat) :
    Covers e (bs ++ cs) x ↔ Covers e bs x ∨ Covers e cs x := by
  induction bs with
  | nil => simp
  | cons b bs ih => rw [List.cons_append, covers_cons, covers_cons, ih, or_assoc]

@[simp] theorem total_nil : total e [] = 0 := rfl

@[simp] theorem total_cons (b : β) (bs : List β) : total e (b :: bs) = (e b).len + total e bs :=
  rfl

@[simp] theorem total_append (bs cs : List β) :
    total e (bs ++ cs) = total e bs + total e cs := by
  rw [total, List.map_append, List.sum_append]
  rfl

variable {e}

/-- Two lists in order, the second behind the first. -/
theorem ordered_append {bs cs : List β} :
    Ordered e (bs ++ cs) ↔
      Ordered e bs ∧ Ordered e cs ∧ ∀ b ∈ bs, ∀ c ∈ cs, (e b).stop ≤ (e c).start :=
  List.pairwise_append

/-- In an ordered list the things in front of `b` end before it, those behind begin after it. -/
theorem Ordered.around {l r : List β} {b : β} (h : Ordered e (l ++ b :: r)) :
    (∀ a ∈ l, (e a).stop ≤ (e b).start) ∧ ∀ c ∈ r, (e b).stop ≤ (e c).start := by
  obtain ⟨-, hbr, hlb⟩ := ordered_append.mp h
  exact ⟨fun a ha => hlb a ha b List.mem_cons_self, (List.pairwise_cons.mp hbr).1⟩

/-- A stretch may be exchanged for things that occupy nothing new. -/
theorem Ordered.replace {l mid mid' r : List β} (h : Ordered e (l ++ mid ++ r))
    (hpos : ∀ b ∈ mid', 0 < (e b).len) (hmid : Ordered e mid')
    (hcov : ∀ x, Covers e mid' x → Covers e mid x) : Ordered e (l ++ mid' ++ r) := by
  obtain ⟨hlm, hr, hlr⟩ := ordered_append.mp h
  obtain ⟨hl, -, hlow⟩ := ordered_append.mp hlm
  refine ordered_append.mpr ⟨ordered_append.mpr ⟨hl, hmid, ?_⟩, hr, ?_⟩
  · -- the first address of `b` was occupied by some `m`, which `a` does not reach
    intro a ha b hb
    have hlen := hpos b hb
    obtain ⟨m, hm, hstart, -⟩ := hcov _ ⟨b, hb, Nat.le_refl _, by unfold Extent.stop; omega⟩
    exact Nat.le_trans (hlow a ha m hm) hstart
  · intro b hb c hc
    rcases List.mem_append.mp hb with hb | hb
    · exact hlr b (List.mem_append_left _ hb) c hc
    · -- the last address of `b` was occupied by some `m`, which `c` stands behind
      have hlen := hpos b hb
      have hstop : (e b).stop = (e b).start + (e b).len := rfl
      obtain ⟨m, hm, -, hlast⟩ := hcov ((e b).stop - 1)
        ⟨b, hb, by omega, by omega⟩
      have hmc := hlr m (List.mem_append_right _ hm) c hc
      omega

/-- One more thing goes between those that end before it and those that begin behind it. -/
theorem Ordered.insert {l r : List β} {b : β} (h : Ordered e (l ++ r))
    (hl : ∀ a ∈ l, (e a).stop ≤ (e b).start) (hr : ∀ c ∈ r, (e b).stop ≤ (e c).start) :
    Ordered e (l ++ b :: r) := by
  obtain ⟨h1, h2, h3⟩ := ordered_append.mp h
  refine ordered_append.mpr ⟨h1, List.pairwise_cons.mpr ⟨hr, h2⟩, ?_⟩
  intro a ha c hc
  rcases List.mem_cons.mp hc with rfl | hc
  · exact hl a ha
  · exact h3 a ha c hc

/-- Of two disjoint extents, neither empty, one ends before the other begins. -/
theorem Extent.apart {a b : Extent} (ha : 0 < a.len) (hb : 0 < b.len)
    (h : ∀ x, a.Has x → ¬ b.Has x) : a.stop ≤ b.start ∨ b.stop ≤ a.start := by
  unfold Extent.Has Extent.stop at *
  have h1 := h a.start
  have h2 := h b.start
  omega

/-- **Placing.**  A thing that occupies nothing the list covers has one place in it: behind the
    things that begin before it. -/
theorem Ordered.place {bs : List β} (h : Ordered e bs) (hpos : ∀ b ∈ bs, 0 < (e b).len)
    {x : Extent} (hx : 0 < x.len) (hfree : ∀ y, x.Has y → ¬ Covers e bs y) :
    ∃ l r, bs = l ++ r ∧ (∀ a ∈ l, (e a).start < x.start ∧ (e a).stop ≤ x.start) ∧
      ∀ c ∈ r, x.start < (e c).start ∧ x.stop ≤ (e c).start := by
  have hapart : ∀ b ∈ bs, x.stop ≤ (e b).start ∨ (e b).stop ≤ x.start := fun b hb =>
    Extent.apart hx (hpos b hb) fun y hy hb' => hfree y hy ⟨b, hb, hb'⟩
  induction bs with
  | nil =>
    exact ⟨[], [], rfl, fun a ha => absurd ha List.not_mem_nil,
      fun c hc => absurd hc List.not_mem_nil⟩
  | cons b bs ih =>
    obtain ⟨hb, hbs⟩ := List.pairwise_cons.mp h
    have hxstop : x.stop = x.start + x.len := rfl
    rcases hapart b List.mem_cons_self with hbehind | hfront
    · -- `b` and all that follows stand behind
      refine ⟨[], b :: bs, rfl, fun a ha => absurd ha List.not_mem_nil, ?_⟩
      intro c hc
      rcases List.mem_cons.mp hc with rfl | hc
      · omega
      · have hbc := hb c hc
        have hbstop : (e b).stop = (e b).start + (e b).len := rfl
        omega
    · obtain ⟨l, r, rfl, hl, hr⟩ := ih hbs (fun c hc => hpos c (List.mem_cons_of_mem _ hc))
        (fun y hy hc => hfree y hy ((covers_cons e b bs y).mpr (Or.inr hc)))
        (fun c hc => hapart c (List.mem_cons_of_mem _ hc))
      refine ⟨b :: l, r, rfl, ?_, hr⟩
      intro a ha
      rcases List.mem_cons.mp ha with rfl | ha
      · have hlen := hpos a List.mem_cons_self
        have hstop : (e a).stop = (e a).start + (e a).len := rfl
        omega
      · exact hl a ha

/-- An ordered list of things that occupy something has no more members than there is room. -/
theorem Ordered.length_le {bs : List β} (h : Ordered e bs) (hpos : ∀ b ∈ bs, 0 < (e b).len)
    {lo hi : Nat} (hlo : ∀ b ∈ bs, lo ≤ (e b).start) (hhi : ∀ b ∈ bs, (e b).stop ≤ hi)
    (hle : lo ≤ hi) : lo + bs.length ≤ hi := by
  induction bs generalizing lo with
  | nil => exact hle
  | cons b bs ih =>
    obtain ⟨hb, hbs⟩ := List.pairwise_cons.mp h
    have hlen := hpos b List.mem_cons_self
    have hstart := hlo b List.mem_cons_self
    have hstop : (e b).stop = (e b).start + (e b).len := rfl
    have hrest := ih hbs (fun c hc => hpos c (List.mem_cons_of_mem _ hc)) hb
      (fun c hc => hhi c (List.mem_cons_of_mem _ hc)) (hhi b List.mem_cons_self)
    rw [List.length_cons]
    omega

/-- Things of an ordered list that occupy a common address are the same. -/
theorem Ordered.eq_of_has {bs : List β} (h : Ordered e bs) {a b : β} (ha : a ∈ bs) (hb : b ∈ bs)
    {x : Nat} (hax : (e a).Has x) (hbx : (e b).Has x) : a = b := by
  have hsym : ∀ a b : β, (e a).stop ≤ (e b).start → ¬ ((e a).Has x ∧ (e b).Has x) := by
    intro a b hab hx
    have h1 := hx.1.2
    have h2 := hx.2.1
    omega
  apply Classical.byContradiction
  intro hne
  rcases List.pairwise_iff_getElem.mp h with hp
  obtain ⟨i, hi, rfl⟩ := List.getElem_of_mem ha
  obtain ⟨j, hj, rfl⟩ := List.getElem_of_mem hb
  rcases Nat.lt_trichotomy i j with hij | rfl | hij
  · exact hsym _ _ (hp i j hi hj hij) ⟨hax, hbx⟩
  · exact hne rfl
  · exact hsym _ _ (hp j i hj hi hij) ⟨hbx, hax⟩

/-! ## Stretches -/

/-- All addresses from `a` up to `z` are occupied, and none just outside. -/
structure Stretch (e : β → Extent) (bs : List β) (a z : Nat) : Prop where
  pos : a < z
  inside : ∀ x, a ≤ x → x < z → Covers e bs x
  before : ∀ x, x + 1 = a → ¬ Covers e bs x
  behind : ¬ Covers e bs z

/-- Between any two things something is free. -/
def Spaced (e : β → Extent) (bs : List β) : Prop :=
  bs.Pairwise fun a b => (e a).stop < (e b).start

/-- The stretches depend on the addresses only. -/
theorem Stretch.congr {γ : Type} {f : γ → Extent} {bs : List β} {cs : List γ} {a z : Nat}
    (h : ∀ x, Covers e bs x ↔ Covers f cs x) (hs : Stretch e bs a z) : Stretch f cs a z where
  pos := hs.pos
  inside := fun x hlow hhigh => (h x).mp (hs.inside x hlow hhigh)
  before := fun x hx hc => hs.before x hx ((h x).mpr hc)
  behind := fun hc => hs.behind ((h z).mpr hc)

/-- In a spaced list things that occupy adjacent addresses are the same. -/
theorem Spaced.eq_of_near {bs : List β} (h : Spaced e bs) {a b : β} (ha : a ∈ bs) (hb : b ∈ bs)
    (hab : (e a).start ≤ (e b).stop) (hba : (e b).start ≤ (e a).stop) : a = b := by
  apply Classical.byContradiction
  intro hne
  obtain ⟨i, hi, rfl⟩ := List.getElem_of_mem ha
  obtain ⟨j, hj, rfl⟩ := List.getElem_of_mem hb
  have hp := List.pairwise_iff_getElem.mp h
  rcases Nat.lt_trichotomy i j with hij | rfl | hij
  · exact absurd hba (Nat.not_le.mpr (hp i j hi hj hij))
  · exact hne rfl
  · exact absurd hab (Nat.not_le.mpr (hp j i hj hi hij))

/-- **Stretches.**  The stretches that a spaced list occupies are its things. -/
theorem Spaced.stretch_iff {bs : List β} (h : Spaced e bs) (hpos : ∀ b ∈ bs, 0 < (e b).len)
    (a z : Nat) : Stretch e bs a z ↔ ∃ b ∈ bs, (e b).start = a ∧ (e b).stop = z := by
  constructor
  · intro hs
    obtain ⟨b, hb, hlow, hhigh⟩ := hs.inside a (Nat.le_refl a) hs.pos
    have hstart : (e b).start = a := by
      refine Nat.le_antisymm hlow (Nat.not_lt.mp fun hlt => ?_)
      exact hs.before (a - 1) (by omega) ⟨b, hb, by omega, by omega⟩
    refine ⟨b, hb, hstart, ?_⟩
    rcases Nat.lt_trichotomy (e b).stop z with hlt | heq | hgt
    · -- the address behind `b` belongs to another thing
      obtain ⟨c, hc, hcl, hch⟩ := hs.inside (e b).stop (Nat.le_of_lt hhigh) hlt
      obtain rfl := h.eq_of_near hb hc (by omega) hcl
      exact absurd hch (Nat.lt_irrefl _)
    · exact heq
    · have hpos' := hs.pos
      exact absurd ⟨b, hb, by omega, hgt⟩ hs.behind
  · rintro ⟨b, hb, rfl, rfl⟩
    have hlen := hpos b hb
    have hstop : (e b).stop = (e b).start + (e b).len := rfl
    refine ⟨by omega, fun x hlow hhigh => ⟨b, hb, hlow, hhigh⟩, ?_, ?_⟩
    · rintro x hx ⟨c, hc, hcl, hch⟩
      obtain rfl := h.eq_of_near hb hc (by omega) (by omega)
      omega
    · rintro ⟨c, hc, hcl, hch⟩
      obtain rfl := h.eq_of_near hb hc (by omega) hcl
      exact absurd hch (Nat.lt_irrefl _)

end Lists
end Extents
