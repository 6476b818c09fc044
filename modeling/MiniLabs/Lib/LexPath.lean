/-
  Paths resolved by their text alone.

  * `components` — the path cut at every separator; some components may be empty.
  * `Place`      — how often one went up past the start, and the names gone down from there.
  * `go`, `trail` — one component, and all places on the way.

  `Confined dir` says of such a way that it leads into the directory `dir`, visits nothing else
  but the start, and never leaves `dir` again.  A path that begins by going down into `dir` is
  confined when two dots stand nowhere in a row (`confined_down`).
-/
import Mathlib.Data.List.Basic

set_option linter.unusedVariables false

namespace LexPath

variable {α : Type} [DecidableEq α]

/-! ## Components -/

/-- The path cut at every `sep`. -/
def components (sep : α) : List α → List (List α)
  | [] => [[]]
  | c :: s =>
    if c = sep then [] :: components sep s
    else
      match components sep s with
      | [] => [[c]]
      | w :: ws => (c :: w) :: ws

/-- A path has a component, an empty one at least. -/
theorem components_ne_nil (sep : α) (s : List α) : components sep s ≠ [] := by
  cases s with
  | nil => exact List.cons_ne_nil _ _
  | cons c s =>
    rw [components]
    split
    · exact List.cons_ne_nil _ _
    · split <;> exact List.cons_ne_nil _ _

/-- A separator ends a component. -/
theorem components_append (sep : α) (s t : List α) :
    components sep (s ++ sep :: t) = components sep s ++ components sep t := by
  induction s with
  | nil =>
    show components sep (sep :: t) = [] :: components sep t
    rw [components, if_pos rfl]
  | cons c s ih =>
    show components sep (c :: (s ++ sep :: t)) = components sep (c :: s) ++ components sep t
    rw [components, components, ih]
    split
    · rfl
    · obtain ⟨w, ws, hw⟩ := List.exists_cons_of_ne_nil (components_ne_nil sep s)
      rw [hw]
      rfl

/-- Without a separator there is one component. -/
theorem components_single {sep : α} {s : List α} (hs : sep ∉ s) : components sep s = [s] := by
  induction s with
  | nil => rfl
  | cons c s ih =>
    have hc : c ≠ sep := fun h => hs (h ▸ List.mem_cons_self)
    rw [components, if_neg hc, ih fun h => hs (List.mem_cons_of_mem _ h)]

/-- A component stands in the path: the first one in front, the others somewhere. -/
theorem components_within (sep : α) (s : List α) :
    (∀ w ∈ (components sep s).head?, w <+: s) ∧ ∀ w ∈ components sep s, w <:+: s := by
  induction s with
  | nil =>
    constructor
    · intro w hw
      obtain rfl : [] = w := Option.some.inj hw
      exact List.nil_prefix
    · intro w hw
      obtain rfl : w = [] := List.mem_singleton.mp hw
      exact List.nil_infix
  | cons c s ih =>
    obtain ⟨hfront, hall⟩ := ih
    have hlater : ∀ w ∈ components sep s, w <:+: c :: s :=
      fun w hw => (hall w hw).trans (List.suffix_cons c s).isInfix
    rw [components]
    by_cases hc : c = sep
    · rw [if_pos hc]
      constructor
      · intro w hw
        obtain rfl : [] = w := Option.some.inj hw
        exact List.nil_prefix
      · intro w hw
        rcases List.mem_cons.mp hw with rfl | hw
        · exact List.nil_infix
        · exact hlater w hw
    · obtain ⟨v, vs, hv⟩ := List.exists_cons_of_ne_nil (components_ne_nil sep s)
      rw [hv] at hfront hlater
      rw [if_neg hc, hv]
      have hgrown : c :: v <+: c :: s := List.cons_prefix_cons.mpr ⟨rfl, hfront v rfl⟩
      constructor
      · intro w hw
        obtain rfl : c :: v = w := Option.some.inj hw
        exact hgrown
      · intro w hw
        rcases List.mem_cons.mp hw with rfl | hw
        · exact hgrown.isInfix
        · exact hlater w (List.mem_cons_of_mem _ hw)

/-! ## Places -/

/-- A place, seen from the start: first up, then down through the names. -/
structure Place (α : Type) where
  ups : Nat
  names : List (List α)
  deriving DecidableEq, Repr

namespace Place

/-- The start. -/
def home : Place α := ⟨0, []⟩

/-- One component: nothing and `.` stay, `..` goes up, a name goes down. -/
def go (dot : α) (p : Place α) (w : List α) : Place α :=
  if w = [] ∨ w = [dot] then p
  else if w = [dot, dot] then
    if p.names = [] then { p with ups := p.ups + 1 } else { p with names := p.names.dropLast }
  else { p with names := p.names ++ [w] }

/-- The place is the directory `dir` below the start, or lies in it. -/
def Under (dir : List (List α)) (p : Place α) : Prop := p.ups = 0 ∧ dir <+: p.names

/-- Below a directory, a component other than `..` leads no higher. -/
theorem Under.go {dot : α} {dir : List (List α)} {p : Place α} {w : List α} (h : p.Under dir)
    (hw : w ≠ [dot, dot]) : (p.go dot w).Under dir := by
  unfold Place.go
  rw [if_neg hw]
  split
  · exact h
  · exact ⟨h.1, h.2.trans (List.prefix_append _ _)⟩

end Place

/-- All places on the way, the start included. -/
def trail (dot : α) (p : Place α) : List (List α) → List (Place α)
  | [] => [p]
  | w :: ws => p :: trail dot (p.go dot w) ws

/-- Without `..` the way stays below. -/
theorem trail_under {dot : α} {dir : List (List α)} {p : Place α} {ws : List (List α)}
    (h : p.Under dir) (hws : ∀ w ∈ ws, w ≠ [dot, dot]) : ∀ q ∈ trail dot p ws, q.Under dir := by
  induction ws generalizing p with
  | nil =>
    intro q hq
    rw [List.mem_singleton.mp hq]
    exact h
  | cons w ws ih =>
    intro q hq
    rcases List.mem_cons.mp hq with rfl | hq
    · exact h
    · exact ih (h.go (hws w List.mem_cons_self)) (fun v hv => hws v (List.mem_cons_of_mem _ hv)) q hq

/-! ## Confinement -/

/-- The way leads into `dir`, visits only the start outside of it, and does not leave it again. -/
structure Confined (dir : List (List α)) (places : List (Place α)) : Prop where
  enters : ∃ p ∈ places, p.Under dir
  visits : ∀ p ∈ places, p = Place.home ∨ p.Under dir
  stays : places.Pairwise fun p q => p.Under dir → q.Under dir

/-- **Confinement.**  The path `./name/…` is confined to `name` when two dots stand nowhere in a
    row. -/
theorem confined_down {sep dot : α} {name rest : List α} (hdot : sep ≠ dot) (hsep : sep ∉ name)
    (hname : name ≠ [] ∧ name ≠ [dot])
    (hdots : ¬ [dot, dot] <:+: [dot] ++ sep :: (name ++ sep :: rest)) :
    Confined [name] (trail dot Place.home
      (components sep ([dot] ++ sep :: (name ++ sep :: rest)))) := by
  have hno : ∀ w ∈ components sep ([dot] ++ sep :: (name ++ sep :: rest)), w ≠ [dot, dot] := by
    intro w hw heq
    exact hdots (heq ▸ (components_within sep _).2 w hw)
  have hcut : components sep ([dot] ++ sep :: (name ++ sep :: rest)) =
      [dot] :: name :: components sep rest := by
    have hd : sep ∉ [dot] := fun h => hdot (List.mem_singleton.mp h)
    rw [components_append, components_append, components_single hd, components_single hsep]
    rfl
  rw [hcut] at hno ⊢
  have hhome : (Place.home : Place α).go dot [dot] = Place.home := if_pos (Or.inr rfl)
  have hdown : (Place.home : Place α).go dot name = ⟨0, [name]⟩ := by
    have hdd : name ≠ [dot, dot] := hno name (List.mem_cons_of_mem _ List.mem_cons_self)
    unfold Place.go
    rw [if_neg (not_or.mpr hname), if_neg hdd]
    rfl
  have hin : (⟨0, [name]⟩ : Place α).Under [name] := ⟨rfl, List.prefix_refl _⟩
  have hrest : ∀ q ∈ trail dot ⟨0, [name]⟩ (components sep rest), q.Under [name] :=
    trail_under hin fun w hw => hno w (List.mem_cons_of_mem _ (List.mem_cons_of_mem _ hw))
  have hout : ¬ (Place.home : Place α).Under [name] := by
    intro h
    exact List.cons_ne_nil _ _ (List.prefix_nil.mp h.2)
  have htrail : trail dot Place.home ([dot] :: name :: components sep rest) =
      Place.home :: Place.home :: trail dot ⟨0, [name]⟩ (components sep rest) := by
    rw [trail, trail, hhome, hdown]
  rw [htrail]
  refine ⟨⟨⟨0, [name]⟩, ?_, hin⟩, ?_, ?_⟩
  · refine List.mem_cons_of_mem _ (List.mem_cons_of_mem _ ?_)
    cases components sep rest <;> exact List.mem_cons_self
  · intro p hp
    rcases List.mem_cons.mp hp with rfl | hp
    · exact Or.inl rfl
    rcases List.mem_cons.mp hp with rfl | hp
    · exact Or.inl rfl
    · exact Or.inr (hrest p hp)
  · refine List.pairwise_cons.mpr ⟨fun q _ h => absurd h hout, ?_⟩
    refine List.pairwise_cons.mpr ⟨fun q _ h => absurd h hout, ?_⟩
    exact List.pairwise_of_forall_mem_list fun p _ q hq _ => hrest q hq

end LexPath
