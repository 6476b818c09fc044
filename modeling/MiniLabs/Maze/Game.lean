/-
  A game: any sequence of moves on a map file.

  1. **Specification** — `First`: the first cell with a character, by rows; `Toward`: one step in a
     direction.  `Moved` is what a successful move does to the map, `Kept` what any number of
     commands leaves as it was in the original map.
  2. **The crux (`Moved.loadable`)** — a move changes floor to floor, so connectivity stays, and
     with it that the map is loadable.
  3. **Any run (`game_run`)** — it is about every accepted file and every sequence of commands: what
     holds of the file then, and what the next command does.
-/
import MiniLabs.Maze.Load

set_option linter.unusedVariables false

namespace Maze

open Libc

/-! ## Cells -/

section Cells

variable {l : Labyrinth} {row col r c : Nat} {ch : UInt8}

/-- Writing to a cell adds no row. -/
theorem set_rows (l : Labyrinth) (row col : Nat) (ch : UInt8) : (l.set row col ch).rows = l.rows :=
  List.length_modify _ _ _

/-- A cell, looked up row and column one by one. -/
theorem cell_eq (l : Labyrinth) (r c : Nat) : l.cell r c = ((l.map[r]?.getD [])[c]?).getD 0 := by
  rw [Labyrinth.cell, List.getD_eq_getElem?_getD, List.getD_eq_getElem?_getD]

/-- A cell that is written, and the others. -/
theorem cell_set (hw : ∀ line ∈ l.map, (line.length : Int) = l.cols) (hrow : row < l.rows)
    (hcol : (col : Int) < l.cols) (r c : Nat) :
    (l.set row col ch).cell r c = if (r, c) = (row, col) then ch else l.cell r c := by
  have hmap : (l.set row col ch).map[r]?
      = (l.map[r]?).map fun line => if row = r then line.set col ch else line := by
    show (l.map.modify row _)[r]? = _
    rw [List.getElem?_modify]
    rfl
  rw [cell_eq, cell_eq, hmap]
  by_cases hr : row = r
  · subst hr
    have hwidth := hw _ (List.getElem_mem hrow)
    rw [List.getElem?_eq_getElem hrow, Option.map_some, Option.getD_some, Option.getD_some,
      if_pos rfl, List.getElem?_set]
    by_cases hc : col = c
    · subst hc
      rw [if_pos rfl, if_pos rfl, if_pos (by omega)]
      rfl
    · rw [if_neg hc, if_neg fun h => hc (Prod.mk.inj h).2.symm]
  · rw [if_neg fun h => hr (Prod.mk.inj h).1.symm]
    simp only [if_neg hr, Option.map_id']

end Cells

/-! ## What a move is -/

/-- The first cell with a character, by rows. -/
def First (l : Labyrinth) (ch : UInt8) (p : Nat × Nat) : Prop :=
  p ∈ positions l ∧ l.cell p.1 p.2 = ch ∧
    ∀ q ∈ positions l, l.cell q.1 q.2 = ch → p.1 < q.1 ∨ p.1 = q.1 ∧ p.2 ≤ q.2

/-- One step in a direction. -/
def Toward (direction : List UInt8) (p q : Nat × Nat) : Prop :=
  (direction = ascii "up" ∧ q.1 + 1 = p.1 ∧ q.2 = p.2) ∨
  (direction = ascii "down" ∧ q.1 = p.1 + 1 ∧ q.2 = p.2) ∨
  (direction = ascii "left" ∧ q.1 = p.1 ∧ q.2 + 1 = p.2) ∨
  (direction = ascii "right" ∧ q.1 = p.1 ∧ q.2 = p.2 + 1)

/-- The player stands nowhere. -/
def Missing (l : Labyrinth) (playerId : UInt8) : Prop :=
  ∀ q ∈ positions l, l.cell q.1 q.2 ≠ playerId

/-- **A move**: from the player's first cell, or the first empty one, to the next cell in the
    direction, which was empty. -/
structure Moved (playerId : UInt8) (direction : List UInt8) (start target : Nat × Nat)
    (l l' : Labyrinth) : Prop where
  begins : First l playerId start ∨ Missing l playerId ∧ First l empty start
  toward : Toward direction start target
  inside : target ∈ positions l
  free : l.cell target.1 target.2 = empty
  arrived : l'.cell target.1 target.2 = playerId
  left : ¬ Missing l playerId → l'.cell start.1 start.2 = empty
  rest : ∀ q : Nat × Nat, q ≠ target → (q = start → Missing l playerId) →
    l'.cell q.1 q.2 = l.cell q.1 q.2
  rows : l'.rows = l.rows
  cols : l'.cols = l.cols
  /-- The rows stay as wide as they were, with characters of maps. -/
  width : ∀ row ∈ l'.map, (row.length : Int) = l'.cols
  chars : ∀ row ∈ l'.map, ∀ ch ∈ row, isMapChar ch = true

section Moves

variable {l l' : Labyrinth} {playerId ch : UInt8} {direction : List UInt8} {p start target : Nat × Nat}

/-- Positions are listed by rows. -/
theorem positions_pairwise (l : Labyrinth) :
    (positions l).Pairwise fun p q => p.1 < q.1 ∨ p.1 = q.1 ∧ p.2 ≤ q.2 := by
  rw [positions, List.pairwise_flatMap]
  constructor
  · intro row _
    refine List.pairwise_map.mpr (List.pairwise_lt_range.imp fun h => ?_)
    exact Or.inr ⟨rfl, Nat.le_of_lt h⟩
  · refine List.pairwise_lt_range.imp fun {r r'} h => ?_
    intro p hp q hq
    obtain ⟨c, -, rfl⟩ := List.mem_map.mp hp
    obtain ⟨c', -, rfl⟩ := List.mem_map.mp hq
    exact Or.inl h

/-- What `findPlayer` and `findFirstEmptySpace` find. -/
theorem findCell_some (h : findCell l ch = some p) : First l ch p := by
  rw [findCell] at h
  obtain ⟨hcell, pre, post, hsplit, hno⟩ := List.find?_eq_some_iff_append.mp h
  have hcell : l.cell p.1 p.2 = ch := beq_iff_eq.mp hcell
  refine ⟨hsplit ▸ by simp, hcell, fun q hq hqch => ?_⟩
  have hpair := positions_pairwise l
  rw [hsplit] at hq hpair
  rcases List.mem_append.mp hq with hq | hq
  · have := hno q hq
    simp [hqch] at this
  · rcases List.mem_cons.mp hq with rfl | hq
    · exact Or.inr ⟨rfl, Nat.le_refl _⟩
    · exact (List.pairwise_cons.mp (List.pairwise_append.mp hpair).2.1).1 q hq

/-- What is not found is missing. -/
theorem findCell_none (h : findCell l ch = none) : Missing l ch := by
  intro q hq heq
  have := List.find?_eq_none.mp h q hq
  simp [heq] at this

/-- The four directions. -/
theorem delta_some {d : Int × Int} (h : delta direction = some d) :
    (direction = ascii "up" ∧ d = (-1, 0)) ∨ (direction = ascii "down" ∧ d = (1, 0)) ∨
      (direction = ascii "left" ∧ d = (0, -1)) ∨ (direction = ascii "right" ∧ d = (0, 1)) := by
  unfold delta at h
  simp only [strcmp_eq_iff] at h
  by_cases hup : direction = ascii "up"
  · rw [if_pos hup] at h
    exact Or.inl ⟨hup, (Option.some.inj h).symm⟩
  · rw [if_neg hup] at h
    by_cases hdown : direction = ascii "down"
    · rw [if_pos hdown] at h
      exact Or.inr (Or.inl ⟨hdown, (Option.some.inj h).symm⟩)
    · rw [if_neg hdown] at h
      by_cases hleft : direction = ascii "left"
      · rw [if_pos hleft] at h
        exact Or.inr (Or.inr (Or.inl ⟨hleft, (Option.some.inj h).symm⟩))
      · rw [if_neg hleft] at h
        obtain ⟨hright, h⟩ := Option.ite_none_right_eq_some.mp h
        exact Or.inr (Or.inr (Or.inr ⟨hright, (Option.some.inj h).symm⟩))

/-- An empty space is a position of the map with an empty cell. -/
theorem isEmptySpace_true {row col : Int} (h : isEmptySpace l row col = true) :
    0 ≤ row ∧ 0 ≤ col ∧ (row.toNat, col.toNat) ∈ positions l ∧
      l.cell row.toNat col.toNat = empty := by
  rw [isEmptySpace] at h
  by_cases hout : row < 0 ∨ row ≥ l.rows ∨ col < 0 ∨ col ≥ l.cols
  · rw [if_pos hout] at h
    cases h
  · rw [if_neg hout] at h
    exact ⟨by omega, by omega, mem_positions.mpr (by omega), beq_iff_eq.mp h⟩

/-- The row that a change of a cell leaves. -/
theorem set_map {row col : Nat} {line : List UInt8} (h : line ∈ (l.set row col ch).map) :
    ∃ old ∈ l.map, line = old ∨ line = old.set col ch := by
  obtain ⟨i, hi⟩ := List.mem_iff_getElem?.mp h
  change (l.map.modify row _)[i]? = _ at hi
  rw [List.getElem?_modify] at hi
  obtain ⟨old, hold, hmod⟩ := Option.map_eq_some_iff.mp hi
  refine ⟨old, List.mem_of_getElem? hold, ?_⟩
  by_cases heq : row = i
  · rw [if_pos heq] at hmod
    exact Or.inr hmod.symm
  · rw [if_neg heq] at hmod
    exact Or.inl hmod.symm

/-- Rows keep their length. -/
theorem set_width {row col : Nat} (hw : ∀ r ∈ l.map, (r.length : Int) = l.cols) :
    ∀ r ∈ (l.set row col ch).map, (r.length : Int) = l.cols := by
  intro r hr
  obtain ⟨old, hold, rfl | rfl⟩ := set_map hr
  · exact hw _ hold
  · rw [List.length_set]
    exact hw _ hold

/-- A map keeps to the characters of a map. -/
theorem set_chars {row col : Nat} (hch : isMapChar ch = true)
    (hc : ∀ r ∈ l.map, ∀ x ∈ r, isMapChar x = true) :
    ∀ r ∈ (l.set row col ch).map, ∀ x ∈ r, isMapChar x = true := by
  intro r hr x hx
  obtain ⟨old, hold, rfl | rfl⟩ := set_map hr
  · exact hc _ hold x hx
  · rcases List.mem_or_eq_of_mem_set hx with hx | rfl
    · exact hc _ hold x hx
    · exact hch

/-- A player is a character of a map. -/
theorem player_char (hplayer : isValidPlayer playerId = true) : isMapChar playerId = true := by
  rw [isMapChar, hplayer, Bool.or_true]

/-- A player is not an empty cell. -/
theorem player_ne_empty (hplayer : isValidPlayer playerId = true) : playerId ≠ empty := by
  rintro rfl
  cases hplayer

/-- Nor a wall. -/
theorem player_ne_wall (hplayer : isValidPlayer playerId = true) : playerId ≠ wall := by
  rintro rfl
  cases hplayer

/-- The direction leads one step on. -/
theorem toward_of_delta {d : Int × Int} (h : delta direction = some d)
    (hrow : 0 ≤ (start.1 : Int) + d.1) (hcol : 0 ≤ (start.2 : Int) + d.2) :
    Toward direction start (((start.1 : Int) + d.1).toNat, ((start.2 : Int) + d.2).toNat) := by
  rcases delta_some h with ⟨hdir, rfl⟩ | ⟨hdir, rfl⟩ | ⟨hdir, rfl⟩ | ⟨hdir, rfl⟩
  · refine Or.inl ⟨hdir, ?_, ?_⟩
    · dsimp only at hrow ⊢
      omega
    · dsimp only
      omega
  · refine Or.inr (Or.inl ⟨hdir, ?_, ?_⟩) <;> (dsimp only; omega)
  · refine Or.inr (Or.inr (Or.inl ⟨hdir, ?_, ?_⟩))
    · dsimp only
      omega
    · dsimp only at hcol ⊢
      omega
  · refine Or.inr (Or.inr (Or.inr ⟨hdir, ?_, ?_⟩)) <;> (dsimp only; omega)

/-- **The second half of `movePlayer`.** -/
theorem moveBy_some (hl : Loadable l) (hplayer : isValidPlayer playerId = true) {d : Int × Int}
    {spawned : Bool} (hd : delta direction = some d)
    (hstart : spawned = false ∧ First l playerId start ∨
      spawned = true ∧ Missing l playerId ∧ First l empty start)
    (h : moveBy l playerId d start spawned = some l') :
    ∃ target, Moved playerId direction start target l l' := by
  obtain ⟨hspace, h⟩ := Option.ite_none_right_eq_some.mp h
  obtain ⟨hrow, hcol, hinside, hfree⟩ := isEmptySpace_true hspace
  have htoward := toward_of_delta hd hrow hcol
  generalize ((start.1 : Int) + d.1).toNat = tr at hinside hfree htoward h
  generalize ((start.2 : Int) + d.2).toNat = tc at hinside hfree htoward h
  obtain ⟨htr, htc⟩ := mem_positions.mp hinside
  refine ⟨(tr, tc), ?_⟩
  have hl' := (Option.some.inj h).symm
  rcases hstart with ⟨rfl, hfirst⟩ | ⟨rfl, hmissing, hfirst⟩
  · -- the player leaves a cell
    obtain ⟨hsr, hsc⟩ := mem_positions.mp hfirst.1
    change l' = (l.set start.1 start.2 empty).set tr tc playerId at hl'
    subst hl'
    have hpresent : ¬ Missing l playerId := fun hm => hm start hfirst.1 hfirst.2.1
    have hne : start ≠ (tr, tc) := by
      rintro rfl
      exact player_ne_empty hplayer (hfirst.2.1.symm.trans hfree)
    have hwidth : ∀ line ∈ (l.set start.1 start.2 empty).map, (line.length : Int) = l.cols :=
      set_width hl.width
    have hset : ∀ r c, ((l.set start.1 start.2 empty).set tr tc playerId).cell r c
        = if (r, c) = (tr, tc) then playerId else (l.set start.1 start.2 empty).cell r c :=
      cell_set hwidth (by rwa [set_rows]) htc
    refine ⟨Or.inl hfirst, htoward, hinside, hfree, ?_, ?_, ?_, ?_, rfl, ?_, ?_⟩
    · rw [hset, if_pos rfl]
    · intro _
      rw [hset, if_neg hne, cell_set hl.width hsr hsc, if_pos rfl]
    · intro q hq hqs
      have hqs : q ≠ start := fun heq => hpresent (hqs heq)
      rw [hset, if_neg hq, cell_set hl.width hsr hsc, if_neg hqs]
    · rw [set_rows, set_rows]
    · exact set_width (set_width hl.width)
    · exact set_chars (player_char hplayer) (set_chars (by decide) hl.chars)
  · -- the player is new, and comes out next to the first empty cell
    change l' = l.set tr tc playerId at hl'
    subst hl'
    refine ⟨Or.inr ⟨hmissing, hfirst⟩, htoward, hinside, hfree, ?_, ?_, ?_, set_rows _ _ _ _, rfl,
      set_width hl.width, set_chars (player_char hplayer) hl.chars⟩
    · rw [cell_set hl.width htr htc, if_pos rfl]
    · exact fun hnot => absurd hmissing hnot
    · intro q hq _
      rw [cell_set hl.width htr htc, if_neg hq]

/-- **`movePlayer`** moves the player, or leaves the map. -/
theorem movePlayer_some (hl : Loadable l) (hplayer : isValidPlayer playerId = true)
    (h : movePlayer l playerId direction = some l') :
    ∃ start target, Moved playerId direction start target l l' := by
  rw [movePlayer] at h
  cases hd : delta direction with
  | none =>
    rw [hd] at h
    cases h
  | some d =>
    rw [hd] at h
    cases hfind : findPlayer l playerId with
    | some start =>
      rw [hfind] at h
      exact ⟨start, moveBy_some hl hplayer hd (Or.inl ⟨rfl, findCell_some hfind⟩) h⟩
    | none =>
      rw [hfind] at h
      cases hspace : findFirstEmptySpace l with
      | none =>
        rw [hspace] at h
        cases h
      | some start =>
        rw [hspace] at h
        exact ⟨start, moveBy_some hl hplayer hd
          (Or.inr ⟨rfl, findCell_none hfind, findCell_some hspace⟩) h⟩

end Moves

/-! ## What a move leaves as it was -/

/-- A player stands on one cell at most. -/
def AtMostOnce (l : Labyrinth) (playerId : UInt8) : Prop :=
  ∀ p ∈ positions l, ∀ q ∈ positions l,
    l.cell p.1 p.2 = playerId → l.cell q.1 q.2 = playerId → p = q

/-- What the commands leave as it was in the original map. -/
structure Kept (l₀ l : Labyrinth) : Prop where
  rows : l.rows = l₀.rows
  cols : l.cols = l₀.cols
  walls : ∀ p ∈ positions l₀, l.cell p.1 p.2 = wall ↔ l₀.cell p.1 p.2 = wall
  once : ∀ playerId, isValidPlayer playerId = true → AtMostOnce l₀ playerId → AtMostOnce l playerId

section Kept

variable {l₀ l l' : Labyrinth} {playerId : UInt8} {direction : List UInt8} {start target : Nat × Nat}

/-- No command keeps everything. -/
theorem Kept.refl (l : Labyrinth) : Kept l l :=
  ⟨rfl, rfl, fun _ _ => Iff.rfl, fun _ _ h => h⟩

/-- What is kept twice is kept. -/
theorem Kept.trans {l₁ : Labyrinth} (h₁ : Kept l₀ l₁) (h₂ : Kept l₁ l) : Kept l₀ l where
  rows := h₂.rows.trans h₁.rows
  cols := h₂.cols.trans h₁.cols
  walls := fun p hp => by
    rw [← positions_congr h₁.rows h₁.cols] at hp
    rw [h₂.walls p hp]
    exact h₁.walls p (by rwa [← positions_congr h₁.rows h₁.cols])
  once := fun q hq h => h₂.once q hq (h₁.once q hq h)

/-- A cell is the target, the start that the player leaves, or as it was. -/
theorem Moved.cell (h : Moved playerId direction start target l l') (p : Nat × Nat) :
    p = target ∨ (p ≠ target ∧ p = start ∧ First l playerId start ∧ l'.cell p.1 p.2 = empty) ∨
      l'.cell p.1 p.2 = l.cell p.1 p.2 := by
  by_cases htarget : p = target
  · exact Or.inl htarget
  · by_cases hstart : p = start
    · rcases h.begins with hfirst | ⟨hmissing, -⟩
      · have hpresent : ¬ Missing l playerId := fun hm => hm start hfirst.1 hfirst.2.1
        refine Or.inr (Or.inl ⟨htarget, hstart, hfirst, ?_⟩)
        rw [hstart]
        exact h.left hpresent
      · exact Or.inr (Or.inr (h.rest p htarget fun _ => hmissing))
    · exact Or.inr (Or.inr (h.rest p htarget fun heq => absurd heq hstart))

/-- **Floor stays floor**, and walls stay walls. -/
theorem Moved.floor (h : Moved playerId direction start target l l')
    (hplayer : isValidPlayer playerId = true) (p : Nat × Nat) :
    isFloor (l'.cell p.1 p.2) = isFloor (l.cell p.1 p.2) ∧
      (l'.cell p.1 p.2 = wall ↔ l.cell p.1 p.2 = wall) := by
  rcases h.cell p with rfl | ⟨-, rfl, hfirst, hempty⟩ | hsame
  · rw [h.arrived, h.free, isFloor, hplayer, Bool.or_true]
    refine ⟨rfl, fun heq => absurd heq (player_ne_wall hplayer), fun heq => ?_⟩
    exact absurd heq (by decide)
  · rw [hempty, hfirst.2.1, isFloor, isFloor, hplayer, Bool.or_true]
    refine ⟨rfl, fun heq => absurd heq (by decide), fun heq => ?_⟩
    exact absurd heq (player_ne_wall hplayer)
  · rw [hsame]
    exact ⟨rfl, Iff.rfl⟩

/-- **A moved map is loadable.** -/
theorem Moved.loadable (h : Moved playerId direction start target l l') (hl : Loadable l)
    (hplayer : isValidPlayer playerId = true) : Loadable l' := by
  refine ⟨?_, ?_, ?_, ?_, h.width, h.chars, ?_⟩
  · rw [h.rows]
    exact hl.rows_pos
  · rw [h.rows]
    exact hl.rows_le
  · rw [h.cols]
    exact hl.cols_pos
  · rw [h.cols]
    exact hl.cols_le
  · rw [isConnected_congr h.rows h.cols fun row col => (h.floor hplayer (row, col)).1]
    exact hl.connected

/-- Other players stay where they are. -/
theorem Moved.others (h : Moved playerId direction start target l l') {other : UInt8}
    (hother : isValidPlayer other = true) (hne : other ≠ playerId) (p : Nat × Nat) :
    l'.cell p.1 p.2 = other ↔ l.cell p.1 p.2 = other := by
  rcases h.cell p with rfl | ⟨-, rfl, hfirst, hempty⟩ | hsame
  · rw [h.arrived, h.free]
    exact ⟨fun heq => absurd heq.symm hne,
      fun heq => absurd heq.symm (player_ne_empty hother)⟩
  · rw [hempty, hfirst.2.1]
    exact ⟨fun heq => absurd heq.symm (player_ne_empty hother),
      fun heq => absurd heq.symm hne⟩
  · rw [hsame]

/-- **A move keeps** what is to be kept. -/
theorem Moved.kept (h : Moved playerId direction start target l l')
    (hplayer : isValidPlayer playerId = true) : Kept l l' := by
  have hpos := positions_congr h.rows h.cols
  refine ⟨h.rows, h.cols, fun p _ => (h.floor hplayer p).2, fun q hq honce p hp p' hp' hpq hpq' => ?_⟩
  rw [hpos] at hp hp'
  by_cases hother : q = playerId
  · subst hother
    -- the player stands on the target alone
    have halone : ∀ r ∈ positions l, l'.cell r.1 r.2 = q → r = target := by
      intro r hr hrq
      rcases h.cell r with htarget | ⟨-, -, -, hempty⟩ | hsame
      · exact htarget
      · exact absurd (hrq.symm.trans hempty) (player_ne_empty hq)
      · by_contra hne
        rw [hsame] at hrq
        rcases h.begins with hfirst | ⟨hmissing, -⟩
        · obtain rfl := honce r hr start hfirst.1 hrq hfirst.2.1
          have hleft := h.left fun hm => hm r hr hrq
          rw [hsame, hrq] at hleft
          exact player_ne_empty hq hleft
        · exact hmissing r hr hrq
    rw [halone p hp hpq, halone p' hp' hpq']
  · rw [h.others hq hother] at hpq hpq'
    exact honce p hp p' hp' hpq hpq'

end Kept

/-! ## Games -/

section Games

variable {file : List UInt8} {l : Labyrinth} {playerId : UInt8}

/-- **One command** on an accepted file. -/
theorem command_spec (direction : List UInt8) (hload : loadMap file = some l)
    (hplayer : isValidPlayer playerId = true) :
    movePlayer l playerId direction = none ∧ command file playerId direction = (file, false) ∨
      ∃ l' start target, movePlayer l playerId direction = some l' ∧
        command file playerId direction = (saveMap l', true) ∧
        Moved playerId direction start target l l' ∧ loadMap (saveMap l') = some l' := by
  have hl := loadMap_some hload
  rw [command, hload]
  dsimp only
  cases hmove : movePlayer l playerId direction with
  | none => exact Or.inl ⟨rfl, rfl⟩
  | some l' =>
    obtain ⟨start, target, hmoved⟩ := movePlayer_some hl hplayer hmove
    exact Or.inr
      ⟨l', start, target, rfl, rfl, hmoved, loadMap_saveMap (hmoved.loadable hl hplayer)⟩

/-- **Any number of commands.** -/
theorem play_spec {l₀ : Labyrinth} (hload : loadMap file = some l₀)
    (commands : List (UInt8 × List UInt8))
    (hplayers : ∀ c ∈ commands, isValidPlayer c.1 = true) :
    ∃ l, loadMap (play file commands) = some l ∧ Kept l₀ l := by
  induction commands generalizing file l₀ with
  | nil => exact ⟨l₀, hload, Kept.refl l₀⟩
  | cons c commands ih =>
    have hplayer := hplayers c List.mem_cons_self
    have hrest : ∀ d ∈ commands, isValidPlayer d.1 = true :=
      fun d hd => hplayers d (List.mem_cons_of_mem _ hd)
    have hplay : play file (c :: commands) = play (command file c.1 c.2).1 commands := rfl
    rw [hplay]
    rcases command_spec c.2 hload hplayer with
      ⟨-, hfail⟩ | ⟨l', s, t, -, hok, hmoved, hl'⟩
    · rw [hfail]
      exact ih hload hrest
    · rw [hok]
      obtain ⟨l, hl, hkept⟩ := ih hl' hrest
      exact ⟨l, hl, (hmoved.kept hplayer).trans hkept⟩

end Games

/-- What one command may do to a file that holds `l`. -/
def Played (file : List UInt8) (l : Labyrinth) (playerId : UInt8) (direction : List UInt8)
    (file' : List UInt8) (success : Bool) : Prop :=
  success = (movePlayer l playerId direction).isSome ∧
  (success = false → file' = file) ∧
  (success = true → ∃ l' start target, movePlayer l playerId direction = some l' ∧
    file' = saveMap l' ∧ loadMap file' = some l' ∧ Moved playerId direction start target l l' ∧
    ∀ other, isValidPlayer other = true → other ≠ playerId →
      ∀ p : Nat × Nat, l.cell p.1 p.2 = other → l'.cell p.1 p.2 = other)

/-- **The game.**  After any commands on an accepted file the file is accepted; the shape, the
    walls and that a player stands on one cell at most are as in the original map.  The next
    command is a move that is saved and loaded back, or it fails and leaves the file. -/
theorem game_run (file : List UInt8) (l₀ : Labyrinth) (hload : loadMap file = some l₀)
    (commands : List (UInt8 × List UInt8))
    (hplayers : ∀ c ∈ commands, isValidPlayer c.1 = true) :
    ∃ l, loadMap (play file commands) = some l ∧ Kept l₀ l ∧
      loadMap (saveMap l) = some l ∧
      ∀ playerId direction, isValidPlayer playerId = true →
        Played (play file commands) l playerId direction
          (command (play file commands) playerId direction).1
          (command (play file commands) playerId direction).2 := by
  obtain ⟨l, hl, hkept⟩ := play_spec hload commands hplayers
  refine ⟨l, hl, hkept, loadMap_saveMap (loadMap_some hl), fun playerId direction hplayer => ?_⟩
  rcases command_spec direction hl hplayer with
    ⟨hnone, hfail⟩ | ⟨l', start, target, hmove, hok, hmoved, hl'⟩
  · rw [hfail]
    exact ⟨by rw [hnone]; rfl, fun _ => rfl, fun h => Bool.noConfusion h⟩
  · rw [hok]
    refine ⟨by rw [hmove]; rfl, fun h => Bool.noConfusion h, fun _ =>
      ⟨l', start, target, hmove, rfl, hl', hmoved, ?_⟩⟩
    intro other hother hne p hp
    exact (hmoved.others hother hne p).mpr hp

/-- Two moves on a map of two by two. -/
theorem game_run_two :
    ∃ l, loadMap (play (ascii "1.\n..\n") [(49, ascii "right"), (50, ascii "down")]) = some l ∧
      Kept ⟨[ascii "1.", ascii ".."], 2⟩ l ∧ loadMap (saveMap l) = some l ∧
      ∀ playerId direction, isValidPlayer playerId = true →
        Played (play (ascii "1.\n..\n") [(49, ascii "right"), (50, ascii "down")]) l playerId
          direction
          (command (play (ascii "1.\n..\n") [(49, ascii "right"), (50, ascii "down")]) playerId
            direction).1
          (command (play (ascii "1.\n..\n") [(49, ascii "right"), (50, ascii "down")]) playerId
            direction).2 :=
  game_run (ascii "1.\n..\n") ⟨[ascii "1.", ascii ".."], 2⟩ (by decide)
    [(49, ascii "right"), (50, ascii "down")] (by decide)

end Maze
