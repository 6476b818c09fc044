/-
  Labyrinth — where a player can go.

  1. **Program** — one `command` is one run of `main` with a move: `loadMap`, `movePlayer`,
     `saveMap`.  A sequence of them is `play`, and `AllSucceed` says that each run of it returned
     success on the file that the run before had left.
  2. **Specification** — a player that is `Alone` on an accepted map: it stands on one cell, and
     every other cell is empty or a wall.
  3. **The crux (`Alone.step`)** — on an accepted map the floor is connected
     (`isConnected_joined`), and a player that is alone on it finds the next cell of any path empty,
     so the command in that direction moves it there, and it is alone again.  Along a path this is
     `Alone.walk`, and for every floor cell `every_floor_reached`.
  4. **What is idealised** — the file can be opened and written, and nobody else writes it between
     two commands.  A write that fails is the subject of `Maze.Saving`.
-/
import MiniLabs.Maze.Connected
import MiniLabs.Maze.Game

set_option linter.unusedVariables false

namespace Maze

open Libc

/-- A player stands on `p`, and no other player on the map. -/
structure Alone (l : Labyrinth) (playerId : UInt8) (p : Nat × Nat) : Prop where
  inside : p ∈ positions l
  here : l.cell p.1 p.2 = playerId
  others : ∀ q ∈ positions l, q ≠ p → l.cell q.1 q.2 = empty ∨ l.cell q.1 q.2 = wall

section Alone

variable {l l' : Labyrinth} {playerId : UInt8} {direction : List UInt8} {p q start target : Nat × Nat}
  {file : List UInt8}

/-- Nobody else is the player. -/
theorem Alone.unique (h : Alone l playerId p) (hplayer : isValidPlayer playerId = true)
    (hq : q ∈ positions l) (hcell : l.cell q.1 q.2 = playerId) : q = p := by
  by_contra hne
  rcases h.others q hq hne with hempty | hwall
  · exact player_ne_empty hplayer (hcell.symm.trans hempty)
  · exact player_ne_wall hplayer (hcell.symm.trans hwall)

/-- A player that is alone is found where it stands. -/
theorem Alone.find (h : Alone l playerId p) (hplayer : isValidPlayer playerId = true) :
    findPlayer l playerId = some p := by
  rw [findPlayer]
  cases hfind : findCell l playerId with
  | none => exact absurd h.here (findCell_none hfind p h.inside)
  | some start =>
    have hfirst := findCell_some hfind
    rw [h.unique hplayer hfirst.1 hfirst.2.1]

/-- A direction leads from a cell to one cell. -/
theorem Toward.unique (h : Toward direction p q) (h' : Toward direction p target) :
    target = q := by
  rcases h with ⟨rfl, h₁, h₂⟩ | ⟨rfl, h₁, h₂⟩ | ⟨rfl, h₁, h₂⟩ | ⟨rfl, h₁, h₂⟩
  all_goals
    rcases h' with ⟨hd, h₃, h₄⟩ | ⟨hd, h₃, h₄⟩ | ⟨hd, h₃, h₄⟩ | ⟨hd, h₃, h₄⟩
  -- one direction is not another
  all_goals first | exact Prod.ext (by omega) (by omega) | exact absurd hd (by decide)

/-- Each side of a cell lies in a direction. -/
theorem side_delta (hside : place q ∈ sides (place p)) : ∃ direction d,
    delta direction = some d ∧ (p.1 : Int) + d.1 = q.1 ∧ (p.2 : Int) + d.2 = q.2 := by
  simp only [sides, place, List.mem_cons, List.not_mem_nil, or_false, Prod.mk.injEq] at hside
  rcases hside with ⟨h₁, h₂⟩ | ⟨h₁, h₂⟩ | ⟨h₁, h₂⟩ | ⟨h₁, h₂⟩
  · exact ⟨ascii "up", (-1, 0), by decide, by dsimp only; omega, by dsimp only; omega⟩
  · exact ⟨ascii "down", (1, 0), by decide, by dsimp only; omega, by dsimp only; omega⟩
  · exact ⟨ascii "left", (0, -1), by decide, by dsimp only; omega, by dsimp only; omega⟩
  · exact ⟨ascii "right", (0, 1), by decide, by dsimp only; omega, by dsimp only; omega⟩

/-- The move to an empty cell beside the player succeeds. -/
theorem Alone.moves (h : Alone l playerId p) (hplayer : isValidPlayer playerId = true)
    {d : Int × Int} (hd : delta direction = some d) (hrow : (p.1 : Int) + d.1 = q.1)
    (hcol : (p.2 : Int) + d.2 = q.2) (hq : q ∈ positions l)
    (hempty : l.cell q.1 q.2 = empty) : ∃ l', movePlayer l playerId direction = some l' := by
  obtain ⟨hr, hc⟩ := mem_positions.mp hq
  have hspace : isEmptySpace l q.1 q.2 = true := by
    rw [isEmptySpace, if_neg (by omega)]
    exact beq_iff_eq.mpr hempty
  rw [movePlayer, hd]
  dsimp only
  rw [h.find hplayer]
  show ∃ l', moveBy l playerId d p false = some l'
  rw [moveBy]
  dsimp only
  rw [hrow, hcol, if_pos hspace]
  exact ⟨_, rfl⟩

/-- The player is alone where the move leads. -/
theorem Alone.moved (h : Alone l playerId p) (hplayer : isValidPlayer playerId = true)
    (hmoved : Moved playerId direction start target l l') :
    start = p ∧ Alone l' playerId target := by
  have hpresent : ¬ Missing l playerId := fun hm => hm p h.inside h.here
  have hstart : start = p := by
    rcases hmoved.begins with hfirst | ⟨hmissing, -⟩
    · exact h.unique hplayer hfirst.1 hfirst.2.1
    · exact absurd hmissing hpresent
  have hpos := positions_congr hmoved.rows hmoved.cols
  refine ⟨hstart, by rw [hpos]; exact hmoved.inside, hmoved.arrived, fun q hq hne => ?_⟩
  rw [hpos] at hq
  by_cases hqs : q = start
  · rw [hqs]
    exact .inl (hmoved.left hpresent)
  · rw [hmoved.rest q hne fun heq => absurd heq hqs]
    exact h.others q hq fun heq => hqs (heq.trans hstart.symm)

/-- **One step of a path.** -/
theorem Alone.step (h : Alone l playerId p) (hload : loadMap file = some l)
    (hplayer : isValidPlayer playerId = true) (hside : place q ∈ sides (place p))
    (hfloor : Floor l (place q)) : ∃ direction l', (command file playerId direction).2 = true ∧
      loadMap (command file playerId direction).1 = some l' ∧ Alone l' playerId q ∧
        ∀ r, Floor l' r ↔ Floor l r := by
  obtain ⟨direction, d, hd, hrow, hcol⟩ := side_delta hside
  have hq : q ∈ positions l := by
    have h₁ := hfloor.row_lt
    have h₂ := hfloor.col_lt
    simp only [place] at h₁ h₂
    exact mem_positions.mpr ⟨by omega, h₂⟩
  have hqp : q ≠ p := by
    rintro rfl
    simp [sides, place] at hside
    omega
  have hempty : l.cell q.1 q.2 = empty := by
    rcases h.others q hq hqp with hempty | hwall
    · exact hempty
    · have hf : isFloor (l.cell q.1 q.2) = true := hfloor.floor
      rw [hwall] at hf
      cases hf
  obtain ⟨l', hmove⟩ := h.moves hplayer hd hrow hcol hq hempty
  rcases command_spec direction hload hplayer with
    ⟨hnone, -⟩ | ⟨m, start, target, hm, hok, hmoved, hsaved⟩
  · rw [hmove] at hnone
    cases hnone
  · obtain ⟨rfl, halone⟩ := h.moved hplayer hmoved
    have htoward : Toward direction start (((start.1 : Int) + d.1).toNat,
        ((start.2 : Int) + d.2).toNat) := toward_of_delta hd (by omega) (by omega)
    have htarget : target = q := by
      rw [htoward.unique hmoved.toward, hrow, hcol]
      exact Prod.ext (Int.toNat_natCast q.1) (Int.toNat_natCast q.2)
    refine ⟨direction, m, by rw [hok], by rw [hok]; exact hsaved, htarget ▸ halone, fun r => ?_⟩
    -- floor stays floor
    have hcell := (hmoved.floor hplayer (r.1.toNat, r.2.toNat)).1
    constructor
    · rintro ⟨h₁, h₂, h₃, h₄, h₅⟩
      exact ⟨h₁, hmoved.rows ▸ h₂, h₃, hmoved.cols ▸ h₄, hcell ▸ h₅⟩
    · rintro ⟨h₁, h₂, h₃, h₄, h₅⟩
      exact ⟨h₁, by rw [hmoved.rows]; exact h₂, h₃, by rw [hmoved.cols]; exact h₄, hcell.trans h₅⟩

/-- The cell of a position. -/
def cellOf (x : Int × Int) : Nat × Nat := (x.1.toNat, x.2.toNat)

/-- A floor position is that of its cell. -/
theorem Floor.place_cellOf {x : Int × Int} (h : Floor l x) : place (cellOf x) = x :=
  Prod.ext (Int.toNat_of_nonneg h.row_ge) (Int.toNat_of_nonneg h.col_ge)

/-- Every command succeeds on the file that the one before has left. -/
def AllSucceed : List UInt8 → List (UInt8 × List UInt8) → Prop
  | _, [] => True
  | file, c :: commands =>
    (command file c.1 c.2).2 = true ∧ AllSucceed (command file c.1 c.2).1 commands

/-- **A path.** -/
theorem Alone.walk {l₀ : Labyrinth} {x y : Int × Int} (hpath : Joined l₀ x y)
    (hplayer : isValidPlayer playerId = true) (hx : Floor l₀ x) :
    ∀ {file : List UInt8} {l : Labyrinth}, loadMap file = some l → (∀ r, Floor l r ↔ Floor l₀ r) →
      Alone l playerId (cellOf x) → ∃ (directions : List (List UInt8)) (l' : Labyrinth),
        AllSucceed file (directions.map fun d => (playerId, d)) ∧
        loadMap (play file (directions.map fun d => (playerId, d))) = some l' ∧
          Alone l' playerId (cellOf y) := by
  induction hpath using Relation.ReflTransGen.head_induction_on with
  | refl => exact fun hload _ h => ⟨[], _, trivial, hload, h⟩
  | @head x z hstep _ ih =>
    intro file l hload hsame h
    have hz := (hsame z).mpr hstep.2
    obtain ⟨direction, l₁, hok, hload₁, h₁, hsame₁⟩ := h.step (q := cellOf z) hload hplayer
      (by rw [hx.place_cellOf, hstep.2.place_cellOf]; exact hstep.1)
      (by rwa [hstep.2.place_cellOf])
    obtain ⟨directions, l', hall, hload', h'⟩ := ih hstep.2 hload₁
      (fun r => (hsame₁ r).trans (hsame r)) h₁
    exact ⟨direction :: directions, l', ⟨hok, hall⟩, hload', h'⟩

end Alone

/-- **Every floor cell can be reached.**  On an accepted map with one player there are commands
    that all succeed and bring the player to any cell that is no wall; the map is accepted then,
    with the same walls, and the player alone on that cell. -/
theorem every_floor_reached {file : List UInt8} {l₀ : Labyrinth} {playerId : UInt8}
    {p q : Nat × Nat} (hload : loadMap file = some l₀) (hplayer : isValidPlayer playerId = true)
    (h : Alone l₀ playerId p) (hq : q ∈ positions l₀) (hwall : l₀.cell q.1 q.2 ≠ wall) :
    ∃ (directions : List (List UInt8)) (l : Labyrinth),
      AllSucceed file (directions.map fun d => (playerId, d)) ∧
        loadMap (play file (directions.map fun d => (playerId, d))) = some l ∧ Kept l₀ l ∧
        Alone l playerId q := by
  have hfloor : ∀ r ∈ positions l₀, l₀.cell r.1 r.2 ≠ wall → Floor l₀ (place r) := by
    intro r hr hno
    obtain ⟨hrow, hcol⟩ := mem_positions.mp hr
    refine ⟨Int.natCast_nonneg _, Int.ofNat_lt.mpr hrow, Int.natCast_nonneg _, hcol, ?_⟩
    show isFloor (l₀.cell r.1 r.2) = true
    by_cases hrp : r = p
    · rw [hrp, h.here, isFloor, hplayer, Bool.or_true]
    · rw [(h.others r hr hrp).resolve_right hno]
      decide
  have hp := hfloor p h.inside (h.here ▸ player_ne_wall hplayer)
  have hq' := hfloor q hq hwall
  have hpath : Joined l₀ (place p) (place q) := by
    rcases (isConnected_joined l₀).mp (loadMap_some hload).connected with hno | hall
    · exact absurd hp (hno _)
    · exact hall _ _ hp hq'
  obtain ⟨directions, l, hall, hl, halone⟩ := Alone.walk hpath hplayer hp hload (fun r => Iff.rfl) h
  obtain ⟨l', hl', hkept⟩ := play_spec hload (directions.map fun d => (playerId, d)) fun c hc => by
    obtain ⟨d, -, rfl⟩ := List.mem_map.mp hc
    exact hplayer
  rw [hl] at hl'
  obtain rfl := Option.some.inj hl'
  exact ⟨directions, l, hall, hl, hkept, halone⟩

/-- Around a corner. -/
theorem every_floor_reached_corner : ∃ (directions : List (List UInt8)) (l : Labyrinth),
    AllSucceed (ascii "1#\n..\n") (directions.map fun d => (49, d)) ∧
      loadMap (play (ascii "1#\n..\n") (directions.map fun d => (49, d))) = some l ∧
      Kept ⟨[ascii "1#", ascii ".."], 2⟩ l ∧ Alone l 49 (1, 1) :=
  every_floor_reached (p := (0, 0)) (by decide) (by decide)
    ⟨by decide, by decide, by decide⟩ (by decide) (by decide)

end Maze
