/-
  A command whose `saveMap` may fail.

  1. **Program** — `Storage` says which of the calls in `saveMap` fail, and how much of what was
     printed reaches the file before one does.
  2. **Specification** — a command that fails should leave the file as it was.  `failed_command_iff`
     says when it does.
  3. **The crux (`moved_not_begun`)** — `fopen` with `"w"` empties the file, so that only a failure
     of this first call leaves the map: what is on disk after any other failure is a beginning of
     the moved map, and that is never the file that was there.
  4. **What is idealised** — what reaches the file is a beginning of what was printed; the disk does
     not lose it afterwards.
-/
import MiniLabs.Maze.Game
import MiniLabs.Maze.Grammar

set_option linter.unusedVariables false

namespace Maze

open Libc

/-- Which calls of `saveMap` succeed; `reached` bytes are on disk when one does not. -/
structure Storage where
  opens : Bool
  prints : Nat → Bool
  closes : Bool
  reached : Nat

/-- The loop of `saveMap` from row `i` on: what is printed, and whether all of it is. -/
def printRows (s : Storage) : Nat → List (List UInt8) → List UInt8 × Bool
  | _, [] => ([], true)
  | i, row :: rows =>
    if s.prints i then (row ++ 10 :: (printRows s (i + 1) rows).1, (printRows s (i + 1) rows).2)
    else (row ++ [10], false)

/-- `saveMap` over the file as it is: the file it leaves, and what it returns. -/
def saveMapOn (s : Storage) (file : List UInt8) (l : Labyrinth) : List UInt8 × Bool :=
  if ! s.opens then (file, false)
  else
    let printed := printRows s 0 l.map
    if printed.2 && s.closes then (printed.1, true) else (printed.1.take s.reached, false)

/-- `main` with a move. -/
def commandOn (s : Storage) (file : List UInt8) (playerId : UInt8) (direction : List UInt8) :
    List UInt8 × Bool :=
  match loadMap file with
  | none => (file, false)
  | some l =>
    match movePlayer l playerId direction with
    | none => (file, false)
    | some l => saveMapOn s file l

section Printing

variable {s : Storage} {rows : List (List UInt8)} {i : Nat}

/-- What is printed is a beginning of the map. -/
theorem printRows_begins (s : Storage) (i : Nat) (rows : List (List UInt8)) :
    (printRows s i rows).1 <+: rows.flatMap fun row => row ++ [10] := by
  induction rows generalizing i with
  | nil => exact List.nil_prefix
  | cons row rows ih =>
    rw [printRows, List.flatMap_cons]
    by_cases h : s.prints i = true
    · rw [if_pos h, List.append_assoc]
      exact (List.prefix_append_right_inj row).mpr (List.cons_prefix_cons.mpr ⟨rfl, ih (i + 1)⟩)
    · rw [if_neg h]
      exact List.prefix_append _ _

/-- Where no row fails all of them are printed. -/
theorem printRows_true (h : ∀ k < rows.length, s.prints (i + k) = true) :
    printRows s i rows = (rows.flatMap fun row => row ++ [10], true) := by
  induction rows generalizing i with
  | nil => rfl
  | cons row rows ih =>
    have hrest : printRows s (i + 1) rows = (rows.flatMap fun row => row ++ [10], true) := by
      apply ih
      intro k hk
      rw [Nat.add_right_comm, Nat.add_assoc]
      exact h (k + 1) (Nat.succ_lt_succ hk)
    have hfirst : s.prints i = true := h 0 (Nat.succ_pos _)
    rw [printRows, if_pos hfirst, hrest, List.flatMap_cons, List.append_assoc]
    rfl

/-- Where all of them are printed no row has failed. -/
theorem printRows_all (h : (printRows s i rows).2 = true) :
    ∀ k < rows.length, s.prints (i + k) = true := by
  induction rows generalizing i with
  | nil => exact fun k hk => absurd hk (Nat.not_lt_zero _)
  | cons row rows ih =>
    rw [printRows] at h
    by_cases hprint : s.prints i = true
    · rw [if_pos hprint] at h
      intro k hk
      cases k with
      | zero => exact hprint
      | succ k =>
        rw [Nat.add_comm k 1, ← Nat.add_assoc]
        exact ih h k (Nat.lt_of_succ_lt_succ hk)
    · rw [if_neg hprint] at h
      exact Bool.noConfusion h

/-- **`saveMap`** writes all of the map, or leaves a beginning of it, or the old file. -/
theorem saveMapOn_cases (s : Storage) (file : List UInt8) (l : Labyrinth) :
    (s.opens = false ∧ saveMapOn s file l = (file, false)) ∨
    (s.closes = true ∧ (∀ i < l.rows, s.prints i = true) ∧ saveMapOn s file l = (saveMap l, true)) ∨
    (s.opens = true ∧ ¬ (s.closes = true ∧ ∀ i < l.rows, s.prints i = true) ∧
      ∃ begun, begun <+: saveMap l ∧ saveMapOn s file l = (begun, false)) := by
  rw [saveMapOn]
  cases hopen : s.opens with
  | false => exact Or.inl ⟨rfl, rfl⟩
  | true =>
    rw [if_neg (by decide)]
    by_cases hall : s.closes = true ∧ ∀ i < l.rows, s.prints i = true
    · obtain ⟨hclose, hprint⟩ := hall
      have hprinted : printRows s 0 l.map = (saveMap l, true) :=
        printRows_true fun k hk => (Nat.zero_add k).symm ▸ hprint k hk
      rw [hprinted, hclose]
      exact Or.inr (Or.inl ⟨rfl, hprint, rfl⟩)
    · have hno : ((printRows s 0 l.map).2 && s.closes) = false := by
        refine Bool.eq_false_iff.mpr fun h => hall ?_
        obtain ⟨hprint, hclose⟩ := Bool.and_eq_true_iff.mp h
        exact ⟨hclose, fun i hi => Nat.zero_add i ▸ printRows_all hprint i hi⟩
      dsimp only
      rw [hno, if_neg Bool.false_ne_true]
      exact Or.inr (Or.inr ⟨rfl, hall, _,
        (List.take_prefix _ _).trans (printRows_begins s 0 l.map), rfl⟩)

/-- **Where no call fails**, a command is the one of the game. -/
theorem commandOn_ok (hopen : s.opens = true) (hclose : s.closes = true)
    (hprint : ∀ i, s.prints i = true) (file : List UInt8) (playerId : UInt8)
    (direction : List UInt8) :
    commandOn s file playerId direction = command file playerId direction := by
  rw [commandOn, command]
  cases loadMap file with
  | none => rfl
  | some l =>
    dsimp only
    cases movePlayer l playerId direction with
    | none => rfl
    | some l' =>
      have hprinted : printRows s 0 l'.map = (saveMap l', true) := printRows_true fun k _ => hprint _
      show saveMapOn s file l' = (saveMap l', true)
      rw [saveMapOn, hopen, hprinted, hclose]
      rfl

end Printing

section Saving

variable {l l' : Labyrinth} {file : List UInt8} {playerId : UInt8} {direction : List UInt8}

/-- How long a saved map is. -/
theorem saved_length {rows : List (List UInt8)} {c : Int}
    (h : ∀ row ∈ rows, (row.length : Int) = c) :
    ((rows.flatMap fun row => row ++ [10]).length : Int) = rows.length * (c + 1) := by
  induction rows with
  | nil => exact (Int.zero_mul _).symm
  | cons row rows ih =>
    have hrow := h row List.mem_cons_self
    have hrest := ih fun r hr => h r (List.mem_cons_of_mem _ hr)
    rw [List.flatMap_cons, List.length_append, List.length_append, List.length_singleton,
      List.length_cons, Int.natCast_add, Int.natCast_add, hrest, hrow, Int.natCast_add, Int.add_mul]
    omega

/-- The rows without the last newline begin an accepted file. -/
theorem joinLines_begins (h : loadMap file = some l) : joinLines l.map <+: file := by
  rcases (text_of_loadMap h).kinds with hsaved | ⟨-, -, tail, -, rfl, -⟩
  · rw [hsaved, ← joinLines_saved (loadMap_some h).map_ne]
    exact List.prefix_append _ _
  · exact List.prefix_append _ _

/-- **The old file is not a beginning of the moved map.** -/
theorem moved_not_begun {start target : Nat × Nat} (hload : loadMap file = some l)
    (hplayer : isValidPlayer playerId = true)
    (hmoved : Moved playerId direction start target l l') : ¬ file <+: saveMap l' := by
  intro hbegun
  have hl := loadMap_some hload
  have hl' := hmoved.loadable hl hplayer
  have hsave : joinLines l.map ++ [10] = saveMap l := joinLines_saved hl.map_ne
  have hsave' : joinLines l'.map ++ [10] = saveMap l' := joinLines_saved hl'.map_ne
  have hlen : (joinLines l.map).length = (joinLines l'.map).length := by
    have h₁ := saved_length hl.width
    have h₂ := saved_length hl'.width
    have hrows : l'.map.length = l.map.length := hmoved.rows
    rw [hrows, hmoved.cols, ← h₁] at h₂
    have h₃ : (saveMap l').length = (saveMap l).length := Int.ofNat_inj.mp h₂
    rw [← hsave, ← hsave', List.length_append, List.length_append] at h₃
    exact (Nat.add_right_cancel h₃).symm
  have hfront : joinLines l'.map <+: saveMap l' := ⟨[10], hsave'⟩
  have hsame : joinLines l.map = joinLines l'.map :=
    (List.prefix_of_prefix_length_le ((joinLines_begins hload).trans hbegun) hfront
      (Nat.le_of_eq hlen)).eq_of_length hlen
  have hmaps : some l = some l' := by
    rw [← loadMap_saveMap hl, ← loadMap_saveMap hl', ← hsave, ← hsave', hsame]
  have hcell := hmoved.arrived
  rw [← Option.some.inj hmaps, hmoved.free] at hcell
  exact player_ne_empty hplayer hcell.symm

/-- **A failed command** leaves the file if the move is refused, or no call fails but the first. -/
theorem failed_command_iff (hload : loadMap file = some l) (hplayer : isValidPlayer playerId = true)
    (direction : List UInt8) (s : Storage) :
    ((commandOn s file playerId direction).2 = false →
        (commandOn s file playerId direction).1 = file) ↔
      (movePlayer l playerId direction = none ∨ s.opens = false ∨
        s.closes = true ∧ ∀ i < l.rows, s.prints i = true) := by
  rw [commandOn, hload]
  dsimp only
  cases hmove : movePlayer l playerId direction with
  | none => exact ⟨fun _ => Or.inl rfl, fun _ _ => rfl⟩
  | some l' =>
    obtain ⟨start, target, hmoved⟩ := movePlayer_some (loadMap_some hload) hplayer hmove
    rw [← hmoved.rows]
    dsimp only
    rcases saveMapOn_cases s file l' with ⟨hopen, hsave⟩ | ⟨hclose, hprint, hsave⟩ |
      ⟨hopen, hno, begun, hbegun, hsave⟩
    · rw [hsave]
      exact ⟨fun _ => Or.inr (Or.inl hopen), fun _ _ => rfl⟩
    · rw [hsave]
      exact ⟨fun _ => Or.inr (Or.inr ⟨hclose, hprint⟩), fun _ h => Bool.noConfusion h⟩
    · rw [hsave]
      constructor
      · intro hkept
        have hfile : begun = file := hkept rfl
        exact absurd (hfile ▸ hbegun) (moved_not_begun hload hplayer hmoved)
      · rintro (hnone | hshut | hall)
        · cases hnone
        · rw [hopen] at hshut
          exact Bool.noConfusion hshut
        · exact absurd hall hno

end Saving

/-- A move into a wall. -/
theorem failed_command_iff_wall :
    ((commandOn ⟨true, fun _ => true, false, 0⟩ (ascii "1#\n") 49 (ascii "right")).2 = false →
        (commandOn ⟨true, fun _ => true, false, 0⟩ (ascii "1#\n") 49 (ascii "right")).1
          = ascii "1#\n") ↔
      (movePlayer ⟨[ascii "1#"], 2⟩ 49 (ascii "right") = none ∨ (true : Bool) = false ∨
        (false : Bool) = true ∧ ∀ i < 1, (true : Bool) = true) :=
  failed_command_iff (by decide) (by decide) (ascii "right") ⟨true, fun _ => true, false, 0⟩

/-- When the file cannot be closed, the old map is gone. -/
theorem close_loses_map :
    ¬ ∀ (s : Storage) (file : List UInt8) (l : Labyrinth) (playerId : UInt8)
        (direction : List UInt8), loadMap file = some l → isValidPlayer playerId = true →
      (commandOn s file playerId direction).2 = false →
      (commandOn s file playerId direction).1 = file := by
  intro h
  have hkept := h ⟨true, fun _ => true, false, 0⟩ (ascii "1.\n") ⟨[ascii "1."], 2⟩ 49
    (ascii "right") (by decide) (by decide) (by decide)
  exact absurd hkept (by decide)

end Maze
