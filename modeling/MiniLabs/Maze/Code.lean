/-
  labyrinth — the game on a map in a file: `loadMap`, `movePlayer`, `saveMap`, and `main`.

  1. **State** — a file is a list of bytes.  A row of the map is the string that stands in it; bytes
     of the array outside the map are left out, as no function reads them.
  2. **Program** — `command` is `main` with a move: the map is loaded and checked, the player found
     or put on the first empty cell and moved, the map saved.  `play` is a sequence of commands on
     one file.
  3. **Fuel** — `dfs` recurses to the four sides with no bound of its own.  Here it has fuel for the
     depth of the recursion; `dfs_enough` says that `isConnected` gives it more than it can use.
  4. **What is idealised** — file operations succeed (`Maze.Saving` lets those of `saveMap` fail),
     and nobody else writes the file during a command.  The messages to the user are left out; a run
     fails or succeeds.
-/
import MiniLabs.Lib.Fgets
import MiniLabs.Lib.Strcmp

set_option linter.unusedVariables false

namespace Maze

open Libc

/-- `MAX_ROWS`. -/
def maxRows : Nat := 100

/-- `MAX_COLS`. -/
def maxCols : Nat := 100

/-- The bytes of an ASCII string. -/
def ascii (s : String) : List UInt8 := s.toList.map fun c => c.toNat.toUInt8

/-- The byte `#`. -/
def wall : UInt8 := 35

/-- The byte `.`. -/
def empty : UInt8 := 46

/-- `Labyrinth`; the number of rows is the length of the map. -/
structure Labyrinth where
  map : List (List UInt8)
  cols : Int
  deriving DecidableEq, Repr

/-- `labyrinth->rows`. -/
def Labyrinth.rows (l : Labyrinth) : Nat := l.map.length

/-- `labyrinth->map[row][col]`. -/
def Labyrinth.cell (l : Labyrinth) (row col : Nat) : UInt8 := (l.map.getD row []).getD col 0

/-- `labyrinth->map[row][col] = ch`. -/
def Labyrinth.set (l : Labyrinth) (row col : Nat) (ch : UInt8) : Labyrinth :=
  { l with map := l.map.modify row fun line => line.set col ch }

/-- `isValidPlayer`. -/
def isValidPlayer (playerId : UInt8) : Bool := 48 ≤ playerId && playerId ≤ 57

/-- `is_floor`. -/
def isFloor (ch : UInt8) : Bool := ch == empty || isValidPlayer ch

/-! ## `isConnected` -/

/-- `dfs`; what is visited is a list of positions. -/
def dfs (l : Labyrinth) : Nat → Int → Int → List (Nat × Nat) → List (Nat × Nat)
  | 0, _, _, visited => visited
  | fuel + 1, row, col, visited =>
    if row < 0 ∨ row ≥ l.rows ∨ col < 0 ∨ col ≥ l.cols then visited
    else if (row.toNat, col.toNat) ∈ visited ∨ ! isFloor (l.cell row.toNat col.toNat) then visited
    else
      let visited := (row.toNat, col.toNat) :: visited
      let visited := dfs l fuel (row - 1) col visited
      let visited := dfs l fuel (row + 1) col visited
      let visited := dfs l fuel row (col - 1) visited
      dfs l fuel row (col + 1) visited

/-- The positions of the map, row by row. -/
def positions (l : Labyrinth) : List (Nat × Nat) :=
  (List.range l.rows).flatMap fun row => (List.range l.cols.toNat).map fun col => (row, col)

/-- The floor cells, row by row. -/
def floors (l : Labyrinth) : List (Nat × Nat) :=
  (positions l).filter fun p => isFloor (l.cell p.1 p.2)

/-- `isConnected`: a search from the first floor cell finds as many floor cells as there are. -/
def isConnected (l : Labyrinth) : Bool :=
  match (floors l).head? with
  | none => true
  | some start =>
    let visited := dfs l ((positions l).length + 1) start.1 start.2 []
    ((floors l).filter fun p => p ∈ visited).length == (floors l).length

/-! ## `loadMap` -/

/-- `strcspn(line, "\n")`. -/
def strcspn (line : List UInt8) : Nat := (line.takeWhile fun c => c != 10 && c != 0).length

/-- A character that may stand in a map. -/
def isMapChar (ch : UInt8) : Bool := ch == wall || ch == empty || isValidPlayer ch

/-- The checks on a line of the file; the row, if they pass. -/
def readRow (cols : Int) (got : Got) : Option (List UInt8) :=
  let len := strcspn got.line
  if got.line[len]? ≠ some 10 ∧ got.eof = false then none
  else if len = 0 ∨ len > maxCols then none
  else if cols ≠ -1 ∧ cols ≠ len then none
  else if (got.line.take len).all isMapChar then some (got.line.take len)
  else none

/-- The loop of `loadMap`, with room for so many rows. -/
def loadRows : Nat → Labyrinth → List UInt8 → Option Labyrinth
  | 0, l, file => if (fgets (maxCols + 2) file).line = [] then some l else none
  | room + 1, l, file =>
    let got := fgets (maxCols + 2) file
    if got.line = [] then some l
    else
      (readRow l.cols got).bind fun row =>
        loadRows room ⟨l.map ++ [row], if l.cols = -1 then row.length else l.cols⟩ got.rest

/-- `loadMap`: up to 100 rows of one length, of map characters only, and connected. -/
def loadMap (file : List UInt8) : Option Labyrinth :=
  (loadRows maxRows ⟨[], -1⟩ file).bind fun l =>
    if l.rows = 0 ∨ l.cols ≤ 0 then none
    else if isConnected l then some l
    else none

/-! ## Moves -/

/-- The first cell with a character, row by row. -/
def findCell (l : Labyrinth) (ch : UInt8) : Option (Nat × Nat) :=
  (positions l).find? fun p => l.cell p.1 p.2 == ch

/-- `findPlayer`. -/
def findPlayer (l : Labyrinth) (playerId : UInt8) : Option (Nat × Nat) := findCell l playerId

/-- `findFirstEmptySpace`. -/
def findFirstEmptySpace (l : Labyrinth) : Option (Nat × Nat) := findCell l empty

/-- `isEmptySpace`. -/
def isEmptySpace (l : Labyrinth) (row col : Int) : Bool :=
  if row < 0 ∨ row ≥ l.rows ∨ col < 0 ∨ col ≥ l.cols then false
  else l.cell row.toNat col.toNat == empty

/-- What a direction adds to the row and the column. -/
def delta (direction : List UInt8) : Option (Int × Int) :=
  if strcmp direction (ascii "up") = 0 then some (-1, 0)
  else if strcmp direction (ascii "down") = 0 then some (1, 0)
  else if strcmp direction (ascii "left") = 0 then some (0, -1)
  else if strcmp direction (ascii "right") = 0 then some (0, 1)
  else none

/-- The second half of `movePlayer`, with where the move starts and whether the player is there. -/
def moveBy (l : Labyrinth) (playerId : UInt8) (d : Int × Int) (start : Nat × Nat)
    (spawned : Bool) : Option Labyrinth :=
  let toRow := start.1 + d.1
  let toCol := start.2 + d.2
  if isEmptySpace l toRow toCol then
    let l := if spawned then l else l.set start.1 start.2 empty
    some (l.set toRow.toNat toCol.toNat playerId)
  else none

/-- `movePlayer`: a player that is not on the map starts from the first empty cell, which it is
    moved away from at once. -/
def movePlayer (l : Labyrinth) (playerId : UInt8) (direction : List UInt8) : Option Labyrinth :=
  match delta direction with
  | none => none
  | some d =>
    match findPlayer l playerId with
    | some start => moveBy l playerId d start false
    | none =>
      match findFirstEmptySpace l with
      | none => none
      | some start => moveBy l playerId d start true

/-! ## `saveMap` and `main` -/

/-- What `saveMap` writes. -/
def saveMap (l : Labyrinth) : List UInt8 := l.map.flatMap fun row => row ++ [10]

/-- `main` with a move: the file it leaves, and whether it succeeds. -/
def command (file : List UInt8) (playerId : UInt8) (direction : List UInt8) :
    List UInt8 × Bool :=
  match loadMap file with
  | none => (file, false)
  | some l =>
    match movePlayer l playerId direction with
    | none => (file, false)
    | some l => (saveMap l, true)

/-- The file after a sequence of commands. -/
def play (file : List UInt8) (commands : List (UInt8 × List UInt8)) : List UInt8 :=
  commands.foldl (fun file c => (command file c.1 c.2).1) file

end Maze
