/-
  pstree — the tree of processes: `build_tree`, `sort_tree`, `print_forest`.

  1. **State** — a `Status` is what `read_process` finds; a `Process` is an entry of the list, with
     its children as positions in the list.
  2. **Program** — `buildTree` is the loop that gives every process to its parent, `sortTree` sorts
     the children of each, `printForest` prints the trees of the roots.  What is printed is a list
     of lines; `Line.text` renders one.
  3. **Fuel** — `printTree` follows the child links and nothing bounds its recursion: `none` means
     that it is still going on.
  4. **What is idealised** — every allocation succeeds, and the length of a list and the capacities
     are those of Lean's lists.  `qsort` is a stable sort: on distinct pids the comparison is never
     0 for two entries, so there is one sorted order.  How the list comes from `/proc` is the
     subject of `Pstree.StatusFile`; a process that goes away meanwhile is not in it.
-/
import MiniLabs.Lib.Forest
import MiniLabs.Lib.Strcmp

set_option linter.unusedVariables false

namespace Pstree

open Forest Libc

/-- What `read_process` finds. -/
structure Status where
  pid : Int
  ppid : Int
  name : List UInt8
  deriving DecidableEq, Repr

/-- `Process`. -/
structure Process extends Status where
  children : List Nat
  deriving DecidableEq, Repr

/-- The list that `main` builds from what it finds, in the order of `readdir`. -/
def start (statuses : List Status) : List Process := statuses.map fun s => ⟨s, []⟩

/-! ## `build_tree` -/

/-- `find_process_index`; `none` is -1. -/
def findProcessIndex (list : List Process) (pid : Int) : Option Nat :=
  list.findIdx? fun p => p.pid == pid

/-- `add_child`. -/
def addChild (childIndex : Nat) (parent : Process) : Process :=
  { parent with children := parent.children ++ [childIndex] }

/-- One round of `build_tree`: the process is given to the first one with its ppid, itself
    included. -/
def buildStep (list : List Process) (i : Nat) : List Process :=
  match (list[i]?).bind fun p => findProcessIndex list p.ppid with
  | none => list
  | some parent => list.modify parent (addChild i)

/-- `build_tree`. -/
def buildTree (list : List Process) : List Process := (List.range list.length).foldl buildStep list

/-! ## `sort_tree` -/

/-- `compare_by_pid`. -/
def compareByPid (a b : Process) : Int :=
  (if a.pid > b.pid then 1 else 0) - (if a.pid < b.pid then 1 else 0)

/-- `compare_by_name`. -/
def compareByName (a b : Process) : Int :=
  let nameCmp := strcmp a.name b.name
  if nameCmp ≠ 0 then nameCmp else compareByPid a b

/-- The comparison for `-n` or not. -/
def compare (numericSort : Bool) : Process → Process → Int :=
  if numericSort then compareByPid else compareByName

/-- `qsort`. -/
def qsort {α : Type} (cmp : α → α → Int) (items : List α) : List α :=
  items.mergeSort fun a b => cmp a b ≤ 0

/-- `list->items[i]`. -/
def item (list : List Process) (i : Nat) : Process := list.getD i ⟨⟨0, 0, []⟩, []⟩

/-- Pointers to items are compared by what they point to. -/
def comparePointers (list : List Process) (numericSort : Bool) (i j : Nat) : Int :=
  compare numericSort (item list i) (item list j)

/-- `sort_tree`: the children of every process are sorted; their pids and names stay. -/
def sortTree (numericSort : Bool) (list : List Process) : List Process :=
  list.map fun parent =>
    if parent.children.length < 2 then parent
    else { parent with children := qsort (comparePointers list numericSort) parent.children }

/-! ## `print_forest` -/

/-- A line: how deep it is indented, and the process. -/
structure Line where
  depth : Nat
  process : Status
  deriving DecidableEq, Repr

/-- The bytes of an ASCII string. -/
def ascii (s : String) : List UInt8 := s.toList.map fun c => c.toNat.toUInt8

/-- What is printed for a line. -/
def Line.text (showPids : Bool) (ℓ : Line) : List UInt8 :=
  (List.replicate ℓ.depth (ascii "  ")).flatten ++ ℓ.process.name ++
    (if showPids then ascii ("(" ++ toString ℓ.process.pid ++ ")\n") else ascii "\n")

/-- `print_tree`: the process, and then the trees of its children, one deeper. -/
def printTree (list : List Process) : Nat → Nat → Nat → Option (List Line)
  | 0, _, _ => none
  | fuel + 1, index, depth =>
    let process := item list index
    (each (fun child => printTree list fuel child (depth + 1)) process.children).map
      (⟨depth, process.toStatus⟩ :: ·)

/-- The roots that `print_forest` collects: ppid 0, or nobody in the list with that pid. -/
def roots (list : List Process) : List Nat :=
  (List.range list.length).filter fun i =>
    (item list i).ppid == 0 || (findProcessIndex list (item list i).ppid).isNone

/-- `print_forest`. -/
def printForest (numericSort : Bool) (fuel : Nat) (list : List Process) : Option (List Line) :=
  each (fun root => printTree list fuel root 0)
    (qsort (comparePointers list numericSort) (roots list))

/-- What `main` does with the list. -/
def pstree (numericSort : Bool) (fuel : Nat) (statuses : List Status) : Option (List Line) :=
  printForest numericSort fuel (sortTree numericSort (buildTree (start statuses)))

end Pstree
