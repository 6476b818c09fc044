/-
  What `loadMap` accepts.

  1. **Specification** — `Grammar file l` is the grammar of map files, with the map that a file is
     read as.
  2. **What is accepted besides** — a NUL ends the string in the buffer, and where the last line has
     no newline, what follows the NUL is not looked at.  `NulTail` are the files of this form.
  3. **The crux (`loadMap_cases`)** — every accepted file is one of the two; `loadMap_grammar_iff`
     says that `loadMap` keeps to the grammar exactly on the files without such a tail.
-/
import MiniLabs.Maze.Connected

set_option linter.unusedVariables false

namespace Maze

open Libc

/-- The rows, separated by newlines. -/
def joinLines : List (List UInt8) → List UInt8
  | [] => []
  | [row] => row
  | row :: rows => row ++ 10 :: joinLines rows

/-- The grammar of map files. -/
structure Grammar (file : List UInt8) (l : Labyrinth) : Prop where
  rows_pos : 1 ≤ l.rows
  rows_le : l.rows ≤ 100
  cols_pos : 1 ≤ l.cols
  cols_le : l.cols ≤ 100
  width : ∀ row ∈ l.map, (row.length : Int) = l.cols
  chars : ∀ row ∈ l.map, ∀ ch ∈ row, ch = 35 ∨ ch = 46 ∨ 48 ≤ ch ∧ ch ≤ 57
  connected : ∀ p q, Floor l p → Floor l q → Joined l p q
  text : file = joinLines l.map ∨ file = joinLines l.map ++ [10]

/-- A file that would be in the grammar without the NUL, and what follows it, in its last line. -/
def NulTail (file : List UInt8) : Prop :=
  ∃ l junk, Grammar (joinLines l.map) l ∧ file = joinLines l.map ++ 0 :: junk ∧
    (∀ c ∈ junk, c ≠ 10) ∧ l.cols + 1 + junk.length ≤ 101

section Lines

variable {rows : List (List UInt8)} {file tail : List UInt8}

/-- The first row, and the others behind a newline. -/
theorem joinLines_cons (row : List UInt8) (hne : rows ≠ []) :
    joinLines (row :: rows) = row ++ 10 :: joinLines rows := by
  cases rows with
  | nil => exact absurd rfl hne
  | cons r rows => rfl

/-- With a newline at the end it is what `saveMap` writes. -/
theorem joinLines_saved (hne : rows ≠ []) :
    joinLines rows ++ [10] = rows.flatMap fun row => row ++ [10] := by
  induction rows with
  | nil => exact absurd rfl hne
  | cons row rows ih =>
    cases rows with
    | nil => exact (List.append_nil _).symm
    | cons r rows =>
      rw [joinLines_cons row (List.cons_ne_nil _ _), List.append_assoc, List.cons_append,
        ih (List.cons_ne_nil _ _), List.flatMap_cons (x := row), List.append_assoc]
      rfl

/-- **The two kinds of texts.** -/
theorem Text.kinds (h : Text rows file) :
    file = rows.flatMap (fun row => row ++ [10]) ∨
      ∃ row ∈ rows, ∃ tail, Tail tail ∧ file = joinLines rows ++ tail ∧
        (row ++ tail).length < maxCols + 2 := by
  induction h with
  | done => exact Or.inl rfl
  | @last row tail htail hlen =>
    exact Or.inr ⟨row, List.mem_cons_self, tail, htail, rfl, hlen⟩
  | @line row rows file h ih =>
    rcases ih with hall | ⟨last, hlast, tail, htail, hfile, hlen⟩
    · apply Or.inl
      rw [List.flatMap_cons, ← hall, List.append_assoc]
      rfl
    · refine Or.inr ⟨last, List.mem_cons_of_mem _ hlast, tail, htail, ?_, hlen⟩
      rw [joinLines_cons row (List.ne_nil_of_mem hlast), hfile, List.append_assoc, List.cons_append]

/-- A text that ends without a newline. -/
theorem text_joinLines (hne : rows ≠ []) (htail : Tail tail)
    (hlen : ∀ row ∈ rows, (row ++ tail).length < maxCols + 2) :
    Text rows (joinLines rows ++ tail) := by
  induction rows with
  | nil => exact absurd rfl hne
  | cons row rows ih =>
    cases rows with
    | nil => exact Text.last htail (hlen row List.mem_cons_self)
    | cons r rows =>
      rw [joinLines_cons row (List.cons_ne_nil _ _), List.append_assoc, List.cons_append]
      exact Text.line (ih (List.cons_ne_nil _ _) fun s hs => hlen s (List.mem_cons_of_mem _ hs))

end Lines

section Grammar

variable {l : Labyrinth} {file : List UInt8}

/-- The characters of a map. -/
theorem isMapChar_iff (ch : UInt8) :
    isMapChar ch = true ↔ ch = 35 ∨ ch = 46 ∨ 48 ≤ ch ∧ ch ≤ 57 := by
  rw [isMapChar, isValidPlayer, Bool.or_eq_true, Bool.or_eq_true, beq_iff_eq, beq_iff_eq,
    Bool.and_eq_true, decide_eq_true_iff, decide_eq_true_iff, or_assoc]
  rfl

/-- The maps of the grammar are the loadable ones. -/
theorem Grammar.loadable (h : Grammar file l) : Loadable l :=
  ⟨h.rows_pos, h.rows_le, h.cols_pos, h.cols_le, h.width,
    fun row hrow ch hch => (isMapChar_iff ch).mpr (h.chars row hrow ch hch),
    (isConnected_joined l).mpr (Or.inr h.connected)⟩

/-- The text of a loadable map is in the grammar. -/
theorem Loadable.grammar (h : Loadable l)
    (htext : file = joinLines l.map ∨ file = joinLines l.map ++ [10]) : Grammar file l := by
  refine ⟨h.rows_pos, h.rows_le, h.cols_pos, h.cols_le, h.width,
    fun row hrow ch hch => (isMapChar_iff ch).mp (h.chars row hrow ch hch), ?_, htext⟩
  rcases (isConnected_joined l).mp h.connected with hno | hjoined
  · exact fun p q hp => absurd hp (hno p)
  · exact hjoined

/-- A loadable map has a row. -/
theorem Loadable.map_ne (h : Loadable l) : l.map ≠ [] := List.ne_nil_of_length_pos h.rows_pos

/-- A loadable map is read from the rows without a last newline, and from them with a short tail. -/
theorem loadMap_joinLines (h : Loadable l) {tail : List UInt8} (htail : Tail tail)
    (hlen : l.cols + tail.length ≤ 101) : loadMap (joinLines l.map ++ tail) = some l := by
  refine loadMap_text h (text_joinLines h.map_ne htail fun row hrow => ?_)
  have hwidth := h.width row hrow
  rw [List.length_append, maxCols]
  omega

/-- The files of the grammar are accepted, and read as their maps. -/
theorem Grammar.load (h : Grammar file l) : loadMap file = some l := by
  have hl := h.loadable
  have hcols := h.cols_le
  rcases h.text with rfl | rfl
  · have hload := loadMap_joinLines hl (Or.inl rfl) (by rw [List.length_nil]; omega)
    rwa [List.append_nil] at hload
  · rw [joinLines_saved hl.map_ne]
    exact loadMap_saveMap hl

/-- **What is accepted** is in the grammar, or has a NUL in its last line. -/
theorem loadMap_cases (h : loadMap file = some l) : Grammar file l ∨ NulTail file := by
  have hl := loadMap_some h
  rcases (text_of_loadMap h).kinds with hsaved | ⟨row, hrow, tail, htail, hfile, hlen⟩
  · rw [← joinLines_saved hl.map_ne] at hsaved
    exact Or.inl (hl.grammar (Or.inr hsaved))
  · rcases htail with rfl | ⟨junk, rfl, hjunk⟩
    · rw [List.append_nil] at hfile
      exact Or.inl (hl.grammar (Or.inl hfile))
    · refine Or.inr ⟨l, junk, hl.grammar (Or.inl rfl), hfile, hjunk, ?_⟩
      have hwidth := hl.width row hrow
      rw [List.length_append, List.length_cons, maxCols] at hlen
      omega

/-- The text of a map has no NUL. -/
theorem joinLines_chars {rows : List (List UInt8)}
    (h : ∀ row ∈ rows, ∀ ch ∈ row, isMapChar ch = true) : (0 : UInt8) ∉ joinLines rows := by
  induction rows with
  | nil => exact List.not_mem_nil
  | cons row rows ih =>
    have hrow : (0 : UInt8) ∉ row := fun hmem =>
      (isMapChar_text (h row List.mem_cons_self 0 hmem)).2 rfl
    cases rows with
    | nil => exact hrow
    | cons r rows =>
      have hrest := ih fun s hs => h s (List.mem_cons_of_mem _ hs)
      rw [joinLines_cons row (List.cons_ne_nil _ _), List.mem_append, List.mem_cons]
      rintro (hmem | hmem | hmem)
      · exact hrow hmem
      · exact absurd hmem (by decide)
      · exact hrest hmem

/-- There is no NUL in a file of the grammar. -/
theorem Grammar.no_nul (h : Grammar file l) : (0 : UInt8) ∉ file := by
  have hno := joinLines_chars h.loadable.chars
  rcases h.text with rfl | rfl
  · exact hno
  · rw [List.mem_append, List.mem_singleton]
    rintro (hmem | hmem)
    · exact hno hmem
    · exact absurd hmem (by decide)

/-- **`loadMap`** keeps to the grammar unless there is a NUL in the last line. -/
theorem loadMap_grammar_iff (file : List UInt8) :
    (∀ l, loadMap file = some l ↔ Grammar file l) ↔ ¬ NulTail file := by
  constructor
  · rintro hsame ⟨l, junk, hl, hfile, hjunk, hlen⟩
    have htail : Tail (0 :: junk) := Or.inr ⟨junk, rfl, hjunk⟩
    have hload : loadMap file = some l := by
      rw [hfile]
      apply loadMap_joinLines hl.loadable htail
      rw [List.length_cons]
      omega
    apply ((hsame l).mp hload).no_nul
    rw [hfile]
    exact List.mem_append_right _ List.mem_cons_self
  · intro hno l
    exact ⟨fun h => (loadMap_cases h).resolve_right hno, Grammar.load⟩

/-- Two dots, a NUL and an `x` are accepted as a map. -/
theorem nul_accepted : ¬ ∀ file l, loadMap file = some l ↔ Grammar file l := by
  intro hsame
  have hload : loadMap [46, 46, 0, 120] = some ⟨[[46, 46]], 2⟩ := by decide
  exact ((hsame _ _).mp hload).no_nul (by decide)

end Grammar

end Maze
