/-
  Maps that can be loaded, and what is loaded from a saved map.

  1. **Specification (`Loadable`)** — what `loadMap` makes sure of: rows and columns within their
     limits, rows of one length, characters of a map only, and the floor connected.
  2. **Round trip (`loadMap_saveMap`)** — a loadable map is what is loaded after it has been saved,
     at the limits of rows and columns as well.
  3. **The crux (`loadRows_text`)** — the loop of `loadMap` takes one row off the text of a map and
     goes on with the rest; `Reading` is its state in between.
  4. **Connectivity** — `isConnected` sees nothing but which cells are floor (`isConnected_congr`),
     so it does not change when a player and a floor cell change places.  `dfs_enough` is that its
     fuel lasts.
-/
import Mathlib.Data.List.Nodup
import MiniLabs.Lib.Spans
import MiniLabs.Maze.Code

set_option linter.unusedVariables false

namespace Maze

open Libc

/-! ## `isConnected` -/

section Connected

variable {l l' : Labyrinth}

/-- The search does not see who stands on a floor cell. -/
theorem dfs_congr (hrows : l'.rows = l.rows) (hcols : l'.cols = l.cols)
    (hfloor : ∀ row col, isFloor (l'.cell row col) = isFloor (l.cell row col)) (fuel : Nat)
    (row col : Int) (visited : List (Nat × Nat)) :
    dfs l' fuel row col visited = dfs l fuel row col visited := by
  induction fuel generalizing row col visited with
  | zero => rfl
  | succ fuel ih =>
    rw [dfs, dfs, hrows, hcols, hfloor]
    simp only [ih]

/-- Positions hang on the size of the map only. -/
theorem positions_congr (hrows : l'.rows = l.rows) (hcols : l'.cols = l.cols) :
    positions l' = positions l := by
  rw [positions, positions, hrows, hcols]

/-- **`isConnected`** does not see who stands on a floor cell. -/
theorem isConnected_congr (hrows : l'.rows = l.rows) (hcols : l'.cols = l.cols)
    (hfloor : ∀ row col, isFloor (l'.cell row col) = isFloor (l.cell row col)) :
    isConnected l' = isConnected l := by
  have hfloors : floors l' = floors l := by
    rw [floors, floors, positions_congr hrows hcols]
    simp only [hfloor]
  rw [isConnected, isConnected, hfloors, positions_congr hrows hcols]
  simp only [dfs_congr hrows hcols hfloor]

/-- The positions of a map. -/
theorem mem_positions {row col : Nat} :
    (row, col) ∈ positions l ↔ row < l.rows ∧ (col : Int) < l.cols := by
  rw [positions, List.mem_flatMap]
  constructor
  · rintro ⟨r, hr, hmem⟩
    obtain ⟨c, hc, heq⟩ := List.mem_map.mp hmem
    obtain ⟨rfl, rfl⟩ := Prod.mk.inj heq
    rw [List.mem_range] at hr hc
    exact ⟨hr, by omega⟩
  · rintro ⟨hr, hc⟩
    refine ⟨row, List.mem_range.mpr hr, List.mem_map.mpr ⟨col, List.mem_range.mpr ?_, rfl⟩⟩
    omega

/-- The positions that are not visited yet. -/
def unvisited (l : Labyrinth) (visited : List (Nat × Nat)) : Nat :=
  ((positions l).filter fun p => ! visited.contains p).length

/-- The more is visited, the less is left. -/
theorem unvisited_mono {visited visited' : List (Nat × Nat)} (h : visited ⊆ visited') :
    unvisited l visited' ≤ unvisited l visited := by
  refine (List.monotone_filter_right (positions l) fun p hp => ?_).length_le
  have hp : p ∉ visited' := by simpa using hp
  have hout : p ∉ visited := fun hmem => hp (h hmem)
  simpa using hout

/-- A new position is one less. -/
theorem unvisited_cons {visited : List (Nat × Nat)} {p : Nat × Nat} (hp : p ∈ positions l)
    (hnew : p ∉ visited) : unvisited l (p :: visited) < unvisited l visited := by
  have hsub : ((positions l).filter fun q => ! (p :: visited).contains q)
      = ((positions l).filter fun q => ! visited.contains q).filter fun q => q ≠ p := by
    rw [List.filter_filter]
    apply List.filter_congr
    intro q _
    simp
  rw [unvisited, hsub, unvisited]
  exact List.length_filter_lt_length_iff_exists.mpr
    ⟨p, List.mem_filter.mpr ⟨hp, by simpa using hnew⟩, by simp⟩

/-- What is visited stays visited. -/
theorem dfs_subset (l : Labyrinth) (fuel : Nat) (row col : Int) (visited : List (Nat × Nat)) :
    visited ⊆ dfs l fuel row col visited := by
  induction fuel generalizing row col visited with
  | zero => exact fun _ h => h
  | succ fuel ih =>
    rw [dfs]
    by_cases hout : row < 0 ∨ row ≥ l.rows ∨ col < 0 ∨ col ≥ l.cols
    · rw [if_pos hout]
      exact fun _ h => h
    · rw [if_neg hout]
      by_cases hstop : (row.toNat, col.toNat) ∈ visited ∨ ! isFloor (l.cell row.toNat col.toNat)
      · rw [if_pos hstop]
        exact fun _ h => h
      · rw [if_neg hstop]
        intro p hp
        exact ih _ _ _ (ih _ _ _ (ih _ _ _ (ih _ _ _ (List.mem_cons_of_mem _ hp))))

/-- **Fuel.**  A call goes no deeper than there are positions left to visit. -/
theorem dfs_fuel (l : Labyrinth) {fuel fuel' : Nat} {row col : Int} {visited : List (Nat × Nat)}
    (h : unvisited l visited < fuel) (h' : unvisited l visited < fuel') :
    dfs l fuel row col visited = dfs l fuel' row col visited := by
  induction fuel generalizing fuel' row col visited with
  | zero => exact absurd h (Nat.not_lt_zero _)
  | succ fuel ih =>
    obtain ⟨fuel', rfl⟩ : ∃ f, fuel' = f + 1 := ⟨fuel' - 1, by omega⟩
    rw [dfs, dfs]
    by_cases hout : row < 0 ∨ row ≥ l.rows ∨ col < 0 ∨ col ≥ l.cols
    · rw [if_pos hout, if_pos hout]
    · rw [if_neg hout, if_neg hout]
      by_cases hstop : (row.toNat, col.toNat) ∈ visited ∨ ! isFloor (l.cell row.toNat col.toNat)
      · rw [if_pos hstop, if_pos hstop]
      · rw [if_neg hstop, if_neg hstop]
        have hp : (row.toNat, col.toNat) ∈ positions l := mem_positions.mpr (by omega)
        have hless := unvisited_cons hp fun hmem => hstop (Or.inl hmem)
        -- the four calls see at least what is marked here
        have hcall : ∀ {r c : Int} {v : List (Nat × Nat)},
            (row.toNat, col.toNat) :: visited ⊆ v → dfs l fuel r c v = dfs l fuel' r c v := by
          intro r c v hv
          have hmono := unvisited_mono (l := l) hv
          exact ih (by omega) (by omega)
        have hgrow : ∀ {r c : Int} {v : List (Nat × Nat)},
            (row.toNat, col.toNat) :: visited ⊆ v →
              (row.toNat, col.toNat) :: visited ⊆ dfs l fuel' r c v :=
          fun hv _ hmem => dfs_subset l _ _ _ _ (hv hmem)
        have h₁ : (row.toNat, col.toNat) :: visited ⊆ (row.toNat, col.toNat) :: visited :=
          fun _ hmem => hmem
        dsimp only
        rw [hcall h₁, hcall (hgrow h₁), hcall (hgrow (hgrow h₁)), hcall (hgrow (hgrow (hgrow h₁)))]

/-- `isConnected` gives the search more fuel than it can use. -/
theorem dfs_enough (l : Labyrinth) {fuel : Nat} (hle : (positions l).length + 1 ≤ fuel)
    (row col : Int) :
    dfs l fuel row col [] = dfs l ((positions l).length + 1) row col [] := by
  have hall : unvisited l [] ≤ (positions l).length := List.length_filter_le _ _
  exact dfs_fuel l (by omega) (by omega)

end Connected

/-! ## Rows -/

/-- What `loadMap` makes sure of. -/
structure Loadable (l : Labyrinth) : Prop where
  rows_pos : 0 < l.rows
  rows_le : l.rows ≤ maxRows
  cols_pos : 0 < l.cols
  cols_le : l.cols ≤ maxCols
  width : ∀ row ∈ l.map, (row.length : Int) = l.cols
  chars : ∀ row ∈ l.map, ∀ ch ∈ row, isMapChar ch = true
  connected : isConnected l = true

/-- A character of a map is neither a newline nor a NUL. -/
theorem isMapChar_text {ch : UInt8} (h : isMapChar ch = true) : ch ≠ 10 ∧ ch ≠ 0 := by
  constructor <;> rintro rfl <;> exact absurd h (by decide)

/-- `strcspn` goes on behind a character of the map. -/
theorem isMapChar_goes {ch : UInt8} (h : isMapChar ch = true) : (ch != 10 && ch != 0) = true := by
  obtain ⟨h10, h0⟩ := isMapChar_text h
  simp [h10, h0]

section Rows

variable {row : List UInt8} {cols : Int} {got : Got}

/-- The string in front of a newline. -/
theorem strcspn_line (hrow : ∀ ch ∈ row, isMapChar ch = true) :
    strcspn (row ++ [10]) = row.length := by
  have hstop : Spans.Stops (fun c : UInt8 => c != 10 && c != 0) [10] :=
    Spans.Stops.cons (by decide) []
  rw [strcspn, Spans.takeWhile_span (fun c hc => isMapChar_goes (hrow c hc)) hstop]

/-- The row ends within the line. -/
theorem strcspn_le (line : List UInt8) : strcspn line ≤ line.length :=
  (List.takeWhile_prefix _).length_le

/-- Where a line has no newline, the string ends at the end or at a NUL. -/
theorem strcspn_drop {line : List UInt8} (hline : ∀ c ∈ line, c ≠ 10) :
    line.drop (strcspn line) = [] ∨
      ∃ junk, line.drop (strcspn line) = 0 :: junk ∧ ∀ c ∈ junk, c ≠ 10 := by
  induction line with
  | nil => exact Or.inl rfl
  | cons c line ih =>
    have hrest : ∀ d ∈ line, d ≠ 10 := fun d hd => hline d (List.mem_cons_of_mem _ hd)
    by_cases hzero : c = 0
    · rw [hzero, strcspn, List.takeWhile_cons_of_neg (by decide)]
      exact Or.inr ⟨line, rfl, hrest⟩
    · have hc : (c != 10 && c != 0) = true := by
        simp [hzero, hline c List.mem_cons_self]
      rw [strcspn, List.takeWhile_cons_of_pos (by exact hc)]
      exact ih hrest

/-- What a row that passes looks like. -/
theorem readRow_some (h : readRow cols got = some row) :
    0 < row.length ∧ row.length ≤ maxCols ∧ (cols = -1 ∨ cols = row.length) ∧
      ∀ ch ∈ row, isMapChar ch = true := by
  unfold readRow at h
  dsimp only at h
  obtain ⟨-, h⟩ := Option.ite_none_left_eq_some.mp h
  obtain ⟨hlen, h⟩ := Option.ite_none_left_eq_some.mp h
  obtain ⟨hcols, h⟩ := Option.ite_none_left_eq_some.mp h
  obtain ⟨hall, h⟩ := Option.ite_none_right_eq_some.mp h
  have hrow := Option.some.inj h
  have hlength : row.length = strcspn got.line := by
    rw [← hrow, List.length_take]
    exact Nat.min_eq_left (strcspn_le _)
  obtain ⟨hpos, hle⟩ := not_or.mp hlen
  refine ⟨by omega, by omega, ?_, ?_⟩
  · by_cases hone : cols = -1
    · exact Or.inl hone
    · exact Or.inr (by rw [hlength]; exact not_not.mp fun hne => hcols ⟨hone, hne⟩)
  · rw [← hrow]
    exact List.all_eq_true.mp hall

/-- Where a row that passes stands. -/
theorem readRow_take (h : readRow cols got = some row) :
    row = got.line.take (strcspn got.line) ∧
      (got.line[strcspn got.line]? = some 10 ∨ got.eof = true) := by
  unfold readRow at h
  dsimp only at h
  obtain ⟨hend, h⟩ := Option.ite_none_left_eq_some.mp h
  obtain ⟨-, h⟩ := Option.ite_none_left_eq_some.mp h
  obtain ⟨-, h⟩ := Option.ite_none_left_eq_some.mp h
  obtain ⟨-, h⟩ := Option.ite_none_right_eq_some.mp h
  refine ⟨(Option.some.inj h).symm, ?_⟩
  by_cases hnewline : got.line[strcspn got.line]? = some 10
  · exact Or.inl hnewline
  · exact Or.inr (by simpa using fun heof => hend ⟨hnewline, heof⟩)

/-- A row with its newline that passes has no NUL in it. -/
theorem readRow_line_some {line rest : List UInt8} (hline : ∀ c ∈ line, c ≠ 10)
    (h : readRow cols ⟨line ++ [10], rest, false⟩ = some row) : row = line := by
  obtain ⟨hrow, hend⟩ := readRow_take h
  have hnewline : (line ++ [10])[strcspn (line ++ [10])]? = some 10 :=
    hend.resolve_right Bool.false_ne_true
  have hlen : strcspn (line ++ [10]) = line.length := by
    rcases Nat.lt_or_ge (strcspn (line ++ [10])) line.length with hlt | hge
    · rw [List.getElem?_append_left hlt, List.getElem?_eq_getElem hlt] at hnewline
      exact absurd (Option.some.inj hnewline) (hline _ (List.getElem_mem hlt))
    · obtain ⟨hlt, -⟩ := List.getElem?_eq_some_iff.mp hnewline
      rw [List.length_append, List.length_singleton] at hlt
      omega
  rw [hrow, hlen]
  exact List.take_left

/-- A row of a saved map passes. -/
theorem readRow_line {rest : List UInt8} (hpos : 0 < row.length) (hle : row.length ≤ maxCols)
    (hcols : cols = -1 ∨ cols = row.length) (hrow : ∀ ch ∈ row, isMapChar ch = true) :
    readRow cols ⟨row ++ [10], rest, false⟩ = some row := by
  unfold readRow
  dsimp only
  rw [strcspn_line hrow]
  have hnewline : (row ++ [10])[row.length]? = some 10 := List.getElem?_concat_length
  have htake : (row ++ [10]).take row.length = row := List.take_left
  rw [if_neg (fun h => h.1 hnewline), if_neg (by omega), if_neg (by omega), htake,
    if_pos (List.all_eq_true.mpr hrow)]

/-- What may follow the last row: nothing, or a NUL and more without a newline. -/
def Tail (tail : List UInt8) : Prop :=
  tail = [] ∨ ∃ junk, tail = 0 :: junk ∧ ∀ c ∈ junk, c ≠ 10

/-- A last row without its newline passes, up to a NUL. -/
theorem readRow_last {tail : List UInt8} (htail : Tail tail) (hpos : 0 < row.length)
    (hle : row.length ≤ maxCols) (hcols : cols = -1 ∨ cols = row.length)
    (hrow : ∀ ch ∈ row, isMapChar ch = true) :
    readRow cols ⟨row ++ tail, [], true⟩ = some row := by
  have hlen : strcspn (row ++ tail) = row.length := by
    have hstop : Spans.Stops (fun c : UInt8 => c != 10 && c != 0) tail := by
      rcases htail with rfl | ⟨junk, rfl, -⟩
      · exact nofun
      · exact Spans.Stops.cons (by decide) junk
    rw [strcspn, Spans.takeWhile_span (fun c hc => isMapChar_goes (hrow c hc)) hstop]
  unfold readRow
  dsimp only
  have htake : (row ++ tail).take row.length = row := List.take_left
  rw [hlen, if_neg (fun h => Bool.noConfusion h.2), if_neg (by omega), if_neg (by omega), htake,
    if_pos (List.all_eq_true.mpr hrow)]

end Rows

/-! ## The loop -/

section Loop

variable {l l' : Labyrinth} {file : List UInt8} {room : Nat}

/-- The rows so far. -/
structure Reading (l : Labyrinth) : Prop where
  cols : l.map = [] ∧ l.cols = -1 ∨ 0 < l.cols ∧ l.cols ≤ maxCols
  width : ∀ row ∈ l.map, (row.length : Int) = l.cols
  chars : ∀ row ∈ l.map, ∀ ch ∈ row, isMapChar ch = true

/-- The map with one more row. -/
def Labyrinth.push (l : Labyrinth) (row : List UInt8) : Labyrinth :=
  ⟨l.map ++ [row], if l.cols = -1 then row.length else l.cols⟩

/-- One more row of the right length. -/
theorem Reading.push {row : List UInt8} (h : Reading l) (hpos : 0 < row.length)
    (hle : row.length ≤ maxCols) (hcols : l.cols = -1 ∨ l.cols = row.length)
    (hrow : ∀ ch ∈ row, isMapChar ch = true) : Reading (l.push row) := by
  have hcols' : (l.push row).cols = row.length := by
    rcases hcols with hone | heq
    · exact if_pos hone
    · exact (if_neg (by omega)).trans heq
  refine ⟨Or.inr ?_, ?_, ?_⟩
  · rw [hcols']
    exact ⟨by omega, by omega⟩
  · rw [hcols']
    intro r hr
    rcases List.mem_append.mp hr with hr | hr
    · rcases hcols with hone | heq
      · -- there is a row only when the columns are known
        rcases h.cols with ⟨hnil, -⟩ | ⟨hpos', -⟩
        · rw [hnil] at hr
          exact absurd hr List.not_mem_nil
        · omega
      · rw [h.width r hr, heq]
    · rw [List.mem_singleton.mp hr]
  · intro r hr
    rcases List.mem_append.mp hr with hr | hr
    · exact h.chars r hr
    · rw [List.mem_singleton.mp hr]
      exact hrow

/-- **What the loop reads.** -/
theorem loadRows_some (hl : Reading l) (h : loadRows room l file = some l') :
    Reading l' ∧ l'.rows ≤ l.rows + room := by
  induction room generalizing l file with
  | zero =>
    rw [loadRows] at h
    obtain ⟨-, h⟩ := Option.ite_none_right_eq_some.mp h
    rw [← Option.some.inj h]
    exact ⟨hl, Nat.le_refl _⟩
  | succ room ih =>
    unfold loadRows at h
    dsimp only at h
    by_cases hend : (fgets (maxCols + 2) file).line = []
    · rw [if_pos hend] at h
      rw [← Option.some.inj h]
      exact ⟨hl, Nat.le_add_right _ _⟩
    · rw [if_neg hend] at h
      obtain ⟨row, hrow, h⟩ := Option.bind_eq_some_iff.mp h
      obtain ⟨hpos, hle, hcols, hchars⟩ := readRow_some hrow
      obtain ⟨hread, hrows⟩ := ih (hl.push hpos hle hcols hchars) h
      refine ⟨hread, ?_⟩
      have hlen : (l.push row).rows = l.rows + 1 := List.length_append
      change _ ≤ (l.push row).rows + room at hrows
      omega

/-- A file that is read as these rows: each with its newline, the last one perhaps without. -/
inductive Text : List (List UInt8) → List UInt8 → Prop
  | done : Text [] []
  | last {row tail : List UInt8} (htail : Tail tail) (hlen : (row ++ tail).length < maxCols + 2) :
      Text [row] (row ++ tail)
  | line {row : List UInt8} {rows : List (List UInt8)} {file : List UInt8} (h : Text rows file) :
      Text (row :: rows) (row ++ 10 :: file)

/-- What `saveMap` writes is a text of the map. -/
theorem text_saved (rows : List (List UInt8)) : Text rows (rows.flatMap fun row => row ++ [10]) := by
  induction rows with
  | nil => exact Text.done
  | cons row rows ih =>
    rw [List.flatMap_cons, List.append_assoc]
    exact Text.line ih

/-- At the end of the file the map is complete. -/
theorem loadRows_nil (room : Nat) (l : Labyrinth) : loadRows room l [] = some l := by
  cases room with
  | zero => rw [loadRows, if_pos (fgets_nil _)]
  | succ room =>
    unfold loadRows
    dsimp only
    rw [if_pos (fgets_nil _)]

/-- One turn of the loop that stores a row. -/
theorem loadRows_push {got : Got} {row : List UInt8}
    (hget : fgets (maxCols + 2) file = got) (hline : got.line ≠ [])
    (hrow : readRow l.cols got = some row) :
    loadRows (room + 1) l file = loadRows room (l.push row) got.rest := by
  conv_lhs => unfold loadRows
  dsimp only
  rw [hget, if_neg hline, hrow, Option.bind_some]
  rfl

/-- The first row fixes the columns. -/
theorem push_cols {row : List UInt8} {c : Int} (hl : l.cols = -1 ∨ l.cols = c)
    (hrow : (row.length : Int) = c) : (l.push row).cols = c := by
  show (if l.cols = -1 then (row.length : Int) else l.cols) = c
  split <;> omega

/-- **The loop reads the rows of a text.** -/
theorem loadRows_text {rows : List (List UInt8)} (h : Text rows file) {c : Int}
    (hroom : rows.length ≤ room) (hl : l.cols = -1 ∨ l.cols = c) (hc : 0 < c) (hc' : c ≤ maxCols)
    (hwidth : ∀ row ∈ rows, (row.length : Int) = c)
    (hchars : ∀ row ∈ rows, ∀ ch ∈ row, isMapChar ch = true) :
    loadRows room l file = some ⟨l.map ++ rows, if rows = [] then l.cols else c⟩ := by
  induction h generalizing l room with
  | done =>
    rw [loadRows_nil, List.append_nil, if_pos rfl]
  | @last row tail htail hlen =>
    obtain ⟨room, rfl⟩ : ∃ n, room = n + 1 :=
      ⟨room - 1, by rw [List.length_singleton] at hroom; omega⟩
    have hrow := hchars row List.mem_cons_self
    have hwide := hwidth row List.mem_cons_self
    have hnil : row ++ tail ≠ [] := by
      intro hnil
      rw [(List.append_eq_nil_iff.mp hnil).1, List.length_nil] at hwide
      omega
    have hline : ∀ ch ∈ row ++ tail, ch ≠ 10 := by
      intro ch hch
      rcases List.mem_append.mp hch with hch | hch
      · exact (isMapChar_text (hrow ch hch)).1
      · rcases htail with rfl | ⟨junk, rfl, hjunk⟩
        · exact absurd hch List.not_mem_nil
        · rcases List.mem_cons.mp hch with rfl | hch
          · decide
          · exact hjunk ch hch
    rw [loadRows_push (fgets_last hline hlen) hnil
      (readRow_last htail (by omega) (by omega) (by omega) hrow), loadRows_nil,
      if_neg (List.cons_ne_nil _ _)]
    exact congrArg some (congrArg (Labyrinth.mk _) (push_cols hl hwide))
  | @line row rows file h ih =>
    obtain ⟨room, rfl⟩ : ∃ n, room = n + 1 :=
      ⟨room - 1, by rw [List.length_cons] at hroom; omega⟩
    have hrow := hchars row List.mem_cons_self
    have hwide := hwidth row List.mem_cons_self
    have hshort : row.length ≤ maxCols := by omega
    have hget : fgets (maxCols + 2) (row ++ 10 :: file) = ⟨row ++ [10], file, false⟩ :=
      fgets_line (fun ch hch => (isMapChar_text (hrow ch hch)).1) (by omega)
    have hcols := push_cols hl hwide
    rw [loadRows_push hget (by simp) (readRow_line (by omega) hshort (by omega) hrow),
      ih (Nat.le_of_succ_le_succ hroom) (Or.inr hcols)
        (fun r hr => hwidth r (List.mem_cons_of_mem _ hr))
        (fun r hr => hchars r (List.mem_cons_of_mem _ hr)), hcols, ite_self,
      if_neg (List.cons_ne_nil _ _)]
    show some (Labyrinth.mk ((l.map ++ [row]) ++ rows) c) = _
    rw [List.append_assoc, List.singleton_append]

/-- **The loop reads nothing but texts.** -/
theorem text_of_loadRows (h : loadRows room l file = some l') :
    ∃ rows, Text rows file ∧ l'.map = l.map ++ rows := by
  induction room generalizing l file with
  | zero =>
    rw [loadRows] at h
    obtain ⟨hend, h⟩ := Option.ite_none_right_eq_some.mp h
    rw [fgets_end hend (by decide), ← Option.some.inj h]
    exact ⟨[], Text.done, (List.append_nil _).symm⟩
  | succ room ih =>
    by_cases hend : (fgets (maxCols + 2) file).line = []
    · unfold loadRows at h
      dsimp only at h
      rw [if_pos hend] at h
      rw [fgets_end hend (by decide), ← Option.some.inj h]
      exact ⟨[], Text.done, (List.append_nil _).symm⟩
    · have hstep := h
      unfold loadRows at hstep
      dsimp only at hstep
      rw [if_neg hend] at hstep
      obtain ⟨row, hrow, -⟩ := Option.bind_eq_some_iff.mp hstep
      rw [loadRows_push rfl hend hrow] at h
      rcases fgets_cases (maxCols + 2) file with ⟨line, rest, rfl, hline, hlen⟩ | ⟨hline, hlen⟩ |
        ⟨line, rest, rfl, hline, hlen⟩
      · rw [fgets_line hline hlen] at hrow h
        obtain ⟨rows, htext, hmap⟩ := ih h
        obtain rfl := readRow_line_some hline hrow
        refine ⟨row :: rows, Text.line htext, hmap.trans ?_⟩
        show (l.map ++ [row]) ++ rows = _
        rw [List.append_assoc, List.singleton_append]
      · rw [fgets_last hline hlen] at hrow h
        rw [loadRows_nil] at h
        obtain ⟨htake, -⟩ := readRow_take hrow
        have hsplit : row ++ file.drop (strcspn file) = file := by
          rw [htake]
          exact List.take_append_drop _ _
        refine ⟨[row], ?_, congrArg Labyrinth.map (Option.some.inj h).symm⟩
        rw [← hsplit]
        exact Text.last (strcspn_drop hline) (hsplit.symm ▸ hlen)
      · rw [fgets_cut hline hlen] at hrow
        rcases (readRow_take hrow).2 with hnewline | heof
        · exact absurd rfl (hline 10 (List.mem_of_getElem? hnewline))
        · exact Bool.noConfusion heof

end Loop

/-! ## Files -/

section Files

variable {l : Labyrinth} {file : List UInt8}

/-- **What is loaded is loadable.** -/
theorem loadMap_some (h : loadMap file = some l) : Loadable l := by
  obtain ⟨m, hm, h⟩ := Option.bind_eq_some_iff.mp h
  obtain ⟨hsize, h⟩ := Option.ite_none_left_eq_some.mp h
  obtain ⟨hconn, h⟩ := Option.ite_none_right_eq_some.mp h
  obtain rfl := Option.some.inj h
  have hstart : Reading ⟨[], -1⟩ :=
    ⟨Or.inl ⟨rfl, rfl⟩, fun row hrow => absurd hrow List.not_mem_nil,
      fun row hrow => absurd hrow List.not_mem_nil⟩
  obtain ⟨hread, hrows⟩ := loadRows_some hstart hm
  obtain ⟨hr, hc⟩ := not_or.mp hsize
  refine ⟨Nat.pos_of_ne_zero hr, ?_, Int.not_le.mp hc, ?_, hread.width, hread.chars, hconn⟩
  · have hzero : (Labyrinth.mk [] (-1)).rows = 0 := rfl
    omega
  · rcases hread.cols with ⟨-, hone⟩ | ⟨-, hle⟩
    · omega
    · exact hle

/-- A loadable map is loaded from its text. -/
theorem loadMap_text (h : Loadable l) (htext : Text l.map file) : loadMap file = some l := by
  have hload : loadRows maxRows ⟨[], -1⟩ file
      = some ⟨[] ++ l.map, if l.map = [] then -1 else l.cols⟩ :=
    loadRows_text htext h.rows_le (Or.inl rfl) h.cols_pos h.cols_le h.width h.chars
  have hne : l.map ≠ [] := List.ne_nil_of_length_pos h.rows_pos
  rw [if_neg hne, List.nil_append] at hload
  have hsize : ¬ (l.rows = 0 ∨ l.cols ≤ 0) := by
    have := h.rows_pos
    have := h.cols_pos
    omega
  rw [loadMap, hload, Option.bind_some, if_neg hsize, if_pos h.connected]

/-- **Round trip.**  What is loaded from a saved map is that map. -/
theorem loadMap_saveMap (h : Loadable l) : loadMap (saveMap l) = some l :=
  loadMap_text h (text_saved l.map)

/-- An accepted file is a text of the map that is loaded. -/
theorem text_of_loadMap (h : loadMap file = some l) : Text l.map file := by
  obtain ⟨m, hm, h⟩ := Option.bind_eq_some_iff.mp h
  obtain ⟨-, h⟩ := Option.ite_none_left_eq_some.mp h
  obtain ⟨-, h⟩ := Option.ite_none_right_eq_some.mp h
  obtain rfl := Option.some.inj h
  obtain ⟨rows, htext, hmap⟩ := text_of_loadRows hm
  rwa [hmap, List.nil_append]

end Files

end Maze
