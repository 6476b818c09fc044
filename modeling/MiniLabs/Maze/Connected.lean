/-
  `isConnected` decides connectivity.

  1. **Specification** — positions are pairs of integers here, as `dfs` is called with them; `Floor`
     says that a position is inside the map and a floor cell, `Joined` that there is a path of floor
     cells.
  2. **The crux (`dfs_visits`)** — with fuel for what is unvisited, the search of the code is a
     search of `Explore` over the four sides, so it ends and finds what can be reached.
  3. **What comes of it (`isConnected_iff`)** — the count of the floor cells found is the count of
     all floor cells exactly when any two of them are joined.
-/
import MiniLabs.Lib.Explore
import MiniLabs.Maze.Load

set_option linter.unusedVariables false

namespace Maze

open Explore

/-- The four calls of `dfs`. -/
def sides (p : Int × Int) : List (Int × Int) :=
  [(p.1 - 1, p.2), (p.1 + 1, p.2), (p.1, p.2 - 1), (p.1, p.2 + 1)]

/-- A floor cell inside the map. -/
structure Floor (l : Labyrinth) (p : Int × Int) : Prop where
  row_ge : 0 ≤ p.1
  row_lt : p.1 < l.rows
  col_ge : 0 ≤ p.2
  col_lt : p.2 < l.cols
  floor : isFloor (l.cell p.1.toNat p.2.toNat) = true

/-- A path over floor cells, side by side, leads from one position to another. -/
def Joined (l : Labyrinth) : Int × Int → Int × Int → Prop :=
  Relation.ReflTransGen fun p q => q ∈ sides p ∧ Floor l q

/-- A place in the array as a position. -/
def place (p : Nat × Nat) : Int × Int := (p.1, p.2)

section Search

variable {l : Labyrinth} {row col : Int} {visited : List (Nat × Nat)}

/-- A position is visited as a pair of integers or of numbers. -/
theorem mem_place (hrow : 0 ≤ row) (hcol : 0 ≤ col) :
    (row, col) ∈ visited.map place ↔ (row.toNat, col.toNat) ∈ visited := by
  rw [List.mem_map]
  constructor
  · rintro ⟨⟨r, c⟩, hmem, hplace⟩
    obtain ⟨rfl, rfl⟩ := Prod.mk.inj hplace
    exact hmem
  · intro hmem
    refine ⟨_, hmem, Prod.ext ?_ ?_⟩
    · exact Int.toNat_of_nonneg hrow
    · exact Int.toNat_of_nonneg hcol

/-- A call after the other. -/
theorem visits_cons {next : Int × Int → List (Int × Int)} {ok : Int × Int → Prop}
    {x : Int × Int} {xs u v w : List (Int × Int)} (h : Visits next ok [x] u v)
    (hrest : Visits next ok xs v w) : Visits next ok (x :: xs) u w := by
  cases h with
  | skip hold hdone =>
    cases hdone
    exact Visits.skip hold hrest
  | enter hok hnew hinner hdone =>
    cases hdone
    exact Visits.enter hok hnew hinner hrest

/-- **The search ends**, and it is a search over the four sides. -/
theorem dfs_visits {fuel : Nat} (h : unvisited l visited < fuel) :
    Visits sides (Floor l) [(row, col)] (visited.map place)
      ((dfs l fuel row col visited).map place) := by
  induction fuel generalizing row col visited with
  | zero => exact absurd h (Nat.not_lt_zero _)
  | succ fuel ih =>
    rw [dfs]
    by_cases hout : row < 0 ∨ row ≥ l.rows ∨ col < 0 ∨ col ≥ l.cols
    · rw [if_pos hout]
      refine Visits.skip (fun hfloor => ?_) Visits.done
      have h₁ := hfloor.row_ge
      have h₂ := hfloor.row_lt
      have h₃ := hfloor.col_ge
      have h₄ := hfloor.col_lt
      dsimp only at h₁ h₂ h₃ h₄
      omega
    · rw [if_neg hout]
      have hrow : 0 ≤ row := by omega
      have hcol : 0 ≤ col := by omega
      by_cases hstop : (row.toNat, col.toNat) ∈ visited ∨ ! isFloor (l.cell row.toNat col.toNat)
      · rw [if_pos hstop]
        refine Visits.skip (fun hfloor => ?_) Visits.done
        rcases hstop with hmem | hwall
        · exact (mem_place hrow hcol).mpr hmem
        · rw [hfloor.floor] at hwall
          exact Bool.noConfusion hwall
      · rw [if_neg hstop]
        obtain ⟨hnew, hfloor⟩ := not_or.mp hstop
        have hfloor : isFloor (l.cell row.toNat col.toNat) = true := by simpa using hfloor
        have hless : unvisited l ((row.toNat, col.toNat) :: visited) < fuel := by
          have hp : (row.toNat, col.toNat) ∈ positions l := mem_positions.mpr (by omega)
          have := unvisited_cons hp hnew
          omega
        -- what is marked stays marked, so that there is fuel for all four calls
        have hmore : ∀ (r c : Int) {v : List (Nat × Nat)}, unvisited l v < fuel →
            unvisited l (dfs l fuel r c v) < fuel := fun r c v hv =>
          Nat.lt_of_le_of_lt (unvisited_mono (dfs_subset l fuel r c v)) hv
        have hplace : place (row.toNat, col.toNat) = (row, col) :=
          Prod.ext (Int.toNat_of_nonneg hrow) (Int.toNat_of_nonneg hcol)
        have hup := hmore (row - 1) col hless
        have hdown := hmore (row + 1) col hup
        have hleft := hmore row (col - 1) hdown
        refine Visits.enter ⟨hrow, by omega, hcol, by omega, hfloor⟩
          (fun hmem => hnew ((mem_place hrow hcol).mp hmem)) ?_ Visits.done
        have hcall := @ih (row - 1) col _ hless
        rw [List.map_cons, hplace] at hcall
        exact visits_cons hcall (visits_cons (ih hup) (visits_cons (ih hdown) (ih hleft)))

/-- Who stands beside whom. -/
theorem sides_symm {p q : Int × Int} (h : q ∈ sides p) : p ∈ sides q := by
  obtain ⟨r, c⟩ := p
  obtain ⟨r', c'⟩ := q
  simp only [sides, List.mem_cons, Prod.mk.injEq, List.not_mem_nil, or_false] at h ⊢
  omega

/-- A path may be gone back. -/
theorem Joined.symm {p q : Int × Int} (hp : Floor l p) (h : Joined l p q) :
    Floor l q ∧ Joined l q p :=
  path_symm (fun x y hx hstep => ⟨sides_symm hstep.1, hx⟩) hp h

/-- The floor cells are the positions in `floors`. -/
theorem mem_floors {p : Nat × Nat} : p ∈ floors l ↔ Floor l (place p) := by
  obtain ⟨r, c⟩ := p
  rw [floors, List.mem_filter, mem_positions]
  constructor
  · rintro ⟨⟨hr, hc⟩, hfloor⟩
    exact ⟨Int.natCast_nonneg r, Int.ofNat_lt.mpr hr, Int.natCast_nonneg c, hc, hfloor⟩
  · intro h
    exact ⟨⟨Int.ofNat_lt.mp h.row_lt, h.col_lt⟩, h.floor⟩

/-- A floor position is one of the floor cells. -/
theorem Floor.mem_floors {p : Int × Int} (h : Floor l p) :
    (p.1.toNat, p.2.toNat) ∈ floors l ∧ place (p.1.toNat, p.2.toNat) = p := by
  have hplace : place (p.1.toNat, p.2.toNat) = p :=
    Prod.ext (Int.toNat_of_nonneg h.row_ge) (Int.toNat_of_nonneg h.col_ge)
  exact ⟨Maze.mem_floors.mpr (hplace ▸ h), hplace⟩

/-- `isConnected` compares two counts; they agree when every floor cell is visited. -/
theorem isConnected_visited {start : Nat × Nat} (h : (floors l).head? = some start) :
    isConnected l = true ↔
      ∀ p ∈ floors l, p ∈ dfs l ((positions l).length + 1) start.1 start.2 [] := by
  rw [isConnected, h]
  show (((floors l).filter fun p => p ∈ dfs l _ start.1 start.2 []).length
    == (floors l).length) = true ↔ _
  rw [beq_iff_eq, List.length_filter_eq_length_iff]
  exact forall_congr' fun p => forall_congr' fun _ => decide_eq_true_iff

/-- `isConnected` gives the search enough fuel to end. -/
theorem search_ends (l : Labyrinth) (row col : Int) : Visits sides (Floor l) [(row, col)] []
    ((dfs l ((positions l).length + 1) row col []).map place) := by
  have hfuel : unvisited l [] < (positions l).length + 1 :=
    Nat.lt_succ_of_le (List.length_filter_le _ _)
  exact dfs_visits hfuel

/-- **The answer of `isConnected`.** -/
theorem isConnected_joined (l : Labyrinth) :
    isConnected l = true ↔
      (∀ p, ¬ Floor l p) ∨ ∀ p q, Floor l p → Floor l q → Joined l p q := by
  cases hstart : (floors l).head? with
  | none =>
    have hnil : floors l = [] := List.head?_eq_none_iff.mp hstart
    have hno : ∀ p, ¬ Floor l p := by
      intro p hp
      have hmem := hp.mem_floors.1
      rw [hnil] at hmem
      exact List.not_mem_nil hmem
    rw [isConnected, hstart]
    exact ⟨fun _ => Or.inl hno, fun _ => rfl⟩
  | some start =>
    have hfirst : Floor l (place start) := mem_floors.mp (List.mem_of_mem_head? hstart)
    have hfound : ∀ q : Int × Int, q ∈ (dfs l ((positions l).length + 1) start.1 start.2 []).map place
        ↔ Joined l (place start) q := fun q => (search_ends l start.1 start.2).mem_iff hfirst
    rw [isConnected_visited hstart]
    constructor
    · intro hall
      have hreach : ∀ p, Floor l p → Joined l (place start) p := by
        intro p hp
        obtain ⟨hmem, hplace⟩ := hp.mem_floors
        exact (hfound p).mp (List.mem_map.mpr ⟨_, hall _ hmem, hplace⟩)
      exact Or.inr fun p q hp hq =>
        Relation.ReflTransGen.trans ((hreach p hp).symm hfirst).2 (hreach q hq)
    · rintro (hno | hjoined)
      · exact absurd hfirst (hno _)
      · intro p hp
        have hq := mem_floors.mp hp
        obtain ⟨r, hr, hplace⟩ := List.mem_map.mp ((hfound (place p)).mpr (hjoined _ _ hfirst hq))
        have hsame : r = p := by
          obtain ⟨h₁, h₂⟩ := Prod.mk.inj hplace
          exact Prod.ext (Int.ofNat_inj.mp h₁) (Int.ofNat_inj.mp h₂)
        rwa [← hsame]

/-- **`isConnected`** ends, and decides whether the floor is connected. -/
theorem isConnected_iff (l : Labyrinth) :
    (∀ row col, Visits sides (Floor l) [(row, col)] []
      ((dfs l ((positions l).length + 1) row col []).map place)) ∧
    (isConnected l = true ↔
      (∀ p, ¬ Floor l p) ∨ ∀ p q, Floor l p → Floor l q → Joined l p q) :=
  ⟨search_ends l, isConnected_joined l⟩

end Search

end Maze
