/-
  Depth-first search over any graph.

  `Visits xs v w` is the search as a relation, with no fuel: from what is visited in `v`, the calls
  for `xs` one after the other end with `w`.  A derivation is a run that ends.

  What is visited at the end is closed under steps (`Visits.closed`), and all that is new was
  reached (`Visits.reached`); together they say that a search from one vertex finds exactly what
  can be reached from it (`Visits.mem_iff`).
-/
import Mathlib.Logic.Relation

set_option linter.unusedVariables false

namespace Explore

variable {V : Type} (next : V → List V) (ok : V → Prop)

/-- The search; a vertex is entered if it is `ok` and not visited yet. -/
inductive Visits : List V → List V → List V → Prop
  | done {v : List V} : Visits [] v v
  | skip {x : V} {xs v w : List V} (h : ok x → x ∈ v) (hrest : Visits xs v w) :
      Visits (x :: xs) v w
  | enter {x : V} {xs v u w : List V} (hok : ok x) (hnew : x ∉ v)
      (hinner : Visits (next x) (x :: v) u) (hrest : Visits xs u w) : Visits (x :: xs) v w

/-- A step to a vertex that may be entered. -/
def Step (x y : V) : Prop := y ∈ next x ∧ ok y

variable {next : V → List V} {ok : V → Prop} {x y : V} {xs v w : List V}

/-- Nothing is forgotten. -/
theorem Visits.subset (h : Visits next ok xs v w) : v ⊆ w := by
  induction h with
  | done => exact fun _ hx => hx
  | skip _ _ ih => exact ih
  | enter _ _ _ _ ihinner ihrest =>
    exact fun _ hx => ihrest (ihinner (List.mem_cons_of_mem _ hx))

/-- What is called for is visited. -/
theorem Visits.marks (h : Visits next ok xs v w) : ∀ x ∈ xs, ok x → x ∈ w := by
  induction h with
  | done => exact fun _ hx => absurd hx List.not_mem_nil
  | skip hold hrest ih =>
    intro y hy hok
    rcases List.mem_cons.mp hy with rfl | hy
    · exact hrest.subset (hold hok)
    · exact ih y hy hok
  | enter _ _ hinner hrest _ ihrest =>
    intro y hy hok
    rcases List.mem_cons.mp hy with rfl | hy
    · exact hrest.subset (hinner.subset List.mem_cons_self)
    · exact ihrest y hy hok

/-- **Closed.**  The steps from what is new lead to what is visited. -/
theorem Visits.closed (h : Visits next ok xs v w) :
    ∀ x ∈ w, x ∈ v ∨ ∀ y, Step next ok x y → y ∈ w := by
  induction h with
  | done => exact fun _ hx => Or.inl hx
  | skip _ _ ih => exact ih
  | @enter x xs v u w hok hnew hinner hrest ihinner ihrest =>
    intro z hz
    rcases ihrest z hz with hz | hz
    · rcases ihinner z hz with hz | hz
      · rcases List.mem_cons.mp hz with rfl | hz
        · exact Or.inr fun y hstep => hrest.subset (hinner.marks y hstep.1 hstep.2)
        · exact Or.inl hz
      · exact Or.inr fun y hstep => hrest.subset (hz y hstep)
    · exact Or.inr hz

/-- **Reached.**  A path leads from one of the calls to what is new. -/
theorem Visits.reached (h : Visits next ok xs v w) :
    ∀ y ∈ w, y ∈ v ∨ ∃ x ∈ xs, ok x ∧ Relation.ReflTransGen (Step next ok) x y := by
  induction h with
  | done => exact fun _ hy => Or.inl hy
  | skip _ _ ih =>
    intro y hy
    rcases ih y hy with hy | ⟨x, hx, hpath⟩
    · exact Or.inl hy
    · exact Or.inr ⟨x, List.mem_cons_of_mem _ hx, hpath⟩
  | @enter x xs v u w hok hnew hinner hrest ihinner ihrest =>
    intro y hy
    rcases ihrest y hy with hy | ⟨z, hz, hpath⟩
    · rcases ihinner y hy with hy | ⟨z, hz, hzok, hpath⟩
      · rcases List.mem_cons.mp hy with rfl | hy
        · exact Or.inr ⟨y, List.mem_cons_self, hok, Relation.ReflTransGen.refl⟩
        · exact Or.inl hy
      · exact Or.inr ⟨x, List.mem_cons_self, hok, Relation.ReflTransGen.head ⟨hz, hzok⟩ hpath⟩
    · exact Or.inr ⟨z, List.mem_cons_of_mem _ hz, hpath⟩

/-- **A search from one vertex** visits what can be reached from it. -/
theorem Visits.mem_iff (h : Visits next ok [x] [] w) (hok : ok x) :
    y ∈ w ↔ Relation.ReflTransGen (Step next ok) x y := by
  constructor
  · intro hy
    rcases h.reached y hy with hy | ⟨z, hz, -, hpath⟩
    · exact absurd hy List.not_mem_nil
    · rwa [List.mem_singleton.mp hz] at hpath
  · intro hpath
    induction hpath with
    | refl => exact h.marks x List.mem_cons_self hok
    | tail _ hstep ih =>
      rcases h.closed _ ih with hnil | hnext
      · exact absurd hnil List.not_mem_nil
      · exact hnext _ hstep

/-- Where every step can be taken back, so can a path. -/
theorem path_symm (hback : ∀ x y, ok x → Step next ok x y → Step next ok y x) (hok : ok x)
    (h : Relation.ReflTransGen (Step next ok) x y) :
    ok y ∧ Relation.ReflTransGen (Step next ok) y x := by
  induction h with
  | refl => exact ⟨hok, Relation.ReflTransGen.refl⟩
  | tail _ hstep ih =>
    exact ⟨hstep.2, Relation.ReflTransGen.head (hback _ _ ih.1 hstep) ih.2⟩

end Explore
