/-
  Forests given by a parent function, and their listing in preorder.

  `up x` is the parent of `x`, if any.

  * `climb`  — some steps up;
  * `Above`  — an ancestor; `Depth` — how many steps lead up to a root;
  * `walk`   — the listing of all that hangs below a node, with depths.  The children are taken
    from `kids`; nothing says that the walk ends, so it has fuel.
  * `Listed` — the listings that the walk makes when it ends.

  A finite parent function may have cycles.  `depth_iff` says that a node has a depth when there
  is no cycle above it; `listed_exists` that the walk ends when all roots it starts from have a
  depth.  What is listed: every node below, once (`Listed.mem_iff`, `Listed.nodup`), its own
  descendants right behind it (`Listed.block`), siblings in the order of `kids`
  (`Listed.sorted`).
-/
import Mathlib.Data.List.Perm.Subperm
import Mathlib.Data.List.TakeWhile
import Mathlib.Data.Set.Card
import Mathlib.Logic.Relation

set_option linter.unusedVariables false

namespace Forest

variable {α : Type}

/-! ## Climbing -/

/-- `k` steps up. -/
def climb (up : α → Option α) : Nat → α → Option α
  | 0, x => some x
  | k + 1, x => (up x).bind (climb up k)

/-- `a` is an ancestor of `x`. -/
def Above (up : α → Option α) (a x : α) : Prop :=
  Relation.TransGen (fun x p => up x = some p) x a

/-- `k` steps lead from `x` to a root. -/
def Depth (up : α → Option α) (x : α) (k : Nat) : Prop := ∃ r, climb up k x = some r ∧ up r = none

section Climb

variable {up : α → Option α} {x y p : α} {j k : Nat}

/-- Climbing on. -/
theorem climb_add (j k : Nat) (x : α) :
    climb up (j + k) x = (climb up j x).bind (climb up k) := by
  induction j generalizing x with
  | zero => rw [Nat.zero_add]; rfl
  | succ j ih =>
    rw [Nat.succ_add, climb, climb]
    cases up x with
    | none => rfl
    | some p => exact ih p

/-- One step is the parent. -/
theorem climb_one (x : α) : climb up 1 x = up x := by
  rw [climb]
  cases up x <;> rfl

/-- The last step up. -/
theorem climb_last (h : climb up (k + 1) x = some p) :
    ∃ c, climb up k x = some c ∧ up c = some p := by
  rw [climb_add] at h
  obtain ⟨c, hc, hp⟩ := Option.bind_eq_some_iff.mp h
  rw [climb_one] at hp
  exact ⟨c, hc, hp⟩

/-- One step more. -/
theorem climb_snoc (hc : climb up k x = some y) (hp : up y = some p) :
    climb up (k + 1) x = some p := by
  rw [climb_add, hc, Option.bind_some, climb_one, hp]

/-- An ancestor is some steps up. -/
theorem above_iff_climb {a : α} : Above up a x ↔ ∃ k, climb up (k + 1) x = some a := by
  constructor
  · intro h
    induction h with
    | single h => exact ⟨0, by rw [climb_one]; exact h⟩
    | tail _ h ih =>
      obtain ⟨k, hk⟩ := ih
      exact ⟨k + 1, climb_snoc hk h⟩
  · rintro ⟨k, hk⟩
    induction k generalizing a with
    | zero =>
      rw [climb_one] at hk
      exact .single hk
    | succ k ih =>
      obtain ⟨c, hc, hp⟩ := climb_last hk
      exact .tail (ih hc) hp

/-! ## Depths -/

/-- A root has depth 0. -/
theorem depth_zero : Depth up x 0 ↔ up x = none := by
  constructor
  · rintro ⟨r, hr, hnone⟩
    obtain rfl := Option.some.inj hr
    exact hnone
  · intro h
    exact ⟨x, rfl, h⟩

/-- The depth counts from any node on the way. -/
theorem Depth.climb (hc : climb up j x = some y) (hd : Depth up y k) : Depth up x (j + k) := by
  obtain ⟨r, hr, hnone⟩ := hd
  refine ⟨r, ?_, hnone⟩
  rw [climb_add, hc]
  exact hr

/-- A node has one depth. -/
theorem Depth.unique (hj : Depth up x j) (hk : Depth up x k) : j = k := by
  have hlt : ∀ {i m : Nat}, Depth up x i → Depth up x m → ¬ i < m := by
    rintro i m ⟨r, hr, hnone⟩ ⟨r', hr', -⟩ hlt
    obtain ⟨d, rfl⟩ := Nat.exists_eq_add_of_lt hlt
    rw [Nat.add_assoc, climb_add, hr, Option.bind_some, Forest.climb, hnone] at hr'
    nomatch hr'
  exact Nat.le_antisymm (Nat.not_lt.mp (hlt hk hj)) (Nat.not_lt.mp (hlt hj hk))

/-- A node with a depth is no ancestor of itself. -/
theorem Depth.not_above (hd : Depth up x k) : ¬ Above up x x := by
  intro h
  obtain ⟨m, hm⟩ := above_iff_climb.mp h
  have := (hd.climb hm).unique hd
  omega

/-- The way up ends, or goes on for ever. -/
theorem depth_or (x : α) (k : Nat) : (∃ i, Depth up x i) ∨ ∃ y, Forest.climb up k x = some y := by
  induction k with
  | zero => exact Or.inr ⟨x, rfl⟩
  | succ k ih =>
    rcases ih with hd | ⟨y, hy⟩
    · exact Or.inl hd
    · cases hp : up y with
      | none => exact Or.inl ⟨k, y, hy, hp⟩
      | some p => exact Or.inr ⟨p, climb_snoc hy hp⟩

/-- The ancestors of a node are as many as its depth says. -/
theorem Depth.ncard (hd : Depth up x k) :
    {a | Above up a x}.Finite ∧ {a | Above up a x}.ncard = k := by
  induction k generalizing x with
  | zero =>
    have hempty : {a | Above up a x} = ∅ := by
      apply Set.eq_empty_iff_forall_notMem.mpr
      intro a ha
      obtain ⟨m, hm⟩ := above_iff_climb.mp ha
      rw [Forest.climb, depth_zero.mp hd] at hm
      nomatch hm
    rw [hempty]
    exact ⟨Set.finite_empty, Set.ncard_empty α⟩
  | succ k ih =>
    obtain ⟨r, hr, hnone⟩ := hd
    rw [Forest.climb] at hr
    obtain ⟨p, hp, hr⟩ := Option.bind_eq_some_iff.mp hr
    have hdp : Depth up p k := ⟨r, hr, hnone⟩
    obtain ⟨hfin, hcard⟩ := ih hdp
    have hinsert : {a | Above up a x} = insert p {a | Above up a p} := by
      ext a
      constructor
      · intro ha
        obtain ⟨m, hm⟩ := above_iff_climb.mp ha
        rw [Forest.climb, hp, Option.bind_some] at hm
        cases m with
        | zero => exact Or.inl (Option.some.inj hm).symm
        | succ m => exact Or.inr (above_iff_climb.mpr ⟨m, hm⟩)
      · rintro (rfl | ha)
        · exact .single hp
        · exact .head hp ha
    rw [hinsert]
    have hnew : p ∉ {a | Above up a p} := hdp.not_above
    exact ⟨hfin.insert p, by rw [Set.ncard_insert_of_notMem hnew hfin, hcard]⟩

end Climb

/-! ## Finitely many nodes -/

/-- No more different nodes than there are. -/
theorem distinct_le {nodes : List α} {g : Nat → α} {m : Nat} (hmem : ∀ i, i < m → g i ∈ nodes)
    (hne : ∀ i j, i < j → j < m → g i ≠ g j) : m ≤ nodes.length := by
  have hnd : ((List.range m).map g).Nodup := by
    refine List.pairwise_map.mpr (List.pairwise_lt_range.imp_of_mem ?_)
    intro i j _ hj hij
    exact hne i j hij (List.mem_range.mp hj)
  have hsub : (List.range m).map g ⊆ nodes := by
    intro x hx
    obtain ⟨i, hi, rfl⟩ := List.mem_map.mp hx
    exact hmem i (List.mem_range.mp hi)
  have hle := (List.subperm_of_subset hnd hsub).length_le
  rwa [List.length_map, List.length_range] at hle

/-- `nodes` is closed under `up`, and `kids` lists the children without repetition. -/
structure Kids (up : α → Option α) (nodes : List α) (kids : α → List α) : Prop where
  mem_iff : ∀ c p, c ∈ kids p ↔ c ∈ nodes ∧ up c = some p
  nodup : ∀ p, (kids p).Nodup
  closed : ∀ c p, c ∈ nodes → up c = some p → p ∈ nodes

section Finite

variable {up : α → Option α} {nodes : List α} {kids : α → List α} {x y : α} {k : Nat}

/-- Climbing does not leave the nodes. -/
theorem Kids.climb_mem (K : Kids up nodes kids) (hx : x ∈ nodes) (hc : climb up k x = some y) :
    y ∈ nodes := by
  induction k generalizing y with
  | zero => exact Option.some.inj hc ▸ hx
  | succ k ih =>
    obtain ⟨c, hc, hp⟩ := climb_last hc
    exact K.closed c y (ih hc) hp

/-- A depth is smaller than the number of nodes. -/
theorem Kids.depth_lt (K : Kids up nodes kids) (hx : x ∈ nodes) (hd : Depth up x k) :
    k < nodes.length := by
  obtain ⟨r, hr, hnone⟩ := hd
  have hget : ∀ i, i ≤ k → ∃ y, climb up i x = some y ∧ Depth up y (k - i) := by
    intro i hi
    obtain ⟨d, rfl⟩ := Nat.exists_eq_add_of_le hi
    rw [climb_add] at hr
    obtain ⟨y, hy, hr⟩ := Option.bind_eq_some_iff.mp hr
    rw [Nat.add_sub_cancel_left]
    exact ⟨y, hy, r, hr, hnone⟩
  have hg : ∀ i, i ≤ k → climb up i x = some ((climb up i x).getD x) := by
    intro i hi
    obtain ⟨y, hy, -⟩ := hget i hi
    rw [hy]
    rfl
  refine distinct_le (g := fun i => (climb up i x).getD x) (fun i hi => ?_) fun i j hij hj heq => ?_
  · exact K.climb_mem hx (hg i (Nat.le_of_lt_succ hi))
  · -- the same node twice would have two depths
    obtain ⟨y, hy, hdy⟩ := hget i (by omega)
    obtain ⟨z, hz, hdz⟩ := hget j (by omega)
    rw [hy, hz] at heq
    obtain rfl : y = z := heq
    have := hdy.unique hdz
    omega

/-- A child is a node. -/
theorem Kids.mem_nodes (K : Kids up nodes kids) (hc : y ∈ kids x) : y ∈ nodes :=
  ((K.mem_iff y x).mp hc).1

/-- Children are one step further from the root. -/
theorem Kids.depth_succ (K : Kids up nodes kids) (hd : Depth up x k) (hc : y ∈ kids x) :
    Depth up y (k + 1) := by
  have hone : climb up 1 y = some x := by
    rw [climb_one]
    exact ((K.mem_iff y x).mp hc).2
  rw [Nat.add_comm]
  exact hd.climb hone

/-- **Cycles.**  A node has a depth when no cycle is above it. -/
theorem Kids.depth_iff (K : Kids up nodes kids) (hx : x ∈ nodes) :
    (∃ k, Depth up x k) ↔ ¬ ∃ c, (c = x ∨ Above up c x) ∧ Above up c c := by
  constructor
  · rintro ⟨k, hd⟩ ⟨c, rfl | hcx, hcc⟩
    · exact hd.not_above hcc
    · obtain ⟨m, hm⟩ := above_iff_climb.mp hcx
      have hor : (∃ i, Depth up c i) ∨ ∃ y, climb up (k + 1) c = some y := depth_or c (k + 1)
      rcases hor with ⟨i, hi⟩ | ⟨y, hy⟩
      · exact hi.not_above hcc
      · -- the way up from `x` ends before this many steps
        obtain ⟨r, hr, hnone⟩ := hd
        have hlong : climb up (m + 1 + (k + 1)) x = some y := by
          rw [climb_add, hm]
          exact hy
        have hcut : m + 1 + (k + 1) = k + (m + 1 + 1) := by omega
        rw [hcut, climb_add, hr, Option.bind_some, climb, hnone] at hlong
        nomatch hlong
  · intro hno
    by_contra hnd
    have hget : ∀ i, climb up i x = some ((climb up i x).getD x) := by
      intro i
      have hor : (∃ i, Depth up x i) ∨ ∃ y, climb up i x = some y := depth_or x i
      rcases hor with hd | ⟨y, hy⟩
      · exact absurd hd hnd
      · rw [hy]
        rfl
    -- more different nodes than there are
    refine absurd (show nodes.length + 1 ≤ nodes.length from ?_) (Nat.not_succ_le_self _)
    · refine distinct_le (g := fun i => (climb up i x).getD x)
        (fun i _ => K.climb_mem hx (hget i)) fun i j hij _ heq => ?_
      obtain ⟨d, rfl⟩ := Nat.exists_eq_add_of_lt hij
      have hj := hget (i + d + 1)
      rw [← heq, Nat.add_assoc, climb_add, hget i, Option.bind_some] at hj
      refine hno ⟨(climb up i x).getD x, ?_, above_iff_climb.mpr ⟨d, hj⟩⟩
      cases i with
      | zero => exact Or.inl rfl
      | succ i => exact Or.inr (above_iff_climb.mpr ⟨i, hget (i + 1)⟩)

end Finite

/-! ## The walk -/

/-- The outputs for all members of a list, one behind the other. -/
def each {β : Type} (f : α → Option (List β)) : List α → Option (List β)
  | [] => some []
  | x :: xs => (f x).bind fun below => (each f xs).map (below ++ ·)

/-- What is put out for the members is put out for their images. -/
theorem each_map_map {β γ δ : Type} {f : γ → Option (List δ)} {g : α → Option (List β)}
    {s : γ → α} {h : β → δ} {xs : List γ} (hfg : ∀ c ∈ xs, f c = (g (s c)).map (List.map h)) :
    each f xs = (each g (xs.map s)).map (List.map h) := by
  induction xs with
  | nil => rfl
  | cons c xs ih =>
    rw [List.map_cons, each, each, hfg c List.mem_cons_self,
      ih fun c hc => hfg c (List.mem_cons_of_mem _ hc)]
    cases g (s c) with
    | none => rfl
    | some below =>
      cases each g (xs.map s) with
      | none => rfl
      | some rest => exact congrArg some List.map_append.symm

/-- `x` at depth `d`, and all that hangs below it. -/
def walk (kids : α → List α) : Nat → Nat → α → Option (List (Nat × α))
  | 0, _, _ => none
  | fuel + 1, d, x => (each (walk kids fuel (d + 1)) (kids x)).map ((d, x) :: ·)

/-- What the walk lists for siblings at depth `d`. -/
inductive Listed (kids : α → List α) : Nat → List α → List (Nat × α) → Prop
  | nil (d : Nat) : Listed kids d [] []
  | cons {d : Nat} {x : α} {xs : List α} {below rest : List (Nat × α)}
      (hbelow : Listed kids (d + 1) (kids x) below) (hrest : Listed kids d xs rest) :
      Listed kids d (x :: xs) ((d, x) :: (below ++ rest))

section Walk

variable {up : α → Option α} {nodes : List α} {kids : α → List α} {d : Nat} {xs : List α}
  {out : List (Nat × α)}

/-- What the walk returns is a listing. -/
theorem listed_of_walk {fuel : Nat} (h : each (walk kids fuel d) xs = some out) :
    Listed kids d xs out := by
  induction fuel generalizing d xs out with
  | zero =>
    cases xs with
    | nil => exact Option.some.inj h ▸ .nil d
    | cons x xs => nomatch h
  | succ fuel ih =>
    induction xs generalizing out with
    | nil => exact Option.some.inj h ▸ .nil d
    | cons x xs ihxs =>
      obtain ⟨first, hfirst, h⟩ := Option.bind_eq_some_iff.mp h
      obtain ⟨rest, hrest, rfl⟩ := Option.map_eq_some_iff.mp h
      obtain ⟨below, hbelow, rfl⟩ := Option.map_eq_some_iff.mp hfirst
      exact .cons (ih hbelow) (ihxs hrest)

/-- With fuel enough the walk returns the listing. -/
theorem Listed.walk (h : Listed kids d xs out) :
    ∃ least, ∀ fuel, least ≤ fuel → each (Forest.walk kids fuel d) xs = some out := by
  induction h with
  | nil d => exact ⟨0, fun _ _ => rfl⟩
  | cons _ _ ih₁ ih₂ =>
    obtain ⟨m₁, h₁⟩ := ih₁
    obtain ⟨m₂, h₂⟩ := ih₂
    refine ⟨max m₁ m₂ + 1, fun fuel hle => ?_⟩
    obtain ⟨fuel, rfl⟩ : ∃ f, fuel = f + 1 := ⟨fuel - 1, by omega⟩
    rw [each, Forest.walk, h₁ fuel (by omega), Option.map_some, Option.bind_some,
      h₂ (fuel + 1) (by omega)]
    rfl

/-- The walk ends when it starts from nodes with a depth. -/
theorem listed_exists (K : Kids up nodes kids) (hsub : ∀ x ∈ xs, x ∈ nodes)
    (hd : ∀ x ∈ xs, Depth up x d) : ∃ out, Listed kids d xs out := by
  -- depths are bounded: by induction on what is left above `d`
  induction hm : nodes.length - d generalizing d xs with
  | zero =>
    cases xs with
    | nil => exact ⟨[], .nil d⟩
    | cons x xs =>
      have hlt := K.depth_lt (hsub x List.mem_cons_self) (hd x List.mem_cons_self)
      omega
  | succ m ih =>
    induction xs with
    | nil => exact ⟨[], .nil d⟩
    | cons x xs ihxs =>
      obtain ⟨rest, hrest⟩ := ihxs (fun y hy => hsub y (List.mem_cons_of_mem _ hy))
        fun y hy => hd y (List.mem_cons_of_mem _ hy)
      obtain ⟨below, hbelow⟩ : ∃ out, Listed kids (d + 1) (kids x) out :=
        ih (fun c hc => K.mem_nodes hc) (fun c hc => K.depth_succ (hd x List.mem_cons_self) hc)
          (by omega)
      exact ⟨_, .cons hbelow hrest⟩

/-- The nodes it starts from are listed, and with a node its children. -/
theorem Listed.mem_start (h : Listed kids d xs out) {x : α} (hx : x ∈ xs) : (d, x) ∈ out := by
  induction h with
  | nil d => exact absurd hx List.not_mem_nil
  | cons _ _ _ ih =>
    rcases List.mem_cons.mp hx with rfl | hx
    · exact List.mem_cons_self
    · exact List.mem_cons_of_mem _ (List.mem_append_right _ (ih hx))

/-- The children of what is listed are listed, one deeper. -/
theorem Listed.mem_kids (h : Listed kids d xs out) {e : Nat} {y c : α} (hy : (e, y) ∈ out)
    (hc : c ∈ kids y) : (e + 1, c) ∈ out := by
  induction h with
  | nil d => exact absurd hy List.not_mem_nil
  | cons hbelow _ ih₁ ih₂ =>
    rcases List.mem_cons.mp hy with heq | hy
    · obtain ⟨rfl, rfl⟩ := Prod.mk.inj heq
      exact List.mem_cons_of_mem _ (List.mem_append_left _ (hbelow.mem_start hc))
    · rcases List.mem_append.mp hy with hy | hy
      · exact List.mem_cons_of_mem _ (List.mem_append_left _ (ih₁ hy))
      · exact List.mem_cons_of_mem _ (List.mem_append_right _ (ih₂ hy))

/-- **What is listed**: the nodes some steps below the start, with their depths. -/
theorem Listed.mem_iff (K : Kids up nodes kids) (h : Listed kids d xs out)
    (hsub : ∀ x ∈ xs, x ∈ nodes) {e : Nat} {y : α} :
    (e, y) ∈ out ↔ y ∈ nodes ∧ ∃ x ∈ xs, ∃ k, e = d + k ∧ climb up k y = some x := by
  induction h generalizing e y with
  | nil d =>
    constructor
    · exact fun hy => absurd hy List.not_mem_nil
    · rintro ⟨-, x, hx, -⟩
      exact absurd hx List.not_mem_nil
  | @cons d x xs below rest _ _ ih₁ ih₂ =>
    have hkids : ∀ c ∈ kids x, c ∈ nodes := fun c hc => K.mem_nodes hc
    rw [List.mem_cons, List.mem_append, ih₁ hkids,
      ih₂ fun z hz => hsub z (List.mem_cons_of_mem _ hz)]
    constructor
    · rintro (heq | ⟨hy, c, hc, k, rfl, hk⟩ | ⟨hy, z, hz, k, rfl, hk⟩)
      · obtain ⟨rfl, rfl⟩ := Prod.mk.inj heq
        exact ⟨hsub y List.mem_cons_self, y, List.mem_cons_self, 0, rfl, rfl⟩
      · refine ⟨hy, x, List.mem_cons_self, k + 1, by omega, ?_⟩
        exact climb_snoc hk ((K.mem_iff c x).mp hc).2
      · exact ⟨hy, z, List.mem_cons_of_mem _ hz, k, rfl, hk⟩
    · rintro ⟨hy, z, hz, k, rfl, hk⟩
      rcases List.mem_cons.mp hz with rfl | hz
      · cases k with
        | zero =>
          obtain rfl : y = z := Option.some.inj hk
          exact Or.inl rfl
        | succ k =>
          obtain ⟨c, hc, hp⟩ := climb_last hk
          exact Or.inr (Or.inl ⟨hy, c, (K.mem_iff c z).mpr ⟨K.climb_mem hy hc, hp⟩, k, by omega, hc⟩)
      · exact Or.inr (Or.inr ⟨hy, z, hz, k, rfl, hk⟩)

/-- All depths listed are depths. -/
theorem Listed.depth (K : Kids up nodes kids) (h : Listed kids d xs out)
    (hsub : ∀ x ∈ xs, x ∈ nodes) (hd : ∀ x ∈ xs, Depth up x d) {e : Nat} {y : α}
    (hy : (e, y) ∈ out) : Depth up y e := by
  obtain ⟨-, x, hx, k, rfl, hk⟩ := (h.mem_iff K hsub).mp hy
  rw [Nat.add_comm]
  exact (hd x hx).climb hk

/-- No depth is smaller than that of the start. -/
theorem Listed.depth_le (h : Listed kids d xs out) {ℓ : Nat × α} (hℓ : ℓ ∈ out) : d ≤ ℓ.1 := by
  induction h with
  | nil d => exact absurd hℓ List.not_mem_nil
  | cons _ _ ih₁ ih₂ =>
    rcases List.mem_cons.mp hℓ with rfl | hℓ
    · exact Nat.le_refl _
    · rcases List.mem_append.mp hℓ with hℓ | hℓ
      · exact Nat.le_of_succ_le (ih₁ hℓ)
      · exact ih₂ hℓ

/-- Below different siblings there are different nodes. -/
theorem siblings_apart (K : Kids up nodes kids) {x : α} {below rest : List (Nat × α)}
    (hbelow : Listed kids (d + 1) (kids x) below) (hrest : Listed kids d xs rest)
    (hsub : ∀ z ∈ x :: xs, z ∈ nodes) (hd : ∀ z ∈ x :: xs, Depth up z d) (hnd : x ∉ xs)
    {e e' k : Nat} {y z : α} (hy : (e, y) ∈ (d, x) :: below) (hz : (e', z) ∈ rest)
    (hk : climb up k y = climb up k z) (hkd : k + d ≤ e) : e ≠ e' := by
  rintro rfl
  have hkids : ∀ c ∈ kids x, c ∈ nodes := fun c hc => K.mem_nodes hc
  have hyx : ∃ j, e = d + j ∧ climb up j y = some x := by
    rcases List.mem_cons.mp hy with heq | hy
    · obtain ⟨rfl, rfl⟩ := Prod.mk.inj heq
      exact ⟨0, rfl, rfl⟩
    · obtain ⟨-, c, hc, j, rfl, hj⟩ := (hbelow.mem_iff K hkids).mp hy
      exact ⟨j + 1, by omega, climb_snoc hj ((K.mem_iff c x).mp hc).2⟩
  obtain ⟨j, rfl, hj⟩ := hyx
  obtain ⟨-, x', hx', i, hi, hzi⟩ :=
    (hrest.mem_iff K fun z hz => hsub z (List.mem_cons_of_mem _ hz)).mp hz
  obtain rfl : i = j := by omega
  -- both climb to the same node of the row
  obtain ⟨m, rfl⟩ : ∃ m, i = k + m := ⟨i - k, by omega⟩
  rw [climb_add, hk, ← climb_add, hzi] at hj
  exact hnd (Option.some.inj hj ▸ hx')

/-- **Nothing is listed twice.** -/
theorem Listed.nodup (K : Kids up nodes kids) (h : Listed kids d xs out)
    (hsub : ∀ x ∈ xs, x ∈ nodes) (hd : ∀ x ∈ xs, Depth up x d) (hnd : xs.Nodup) :
    (out.map Prod.snd).Nodup := by
  induction h with
  | nil d => exact List.nodup_nil
  | @cons d x xs below rest hbelow hrest ih₁ ih₂ =>
    obtain ⟨hx, hxs⟩ := List.nodup_cons.mp hnd
    have hsub' : ∀ z ∈ xs, z ∈ nodes := fun z hz => hsub z (List.mem_cons_of_mem _ hz)
    have hd' : ∀ z ∈ xs, Depth up z d := fun z hz => hd z (List.mem_cons_of_mem _ hz)
    have hkids : ∀ c ∈ kids x, c ∈ nodes := fun c hc => K.mem_nodes hc
    have hkd : ∀ c ∈ kids x, Depth up c (d + 1) :=
      fun c hc => K.depth_succ (hd x List.mem_cons_self) hc
    have hapart : ∀ {e e' : Nat} {y : α}, (e, y) ∈ (d, x) :: below → (e', y) ∈ rest → False := by
      intro e e' y hy hz
      have he : Depth up y e := by
        rcases List.mem_cons.mp hy with heq | hy
        · obtain ⟨rfl, rfl⟩ := Prod.mk.inj heq
          exact hd y List.mem_cons_self
        · exact hbelow.depth K hkids hkd hy
      have hle : d ≤ e := by
        rcases List.mem_cons.mp hy with heq | hy
        · exact Nat.le_of_eq (Prod.mk.inj heq).1.symm
        · exact Nat.le_of_succ_le (hbelow.depth_le hy)
      exact siblings_apart K hbelow hrest hsub hd hx hy hz (k := 0) rfl (by omega)
        (he.unique (hrest.depth K hsub' hd' hz))
    rw [List.map_cons, List.map_append, List.nodup_cons, List.nodup_append]
    refine ⟨?_, ih₁ hkids hkd (K.nodup x), ih₂ hsub' hd' hxs, ?_⟩
    · intro hmem
      rcases List.mem_append.mp hmem with hmem | hmem
      · obtain ⟨⟨e, y⟩, hy, rfl⟩ := List.mem_map.mp hmem
        have hde := hbelow.depth K hkids hkd hy
        have hle := hbelow.depth_le hy
        have heq := hde.unique (hd y List.mem_cons_self)
        dsimp only at hle
        omega
      · obtain ⟨⟨e, y⟩, hy, rfl⟩ := List.mem_map.mp hmem
        exact hapart List.mem_cons_self hy
    · intro y hy z hz heq
      obtain ⟨⟨e, y'⟩, hy', rfl⟩ := List.mem_map.mp hy
      obtain ⟨⟨e', z'⟩, hz', rfl⟩ := List.mem_map.mp hz
      obtain rfl : y' = z' := heq
      exact hapart (List.mem_cons_of_mem _ hy') hz'

/-- A listing begins at the depth of the start. -/
theorem Listed.takeWhile_nil (h : Listed kids d xs out) {e : Nat} (he : d ≤ e) :
    out.takeWhile (fun ℓ => e < ℓ.1) = [] := by
  cases h with
  | nil d => rfl
  | cons _ _ => exact List.takeWhile_cons_of_neg (by simpa using he)

/-- Behind a list in which the test fails nothing counts. -/
theorem takeWhile_stop {β : Type} {p : β → Bool} {s t : List β} (h : t.takeWhile p = []) :
    (s ++ t).takeWhile p = s.takeWhile p := by
  induction s with
  | nil => exact h
  | cons b s ih =>
    rw [List.cons_append, List.takeWhile_cons, List.takeWhile_cons, ih]

/-- **Blocks.**  The descendants of a node are listed right behind it, before the next node that
    is not deeper. -/
theorem Listed.block (K : Kids up nodes kids) (h : Listed kids d xs out)
    (hsub : ∀ x ∈ xs, x ∈ nodes) {pre rest : List (Nat × α)} {e : Nat} {y : α}
    (hout : out = pre ++ (e, y) :: rest) (z : α) :
    (∃ e', (e', z) ∈ rest.takeWhile fun ℓ => e < ℓ.1) ↔ z ∈ nodes ∧ Above up y z := by
  induction h generalizing pre rest with
  | nil d => exact absurd hout (by simp)
  | @cons d x xs below others hbelow hothers ih₁ ih₂ =>
    have hkids : ∀ c ∈ kids x, c ∈ nodes := fun c hc => K.mem_nodes hc
    have hsub' : ∀ z ∈ xs, z ∈ nodes := fun z hz => hsub z (List.mem_cons_of_mem _ hz)
    cases pre with
    | nil =>
      -- the node is the first one
      rw [List.nil_append] at hout
      obtain ⟨heq, rfl⟩ := List.cons.inj hout
      obtain ⟨rfl, rfl⟩ := Prod.mk.inj heq
      have hdeep : ∀ ℓ ∈ below, decide (d < ℓ.1) = true :=
        fun ℓ hℓ => decide_eq_true (hbelow.depth_le hℓ)
      rw [takeWhile_stop (hothers.takeWhile_nil (Nat.le_refl d)),
        List.takeWhile_eq_self_iff.mpr hdeep]
      constructor
      · rintro ⟨e', hz⟩
        obtain ⟨hzn, c, hc, k, -, hk⟩ := (hbelow.mem_iff K hkids).mp hz
        exact ⟨hzn, above_iff_climb.mpr ⟨k, climb_snoc hk ((K.mem_iff c x).mp hc).2⟩⟩
      · rintro ⟨hzn, habove⟩
        obtain ⟨k, hk⟩ := above_iff_climb.mp habove
        obtain ⟨c, hc, hp⟩ := climb_last hk
        exact ⟨d + 1 + k, (hbelow.mem_iff K hkids).mpr
          ⟨hzn, c, (K.mem_iff c x).mpr ⟨K.climb_mem hzn hc, hp⟩, k, rfl, hc⟩⟩
    | cons ℓ pre =>
      rw [List.cons_append] at hout
      obtain ⟨-, hout⟩ := List.cons.inj hout
      rcases List.append_eq_append_iff.mp hout with ⟨mid, hpre, hothers'⟩ | ⟨mid, hbelow', hrest⟩
      · exact ih₂ hsub' hothers'
      · cases mid with
        | nil =>
          have hothers' : others = [] ++ (e, y) :: rest := hrest.symm
          exact ih₂ hsub' hothers'
        | cons ℓ' mid =>
          rw [List.cons_append] at hrest
          obtain ⟨rfl, rfl⟩ := List.cons.inj hrest
          have hle : d + 1 ≤ e := hbelow.depth_le (ℓ := (e, y)) (hbelow' ▸ by simp)
          rw [takeWhile_stop (hothers.takeWhile_nil (by omega))]
          exact ih₁ hkids hbelow'

/-- **Order.**  Siblings are listed in the order of `kids`, the start in its own order. -/
theorem Listed.sorted (K : Kids up nodes kids) (h : Listed kids d xs out)
    (hsub : ∀ x ∈ xs, x ∈ nodes) (hd : ∀ x ∈ xs, Depth up x d) (hnd : xs.Nodup)
    {r : α → α → Prop} (hkr : ∀ p, (kids p).Pairwise r) (hxs : xs.Pairwise r) :
    out.Pairwise fun a b => up a.2 = up b.2 → r a.2 b.2 := by
  have hlevel : ∀ {y z : α} {j k : Nat}, up y = up z → Depth up y j → Depth up z k → j = k := by
    intro y z j k hup hy hz
    cases j with
    | zero => exact (depth_zero.mpr (hup ▸ depth_zero.mp hy)).unique hz
    | succ j =>
      obtain ⟨r, hr, hnone⟩ := hy
      rw [climb, hup] at hr
      exact Depth.unique ⟨r, hr, hnone⟩ hz
  induction h with
  | nil d => exact List.Pairwise.nil
  | @cons d x xs below rest hbelow hrest ih₁ ih₂ =>
    obtain ⟨hx, hnd'⟩ := List.nodup_cons.mp hnd
    obtain ⟨hxr, hxs'⟩ := List.pairwise_cons.mp hxs
    have hsub' : ∀ z ∈ xs, z ∈ nodes := fun z hz => hsub z (List.mem_cons_of_mem _ hz)
    have hd' : ∀ z ∈ xs, Depth up z d := fun z hz => hd z (List.mem_cons_of_mem _ hz)
    have hkids : ∀ c ∈ kids x, c ∈ nodes := fun c hc => K.mem_nodes hc
    have hkd : ∀ c ∈ kids x, Depth up c (d + 1) :=
      fun c hc => K.depth_succ (hd x List.mem_cons_self) hc
    refine List.pairwise_cons.mpr ⟨?_, List.pairwise_append.mpr
      ⟨ih₁ hkids hkd (K.nodup x) (hkr x), ih₂ hsub' hd' hnd' hxs', ?_⟩⟩
    · rintro ⟨e, z⟩ hz hup
      rcases List.mem_append.mp hz with hz | hz
      · have heq := hlevel hup (hd x List.mem_cons_self) (hbelow.depth K hkids hkd hz)
        have hle := hbelow.depth_le hz
        dsimp only at hle
        omega
      · have heq := hlevel hup (hd x List.mem_cons_self) (hrest.depth K hsub' hd' hz)
        obtain ⟨-, w, hw, k, hk, hc⟩ := (hrest.mem_iff K hsub').mp hz
        obtain rfl : k = 0 := by omega
        obtain rfl : z = w := Option.some.inj hc
        exact hxr z hw
    · rintro ⟨e, y⟩ hy ⟨e', z⟩ hz hup
      have heq := hlevel hup (hbelow.depth K hkids hkd hy) (hrest.depth K hsub' hd' hz)
      have hle := hbelow.depth_le hy
      have hone : climb up 1 y = climb up 1 z := by
        rw [climb_one, climb_one]
        exact hup
      exact absurd heq (siblings_apart K hbelow hrest hsub hd hx (List.mem_cons_of_mem _ hy) hz
        hone (by dsimp only at hle; omega))

end Walk

end Forest
