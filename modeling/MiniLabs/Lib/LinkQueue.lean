/-
  Linked queues — a first-in first-out queue of nodes linked by `next` pointers, with a pointer to
  the first and one to the last node.

  `Linked null next head tail q`: from `head` the nodes of `q` follow each other, the last one
  points to `null`, and `tail` is the last one, or `null` if there is none.  Appending a node and
  removing the first one keep this (`Linked.push`, `Linked.pop`).
-/
import Mathlib.Data.List.Basic
import Mathlib.Logic.Function.Basic

set_option linter.unusedVariables false

namespace LinkQueue

variable {A : Type}

/-- The nodes from `p` on are `q`. -/
def Chain (null : A) (next : A → A) : A → List A → Prop
  | p, [] => p = null
  | p, x :: q => p = x ∧ x ≠ null ∧ Chain null next (next x) q

/-- A queue with its two ends. -/
structure Linked (null : A) (next : A → A) (head tail : A) (q : List A) : Prop where
  chain : Chain null next head q
  last : tail = q.getLastD null
  nodup : q.Nodup

variable {null : A} {next next' : A → A} {head tail p : A} {q : List A}

/-- Only the links of the nodes count. -/
theorem Chain.congr (h : Chain null next p q) (hq : ∀ x ∈ q, next' x = next x) :
    Chain null next' p q := by
  induction q generalizing p with
  | nil => exact h
  | cons x q ih =>
    obtain ⟨hp, hx, hrest⟩ := h
    refine ⟨hp, hx, ?_⟩
    rw [hq x List.mem_cons_self]
    exact ih hrest fun y hy => hq y (List.mem_cons_of_mem x hy)

/-- No node is null. -/
theorem Chain.ne_null (h : Chain null next p q) : ∀ x ∈ q, x ≠ null := by
  induction q generalizing p with
  | nil => exact fun x hx => absurd hx List.not_mem_nil
  | cons x q ih => exact List.forall_mem_cons.mpr ⟨h.2.1, ih h.2.2⟩

/-- The nodes a walk from `p` along `next` meets before `null`. -/
inductive Met (null : A) (next : A → A) (p : A) : A → Prop
  | start (h : p ≠ null) : Met null next p p
  | step {x : A} (hx : Met null next p x) (h : next x ≠ null) : Met null next p (next x)

/-- What is met behind a node is met from the node on. -/
theorem Met.cons {x y : A} (hx : p = x) (hnull : x ≠ null) (h : Met null next (next x) y) :
    Met null next p y := by
  subst hx
  induction h with
  | start h => exact .step (.start hnull) h
  | step _ h ih => exact .step ih h

/-- A link leads to a node, unless it is null. -/
theorem Chain.next_mem (h : Chain null next p q) {x : A} (hx : x ∈ q) (hnext : next x ≠ null) :
    next x ∈ q := by
  induction q generalizing p with
  | nil => exact absurd hx List.not_mem_nil
  | cons z q ih =>
    rcases List.mem_cons.mp hx with rfl | hx
    · cases q with
      | nil => exact absurd h.2.2 hnext
      | cons u q =>
        rw [h.2.2.1]
        exact List.mem_cons_of_mem _ List.mem_cons_self
    · exact List.mem_cons_of_mem z (ih h.2.2 hx)

/-- A walk meets the nodes of the chain and no other. -/
theorem Chain.met_iff (h : Chain null next p q) (y : A) : Met null next p y ↔ y ∈ q := by
  constructor
  · intro hy
    induction hy with
    | start hp =>
      cases q with
      | nil => exact absurd h hp
      | cons x q =>
        rw [h.1]
        exact List.mem_cons_self
    | step _ hnext ih => exact h.next_mem ih hnext
  · intro hy
    induction q generalizing p with
    | nil => exact absurd hy List.not_mem_nil
    | cons x q ih =>
      rcases List.mem_cons.mp hy with rfl | hy
      · rw [← h.1]
        exact .start fun hp => h.2.1 (h.1.symm.trans hp)
      · exact Met.cons h.1 h.2.1 (ih h.2.2 hy)

/-- The last node of a queue that is not empty. -/
theorem getLastD_mem {d : A} (hq : q ≠ []) : q.getLastD d ∈ q := by
  cases q with
  | nil => exact absurd rfl hq
  | cons x q =>
    rw [List.getLastD_cons, ← List.getLast_eq_getLastD (List.cons_ne_nil x q)]
    exact List.getLast_mem _

/-- The chain with one more node behind the last. -/
theorem Chain.snoc [DecidableEq A] {r : A} (h : Chain null next p q) (hq : q ≠ []) (hnodup : q.Nodup)
    (hr : r ≠ null) (hmem : r ∉ q) (hnext : next r = null) :
    Chain null (Function.update next (q.getLastD null) r) p (q ++ [r]) := by
  induction q generalizing p with
  | nil => exact absurd rfl hq
  | cons x q ih =>
    obtain ⟨hp, hx, hrest⟩ := h
    have hxr : x ≠ r := fun hxr => hmem (hxr ▸ List.mem_cons_self)
    refine ⟨hp, hx, ?_⟩
    cases q with
    | nil =>
      rw [List.getLastD_cons, List.getLastD_nil, Function.update_self]
      refine ⟨rfl, hr, ?_⟩
      rw [Function.update_of_ne hxr.symm]
      exact hnext
    | cons y q =>
      rw [List.nodup_cons] at hnodup
      have hlast : (x :: y :: q).getLastD null = (y :: q).getLastD null := rfl
      have hne : x ≠ (y :: q).getLastD null := fun hxl =>
        hnodup.1 (hxl ▸ getLastD_mem (List.cons_ne_nil y q))
      rw [hlast, Function.update_of_ne hne]
      exact ih hrest (List.cons_ne_nil y q) hnodup.2 fun hr' => hmem (List.mem_cons_of_mem x hr')

namespace Linked

/-- Links of nodes outside the queue do not matter. -/
theorem congr (h : Linked null next head tail q) (hq : ∀ x ∈ q, next' x = next x) :
    Linked null next' head tail q := { h with chain := h.chain.congr hq }

/-- The head is null when the queue is empty. -/
theorem head_null (h : Linked null next head tail q) : head = null ↔ q = [] := by
  cases q with
  | nil => exact ⟨fun _ => rfl, fun _ => h.chain⟩
  | cons x q =>
    constructor
    · intro hnull
      exact absurd (h.chain.1.symm.trans hnull) h.chain.2.1
    · intro hq
      cases hq

/-- The tail is null when the queue is empty. -/
theorem tail_null (h : Linked null next head tail q) : tail = null ↔ q = [] := by
  constructor
  · intro hnull
    by_contra hq
    exact h.chain.ne_null _ (getLastD_mem hq) (h.last.symm.trans hnull)
  · rintro rfl
    exact h.last

variable [DecidableEq A]

/-- A node is appended. -/
theorem push (h : Linked null next head tail q) {r : A} (hr : r ≠ null) (hmem : r ∉ q)
    (hnext : next r = null) :
    Linked null (if tail = null then next else Function.update next tail r)
      (if tail = null then r else head) r (q ++ [r]) := by
  have hnodup : (q ++ [r]).Nodup := by
    rw [List.nodup_append]
    refine ⟨h.nodup, List.pairwise_singleton _ r, ?_⟩
    intro a ha b hb hab
    rw [List.mem_singleton.mp hb] at hab
    exact hmem (hab ▸ ha)
  have hlast : r = (q ++ [r]).getLastD null := by
    rw [List.getLastD_eq_getLast?, List.getLast?_append]
    rfl
  by_cases hq : q = []
  · subst hq
    have ht : tail = null := h.tail_null.mpr rfl
    rw [if_pos ht, if_pos ht]
    exact ⟨⟨rfl, hr, hnext⟩, hlast, hnodup⟩
  · have ht : tail ≠ null := fun ht => hq (h.tail_null.mp ht)
    rw [if_neg ht, if_neg ht, h.last]
    exact ⟨Chain.snoc h.chain hq h.nodup hr hmem hnext, hlast, hnodup⟩

/-- The first node is removed. -/
theorem pop {x : A} (h : Linked null next head tail (x :: q)) :
    Linked null next (next x) (if next x = null then null else tail) q := by
  have hnodup : q.Nodup := (List.nodup_cons.mp h.nodup).2
  refine ⟨h.chain.2.2, ?_, hnodup⟩
  cases q with
  | nil =>
    have hx : next x = null := h.chain.2.2
    rw [if_pos hx]
    rfl
  | cons y q =>
    have hx : next x ≠ null := by
      rw [h.chain.2.2.1]
      exact h.chain.2.2.2.1
    rw [if_neg hx]
    exact h.last

end Linked
end LinkQueue
