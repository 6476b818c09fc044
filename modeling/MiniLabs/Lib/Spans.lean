/-
  Spans — the longest front of a list whose elements have a property, and what is behind it.

  1. **Definition** — `Stops p rest`: the list is empty or begins with an element without the
     property.
  2. **One way to cut (`takeWhile_span`, `dropWhile_span`)** — a list falls into a span and a rest
     that stops in one way only; `exists_span` is that it does.
  3. **Cut to a width (`take_span`)** — what a conversion with a field width takes of a span.
-/
import Mathlib.Data.List.TakeWhile

set_option linter.unusedVariables false

namespace Spans

variable {α : Type} {p : α → Bool} {span rest : List α}

/-- The rest does not go on with the property. -/
def Stops (p : α → Bool) (rest : List α) : Prop := ∀ c, rest.head? = some c → p c = false

/-- A list stops at an element without the property. -/
theorem Stops.cons {c : α} (h : p c = false) (rest : List α) : Stops p (c :: rest) := by
  rintro d hd
  rw [← Option.some.inj hd]
  exact h

/-- A rest that is cut stops as well. -/
theorem Stops.take (h : Stops p rest) (n : Nat) : Stops p (rest.take n) := by
  cases n with
  | zero => rintro c ⟨⟩
  | succ n =>
    cases rest with
    | nil => exact h
    | cons c rest => exact Stops.cons (h c rfl) _

/-- What lacks a property stops at what has it. -/
theorem stops_not : Stops (fun c => !p c) rest ↔ ∀ c, rest.head? = some c → p c = true := by
  simp only [Stops, Bool.not_eq_false']

/-- What is behind the span stops. -/
theorem stops_dropWhile (p : α → Bool) (l : List α) : Stops p (l.dropWhile p) := by
  intro c hc
  have hhead := List.head?_dropWhile_not p l
  rw [hc] at hhead
  simpa using hhead

/-- What is left begins with an element that does not have the property. -/
theorem head_dropWhile {l : List α} {c : α} (h : l.dropWhile p = c :: rest) : p c = false :=
  stops_dropWhile p l c (by rw [h]; rfl)

/-- A list that stops has no span. -/
theorem takeWhile_stops (h : Stops p rest) : rest.takeWhile p = [] := by
  cases rest with
  | nil => rfl
  | cons c rest => exact List.takeWhile_cons_of_neg (by rw [h c rfl]; decide)

/-- **The span in front of a list that stops.**. -/
theorem takeWhile_span (hspan : ∀ c ∈ span, p c = true) (hrest : Stops p rest) :
    (span ++ rest).takeWhile p = span := by
  rw [List.takeWhile_append_of_pos hspan, takeWhile_stops hrest, List.append_nil]

/-- **What is behind it.**. -/
theorem dropWhile_span (hspan : ∀ c ∈ span, p c = true) (hrest : Stops p rest) :
    (span ++ rest).dropWhile p = rest := by
  have happend := List.takeWhile_append_dropWhile (p := p) (l := span ++ rest)
  rw [takeWhile_span hspan hrest] at happend
  exact List.append_cancel_left happend

/-- **A list is a span and a rest.** -/
theorem exists_span (p : α → Bool) (l : List α) :
    ∃ span rest, l = span ++ rest ∧ (∀ c ∈ span, p c = true) ∧ Stops p rest :=
  ⟨l.takeWhile p, l.dropWhile p, List.takeWhile_append_dropWhile.symm,
    fun c hc => List.mem_takeWhile_imp hc, stops_dropWhile p l⟩

/-- A span cut to a width has that width, or what follows does not go on with it. -/
theorem take_span (p : α → Bool) (n : Nat) (l : List α) {w : List α}
    (hw : w = (l.takeWhile p).take n) : l = w ++ l.drop w.length ∧ (∀ c ∈ w, p c = true) ∧
      w.length ≤ n ∧ (w.length = n ∨ Stops p (l.drop w.length)) := by
  obtain ⟨span, rest, rfl, hspan, hrest⟩ := exists_span p l
  rw [takeWhile_span hspan hrest] at hw
  have hlen : w.length = min n span.length := by rw [hw, List.length_take]
  have hprefix : w <+: span ++ rest := by
    rw [hw]
    exact (List.take_prefix n span).trans (List.prefix_append span rest)
  refine ⟨?_, fun c hc => hspan c (List.mem_of_mem_take (hw ▸ hc)), by omega, ?_⟩
  · obtain ⟨r, hr⟩ := hprefix
    rw [← hr, List.drop_left]
  · by_cases hn : n ≤ span.length
    · exact .inl (by omega)
    · right
      rw [hw, List.take_of_length_le (by omega), List.drop_left]
      exact hrest

/-- A span that has the width, or at which the list stops, is what is cut out. -/
theorem take_takeWhile_span {n : Nat} (hspan : ∀ c ∈ span, p c = true) (hlen : span.length ≤ n)
    (hend : span.length = n ∨ Stops p rest) : ((span ++ rest).takeWhile p).take n = span := by
  rcases hend with rfl | hrest
  · rw [List.takeWhile_append_of_pos hspan, List.take_left]
  · rw [takeWhile_span hspan hrest, List.take_of_length_le hlen]

end Spans
