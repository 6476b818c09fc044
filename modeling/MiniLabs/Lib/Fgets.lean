/-
  `fgets` on a file that is a list of bytes.

  1. **Program** — a call takes a line off the file, with its newline, or as much of it as the
     buffer has room for; `Got` is what was taken, whether the end of the file was met, and what is
     left.
  2. **Specification** — `fgets_cases`: a whole line, a last line without a newline, or a front of a
     line that is longer than the buffer.
  3. **What is idealised** — reading does not fail; a NUL in the file is a byte like any other, and
     it is for the caller to say what it makes of the string in its buffer.
-/

set_option linter.unusedVariables false

namespace Libc

/-- What a call of `fgets` leaves: the line, with its newline if it has one, the rest of the
    file, and whether the end of the file was hit. -/
structure Got where
  line : List UInt8
  rest : List UInt8
  eof : Bool

/-- `fgets` with room for `n` bytes; the line is empty where it returns `NULL`. -/
def fgets : Nat → List UInt8 → Got
  | 0, s => ⟨[], s, false⟩
  | _ + 1, [] => ⟨[], [], true⟩
  | n + 1, c :: s =>
    if c = 10 then ⟨[c], s, false⟩
    else
      let got := fgets n s
      { got with line := c :: got.line }

/-- A line that fits is taken with its newline. -/
theorem fgets_line {n : Nat} {line rest : List UInt8} (hline : ∀ c ∈ line, c ≠ 10)
    (hlen : line.length < n) : fgets n (line ++ 10 :: rest) = ⟨line ++ [10], rest, false⟩ := by
  induction line generalizing n with
  | nil =>
    obtain ⟨n, rfl⟩ : ∃ m, n = m + 1 := ⟨n - 1, by simp only [List.length_nil] at hlen; omega⟩
    exact if_pos rfl
  | cons c line ih =>
    obtain ⟨n, rfl⟩ : ∃ m, n = m + 1 := ⟨n - 1, by simp only [List.length_cons] at hlen; omega⟩
    have hc : c ≠ 10 := hline c List.mem_cons_self
    rw [List.cons_append, fgets, if_neg hc,
      ih (fun d hd => hline d (List.mem_cons_of_mem _ hd)) (Nat.lt_of_succ_lt_succ hlen)]
    rfl

/-- A last line without a newline is taken up to the end. -/
theorem fgets_last {n : Nat} {line : List UInt8} (hline : ∀ c ∈ line, c ≠ 10)
    (hlen : line.length < n) : fgets n line = ⟨line, [], true⟩ := by
  induction line generalizing n with
  | nil =>
    obtain ⟨n, rfl⟩ : ∃ m, n = m + 1 := ⟨n - 1, by simp only [List.length_nil] at hlen; omega⟩
    rfl
  | cons c line ih =>
    obtain ⟨n, rfl⟩ : ∃ m, n = m + 1 := ⟨n - 1, by simp only [List.length_cons] at hlen; omega⟩
    have hc : c ≠ 10 := hline c List.mem_cons_self
    rw [fgets, if_neg hc, ih (fun d hd => hline d (List.mem_cons_of_mem _ hd))
      (Nat.lt_of_succ_lt_succ hlen)]

/-- A line that does not fit is cut. -/
theorem fgets_cut {n : Nat} {line rest : List UInt8} (hline : ∀ c ∈ line, c ≠ 10)
    (hlen : line.length = n) : fgets n (line ++ rest) = ⟨line, rest, false⟩ := by
  induction line generalizing n with
  | nil =>
    obtain rfl := hlen
    rfl
  | cons c line ih =>
    obtain ⟨n, rfl⟩ : ∃ m, n = m + 1 := ⟨n - 1, by simp only [List.length_cons] at hlen; omega⟩
    have hc : c ≠ 10 := hline c List.mem_cons_self
    rw [List.cons_append, fgets, if_neg hc,
      ih (fun d hd => hline d (List.mem_cons_of_mem _ hd)) (Nat.succ.inj hlen)]

/-- **The three ways a call can go.** -/
theorem fgets_cases (n : Nat) (s : List UInt8) :
    (∃ line rest, s = line ++ 10 :: rest ∧ (∀ c ∈ line, c ≠ 10) ∧ line.length < n) ∨
    ((∀ c ∈ s, c ≠ 10) ∧ s.length < n) ∨
    ∃ line rest, s = line ++ rest ∧ (∀ c ∈ line, c ≠ 10) ∧ line.length = n := by
  induction n generalizing s with
  | zero => exact Or.inr (Or.inr ⟨[], s, rfl, fun c hc => absurd hc List.not_mem_nil, rfl⟩)
  | succ n ih =>
    cases s with
    | nil => exact Or.inr (Or.inl ⟨fun c hc => absurd hc List.not_mem_nil, Nat.succ_pos n⟩)
    | cons c s =>
      by_cases hc : c = 10
      · rw [hc]
        exact Or.inl ⟨[], s, rfl, fun c hc => absurd hc List.not_mem_nil, Nat.succ_pos n⟩
      · have hcons : ∀ {line : List UInt8}, (∀ d ∈ line, d ≠ 10) → ∀ d ∈ c :: line, d ≠ 10 := by
          intro line hline d hd
          rcases List.mem_cons.mp hd with rfl | hd
          · exact hc
          · exact hline d hd
        rcases ih s with ⟨line, rest, rfl, hline, hlen⟩ | ⟨hline, hlen⟩ | ⟨line, rest, rfl, hline, hlen⟩
        · exact Or.inl ⟨c :: line, rest, rfl, hcons hline, Nat.succ_lt_succ hlen⟩
        · exact Or.inr (Or.inl ⟨hcons hline, Nat.succ_lt_succ hlen⟩)
        · exact Or.inr (Or.inr ⟨c :: line, rest, rfl, hcons hline, congrArg Nat.succ hlen⟩)

/-- At the end of the file nothing is taken. -/
theorem fgets_nil (n : Nat) : (fgets n []).line = [] := by
  cases n <;> rfl

/-- Nothing is taken only at the end of the file. -/
theorem fgets_end {n : Nat} {s : List UInt8} (h : (fgets n s).line = []) (hn : 0 < n) :
    s = [] := by
  rcases fgets_cases n s with ⟨line, rest, rfl, hline, hlen⟩ | ⟨hline, hlen⟩ |
    ⟨line, rest, rfl, hline, hlen⟩
  · rw [fgets_line hline hlen] at h
    exact absurd (List.append_eq_nil_iff.mp h).2 (List.cons_ne_nil _ _)
  · rwa [fgets_last hline hlen] at h
  · rw [fgets_cut hline hlen] at h
    have hnil : line = [] := h
    rw [← hlen, hnil] at hn
    exact absurd hn (Nat.lt_irrefl 0)

/-- Nothing is lost. -/
theorem fgets_append (n : Nat) (s : List UInt8) : (fgets n s).line ++ (fgets n s).rest = s := by
  induction n generalizing s with
  | zero => rfl
  | succ n ih =>
    cases s with
    | nil => rfl
    | cons c s =>
      rw [fgets]
      split
      · rfl
      · exact congrArg (c :: ·) (ih s)

/-- A call that brings something takes it off the file. -/
theorem fgets_rest_lt {n : Nat} {s : List UInt8} (h : (fgets n s).line ≠ []) :
    (fgets n s).rest.length < s.length := by
  have hlength := congrArg List.length (fgets_append n s)
  rw [List.length_append] at hlength
  have hpos := List.length_pos_iff.mpr h
  omega

end Libc
