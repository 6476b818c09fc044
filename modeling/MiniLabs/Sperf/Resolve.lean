/-
  sperf — where a command is found: `join_path`, `resolve_executable`.

  1. **Specification (`firstMatch`)** — the first element of `PATH` in which the command is an
     executable file; an empty element stands for the current directory.
  2. **Program** — the loop has a test for empty elements, but `strtok_r` never returns an empty
     token: what it gives out is the elements that are not empty (`searchPath_eq`).
  3. **The crux (`resolve_first_iff`)** — so the first match is found unless an empty element has it
     (`Harmless`).
  4. **What is idealised** — `access` is the set of executable files, and does not change between
     the test and `execve`.  Allocation succeeds.
-/
import MiniLabs.Lib.Spans
import MiniLabs.Sperf.Code

set_option linter.unusedVariables false

namespace Sperf

/-- `join_path`. -/
def joinPath (dir name : List UInt8) : List UInt8 :=
  let needSlash := dir.length > 0 ∧ dir.getLast? ≠ some 47
  dir ++ (if needSlash then [47] else []) ++ name

/-- `strtok_r(s, ":", &saveptr)`: the token, and what `saveptr` points to then. -/
def strtokR (s : List UInt8) : Option (List UInt8 × List UInt8) :=
  let s := s.dropWhile (· == 58)
  if s = [] then none
  else some (s.takeWhile (· != 58), (s.dropWhile (· != 58)).tail)

/-- A token is taken off the string. -/
theorem strtokR_lt {s part rest : List UInt8} (h : strtokR s = some (part, rest)) :
    rest.length < s.length := by
  rw [strtokR] at h
  split at h
  · cases h
  · rename_i hne
    have hle := List.IsSuffix.length_le (List.dropWhile_suffix (l := s) (· == 58))
    generalize s.dropWhile (· == 58) = t at *
    have hle' := List.IsSuffix.length_le (List.dropWhile_suffix (l := t) (· != 58))
    have hpos := List.length_pos_of_ne_nil hne
    cases h
    rw [List.length_tail]
    omega

section Resolve

variable (access : List UInt8 → Bool) (command : List UInt8)

/-- The loop of `resolve_executable`. -/
def searchPath (saveptr : List UInt8) : Option (List UInt8) :=
  match h : strtokR saveptr with
  | none => none
  | some (part, rest) =>
    have := strtokR_lt h
    let candidate := joinPath (if part.head? = none then [46] else part) command
    if access candidate then some candidate else searchPath rest
  termination_by saveptr.length

/-- `resolve_executable`; `pathEnv` is `getenv("PATH")`. -/
def resolveExecutable (pathEnv : Option (List UInt8)) : Option (List UInt8) :=
  if command.head? = some 47 ∨ 47 ∈ command then
    if access command then some command else none
  else
    searchPath access command
      (match pathEnv with
      | none | some [] => ascii "/bin:/usr/bin"
      | some path => path)

end Resolve

/-! ## What it is for -/

/-- The elements of `PATH`: an empty one is the current directory. -/
def directories (path : List UInt8) : List (List UInt8) :=
  (path.splitOn 58).map fun e => if e = [] then [46] else e

/-- The first of the elements, from left to right, that has the command. -/
def firstMatch (access : List UInt8 → Bool) (command path : List UInt8) : Option (List UInt8) :=
  ((directories path).map fun dir => joinPath dir command).find? access

/-! ## The tokens -/

/-- A separator in front is skipped. -/
theorem strtokR_colon (s : List UInt8) : strtokR (58 :: s) = strtokR s := rfl

/-- A token goes up to the next separator. -/
theorem strtokR_char {c : UInt8} (hc : c ≠ 58) (s : List UInt8) :
    strtokR (c :: s) =
      some ((c :: s).takeWhile (· != 58), ((c :: s).dropWhile (· != 58)).tail) := by
  have hdrop : (c :: s).dropWhile (· == 58) = c :: s :=
    List.dropWhile_cons_of_neg (by simpa using hc)
  rw [strtokR, hdrop, if_neg (List.cons_ne_nil c s)]

/-- So does an element that is not empty. -/
theorem splitOn_char {c : UInt8} (hc : c ≠ 58) (s : List UInt8) :
    ((c :: s).splitOn 58).filter (· ≠ []) = (c :: s).takeWhile (· != 58) ::
      ((((c :: s).dropWhile (· != 58)).tail).splitOn 58).filter (· ≠ []) := by
  have happend := List.takeWhile_append_dropWhile (p := (· != 58)) (l := c :: s)
  have hnot : 58 ∉ (c :: s).takeWhile (· != 58) := fun h => by
    simpa using List.mem_takeWhile_imp h
  have hne : (c :: s).takeWhile (· != 58) ≠ [] := by
    rw [List.takeWhile_cons_of_pos (by simpa using hc)]
    exact List.cons_ne_nil _ _
  generalize (c :: s).takeWhile (· != 58) = part at *
  cases hrest : (c :: s).dropWhile (· != 58) with
  | nil =>
    rw [hrest, List.append_nil] at happend
    rw [← happend, List.splitOn_eq_singleton hnot, List.filter_cons_of_pos (by simpa using hne)]
    rfl
  | cons d rest =>
    have hd : d = 58 := by simpa using Spans.head_dropWhile hrest
    rw [hrest, hd] at happend
    rw [← happend, List.splitOn_append_cons_self_of_not_mem hnot,
      List.filter_cons_of_pos (by simpa using hne), List.tail_cons]

section Search

variable {access : List UInt8 → Bool} {command : List UInt8}

/-- Without a token nothing is found. -/
theorem searchPath_none {s : List UInt8} (h : strtokR s = none) :
    searchPath access command s = none := by
  rw [searchPath]
  split
  · rfl
  · rename_i part rest hsome
    rw [h] at hsome
    cases hsome

/-- A token is tried, and then the others. -/
theorem searchPath_some {s part rest : List UInt8} (h : strtokR s = some (part, rest)) :
    searchPath access command s =
      if access (joinPath (if part.head? = none then [46] else part) command) then
        some (joinPath (if part.head? = none then [46] else part) command)
      else searchPath access command rest := by
  rw [searchPath]
  split
  · rename_i hnone
    rw [h] at hnone
    cases hnone
  · rename_i part' rest' hsome
    rw [h] at hsome
    cases hsome
    rfl

/-- A `:` in front is skipped. -/
theorem searchPath_colon (s : List UInt8) :
    searchPath access command (58 :: s) = searchPath access command s := by
  cases htok : strtokR s with
  | none => rw [searchPath_none htok, searchPath_none ((strtokR_colon s).trans htok)]
  | some t =>
    obtain ⟨part, rest⟩ := t
    rw [searchPath_some htok, searchPath_some ((strtokR_colon s).trans htok)]

/-- **The loop goes through the elements that are not empty.** -/
theorem searchPath_eq (path : List UInt8) :
    searchPath access command path =
      (((path.splitOn 58).filter (· ≠ [])).map fun e => joinPath e command).find? access := by
  induction hn : path.length using Nat.strongRecOn generalizing path with
  | _ n ih =>
    subst hn
    cases path with
    | nil => exact searchPath_none rfl
    | cons c path =>
      by_cases hc : c = 58
      · rw [hc, searchPath_colon, ih path.length (Nat.lt_succ_self _) path rfl,
          List.splitOn_cons_eq_if_modifyHead, if_pos (by decide), List.filter_cons_of_neg (by simp)]
      · have htok := strtokR_char hc path
        have hhead : ((c :: path).takeWhile (· != 58)).head? ≠ none := by
          rw [List.takeWhile_cons_of_pos (by simpa using hc)]
          exact nofun
        rw [searchPath_some htok, if_neg hhead, splitOn_char hc, List.map_cons, List.find?_cons,
          ih _ (strtokR_lt htok) _ rfl]
        split <;> simp_all

/-! ## The first match -/

/-- The file that an element of `PATH` stands for. -/
def fileIn (command e : List UInt8) : List UInt8 := joinPath (if e = [] then [46] else e) command

/-- The first match, as a search in the elements. -/
theorem firstMatch_eq (path : List UInt8) :
    firstMatch access command path =
      ((path.splitOn 58).find? fun e => access (fileIn command e)).map (fileIn command) := by
  rw [firstMatch, directories, List.map_map, List.find?_map]
  rfl

/-- **The loop is a search in the elements that are not empty.**. -/
theorem searchPath_find (path : List UInt8) :
    searchPath access command path =
      ((path.splitOn 58).find? fun e => decide (e ≠ []) && access (fileIn command e)).map
        (fileIn command) := by
  have hfile : ((path.splitOn 58).filter (· ≠ [])).map (fun e => joinPath e command) =
      ((path.splitOn 58).filter (· ≠ [])).map (fileIn command) := by
    apply List.map_congr_left
    intro e he
    rw [fileIn, if_neg (by simpa using (List.mem_filter.mp he).2)]
  rw [searchPath_eq, hfile, List.find?_map, List.find?_filter]
  congr 2
  funext e
  simp

/-- An element whose file is the one in the current directory. -/
theorem fileIn_here {e : List UInt8} (he : e ≠ []) :
    fileIn command e = fileIn command [] ↔ e = [46] ∨ e = [46, 47] := by
  have hhere : fileIn command [] = [46, 47] ++ command := rfl
  have hpos := List.length_pos_of_ne_nil he
  rw [hhere, fileIn, if_neg he, joinPath]
  by_cases hlast : e.getLast? = some 47
  · rw [if_neg (fun h => h.2 hlast), List.append_nil, List.append_cancel_right_eq]
    constructor
    · exact .inr
    · rintro (rfl | h)
      · cases hlast
      · exact h
  · rw [if_pos ⟨hpos, hlast⟩, List.append_cancel_right_eq]
    constructor
    · intro h
      have hslash : e ++ [47] = [46] ++ [47] := h
      exact .inl (List.append_cancel_right hslash)
    · rintro (rfl | rfl)
      · rfl
      · exact absurd rfl hlast

/-- An empty element of `PATH` does no harm: there is none, the current directory does not have
    the command, an element before it has, or the loop comes upon `.` or `./` before any other
    element that has the command. -/
def Harmless (access : List UInt8 → Bool) (command path : List UInt8) : Prop :=
  [] ∉ path.splitOn 58 ∨
  access (joinPath [46] command) = false ∨
  (∃ e ∈ (path.splitOn 58).takeWhile (· ≠ []), access (joinPath e command) = true) ∨
  ∃ es e es', path.splitOn 58 = es ++ e :: es' ∧ (e = [46] ∨ e = [46, 47]) ∧
    ∀ d ∈ es, d ≠ [] → access (joinPath d command) = false

/-- A search asks the elements only. -/
theorem find_congr {es : List (List UInt8)} {p q : List UInt8 → Bool}
    (h : ∀ e ∈ es, p e = q e) : es.find? p = es.find? q := by
  induction es with
  | nil => rfl
  | cons e es ih =>
    rw [List.find?_cons, List.find?_cons, h e (List.mem_cons_self ..),
      ih fun d hd => h d (List.mem_cons_of_mem e hd)]

/-- The file in an element that is not empty. -/
theorem fileIn_of_ne {e : List UInt8} (he : e ≠ []) : fileIn command e = joinPath e command := by
  rw [fileIn, if_neg he]

/-- Where the current directory does not have the command, its elements may be left out. -/
theorem find_here {path : List UInt8} (h : access (joinPath [46] command) = false) :
    searchPath access command path = firstMatch access command path := by
  rw [searchPath_find, firstMatch_eq]
  congr 1
  apply find_congr
  intro e _
  by_cases he : e = []
  · have hfile : access (fileIn command []) = false := h
    rw [he, hfile, Bool.and_false]
  · rw [decide_eq_true he, Bool.true_and]

/-- Where there is no empty element, none is left out. -/
theorem find_full {path : List UInt8} (h : [] ∉ path.splitOn 58) :
    searchPath access command path = firstMatch access command path := by
  rw [searchPath_find, firstMatch_eq]
  congr 1
  apply find_congr
  intro e he
  rw [decide_eq_true (ne_of_mem_of_not_mem he h), Bool.true_and]

/-- Where an element before the first empty one has the command, both stop before that one. -/
theorem find_before {path e : List UInt8} (he : e ∈ (path.splitOn 58).takeWhile (· ≠ []))
    (hfile : access (joinPath e command) = true) :
    searchPath access command path = firstMatch access command path := by
  rw [searchPath_find, firstMatch_eq]
  congr 1
  have hne : ∀ d ∈ (path.splitOn 58).takeWhile (· ≠ []), d ≠ [] := fun d hd => by
    simpa using List.mem_takeWhile_imp hd
  have hsome : (((path.splitOn 58).takeWhile (· ≠ [])).find?
      fun e => access (fileIn command e)).isSome := by
    rw [List.find?_isSome]
    exact ⟨e, he, by rw [fileIn_of_ne (hne e he), hfile]⟩
  rw [← List.takeWhile_append_dropWhile (p := fun e => decide (e ≠ [])) (l := path.splitOn 58),
    List.find?_append, List.find?_append,
    find_congr (q := fun e => access (fileIn command e)) fun d hd => by
      rw [decide_eq_true (hne d hd), Bool.true_and],
    Option.or_of_isSome hsome, Option.or_of_isSome hsome]

/-- Where `.` or `./` is the first element that is not empty and has the command, an empty one
    before it stands for the same file. -/
theorem find_dot {path e : List UInt8} {es es' : List (List UInt8)}
    (hsplit : path.splitOn 58 = es ++ e :: es') (he : e = [46] ∨ e = [46, 47])
    (hbefore : ∀ d ∈ es, d ≠ [] → access (joinPath d command) = false)
    (hhere : access (joinPath [46] command) = true) :
    searchPath access command path = firstMatch access command path := by
  have hne : e ≠ [] := by
    rintro rfl
    obtain he | he := he <;> cases he
  have hfile : fileIn command e = fileIn command [] := (fileIn_here hne).mpr he
  have hmatch : access (fileIn command e) = true := by
    rw [hfile]
    exact hhere
  have hcode : (path.splitOn 58).find?
      (fun e => decide (e ≠ []) && access (fileIn command e)) = some e := by
    refine List.find?_eq_some_iff_append.mpr ⟨?_, es, es', hsplit, fun d hd => ?_⟩
    · rw [decide_eq_true hne, hmatch]
      rfl
    · by_cases hd' : d = []
      · rw [decide_eq_false (not_not.mpr hd')]
        rfl
      · rw [fileIn_of_ne hd', hbefore d hd hd', Bool.and_false]
        rfl
  rw [searchPath_find, firstMatch_eq, hcode, hsplit, List.find?_append, List.find?_cons, hmatch]
  cases hes : es.find? fun e => access (fileIn command e) with
  | none => rfl
  | some d =>
    have hd := List.mem_of_find?_eq_some hes
    have hd' : d = [] := by
      by_contra hd'
      have hsome := List.find?_some hes
      rw [fileIn_of_ne hd', hbefore d hd hd'] at hsome
      cases hsome
    rw [hd']
    exact congrArg some hfile

/-- Where it is harmless the loop finds the first match. -/
theorem Harmless.search {path : List UInt8} (h : Harmless access command path) :
    searchPath access command path = firstMatch access command path := by
  obtain hnone | hhere | ⟨e, he, hfile⟩ | ⟨es, e, es', hsplit, he, hbefore⟩ := h
  · exact find_full hnone
  · exact find_here hhere
  · exact find_before he hfile
  · cases hhere : access (joinPath [46] command) with
    | false => exact find_here hhere
    | true => exact find_dot hsplit he hbefore hhere

/-- What stands in front of the first empty element. -/
theorem takeWhile_first {es : List (List UInt8)} (h : [] ∈ es) :
    ∃ rest, es = es.takeWhile (· ≠ []) ++ [] :: rest := by
  have happend := List.takeWhile_append_dropWhile (p := fun e => decide (e ≠ [])) (l := es)
  cases hrest : es.dropWhile fun e => decide (e ≠ []) with
  | nil =>
    rw [hrest, List.append_nil] at happend
    rw [← happend] at h
    have hne := List.mem_takeWhile_imp h
    simp at hne
  | cons d rest =>
    have hd : d = [] := by simpa using Spans.head_dropWhile hrest
    rw [hrest, hd] at happend
    exact ⟨rest, happend.symm⟩

/-- Where the loop finds the first match it is harmless. -/
theorem harmless_of_search {path : List UInt8}
    (h : searchPath access command path = firstMatch access command path) :
    Harmless access command path := by
  rw [searchPath_find, firstMatch_eq] at h
  by_cases hnone : [] ∈ path.splitOn 58
  · by_cases hhere : access (joinPath [46] command) = true
    · by_cases hbefore : ∃ e ∈ (path.splitOn 58).takeWhile (· ≠ []),
          access (joinPath e command) = true
      · exact .inr (.inr (.inl hbefore))
      · have hfirst : (path.splitOn 58).find? (fun e => access (fileIn command e)) = some [] := by
          obtain ⟨rest, hsplit⟩ := takeWhile_first hnone
          refine List.find?_eq_some_iff_append.mpr ⟨hhere, _, rest, hsplit, fun e he => ?_⟩
          have hne : e ≠ [] := by simpa using List.mem_takeWhile_imp he
          rw [fileIn_of_ne hne, Bool.not_eq_true']
          exact Bool.not_eq_true _ ▸ fun hfile => hbefore ⟨e, he, hfile⟩
        rw [hfirst] at h
        obtain ⟨e, hcode, hfile⟩ := Option.map_eq_some_iff.mp h
        obtain ⟨he, es, es', hsplit, hes⟩ := List.find?_eq_some_iff_append.mp hcode
        have hne : e ≠ [] := by
          rw [Bool.and_eq_true, decide_eq_true_eq] at he
          exact he.1
        refine .inr (.inr (.inr ⟨es, e, es', hsplit, (fileIn_here hne).mp hfile, fun d hd hd' => ?_⟩))
        have hskip := hes d hd
        rw [decide_eq_true hd', Bool.true_and, fileIn_of_ne hd', Bool.not_eq_true'] at hskip
        exact hskip
    · exact .inr (.inl (Bool.not_eq_true _ ▸ hhere))
  · exact .inl hnone

end Search

/-- A command without a slash is looked for in `PATH`. -/
theorem resolveExecutable_path (access : List UInt8 → Bool) {command path : List UInt8}
    (hcommand : 47 ∉ command) (hpath : path ≠ []) :
    resolveExecutable access command (some path) = searchPath access command path := by
  have hslash : ¬(command.head? = some 47 ∨ 47 ∈ command) := by
    rintro (h | h)
    · exact hcommand (List.mem_of_head? h)
    · exact hcommand h
  rw [resolveExecutable, if_neg hslash]
  exact hpath

/-- **The first match is found exactly if the empty elements do no harm.** -/
theorem resolve_first_iff (access : List UInt8 → Bool) {command path : List UInt8}
    (hcommand : 47 ∉ command) (hpath : path ≠ []) :
    resolveExecutable access command (some path) = firstMatch access command path ↔
      Harmless access command path := by
  rw [resolveExecutable_path access hcommand hpath]
  exact ⟨harmless_of_search, Harmless.search⟩

/-- With an empty element first, the command in the current directory is missed. -/
theorem resolve_first_ls :
    let access := fun file => file == ascii "./ls"
    resolveExecutable access (ascii "ls") (some (ascii ":/bin")) = none ∧
      firstMatch access (ascii "ls") (ascii ":/bin") = some (ascii "./ls") := by
  refine ⟨?_, by decide⟩
  rw [resolveExecutable_path _ (by decide) (by decide), searchPath_eq]
  decide

/-- With `.` in front, the empty element does no harm. -/
theorem resolve_first_dot :
    let access := fun file => file == ascii "./ls"
    resolveExecutable access (ascii "ls") (some (ascii ".:/bin:")) =
      firstMatch access (ascii "ls") (ascii ".:/bin:") :=
  (resolve_first_iff _ (by decide) (by decide)).mpr
    (.inr (.inr (.inl ⟨ascii ".", by decide, by decide⟩)))

end Sperf
