/-
  httpd — what a request can have executed.

  1. **Specification** — `cgi_confined`: the path given to `execl` has only the characters that
     `valid_cgi_path` lets through, begins with `./cgi-bin/`, and going along it one never leaves
     `./cgi-bin`.  What stands behind the `?` has no influence on it (`cgi_confined_query`).
  2. **The path** — when `handle_request` reaches `run_cgi` the path passed `valid_cgi_path`, and
     `execl` gets it behind a dot, cut to the buffer.  It is read off the bytes in front of the
     first `?` alone (`front_words`).
  3. **The crux (`fsPath_dots`)** — the cut only shortens a path without two dots in a row, so
     `confined_down` applies to what is left.
  4. **What is idealised** — directories are what the text says: a symbolic link below `cgi-bin`
     leads elsewhere, and that is up to those who put it there.
-/
import Mathlib.Data.List.Infix
import MiniLabs.Lib.LexPath
import MiniLabs.Httpd.Strings

set_option linter.unusedVariables false

namespace Httpd

open LexPath

/-! ## `valid_cgi_path` -/

/-- `contains` asks for a stretch. -/
theorem contains_iff {s : Bytes} {lit : String} : contains s lit = true ↔ text lit <:+: s := by
  rw [contains, List.any_eq_true, List.infix_iff_prefix_suffix]
  constructor
  · rintro ⟨t, ht, hpre⟩
    exact ⟨t, List.isPrefixOf_iff_prefix.mp hpre, (List.mem_tails t s).mp ht⟩
  · rintro ⟨t, hpre, ht⟩
    exact ⟨t, (List.mem_tails t s).mpr ht, List.isPrefixOf_iff_prefix.mpr hpre⟩

/-- The characters that `valid_cgi_path` lets pass. -/
def PathChar (c : UInt8) : Prop := isAlnum c = true ∨ c = 47 ∨ c = 45 ∨ c = 95 ∨ c = 46

/-- **What `valid_cgi_path` lets through.**. -/
theorem validCgiPath_iff {path : Bytes} : validCgiPath path = true ↔
    text "/cgi-bin/" <+: path ∧ ¬ text ".." <:+: path ∧ ∀ c ∈ path, PathChar c := by
  rw [validCgiPath, ← contains_iff, ← List.isPrefixOf_iff_prefix]
  constructor
  · intro h
    split at h
    · cases h
    split at h
    · cases h
    rename_i hfront hdots
    refine ⟨by simpa [startsWith] using hfront, hdots, fun c hc => ?_⟩
    have hchar := List.all_eq_true.mp h c hc
    simpa [PathChar, or_assoc] using hchar
  · rintro ⟨hfront, hdots, hchars⟩
    rw [startsWith, hfront, if_neg (by decide), if_neg hdots, List.all_eq_true]
    intro c hc
    simpa [PathChar, or_assoc] using hchars c hc

/-! ## The path given to `execl` -/

/-- What is passed to `execl` for a path. -/
def fsPathOf (path : Bytes) : Bytes := (text "." ++ path).take 1023

/-- A valid path, behind its dot and cut, is `./cgi-bin/` and some bytes more. -/
theorem fsPath_split {path : Bytes} (h : text "/cgi-bin/" <+: path) :
    ∃ rest, fsPathOf path = [46] ++ 47 :: (text "cgi-bin" ++ 47 :: rest) := by
  obtain ⟨tail, rfl⟩ := h
  refine ⟨tail.take 1013, ?_⟩
  have hlen : (text "." ++ text "/cgi-bin/").length = 10 := by decide
  have hlit : text "." ++ text "/cgi-bin/" = [46] ++ 47 :: (text "cgi-bin" ++ [47]) := by
    decide
  calc fsPathOf (text "/cgi-bin/" ++ tail)
      = (text "." ++ text "/cgi-bin/" ++ tail).take 1023 := by
        rw [fsPathOf, List.append_assoc]
    _ = text "." ++ text "/cgi-bin/" ++ tail.take 1013 := by
        rw [List.take_append, hlen, List.take_of_length_le (by omega)]
    _ = [46] ++ 47 :: (text "cgi-bin" ++ 47 :: tail.take 1013) := by
        rw [hlit]
        simp

/-- The path that is executed has no other characters. -/
theorem fsPath_chars {path : Bytes} (h : ∀ c ∈ path, PathChar c) :
    ∀ c ∈ fsPathOf path, PathChar c := by
  intro c hc
  rcases List.mem_append.mp (List.mem_of_mem_take hc) with hdot | hpath
  · have hc : c = 46 := List.mem_singleton.mp hdot
    exact Or.inr (Or.inr (Or.inr (Or.inr hc)))
  · exact h c hpath

/-- The dot in front does not make two dots in a row. -/
theorem fsPath_dots {path : Bytes} (h : text "/cgi-bin/" <+: path)
    (hdots : ¬ text ".." <:+: path) : ¬ [46, 46] <:+: fsPathOf path := by
  intro hin
  have hwhole : [46, 46] <:+: 46 :: path := hin.trans (List.take_prefix _ _).isInfix
  obtain ⟨tail, rfl⟩ := h
  rcases List.infix_cons_iff.mp hwhole with hfront | hlater
  · obtain ⟨-, hfront⟩ := List.cons_prefix_cons.mp hfront
    have hslash : text "/cgi-bin/" ++ tail = 47 :: (text "cgi-bin/" ++ tail) := rfl
    rw [hslash] at hfront
    exact absurd (List.cons_prefix_cons.mp hfront).1 (by decide)
  · exact hdots hlater

/-! ## What the path depends on -/

/-- In front of the `?` there is none. -/
theorem mark_free {t : Bytes} {c : UInt8} (hc : c ∈ pathPart t) : decide (c ≠ 63) = true := by
  simpa using List.mem_takeWhile_imp hc

/-- A blank is no `?`. -/
theorem space_no_mark {c : UInt8} (h : isSpace c = true) : decide (c ≠ 63) = true := by
  apply decide_eq_true
  intro hc
  rw [hc] at h
  cases h

/-- A conversion that takes the word `w` takes its path where the text stops at its first `?`. -/
theorem scanWord_mark {n : Nat} {blanks w rest : Bytes}
    (hblanks : ∀ c ∈ blanks, isSpace c = true) (hpath : pathPart w ≠ [])
    (hw : ∀ c ∈ w, isSpace c = false) (hlen : w.length ≤ n)
    (hend : w.length = n ∨ ∀ c, rest.head? = some c → isSpace c = true) :
    ∃ r, scanWord n (blanks ++ (w ++ rest).takeWhile (· ≠ 63)) = some (pathPart w, r) := by
  rcases pathPart_split w with ⟨hnil, hsame⟩ | ⟨q, -, hq⟩
  · have hno : ∀ c ∈ w, decide (c ≠ 63) = true := by
      rw [← hsame]
      exact fun c hc => mark_free hc
    refine ⟨rest.takeWhile (· ≠ 63), ?_⟩
    rw [List.takeWhile_append_of_pos hno, hsame]
    refine scanWord_blanks hblanks (hsame ▸ hpath) hw hlen (hend.imp id fun hhead c hc => ?_)
    cases rest with
    | nil => cases hc
    | cons x r =>
      have hx := hhead x rfl
      have htake : (x :: r).takeWhile (· ≠ 63) = x :: r.takeWhile (· ≠ 63) :=
        List.takeWhile_cons_of_pos (space_no_mark hx)
      rw [htake] at hc
      obtain rfl : x = c := Option.some.inj hc
      exact hx
  · refine ⟨[], ?_⟩
    have htake : (w ++ rest).takeWhile (· ≠ 63) = pathPart w := by
      have hsplit : w ++ rest = pathPart w ++ 63 :: (q ++ rest) := by
        conv_lhs => rw [hq]
        simp
      rw [hsplit]
      exact Spans.takeWhile_span (fun c hc => mark_free hc) (Spans.Stops.cons (by decide) _)
    have hword : ∀ c ∈ pathPart w, isSpace c = false :=
      fun c hc => hw c ((List.takeWhile_prefix _).subset hc)
    have hshort : (pathPart w).length ≤ n :=
      Nat.le_trans (List.takeWhile_prefix _).length_le hlen
    have hscan : scanWord n (blanks ++ (pathPart w ++ [])) = some (pathPart w, []) :=
      scanWord_blanks hblanks hpath hword hshort (Or.inr (by simp))
    rw [htake]
    rwa [List.append_nil] at hscan

/-- Where the text stops at its first `?`, the target stops there, too. -/
theorem front_words {buf m t : Bytes} (hm : (wordsOf buf).method = some m)
    (ht : (wordsOf buf).target = some t) (hmark : 63 ∉ m) (hpath : pathPart t ≠ []) :
    (wordsOf (buf.takeWhile (· ≠ 63))).target = some (pathPart t) := by
  obtain ⟨r₁, r₂, h₁, h₂⟩ := words_scan hm ht
  obtain ⟨b₁, rfl, hb₁, hne₁, hw₁, hlen₁, hend₁⟩ := scanWord_some (by decide) h₁
  obtain ⟨b₂, rfl, hb₂, hne₂, hw₂, hlen₂, hend₂⟩ := scanWord_some (by decide) h₂
  -- in front of the second word there is no `?`
  have hcut : (b₁ ++ (m ++ (b₂ ++ (t ++ r₂)))).takeWhile (· ≠ 63) =
      b₁ ++ (m ++ (b₂ ++ (t ++ r₂).takeWhile (· ≠ 63))) := by
    have hw : ∀ c ∈ m, decide (c ≠ 63) = true :=
      fun c hc => decide_eq_true fun h => hmark (h ▸ hc)
    rw [List.takeWhile_append_of_pos fun c hc => space_no_mark (hb₁ c hc),
      List.takeWhile_append_of_pos hw,
      List.takeWhile_append_of_pos fun c hc => space_no_mark (hb₂ c hc)]
  have hfirst : scanWord 15 (b₁ ++ (m ++ (b₂ ++ (t ++ r₂).takeWhile (· ≠ 63)))) =
      some (m, b₂ ++ (t ++ r₂).takeWhile (· ≠ 63)) := by
    refine scanWord_blanks hb₁ hne₁ hw₁ hlen₁ (hend₁.imp id fun hhead c hc => ?_)
    cases b₂ with
    | nil =>
      -- no blank behind the first word: then the second one would go on with it
      obtain ⟨x, w, rfl⟩ := List.exists_cons_of_ne_nil hne₂
      have hx := hhead x rfl
      rw [hw₂ x List.mem_cons_self] at hx
      cases hx
    | cons x b => exact hhead c hc
  obtain ⟨r, hsecond⟩ := scanWord_mark hb₂ hpath hw₂ hlen₂ hend₂
  rw [hcut, wordsOf, hfirst]
  dsimp only
  rw [hsecond]

/-- The bytes in front of the first `?` of what is received. -/
def beforeMark (client : List Bytes) : Option Bytes := client.head?.map (List.takeWhile (· ≠ 63))

/-- Cutting at the NUL, at the length of the buffer and at the `?` may be done in any order. -/
theorem received_front {client : List Bytes} {buffer : Bytes}
    (h : recv client (bufferSize - 1) = some buffer) :
    ∃ front, beforeMark client = some front ∧ (buffer.takeWhile (· ≠ 0)).takeWhile (· ≠ 63) =
      (front.take (bufferSize - 1)).takeWhile (· ≠ 0) := by
  cases client with
  | nil => cases h
  | cons piece more =>
    cases piece with
    | nil => cases h
    | cons c piece =>
      obtain rfl : (c :: piece).take (bufferSize - 1) = buffer := Option.some.inj h
      refine ⟨(c :: piece).takeWhile (· ≠ 63), rfl, ?_⟩
      have hcomm : ∀ s : Bytes, (s.takeWhile (· ≠ 0)).takeWhile (· ≠ 63) =
          (s.takeWhile (· ≠ 63)).takeWhile (· ≠ 0) := by
        intro s
        rw [List.takeWhile_takeWhile, List.takeWhile_takeWhile]
        refine congrArg (List.takeWhile · s) (funext fun c => ?_)
        exact decide_eq_decide.mpr and_comm
      rw [hcomm, ← List.take_takeWhile]

/-- **CGI confinement.**  Whatever is received: the path that `run_cgi` executes begins with
    `./cgi-bin/`, has no bytes but those of `PathChar`, leads into `./cgi-bin` and does not leave
    it again; and any other request with the same bytes in front of its first `?` has the same
    path executed, if any. -/
theorem cgi_confined (world : World) (client : List Bytes) (method : Buffer 16)
    (target : Buffer 1024) (call : CgiCall)
    (h : (handleRequest world client method target).cgi = some call) :
    text "./cgi-bin/" <+: call.path ∧ (∀ c ∈ call.path, PathChar c) ∧
      Confined [text "cgi-bin"] (trail 46 Place.home (components 47 call.path)) ∧
      ∀ (world' : World) (client' : List Bytes) (method' : Buffer 16) (target' : Buffer 1024)
        (call' : CgiCall), (handleRequest world' client' method' target').cgi = some call' →
        beforeMark client' = beforeMark client → call'.path = call.path := by
  obtain ⟨buffer, t, ⟨hrecv, -, hm, ht, hvalid, -⟩, rfl⟩ := handleRequest_cgi_iff.mp h
  have hpath : (callOf t).path = fsPathOf (pathPart t) := rfl
  obtain ⟨hfront, hdots, hchars⟩ := validCgiPath_iff.mp hvalid
  obtain ⟨rest, hsplit⟩ := fsPath_split hfront
  have hne : ∀ {p : Bytes}, text "/cgi-bin/" <+: p → p ≠ [] := by
    intro p hp hnil
    rw [hnil] at hp
    exact absurd (List.prefix_nil.mp hp) (by decide +kernel)
  refine ⟨?_, ?_, ?_, ?_⟩
  · rw [hpath, hsplit]
    have hlit : text "./cgi-bin/" = [46] ++ 47 :: (text "cgi-bin" ++ [47]) := by decide +kernel
    rw [hlit]
    exact ⟨rest, by simp⟩
  · rw [hpath]
    exact fsPath_chars hchars
  · have hno := fsPath_dots hfront hdots
    rw [hsplit] at hno
    rw [hpath, hsplit]
    exact confined_down (by decide) (by decide +kernel) ⟨by decide +kernel, by decide +kernel⟩ hno
  · intro world' client' method' target' call' h' hsame
    obtain ⟨buffer', t', ⟨hrecv', -, hm', ht', hvalid', -⟩, rfl⟩ := handleRequest_cgi_iff.mp h'
    have hpath' : (callOf t').path = fsPathOf (pathPart t') := rfl
    obtain ⟨front, hf, hcut⟩ := received_front hrecv
    obtain ⟨front', hf', hcut'⟩ := received_front hrecv'
    obtain rfl : front' = front := Option.some.inj (hf'.symm.trans (hsame.trans hf))
    have hget : (63 : UInt8) ∉ text "GET" := by decide +kernel
    have hw := front_words hm ht hget (hne hfront)
    have hw' := front_words hm' ht' hget (hne (validCgiPath_iff.mp hvalid').1)
    rw [hcut] at hw
    rw [hcut', hw] at hw'
    rw [hpath, hpath', Option.some.inj hw']

/-- A file system where every path can be executed, but no process is started. -/
def idleWorld : World := ⟨fun _ => true, fun _ => .noFork⟩

/-- A path with dots, an empty component and a query. -/
theorem cgi_confined_query :
    text "./cgi-bin/" <+: text "./cgi-bin/./a//b.c" ∧
      (∀ c ∈ text "./cgi-bin/./a//b.c", PathChar c) ∧
      Confined [text "cgi-bin"]
        (trail 46 Place.home (components 47 (text "./cgi-bin/./a//b.c"))) ∧
      ∀ (world' : World) (client' : List Bytes) (method' : Buffer 16) (target' : Buffer 1024)
        (call' : CgiCall), (handleRequest world' client' method' target').cgi = some call' →
        beforeMark client' = beforeMark [text "GET /cgi-bin/./a//b.c?../x HTTP/1.1"] →
          call'.path = text "./cgi-bin/./a//b.c" := by
  have hasks : Asks idleWorld [text "GET /cgi-bin/./a//b.c?../x HTTP/1.1"]
      (text "GET /cgi-bin/./a//b.c?../x HTTP/1.1") (text "/cgi-bin/./a//b.c?../x") :=
    ⟨by decide +kernel, by decide +kernel, by decide +kernel, by decide +kernel,
      by decide +kernel, rfl⟩
  have hcall : (handleRequest idleWorld [text "GET /cgi-bin/./a//b.c?../x HTTP/1.1"] (fun _ => 0)
      fun _ => 0).cgi = some ⟨text "GET", text "./cgi-bin/./a//b.c", text "../x"⟩ :=
    handleRequest_cgi_iff.mpr ⟨_, _, hasks, by decide +kernel⟩
  exact cgi_confined _ _ _ _ _ hcall

end Httpd
