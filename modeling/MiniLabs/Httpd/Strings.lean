/-
  httpd — strings in buffers, and the words of a text.

  1. **Buffers** — `Holds b s`: the buffer `b` holds the string `s` and its NUL; from there on its
     contents do not matter.
  2. **Specification** — `methodOf`, `pathOf` and `decisionOf` say, without buffers, what the bytes
     received lead to.  Where `methodOf` or `pathOf` is `none` the buffer keeps what it held.
  3. **The crux (`handleRequest_spec`)** — `handle_request` does so: each conversion of `sscanf`
     takes a word off the front (`scanWord_some`) or leaves its buffer as it was (`sscanf_left`),
     and what is cut at the `?` is the path and the query.
-/
import Mathlib.Data.List.TakeWhile
import MiniLabs.Httpd.Request
import MiniLabs.Lib.Spans

set_option linter.unusedVariables false

namespace Httpd

/-! ## Strings in buffers -/

/-- The buffer holds the string and its NUL. -/
structure Holds {cap : Nat} (b : Buffer cap) (s : Bytes) : Prop where
  fits : s.length < cap
  bytes : ∀ (i : Nat) (hi : i < s.length), b ⟨i, Nat.lt_trans hi fits⟩ = s[i]
  nul : b ⟨s.length, fits⟩ = 0
  no_nul : ∀ c ∈ s, c ≠ 0

section Holds

variable {cap : Nat} {b : Buffer cap} {s s₁ s₂ : Bytes}

/-- A buffer has the string that it holds. -/
theorem Holds.str (h : Holds b s) : b.str = s := by
  have hlen : s.length < (List.ofFn b).length := by
    rw [List.length_ofFn]
    exact h.fits
  have hget : (List.ofFn b)[s.length] = 0 := by
    rw [List.getElem_ofFn]
    exact h.nul
  have htake : (List.ofFn b).take s.length = s := by
    refine List.ext_getElem ?_ fun i hi hi' => ?_
    · rw [List.length_take]
      omega
    · rw [List.getElem_take, List.getElem_ofFn]
      exact h.bytes i hi'
  have hsplit : List.ofFn b = s ++ 0 :: (List.ofFn b).drop (s.length + 1) :=
    calc List.ofFn b = (List.ofFn b).take s.length ++ (List.ofFn b).drop s.length :=
          (List.take_append_drop _ _).symm
      _ = s ++ 0 :: (List.ofFn b).drop (s.length + 1) := by
          rw [htake, List.drop_eq_getElem_cons hlen, hget]
  rw [Buffer.str, hsplit]
  exact Spans.takeWhile_span (fun c hc => decide_eq_true (h.no_nul c hc))
    (Spans.Stops.cons (by decide) _)

/-- A string that is stored is held, if it fits with its NUL. -/
theorem holds_store (b : Buffer cap) (hlen : s.length < cap) (hs : ∀ c ∈ s, c ≠ 0) :
    Holds (b.store s) s where
  fits := hlen
  bytes := by
    intro i hi
    exact dif_pos hi
  nul := by
    show (if h : s.length < s.length then _ else if s.length = s.length then _ else _) = _
    rw [dif_neg (Nat.lt_irrefl _), if_pos rfl]
  no_nul := hs

/-- `snprintf` stores its string, if it fits. -/
theorem holds_snprintf (b : Buffer cap) (hlen : s.length < cap) (hs : ∀ c ∈ s, c ≠ 0) :
    Holds (b.snprintf s) s := by
  have hwhole : s.take (cap - 1) = s := List.take_of_length_le (by omega)
  rw [Buffer.snprintf, hwhole]
  exact holds_store b hlen hs

/-- The last cell is a NUL anyway. -/
theorem Holds.put_last (h : Holds b s) : Holds (b.put (cap - 1) 0) s where
  fits := h.fits
  bytes := by
    intro i hi
    have hfits := h.fits
    exact (if_neg (by dsimp only; omega)).trans (h.bytes i hi)
  nul := by
    show (if s.length = cap - 1 then (0 : UInt8) else b ⟨s.length, h.fits⟩) = 0
    rw [h.nul, ite_self]
  no_nul := h.no_nul

/-- The string is cut. -/
theorem Holds.cut {c : UInt8} (h : Holds b (s₁ ++ c :: s₂)) : Holds (b.put s₁.length 0) s₁ := by
  have hfits : s₁.length < cap := by
    have hlen := h.fits
    rw [List.length_append, List.length_cons] at hlen
    omega
  refine ⟨hfits, fun i hi => ?_, if_pos rfl, fun c hc => h.no_nul c (List.mem_append_left _ hc)⟩
  have hi' : i < (s₁ ++ c :: s₂).length := by
    rw [List.length_append]
    omega
  refine (if_neg (Nat.ne_of_lt hi)).trans ((h.bytes i hi').trans ?_)
  exact List.getElem_append_left hi

end Holds

/-! ## Words -/

/-- A word behind blanks is taken whole, or up to `n` bytes. -/
theorem scanWord_blanks {n : Nat} {blanks word rest : Bytes}
    (hblanks : ∀ c ∈ blanks, isSpace c = true) (hne : word ≠ [])
    (hword : ∀ c ∈ word, isSpace c = false) (hlen : word.length ≤ n)
    (hend : word.length = n ∨ ∀ c, rest.head? = some c → isSpace c = true) :
    scanWord n (blanks ++ (word ++ rest)) = some (word, rest) := by
  obtain ⟨c, t, rfl⟩ := List.exists_cons_of_ne_nil hne
  have hdrop : (blanks ++ (c :: t ++ rest)).dropWhile isSpace = c :: (t ++ rest) := by
    rw [List.dropWhile_append_of_pos hblanks, List.cons_append,
      List.dropWhile_cons_of_neg (by rw [hword c List.mem_cons_self]; decide)]
  have hnot : ∀ x ∈ c :: t, (!isSpace x) = true := by
    intro x hx
    rw [hword x hx]
    rfl
  have hstop : (c :: t).length = n ∨ Spans.Stops (fun c => !isSpace c) rest :=
    hend.imp id Spans.stops_not.mpr
  rw [scanWord, hdrop]
  dsimp only
  rw [← List.cons_append, Spans.take_takeWhile_span hnot hlen hstop, List.drop_left]

/-- What a conversion `%ns` takes: the word behind the blanks, up to `n` bytes of it. -/
theorem scanWord_some {n : Nat} {s word rest : Bytes} (hn : 0 < n)
    (h : scanWord n s = some (word, rest)) : ∃ blanks, s = blanks ++ (word ++ rest) ∧
      (∀ c ∈ blanks, isSpace c = true) ∧ word ≠ [] ∧ (∀ c ∈ word, isSpace c = false) ∧
      word.length ≤ n ∧ (word.length = n ∨ ∀ c, rest.head? = some c → isSpace c = true) := by
  rw [scanWord] at h
  split at h
  · cases h
  · rename_i c t ht
    obtain ⟨hsplit, hword, hlen, hend⟩ := Spans.take_span (fun c => !isSpace c) n (c :: t) rfl
    have hc : isSpace c = false := Spans.head_dropWhile ht
    cases h
    refine ⟨s.takeWhile isSpace, ?_, fun c hc => List.mem_takeWhile_imp hc, ?_, ?_, hlen,
      hend.imp id Spans.stops_not.mp⟩
    · rw [← hsplit, ← ht, List.takeWhile_append_dropWhile]
    · rw [List.takeWhile_cons_of_pos (by rw [hc]; rfl), List.take_cons hn]
      exact List.cons_ne_nil _ _
    · intro x hx
      simpa using hword x hx

/-- A conversion fails where only blanks are left. -/
theorem scanWord_none {n : Nat} {s : Bytes} :
    scanWord n s = none ↔ ∀ c ∈ s, isSpace c = true := by
  rw [scanWord]
  constructor
  · intro h
    split at h
    · rename_i hs
      exact List.dropWhile_eq_nil_iff.mp hs
    · cases h
  · intro h
    rw [List.dropWhile_eq_nil_iff.mpr h]

/-! ## What `handle_request` leaves -/

/-- The words of a text: those that the conversions of `sscanf` find. -/
structure Words where
  method : Option Bytes
  target : Option Bytes
  version : Option Bytes

/-- The words `parse_request_line` looks for. -/
def wordsOf (buf : Bytes) : Words :=
  match scanWord 15 buf with
  | none => ⟨none, none, none⟩
  | some (method, buf) =>
    match scanWord 1023 buf with
    | none => ⟨some method, none, none⟩
    | some (target, buf) => ⟨some method, some target, (scanWord 31 buf).map Prod.fst⟩

/-- The request line is accepted: three words, the last one begins with `HTTP/`. -/
def Words.accepted (w : Words) : Bool := w.version.any fun v => startsWith v "HTTP/"

/-- The path of a target. -/
def pathPart (target : Bytes) : Bytes := target.takeWhile (· ≠ 63)

/-- The method that the log gets, unless it is what was in the buffer. -/
def methodOf (client : List Bytes) : Option Bytes :=
  match recv client (bufferSize - 1) with
  | none => some (text "-")
  | some buffer => (wordsOf (buffer.takeWhile (· ≠ 0))).method

/-- The path that the log gets, unless it is what was in the buffer. -/
def pathOf (client : List Bytes) : Option Bytes :=
  match recv client (bufferSize - 1) with
  | none => some (text "-")
  | some buffer =>
    let words := wordsOf (buffer.takeWhile (· ≠ 0))
    if words.accepted then words.target.map pathPart else words.target

/-- What `handle_request` does, apart from its two buffers. -/
structure Decision where
  status : Nat
  sent : List Bytes
  parsed : Option (Bytes × Bytes × Bytes)
  cgi : Option CgiCall

/-- What was decided about a request, without the buffers. -/
def Handled.decision (h : Handled) : Decision := ⟨h.status, h.sent, h.parsed, h.cgi⟩

/-- What an accepted request line leads to. -/
def serve (world : World) (method target : Bytes) : Decision :=
  let query := (target.dropWhile (· ≠ 63)).tail.take 1023
  let path := pathPart target
  let parsed := some (method, path, query)
  let fsPath := (text "." ++ path).take 1023
  if method ≠ text "GET" ∨ validCgiPath path = false ∨ world.executable fsPath = false then
    ⟨404, simpleResponse 404 "not found\n", parsed, none⟩
  else
    let call := ⟨method, fsPath, query⟩
    let (status, out) := runCgi world call
    ⟨status, cgiResponse status out, parsed, some call⟩

/-- What the bytes received lead to. -/
def decisionOf (world : World) (client : List Bytes) : Decision :=
  match recv client (bufferSize - 1) with
  | none => ⟨500, [], none, none⟩
  | some buffer =>
    let words := wordsOf (buffer.takeWhile (· ≠ 0))
    match words.accepted, words.method, words.target with
    | true, some method, some target => serve world method target
    | _, _, _ => ⟨500, simpleResponse 500 "bad request\n", none, none⟩

/-- What the buffer holds: the string, or what it held. -/
def Left {cap : Nat} (before after : Buffer cap) : Option Bytes → Prop
  | none => after = before
  | some s => Holds after s

section Handle

variable {methodCap targetCap : Nat}

/-- The words are bytes of the text. -/
theorem scanWord_no_nul {n : Nat} {s word rest : Bytes} (hn : 0 < n)
    (h : scanWord n s = some (word, rest)) (hs : ∀ c ∈ s, c ≠ 0) :
    (∀ c ∈ word, c ≠ 0) ∧ (∀ c ∈ rest, c ≠ 0) ∧ word.length ≤ n := by
  obtain ⟨blanks, rfl, -, -, -, hlen, -⟩ := scanWord_some hn h
  refine ⟨fun c hc => hs c ?_, fun c hc => hs c ?_, hlen⟩
  · exact List.mem_append_right _ (List.mem_append_left _ hc)
  · exact List.mem_append_right _ (List.mem_append_right _ hc)

/-- **`sscanf` writes the words it takes, and leaves the other buffers alone.**. -/
theorem sscanf_left (hm : 15 < methodCap) (ht : 1023 < targetCap) {buf : Bytes}
    (hbuf : ∀ c ∈ buf, c ≠ 0) (method : Buffer methodCap) (target : Buffer targetCap) :
    Left method (sscanf buf method target).method (wordsOf buf).method ∧
      Left target (sscanf buf method target).target (wordsOf buf).target := by
  rw [sscanf, wordsOf]
  cases h₁ : scanWord 15 buf with
  | none => exact ⟨rfl, rfl⟩
  | some p₁ =>
    obtain ⟨w₁, r₁⟩ := p₁
    obtain ⟨hw₁, hr₁, hlen₁⟩ := scanWord_no_nul (by decide) h₁ hbuf
    have hstore₁ : Holds (method.store w₁) w₁ :=
      holds_store method (Nat.lt_of_le_of_lt hlen₁ hm) hw₁
    dsimp only
    cases h₂ : scanWord 1023 r₁ with
    | none => exact ⟨hstore₁, rfl⟩
    | some p₂ =>
      obtain ⟨w₂, r₂⟩ := p₂
      obtain ⟨hw₂, -, hlen₂⟩ := scanWord_no_nul (by decide) h₂ hr₁
      have hstore₂ : Holds (target.store w₂) w₂ :=
        holds_store target (Nat.lt_of_le_of_lt hlen₂ ht) hw₂
      dsimp only
      cases scanWord 31 r₂ with
      | none => exact ⟨hstore₁, hstore₂⟩
      | some p₃ => exact ⟨hstore₁, hstore₂⟩

/-- The third word is there when `sscanf` returns 3, and then so are the others. -/
theorem sscanf_count (buf : Bytes) (method : Buffer methodCap) (target : Buffer targetCap) :
    ((sscanf buf method target).count ≠ 3 ∧ (wordsOf buf).version = none) ∨
      ((sscanf buf method target).count = 3 ∧
        (wordsOf buf).version = some (sscanf buf method target).version ∧
        ∃ m t, (wordsOf buf).method = some m ∧ (wordsOf buf).target = some t) := by
  rw [sscanf, wordsOf]
  cases scanWord 15 buf with
  | none => exact Or.inl ⟨nofun, rfl⟩
  | some p₁ =>
    obtain ⟨w₁, r₁⟩ := p₁
    dsimp only
    cases scanWord 1023 r₁ with
    | none => exact Or.inl ⟨nofun, rfl⟩
    | some p₂ =>
      obtain ⟨w₂, r₂⟩ := p₂
      dsimp only
      cases scanWord 31 r₂ with
      | none => exact Or.inl ⟨nofun, rfl⟩
      | some p₃ => exact Or.inr ⟨rfl, rfl, w₁, w₂, rfl, rfl⟩

/-- `parse_request_line` accepts what `wordsOf` does, and leaves its words. -/
theorem parseRequestLine_spec (hm : 15 < methodCap) (ht : 1023 < targetCap) {buf : Bytes}
    (hbuf : ∀ c ∈ buf, c ≠ 0) (method : Buffer methodCap) (target : Buffer targetCap) :
    ∃ method' target', parseRequestLine buf method target =
        ((wordsOf buf).accepted, method', target') ∧
      Left method method' (wordsOf buf).method ∧ Left target target' (wordsOf buf).target := by
  obtain ⟨hmethod, htarget⟩ := sscanf_left hm ht hbuf method target
  rw [parseRequestLine]
  rcases sscanf_count buf method target with ⟨hcount, hversion⟩ | ⟨hcount, hversion, m, t, hm', ht'⟩
  · refine ⟨_, _, ?_, hmethod, htarget⟩
    rw [if_pos hcount, Words.accepted, hversion]
    rfl
  · rw [hm'] at hmethod ⊢
    rw [ht'] at htarget ⊢
    refine ⟨_, _, ?_, hmethod.put_last, htarget.put_last⟩
    rw [if_neg (not_not_intro hcount), Words.accepted, hversion]
    rfl

/-- A target falls into the path and what is behind the `?`. -/
theorem pathPart_split (target : Bytes) :
    (target.dropWhile (· ≠ 63) = [] ∧ pathPart target = target) ∨
      ∃ q, target.dropWhile (· ≠ 63) = 63 :: q ∧ target = pathPart target ++ 63 :: q := by
  have hsplit : target = pathPart target ++ target.dropWhile (· ≠ 63) :=
    List.takeWhile_append_dropWhile.symm
  cases hd : target.dropWhile (· ≠ 63) with
  | nil =>
    rw [hd, List.append_nil] at hsplit
    exact Or.inl ⟨rfl, hsplit.symm⟩
  | cons c q =>
    have hc : c = 63 := by simpa using Spans.head_dropWhile hd
    subst hc
    rw [hd] at hsplit
    exact Or.inr ⟨q, rfl, hsplit⟩

/-- The conversions that find a method and a target. -/
theorem words_scan {buf m t : Bytes} (hm : (wordsOf buf).method = some m)
    (ht : (wordsOf buf).target = some t) :
    ∃ r₁ r₂, scanWord 15 buf = some (m, r₁) ∧ scanWord 1023 r₁ = some (t, r₂) := by
  rw [wordsOf] at hm ht
  cases h₁ : scanWord 15 buf with
  | none =>
    rw [h₁] at hm
    cases hm
  | some p₁ =>
    obtain ⟨m', r₁⟩ := p₁
    rw [h₁] at hm ht
    dsimp only at hm ht
    cases h₂ : scanWord 1023 r₁ with
    | none =>
      rw [h₂] at ht
      cases ht
    | some p₂ =>
      obtain ⟨t', r₂⟩ := p₂
      rw [h₂] at hm ht
      obtain rfl : m' = m := Option.some.inj hm
      obtain rfl : t' = t := Option.some.inj ht
      exact ⟨r₁, r₂, rfl, h₂⟩

/-- The conversions that take an accepted line apart. -/
theorem accepted_scan {buf : Bytes} (h : (wordsOf buf).accepted = true) :
    ∃ m r₁ t r₂ v r₃, scanWord 15 buf = some (m, r₁) ∧ scanWord 1023 r₁ = some (t, r₂) ∧
      scanWord 31 r₂ = some (v, r₃) ∧ (wordsOf buf).method = some m ∧
      (wordsOf buf).target = some t ∧ text "HTTP/" <+: v := by
  have b : Buffer 16 := fun _ => 0
  rcases sscanf_count buf b b with ⟨-, hversion⟩ | ⟨-, -, m, t, hm, ht⟩
  · rw [Words.accepted, hversion] at h
    cases h
  obtain ⟨r₁, r₂, h₁, h₂⟩ := words_scan hm ht
  rw [wordsOf, h₁] at h
  dsimp only at h
  rw [h₂] at h
  dsimp only at h
  cases h₃ : scanWord 31 r₂ with
  | none =>
    rw [h₃] at h
    cases h
  | some p₃ =>
    obtain ⟨v, r₃⟩ := p₃
    rw [h₃] at h
    exact ⟨m, r₁, t, r₂, v, r₃, h₁, h₂, h₃, hm, ht, List.isPrefixOf_iff_prefix.mp h⟩

/-- The target with its query cut off. -/
theorem holds_path {target : Buffer 1024} {t : Bytes} (h : Holds target t) :
    Holds (if t.dropWhile (· ≠ 63) = [] then target
      else target.put (t.takeWhile (· ≠ 63)).length 0) (pathPart t) := by
  rcases pathPart_split t with ⟨hnil, hpath⟩ | ⟨q, hq, hsplit⟩
  · rw [if_pos hnil, hpath]
    exact h
  · rw [if_neg (by rw [hq]; exact List.cons_ne_nil _ _)]
    have hcut : Holds target (t.takeWhile (· ≠ 63) ++ 63 :: q) := by
      have hsplit' : t.takeWhile (· ≠ 63) ++ 63 :: q = t := hsplit.symm
      rw [hsplit']
      exact h
    exact hcut.cut

/-- **What `handle_request` leaves in its buffers, and what it does.** -/
theorem handleRequest_spec (world : World) (client : List Bytes) (method : Buffer 16)
    (target : Buffer 1024) :
    Left method (handleRequest world client method target).method (methodOf client) ∧
      Left target (handleRequest world client method target).target (pathOf client) ∧
      (handleRequest world client method target).decision = decisionOf world client := by
  rw [handleRequest, methodOf, pathOf, decisionOf]
  cases hrecv : recv client (bufferSize - 1) with
  | none =>
    have hdash : ∀ c ∈ text "-", c ≠ 0 := by decide +kernel
    have hlen : (text "-").length = 1 := rfl
    refine ⟨holds_snprintf method ?_ hdash, holds_snprintf target ?_ hdash, rfl⟩ <;> omega
  | some buffer =>
    dsimp only
    have hbuf : ∀ c ∈ buffer.takeWhile (· ≠ 0), c ≠ 0 :=
      fun c hc => by simpa using List.mem_takeWhile_imp hc
    obtain ⟨m, t, hparse, hm, ht⟩ := parseRequestLine_spec (by decide) (by decide) hbuf method target
    rw [hparse]
    cases hacc : (wordsOf (buffer.takeWhile (· ≠ 0))).accepted with
    | false => exact ⟨hm, ht, rfl⟩
    | true =>
      obtain ⟨w₁, -, w₂, -, -, -, -, -, -, hw₁, hw₂, -⟩ := accepted_scan hacc
      rw [hw₁] at hm ⊢
      rw [hw₂] at ht ⊢
      have hpath := holds_path ht
      have hlen : (pathPart w₂).length ≤ 1023 := Nat.le_of_lt_succ hpath.fits
      dsimp only
      rw [ht.str, hm.str]
      generalize (if w₂.dropWhile (· ≠ 63) = [] then t
        else t.put (w₂.takeWhile (· ≠ 63)).length 0) = t' at hpath ⊢
      have hsn : Holds (t'.snprintf (pathPart w₂)) (pathPart w₂) :=
        holds_snprintf t' hpath.fits hpath.no_nul
      rw [hpath.str, List.take_of_length_le hlen, if_pos (rfl : true = true), serve]
      dsimp only
      by_cases hget : w₁ ≠ text "GET" ∨ validCgiPath (pathPart w₂) = false
      · have hno : w₁ ≠ text "GET" ∨ validCgiPath (pathPart w₂) = false ∨
            world.executable ((text "." ++ pathPart w₂).take 1023) = false := by tauto
        rw [if_pos hget, if_pos hno]
        exact ⟨hm, hsn, rfl⟩
      rw [if_neg hget]
      by_cases hexec : world.executable ((text "." ++ pathPart w₂).take 1023) = false
      · rw [if_pos hexec, if_pos (Or.inr (Or.inr hexec))]
        exact ⟨hm, hsn, rfl⟩
      · have hyes : ¬ (w₁ ≠ text "GET" ∨ validCgiPath (pathPart w₂) = false ∨
            world.executable ((text "." ++ pathPart w₂).take 1023) = false) := by tauto
        rw [if_neg hexec, if_neg hyes]
        exact ⟨hm, hsn, rfl⟩

end Handle

/-! ## When a CGI is called -/

/-- The query of a target. -/
def queryPart (target : Bytes) : Bytes := (target.dropWhile (· ≠ 63)).tail

/-- How the CGI of a target is called. -/
def callOf (target : Bytes) : CgiCall :=
  ⟨text "GET", (text "." ++ pathPart target).take 1023, (queryPart target).take 1023⟩

/-- The received text asks for the target `t`: its line is accepted, and nothing is wrong with the
    path. -/
structure Asks (world : World) (client : List Bytes) (buffer t : Bytes) : Prop where
  received : recv client (bufferSize - 1) = some buffer
  accepted : (wordsOf (buffer.takeWhile (· ≠ 0))).accepted = true
  method : (wordsOf (buffer.takeWhile (· ≠ 0))).method = some (text "GET")
  target : (wordsOf (buffer.takeWhile (· ≠ 0))).target = some t
  valid : validCgiPath (pathPart t) = true
  executable : world.executable (callOf t).path = true

/-- What is done for a target that is asked for. -/
theorem Asks.decision {world : World} {client : List Bytes} {buffer t : Bytes}
    (h : Asks world client buffer t) :
    (decisionOf world client).cgi = some (callOf t) ∧
      (decisionOf world client).sent =
        cgiResponse (runCgi world (callOf t)).1 (runCgi world (callOf t)).2 := by
  have hserved : ¬ (text "GET" ≠ text "GET" ∨ validCgiPath (pathPart t) = false ∨
      world.executable ((text "." ++ pathPart t).take 1023) = false) := by
    have hexec : world.executable ((text "." ++ pathPart t).take 1023) = true := h.executable
    rw [h.valid, hexec]
    simp
  have hdecision : decisionOf world client = serve world (text "GET") t := by
    rw [decisionOf, h.received]
    dsimp only
    rw [h.accepted, h.method, h.target]
  rw [hdecision, serve]
  dsimp only
  rw [if_neg hserved]
  exact ⟨rfl, rfl⟩

/-- **When `handle_request` reaches `run_cgi`**, and with what. -/
theorem handleRequest_cgi_iff {world : World} {client : List Bytes} {method : Buffer 16}
    {target : Buffer 1024} {call : CgiCall} :
    (handleRequest world client method target).cgi = some call ↔
      ∃ buffer t, Asks world client buffer t ∧ call = callOf t := by
  have hcgi : (handleRequest world client method target).cgi = (decisionOf world client).cgi := by
    rw [← (handleRequest_spec world client method target).2.2]
    rfl
  rw [hcgi]
  constructor
  · intro h
    rw [decisionOf] at h
    split at h
    · cases h
    rename_i buffer hrecv
    dsimp only at h
    split at h
    · rename_i m t hacc hm ht
      rw [serve] at h
      dsimp only at h
      split at h
      · cases h
      · rename_i hserved
        simp only [not_or, not_not, ne_eq, Bool.not_eq_false] at hserved
        obtain ⟨rfl, hvalid, hexec⟩ := hserved
        exact ⟨buffer, t, ⟨hrecv, hacc, hm, ht, hvalid, hexec⟩, (Option.some.inj h).symm⟩
    · cases h
  · rintro ⟨buffer, t, hasks, rfl⟩
    exact hasks.decision.1

end Httpd
