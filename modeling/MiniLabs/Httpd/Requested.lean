/-
  httpd — the program that is executed and the program that was requested.

  1. **Specification** — the words of a text are its stretches without blanks, whole (`word`).  A
     CGI is called as the text asks (`Requested`) if its path is that of the target before the `?`,
     and its query what follows.
  2. **The crux (`scanWord_word`)** — `sscanf` takes words up to a width, and what is left of a word
     that is longer is its next word; the path then goes behind a dot into a buffer of its own size.
  3. **When it holds (`requested_iff`)** — exactly when the target has at most 1023 bytes and its
     path at most 1022.  `echox_executes_echo` has a path of 1023: its last letter is lost.
-/
import MiniLabs.Httpd.Confinement

set_option linter.unusedVariables false

namespace Httpd

/-! ## Whole words -/

/-- The first word of a text, whole. -/
def firstWord (s : Bytes) : Bytes := (s.dropWhile isSpace).takeWhile fun c => !isSpace c

/-- What follows the first word. -/
def afterWord (s : Bytes) : Bytes := (s.dropWhile isSpace).dropWhile fun c => !isSpace c

/-- The words of a text, counted from 0; `[]` where there are no more. -/
def word : Nat → Bytes → Bytes
  | 0, s => firstWord s
  | n + 1, s => word n (afterWord s)

/-- The text that is received: what the one call of `recv` gives, up to a NUL. -/
def receivedText (client : List Bytes) : Bytes :=
  ((recv client (bufferSize - 1)).getD []).takeWhile (· ≠ 0)

/-- The call does what the text asks for: its first three words are the method, the target and a
    version, and the path and the query are those of the target. -/
structure Requested (t : Bytes) (call : CgiCall) : Prop where
  method : word 0 t = call.method
  version : text "HTTP/" <+: word 2 t
  path : call.path = text "." ++ pathPart (word 1 t)
  query : call.query = queryPart (word 1 t)

/-- A conversion takes the beginning of the first word; a word that is short enough is taken
    whole. -/
theorem scanWord_word {n : Nat} {s w rest : Bytes} (h : scanWord n s = some (w, rest)) :
    w = (firstWord s).take n ∧ ((firstWord s).length ≤ n → rest = afterWord s) := by
  rw [scanWord] at h
  split at h
  · cases h
  rename_i c t hs
  obtain ⟨rfl, rfl⟩ := Prod.mk.inj (Option.some.inj h)
  refine ⟨by rw [firstWord, hs], fun hlen => ?_⟩
  rw [firstWord, hs] at hlen
  rw [List.take_of_length_le hlen, afterWord, hs]
  have hsplit : (c :: t).takeWhile (fun c => !isSpace c) ++ (c :: t).dropWhile (fun c => !isSpace c)
      = c :: t := List.takeWhile_append_dropWhile
  generalize (c :: t).takeWhile (fun c => !isSpace c) = front at hsplit ⊢
  generalize (c :: t).dropWhile (fun c => !isSpace c) = back at hsplit ⊢
  rw [← hsplit, List.drop_left]

/-! ## Paths and queries of cut targets -/

/-- A target is its path, or its path, a `?` and its query. -/
theorem target_parts (t : Bytes) : (pathPart t = t ∧ queryPart t = []) ∨
    t.length = (pathPart t).length + 1 + (queryPart t).length := by
  rcases pathPart_split t with ⟨hnil, hpath⟩ | ⟨q, hq, hsplit⟩
  · exact Or.inl ⟨hpath, by rw [queryPart, hnil]; rfl⟩
  · right
    have hquery : queryPart t = q := by rw [queryPart, hq]; rfl
    have hlen := congrArg List.length hsplit
    rw [List.length_append, List.length_cons] at hlen
    rw [hquery]
    omega

/-- A cut behind the path leaves the path alone. -/
theorem pathPart_take {t : Bytes} {n : Nat} (h : (pathPart t).length ≤ n) :
    pathPart (t.take n) = pathPart t := by
  rw [pathPart, ← List.take_takeWhile]
  exact List.take_of_length_le h

/-- A cut query is shorter. -/
theorem queryPart_take_length {t : Bytes} {n : Nat} (hpath : (pathPart t).length < n)
    (hlen : n < t.length) : (queryPart (t.take n)).length < (queryPart t).length := by
  have hwhole := target_parts t
  have hcut := target_parts (t.take n)
  rw [pathPart_take (Nat.le_of_lt hpath), List.length_take] at hcut
  rcases hwhole with ⟨hp, -⟩ | hwhole
  · rw [hp] at hpath
    omega
  · rcases hcut with ⟨hp, hq⟩ | hcut
    · have := congrArg List.length hp
      rw [List.length_take] at this
      omega
    · omega

/-! ## The result -/

/-- The words of the text that leads to a call, and the call. -/
theorem asks_words {world : World} {client : List Bytes} {buffer t : Bytes}
    (h : Asks world client buffer t) :
    word 0 (receivedText client) = text "GET" ∧ t = (word 1 (receivedText client)).take 1023 ∧
      ((word 1 (receivedText client)).length ≤ 1023 →
        text "HTTP/" <+: word 2 (receivedText client)) := by
  have htext : receivedText client = buffer.takeWhile (· ≠ 0) := by
    rw [receivedText, h.received]
    rfl
  obtain ⟨m, r₁, w, r₂, v, r₃, h₁, h₂, h₃, hmethod, htarget, hv⟩ := accepted_scan h.accepted
  obtain rfl : m = text "GET" := Option.some.inj (hmethod.symm.trans h.method)
  obtain rfl : w = t := Option.some.inj (htarget.symm.trans h.target)
  rw [← htext] at h₁
  obtain ⟨hm, hr₁⟩ := scanWord_word h₁
  obtain ⟨ht, hr₂⟩ := scanWord_word h₂
  obtain ⟨hv', -⟩ := scanWord_word h₃
  -- the method is shorter than its width, so it is the whole word
  have hshort : (firstWord (receivedText client)).length ≤ 15 := by
    have hlen := congrArg List.length hm
    have hget : (text "GET").length = 3 := by decide +kernel
    rw [List.length_take, hget] at hlen
    omega
  have hfirst : firstWord (receivedText client) = text "GET" := by
    rw [hm, List.take_of_length_le hshort]
  have hr₁ := hr₁ hshort
  rw [hr₁] at ht hr₂
  refine ⟨hfirst, ht, fun hlen => ?_⟩
  have hr₂ := hr₂ hlen
  rw [hr₂] at hv'
  rw [hv'] at hv
  exact hv.trans (List.take_prefix _ _)

/-- **The program executed is the program requested** exactly when the target has at most 1023
    bytes and its path at most 1022, for every text that leads to a CGI. -/
theorem requested_iff {world : World} {client : List Bytes} {method : Buffer 16}
    {target : Buffer 1024} {call : CgiCall}
    (h : (handleRequest world client method target).cgi = some call) :
    Requested (receivedText client) call ↔
      (word 1 (receivedText client)).length ≤ 1023 ∧
        (pathPart (word 1 (receivedText client))).length ≤ 1022 := by
  obtain ⟨buffer, t, hasks, rfl⟩ := handleRequest_cgi_iff.mp h
  obtain ⟨hmethod, ht, hversion⟩ := asks_words hasks
  obtain ⟨w, hw⟩ : ∃ w, w = word 1 (receivedText client) := ⟨_, rfl⟩
  rw [← hw] at ht hversion ⊢
  have hdot : (text "." ++ pathPart w).length = (pathPart w).length + 1 := by
    rw [List.length_append, Nat.add_comm]
    rfl
  constructor
  · rintro ⟨-, -, hpath, hquery⟩
    rw [← hw] at hpath hquery
    have hfits : (pathPart w).length ≤ 1022 := by
      have hlen : (callOf t).path.length ≤ 1023 := List.length_take_le _ _
      rw [hpath, hdot] at hlen
      omega
    refine ⟨?_, hfits⟩
    by_contra hlong
    -- a target that is cut behind its path loses the end of its query
    have hcut := queryPart_take_length (t := w) (n := 1023) (by omega) (by omega)
    have hlen : (callOf t).query.length ≤ (queryPart t).length := List.length_take_le' _ _
    rw [hquery, ht] at hlen
    omega
  · rintro ⟨hlen, hpath⟩
    obtain rfl : t = w := by rw [ht, List.take_of_length_le hlen]
    have hquery : (queryPart t).length ≤ 1023 := by
      rcases target_parts t with ⟨-, hnil⟩ | hparts
      · rw [hnil]
        exact Nat.zero_le _
      · omega
    refine ⟨hmethod, hversion hlen, ?_, ?_⟩
    · rw [← hw]
      exact List.take_of_length_le (by omega)
    · rw [← hw]
      exact List.take_of_length_le hquery

/-- A request for a path of `n` slashes and the file `echox` in `/cgi-bin/`. -/
def requestSlashes (n : Nat) : Bytes :=
  text "GET /cgi-bin/" ++ (List.replicate n 47 ++ text "echox HTTP/1.1\r\n\r\n")

/-- A short path is executed as requested. -/
theorem requested_iff_short :
    Requested (receivedText [requestSlashes 2]) ⟨text "GET", text "./cgi-bin///echox", []⟩ := by
  have hasks : Asks idleWorld [requestSlashes 2] (requestSlashes 2) (text "/cgi-bin///echox") :=
    ⟨by decide +kernel, by decide +kernel, by decide +kernel, by decide +kernel,
      by decide +kernel, rfl⟩
  have hcall : (handleRequest idleWorld [requestSlashes 2] (fun _ => 0) fun _ => 0).cgi =
      some ⟨text "GET", text "./cgi-bin///echox", []⟩ :=
    handleRequest_cgi_iff.mpr ⟨_, _, hasks, by decide +kernel⟩
  exact (requested_iff hcall).mpr ⟨by decide +kernel, by decide +kernel⟩

/-- A path of 1023 bytes loses its last one: the request for `echox` has `echo` executed. -/
theorem echox_executes_echo :
    ¬ ∀ (world : World) (client : List Bytes) (method : Buffer 16) (target : Buffer 1024)
      (call : CgiCall), (handleRequest world client method target).cgi = some call →
        Requested (receivedText client) call := by
  intro h
  have hasks : Asks idleWorld [requestSlashes 1009] (requestSlashes 1009)
      (text "/cgi-bin/" ++ (List.replicate 1009 47 ++ text "echox")) :=
    ⟨by decide +kernel, by decide +kernel, by decide +kernel, by decide +kernel,
      by decide +kernel, rfl⟩
  have hreq := h idleWorld [requestSlashes 1009] (fun _ => 0) (fun _ => 0) _
    (handleRequest_cgi_iff.mpr ⟨_, _, hasks, rfl⟩)
  have hpath := hreq.path
  exact absurd hpath (by decide +kernel)

end Httpd
