/-
  httpd — a request in pieces.

  1. **Program** — `handle_request` calls `recv` once, so of a request that arrives in several
     pieces it sees the first one.
  2. **Specification** — `same_decision_iff`: two splittings of one request lead to the same
     decision exactly when the first pieces of both are complete, or neither is.
  3. **The crux (`Complete`)** — a text has the request line as far as the `HTTP/` of its version;
     from there on more text changes nothing (`line_extend`).  An incomplete first piece is a bad
     request, a complete one is answered as the whole request is, and these never agree.
  4. **What is asked of the request** — nothing but its length: all pieces together have at most
     8191 bytes, as `recv` is asked for no more.
-/
import MiniLabs.Httpd.Strings

set_option linter.unusedVariables false

namespace Httpd

/-- Bytes that are all blanks. -/
def Blank (s : Bytes) : Prop := ∀ c ∈ s, isSpace c = true

/-- A word of up to `n` bytes. -/
structure Word (n : Nat) (w : Bytes) : Prop where
  ne_nil : w ≠ []
  no_space : ∀ c ∈ w, isSpace c = false
  length_le : w.length ≤ n

/-- A request line with the words `w₁` and `w₂`, and a version that begins with `HTTP/`.  A word
    ends at a blank, or at its greatest length. -/
def Line (t w₁ w₂ : Bytes) : Prop :=
  ∃ s₁ s₂ s₃ rest, t = s₁ ++ (w₁ ++ (s₂ ++ (w₂ ++ (s₃ ++ (text "HTTP/" ++ rest))))) ∧
    Blank s₁ ∧ Blank s₂ ∧ Blank s₃ ∧ Word 15 w₁ ∧ Word 1023 w₂ ∧
    (w₁.length = 15 ∨ s₂ ≠ []) ∧ (w₂.length = 1023 ∨ s₃ ≠ [])

/-- The text has the request line as far as the `HTTP/` of its version. -/
def Complete (t : Bytes) : Prop := ∃ w₁ w₂, Line t w₁ w₂

/-! ## Complete lines -/

/-- **More text behind the version changes nothing.**. -/
theorem line_extend {t w₁ w₂ : Bytes} (h : Line t w₁ w₂) (more : Bytes) :
    Line (t ++ more) w₁ w₂ := by
  obtain ⟨s₁, s₂, s₃, rest, rfl, hline⟩ := h
  refine ⟨s₁, s₂, s₃, rest ++ more, ?_, hline⟩
  simp only [List.append_assoc]

/-- What follows a word: a blank, unless the word is full. -/
theorem blank_head {n : Nat} {w s r : Bytes} (hs : Blank s) (h : w.length = n ∨ s ≠ []) :
    w.length = n ∨ ∀ c, (s ++ r).head? = some c → isSpace c = true := by
  apply h.imp id
  intro hne c hc
  obtain ⟨x, s, rfl⟩ := List.exists_cons_of_ne_nil hne
  cases hc
  exact hs _ List.mem_cons_self

/-- A conversion takes the word that begins with the bytes `lit`. -/
theorem scanWord_lit {n : Nat} {blanks lit : Bytes} (hblanks : Blank blanks) (hlit : Word n lit)
    (rest : Bytes) : ∃ w r, scanWord n (blanks ++ (lit ++ rest)) = some (lit ++ w, r) := by
  obtain ⟨hsplit, hword, hlen, hend⟩ :=
    Spans.take_span (fun c => !isSpace c) (n - lit.length) rest rfl
  have hle := hlit.length_le
  generalize (rest.takeWhile fun c => !isSpace c).take (n - lit.length) = w at *
  refine ⟨w, rest.drop w.length, ?_⟩
  rw [hsplit, List.drop_left, ← List.append_assoc lit]
  refine scanWord_blanks hblanks ?_ ?_ ?_ ?_
  · exact List.append_ne_nil_of_left_ne_nil hlit.ne_nil w
  · intro c hc
    rcases List.mem_append.mp hc with hc | hc
    · exact hlit.no_space c hc
    · simpa using hword c hc
  · rw [List.length_append]
    omega
  · rw [List.length_append]
    exact hend.imp (fun h => by omega) Spans.stops_not.mp

/-- A line is accepted, with its words. -/
theorem line_words {t w₁ w₂ : Bytes} (h : Line t w₁ w₂) :
    (wordsOf t).method = some w₁ ∧ (wordsOf t).target = some w₂ ∧
      (wordsOf t).accepted = true := by
  obtain ⟨s₁, s₂, s₃, rest, rfl, hs₁, hs₂, hs₃, hw₁, hw₂, hend₁, hend₂⟩ := h
  have h₁ := scanWord_blanks (n := 15) hs₁ hw₁.ne_nil hw₁.no_space hw₁.length_le
    (blank_head (r := w₂ ++ (s₃ ++ (text "HTTP/" ++ rest))) hs₂ hend₁)
  have h₂ := scanWord_blanks (n := 1023) hs₂ hw₂.ne_nil hw₂.no_space hw₂.length_le
    (blank_head (r := text "HTTP/" ++ rest) hs₃ hend₂)
  have hlit : Word 31 (text "HTTP/") := ⟨by decide +kernel, by decide +kernel, by decide +kernel⟩
  obtain ⟨w, r, h₃⟩ := scanWord_lit hs₃ hlit rest
  have hwords : wordsOf (s₁ ++ (w₁ ++ (s₂ ++ (w₂ ++ (s₃ ++ (text "HTTP/" ++ rest)))))) =
      ⟨some w₁, some w₂, some (text "HTTP/" ++ w)⟩ := by
    rw [wordsOf, h₁]
    dsimp only
    rw [h₂]
    dsimp only
    rw [h₃]
    rfl
  rw [hwords]
  refine ⟨rfl, rfl, ?_⟩
  show startsWith (text "HTTP/" ++ w) "HTTP/" = true
  rw [startsWith, List.isPrefixOf_iff_prefix]
  exact List.prefix_append _ _

/-- What is accepted is a line. -/
theorem accepted_line {t : Bytes} (h : (wordsOf t).accepted = true) : Complete t := by
  obtain ⟨w₁, r₁, w₂, r₂, v, r₃, h₁, h₂, h₃, -, -, v', hv⟩ := accepted_scan h
  obtain ⟨s₁, ht, hs₁, hne₁, hw₁, hlen₁, hend₁⟩ := scanWord_some (by decide) h₁
  obtain ⟨s₂, hr₁, hs₂, hne₂, hw₂, hlen₂, hend₂⟩ := scanWord_some (by decide) h₂
  obtain ⟨s₃, hr₂, hs₃, hne₃, hw₃, -, -⟩ := scanWord_some (by decide) h₃
  -- a word that is not full is followed by a blank, the next word begins with none
  have hgap : ∀ (w s u r r' : Bytes) (n : Nat), r = s ++ (u ++ r') → u ≠ [] →
      (∀ c ∈ u, isSpace c = false) →
      (w.length = n ∨ ∀ c, r.head? = some c → isSpace c = true) →
      (w.length = n ∨ s ≠ []) := by
    rintro w s u r r' n rfl hu hspace hend
    apply hend.imp id
    intro hhead hs
    obtain ⟨c, u, rfl⟩ := List.exists_cons_of_ne_nil hu
    have hc := hhead c (by rw [hs]; rfl)
    rw [hspace c List.mem_cons_self] at hc
    cases hc
  refine ⟨w₁, w₂, s₁, s₂, s₃, v' ++ r₃, ?_, hs₁, hs₂, hs₃, ⟨hne₁, hw₁, hlen₁⟩,
    ⟨hne₂, hw₂, hlen₂⟩, hgap _ _ _ _ _ _ hr₁ hne₂ hw₂ hend₁,
    hgap _ _ _ _ _ _ hr₂ hne₃ hw₃ hend₂⟩
  rw [ht, hr₁, hr₂, ← hv, List.append_assoc (text "HTTP/")]

/-- A complete text is one whose request line is accepted. -/
theorem complete_iff (t : Bytes) : Complete t ↔ (wordsOf t).accepted = true := by
  constructor
  · rintro ⟨w₁, w₂, h⟩
    exact (line_words h).2.2
  · exact accepted_line

/-! ## Two splittings -/

/-- The text `handle_request` sees: the first piece, up to a NUL. -/
def firstText (pieces : List Bytes) : Bytes := (pieces.headD []).takeWhile (· ≠ 0)

/-- The pieces of a request of up to 8191 bytes. -/
structure Splits (bytes : Bytes) (pieces : List Bytes) : Prop where
  flatten : pieces.flatten = bytes
  ne_nil : ∀ p ∈ pieces, p ≠ []

/-- The text of a front is a front of the text. -/
theorem takeWhile_front (p more : Bytes) :
    p.takeWhile (· ≠ 0) <+: (p ++ more).takeWhile (· ≠ 0) := by
  by_cases h : ∀ c ∈ p, decide (c ≠ 0) = true
  · rw [List.takeWhile_append_of_pos h, List.takeWhile_eq_self_iff.mpr h]
    exact List.prefix_append _ _
  · have hlen : ¬ (p.takeWhile (· ≠ 0)).length = p.length := by
      intro hlen
      apply h
      intro c hc
      rw [← (List.takeWhile_prefix _).eq_of_length hlen] at hc
      have hmem := List.mem_takeWhile_imp hc
      exact hmem
    refine ⟨[], ?_⟩
    rw [List.append_nil, List.takeWhile_append, if_neg hlen]

/-- Of two splittings the first piece of one begins with that of the other. -/
theorem firstText_comparable {bytes : Bytes} {ps ps' : List Bytes} (h : Splits bytes ps)
    (h' : Splits bytes ps') : firstText ps <+: firstText ps' ∨ firstText ps' <+: firstText ps := by
  have hfront : ∀ qs : List Bytes, qs.headD [] <+: qs.flatten := by
    intro qs
    cases qs with
    | nil => exact List.prefix_rfl
    | cons q qs => exact List.prefix_append _ _
  have hcase := List.prefix_or_prefix_of_prefix (h.flatten ▸ hfront ps) (h'.flatten ▸ hfront ps')
  refine hcase.imp ?_ ?_ <;> rintro ⟨more, hmore⟩ <;> rw [firstText, firstText, ← hmore] <;>
    exact takeWhile_front _ _

/-- A request that is served was parsed. -/
theorem serve_parsed (world : World) (method target : Bytes) :
    (serve world method target).parsed ≠ none := by
  rw [serve]
  dsimp only
  split <;> exact Option.some_ne_none _

/-- The decision on a request that is not empty, by the text of the first piece. -/
theorem decisionOf_pieces (world : World) {bytes : Bytes} {ps : List Bytes} (h : Splits bytes ps)
    (hlen : bytes.length ≤ 8191) (hbytes : bytes ≠ []) : decisionOf world ps =
      match (wordsOf (firstText ps)).accepted, (wordsOf (firstText ps)).method,
        (wordsOf (firstText ps)).target with
      | true, some method, some target => serve world method target
      | _, _, _ => ⟨500, simpleResponse 500 "bad request\n", none, none⟩ := by
  cases ps with
  | nil => exact absurd h.flatten.symm hbytes
  | cons p ps =>
    have hp : p.length ≤ 8191 := by
      rw [← h.flatten, List.flatten_cons, List.length_append] at hlen
      omega
    obtain ⟨c, p, rfl⟩ := List.exists_cons_of_ne_nil (h.ne_nil p List.mem_cons_self)
    have hrecv : recv ((c :: p) :: ps) (bufferSize - 1) = some (c :: p) := by
      show some ((c :: p).take 8191) = some (c :: p)
      rw [List.take_of_length_le hp]
    rw [decisionOf, hrecv]
    rfl

section Decide

variable (world : World) {bytes : Bytes} {ps : List Bytes}

/-- A complete first piece decides. -/
theorem decision_complete (h : Splits bytes ps) (hlen : bytes.length ≤ 8191)
    (hbytes : bytes ≠ []) {w₁ w₂ : Bytes} (hline : Line (firstText ps) w₁ w₂) :
    decisionOf world ps = serve world w₁ w₂ := by
  obtain ⟨hm, ht, ha⟩ := line_words hline
  rw [decisionOf_pieces world h hlen hbytes, hm, ht, ha]

/-- Any other first piece is a bad request. -/
theorem decision_incomplete (h : Splits bytes ps) (hlen : bytes.length ≤ 8191)
    (hbytes : bytes ≠ []) (hno : ¬ Complete (firstText ps)) :
    decisionOf world ps = ⟨500, simpleResponse 500 "bad request\n", none, none⟩ := by
  rw [complete_iff, Bool.not_eq_true] at hno
  rw [decisionOf_pieces world h hlen hbytes, hno]

end Decide

/-- A line in the front is the line of the text. -/
theorem line_of_front {t t' w₁ w₂ : Bytes} (h : Line t w₁ w₂) (ht : t <+: t') : Line t' w₁ w₂ := by
  obtain ⟨more, rfl⟩ := ht
  exact line_extend h more

/-- **Two splittings of a request lead to the same decision exactly when both first pieces are
    complete, or neither is.** -/
theorem same_decision_iff (world : World) {bytes : Bytes} (hlen : bytes.length ≤ 8191)
    {ps ps' : List Bytes} (h : Splits bytes ps) (h' : Splits bytes ps')
    (method method' : Buffer 16) (target target' : Buffer 1024) :
    (handleRequest world ps method target).decision =
        (handleRequest world ps' method' target').decision ↔
      (Complete (firstText ps) ↔ Complete (firstText ps')) := by
  rw [(handleRequest_spec world ps method target).2.2,
    (handleRequest_spec world ps' method' target').2.2]
  by_cases hbytes : bytes = []
  · -- nothing is received
    have hnil : ∀ qs, Splits bytes qs → qs = [] := by
      rintro (- | ⟨q, qs⟩) hqs
      · rfl
      · have hflat := hqs.flatten
        rw [List.flatten_cons, hbytes] at hflat
        exact absurd (List.append_eq_nil_iff.mp hflat).1 (hqs.ne_nil q List.mem_cons_self)
    rw [hnil ps h, hnil ps' h']
    exact ⟨fun _ => Iff.rfl, fun _ => rfl⟩
  · by_cases hc : Complete (firstText ps) <;> by_cases hc' : Complete (firstText ps')
    · refine ⟨fun _ => ⟨fun _ => hc', fun _ => hc⟩, fun _ => ?_⟩
      rcases firstText_comparable h h' with hpre | hpre
      · obtain ⟨w₁, w₂, hline⟩ := hc
        rw [decision_complete world h hlen hbytes hline,
          decision_complete world h' hlen hbytes (line_of_front hline hpre)]
      · obtain ⟨w₁, w₂, hline⟩ := hc'
        rw [decision_complete world h' hlen hbytes hline,
          decision_complete world h hlen hbytes (line_of_front hline hpre)]
    · refine ⟨fun heq => ?_, fun hiff => absurd (hiff.mp hc) hc'⟩
      obtain ⟨w₁, w₂, hline⟩ := hc
      rw [decision_complete world h hlen hbytes hline,
        decision_incomplete world h' hlen hbytes hc'] at heq
      exact absurd (congrArg Decision.parsed heq) (serve_parsed world w₁ w₂)
    · refine ⟨fun heq => ?_, fun hiff => absurd (hiff.mpr hc') hc⟩
      obtain ⟨w₁, w₂, hline⟩ := hc'
      rw [decision_complete world h' hlen hbytes hline,
        decision_incomplete world h hlen hbytes hc] at heq
      exact absurd (congrArg Decision.parsed heq.symm) (serve_parsed world w₁ w₂)
    · refine ⟨fun _ => ⟨fun h => absurd h hc, fun h => absurd h hc'⟩, fun _ => ?_⟩
      rw [decision_incomplete world h hlen hbytes hc, decision_incomplete world h' hlen hbytes hc']

/-- A file system with an `echo` that answers `x`. -/
def echoWorld : World := ⟨fun _ => true, fun _ => .ran (some (text "x")) true (some 0)⟩

/-- A whole request. -/
def requestEcho : Bytes := text "GET /cgi-bin/echo HTTP/1.1\r\n\r\n"

/-- A request in one piece and cut behind `GE`. -/
theorem same_decision_iff_echo :
    (handleRequest echoWorld [requestEcho] (fun _ => 0) fun _ => 0).decision =
        (handleRequest echoWorld [requestEcho.take 2, requestEcho.drop 2] (fun _ => 0)
          fun _ => 0).decision ↔
      (Complete (firstText [requestEcho]) ↔
        Complete (firstText [requestEcho.take 2, requestEcho.drop 2])) := by
  have hlen : requestEcho.length ≤ 8191 := by decide
  have hwhole : Splits requestEcho [requestEcho] := ⟨by decide, by decide⟩
  have hcut : Splits requestEcho [requestEcho.take 2, requestEcho.drop 2] := ⟨by decide, by decide⟩
  exact same_decision_iff echoWorld hlen hwhole hcut _ _ _ _

/-- A request that is answered when it arrives whole is refused when its first piece is `GE`. -/
theorem cut_request_refused :
    ¬ ∀ (world : World) (bytes : Bytes) (ps ps' : List Bytes), bytes.length ≤ 8191 →
      Splits bytes ps → Splits bytes ps' → ∀ (method : Buffer 16) (target : Buffer 1024),
        (handleRequest world ps method target).decision =
          (handleRequest world ps' method target).decision := by
  intro h
  have heq := h echoWorld requestEcho [requestEcho] [requestEcho.take 2, requestEcho.drop 2]
    (by decide) ⟨by decide, by decide⟩ ⟨by decide, by decide⟩ (fun _ => 0) fun _ => 0
  rw [(handleRequest_spec echoWorld _ _ _).2.2, (handleRequest_spec echoWorld _ _ _).2.2] at heq
  have hstatus := congrArg Decision.status heq
  exact absurd hstatus (by decide +kernel)

end Httpd
