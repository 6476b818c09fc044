/-
  httpd — whose request a log entry describes.

  1. **Program** — `worker_main` declares its two buffers inside the loop, so at the start of a
     round they may hold anything (`Stale`).
  2. **Specification** — `OwnRequest`: the method and the path logged for a connection hang on the
     bytes of this connection only.
  3. **The crux (`entry_names`)** — a round that receives text with less than two words leaves one
     or both of the buffers as they were and logs them.  So `OwnRequest` is true exactly when every
     connection receives nothing, or two words (`ownRequest_iff`); `earlier_path_logged` is a run in
     which an earlier path is logged.
-/
import MiniLabs.Httpd.Strings

set_option linter.unusedVariables false

namespace Httpd

/-- The buffers at the start of a round. -/
abbrev Stale := Buffer 16 × Buffer 1024

/-- What a worker logs for its connections, round after round; `i` counts the rounds. -/
def workerLog (worlds : Nat → World) (stale : Nat → Stale) : Nat → List (List Bytes) → List Entry
  | _, [] => []
  | i, client :: clients =>
    workerEntry (worlds i) client (stale i).1 (stale i).2 ::
      workerLog worlds stale (i + 1) clients

/-- The method and the path of an entry. -/
def Entry.names (e : Entry) : Bytes × Bytes := (e.method, e.path)

/-- The method and the path logged for each connection are those logged for the same bytes in any
    other run. -/
def OwnRequest (clients : List (List Bytes)) : Prop :=
  ∀ (i : Nat) client, clients[i]? = some client → ∀ (clients' : List (List Bytes)) (j : Nat),
    clients'[j]? = some client → ∀ worlds worlds' stale stale',
      ((workerLog worlds stale 0 clients)[i]?).map Entry.names =
        ((workerLog worlds' stale' 0 clients')[j]?).map Entry.names

/-- Behind the leading blanks there is a word of more than 15 bytes, or a word and another one. -/
def TwoWords (t : Bytes) : Prop :=
  let t := t.dropWhile isSpace
  let word := t.takeWhile fun c => !isSpace c
  15 < word.length ∨ ∃ c ∈ t.drop word.length, isSpace c = false

/-- Nothing is received, or text with two words. -/
def Worded (client : List Bytes) : Prop :=
  match recv client (bufferSize - 1) with
  | none => True
  | some buffer => TwoWords (buffer.takeWhile (· ≠ 0))

/-! ## Which words there are -/

/-- A conversion takes something where there is something but blanks. -/
theorem scanWord_isSome {n : Nat} {s : Bytes} :
    (∃ p, scanWord n s = some p) ↔ ∃ x ∈ s, isSpace x = false := by
  constructor
  · rintro ⟨p, hp⟩
    by_contra hno
    have hall : ∀ x ∈ s, isSpace x = true := by
      intro x hx
      cases hx' : isSpace x with
      | true => rfl
      | false => exact absurd ⟨x, hx, hx'⟩ hno
    rw [scanWord_none.mpr hall] at hp
    cases hp
  · rintro ⟨x, hx, hx'⟩
    cases hs : scanWord n s with
    | none =>
      rw [scanWord_none.mp hs x hx] at hx'
      cases hx'
    | some p => exact ⟨p, rfl⟩

/-- The target is taken where there is a second word. -/
theorem target_isSome (t : Bytes) : (∃ w, (wordsOf t).target = some w) ↔
    ∃ m rest, scanWord 15 t = some (m, rest) ∧ ∃ x ∈ rest, isSpace x = false := by
  rw [wordsOf]
  cases scanWord 15 t with
  | none =>
    constructor
    · rintro ⟨w, hw⟩
      cases hw
    · rintro ⟨m, rest, h, -⟩
      cases h
  | some p =>
    obtain ⟨m, rest⟩ := p
    dsimp only
    cases hs : scanWord 1023 rest with
    | none =>
      constructor
      · rintro ⟨w, hw⟩
        cases hw
      · rintro ⟨m', rest', h, hx⟩
        cases h
        rw [← scanWord_isSome (n := 1023), hs] at hx
        obtain ⟨p, hp⟩ := hx
        cases hp
    | some q =>
      refine ⟨fun _ => ⟨m, rest, rfl, scanWord_isSome.mp ⟨q, hs⟩⟩, fun _ => ⟨q.1, rfl⟩⟩

/-- Two words are what the first two conversions need. -/
theorem twoWords_iff (t : Bytes) : TwoWords t ↔ ∃ w, (wordsOf t).target = some w := by
  rw [target_isSome, TwoWords, scanWord]
  cases t.dropWhile isSpace with
  | nil =>
    constructor
    · rintro (h | ⟨c, hc, -⟩)
      · exact absurd h (Nat.not_lt_zero _)
      · exact absurd hc List.not_mem_nil
    · rintro ⟨m, rest, h, -⟩
      cases h
  | cons c r =>
    dsimp only
    have hword : ∀ x ∈ (c :: r).takeWhile fun c => !isSpace c, isSpace x = false := by
      intro x hx
      simpa using List.mem_takeWhile_imp hx
    have hsplit : (c :: r).takeWhile (fun c => !isSpace c) ++ (c :: r).dropWhile (fun c => !isSpace c)
        = c :: r := List.takeWhile_append_dropWhile
    generalize (c :: r).takeWhile (fun c => !isSpace c) = word at hword hsplit ⊢
    constructor
    · rintro h
      refine ⟨_, _, rfl, ?_⟩
      by_cases hlong : 15 < word.length
      · -- the first conversion stops inside the word
        have hmem : word[15] ∈ word.drop 15 := by
          rw [List.drop_eq_getElem_cons hlong]
          exact List.mem_cons_self
        refine ⟨word[15], ?_, hword _ (List.getElem_mem hlong)⟩
        rw [← hsplit, List.length_take, Nat.min_eq_left (Nat.le_of_lt hlong),
          List.drop_append_of_le_length (Nat.le_of_lt hlong)]
        exact List.mem_append_left _ hmem
      · rw [List.take_of_length_le (Nat.le_of_not_lt hlong)]
        exact h.resolve_left hlong
    · rintro ⟨m, rest, h, hx⟩
      cases h
      by_cases hlong : 15 < word.length
      · exact Or.inl hlong
      · rw [List.take_of_length_le (Nat.le_of_not_lt hlong)] at hx
        exact Or.inr hx

/-- With a target there is a method. -/
theorem method_of_target {t w : Bytes} (h : (wordsOf t).target = some w) :
    ∃ m, (wordsOf t).method = some m := by
  rw [wordsOf] at h ⊢
  cases hs : scanWord 15 t with
  | none =>
    rw [hs] at h
    cases h
  | some p =>
    obtain ⟨m, rest⟩ := p
    refine ⟨m, ?_⟩
    dsimp only
    cases scanWord 1023 rest <;> rfl

/-- Both strings are written exactly when nothing is received, or two words. -/
theorem worded_iff (client : List Bytes) :
    Worded client ↔ ∃ m p, methodOf client = some m ∧ pathOf client = some p := by
  rw [Worded, methodOf, pathOf]
  cases recv client (bufferSize - 1) with
  | none => exact ⟨fun _ => ⟨_, _, rfl, rfl⟩, fun _ => trivial⟩
  | some buffer =>
    dsimp only
    rw [twoWords_iff]
    constructor
    · rintro ⟨w, hw⟩
      obtain ⟨m, hm⟩ := method_of_target hw
      rw [hm, hw]
      cases (wordsOf (buffer.takeWhile (· ≠ 0))).accepted
      · exact ⟨m, w, rfl, rfl⟩
      · exact ⟨m, pathPart w, rfl, rfl⟩
    · rintro ⟨m, p, -, hp⟩
      cases ht : (wordsOf (buffer.takeWhile (· ≠ 0))).target with
      | some w => exact ⟨w, rfl⟩
      | none =>
        rw [ht] at hp
        split at hp <;> cases hp

/-! ## The entry of one round -/

/-- A buffer that holds a given string of a byte that is no NUL. -/
def filled (cap : Nat) (c : UInt8) : Buffer cap := Buffer.store (fun _ => 0) [c]

/-- The string in a buffer that was filled. -/
theorem filled_str {cap : Nat} (hcap : 1 < cap) {c : UInt8} (hc : c ≠ 0) :
    (filled cap c).str = [c] :=
  (holds_store _ hcap (List.forall_mem_singleton.mpr hc)).str

/-- The string in a buffer that was left, or not. -/
theorem left_str {cap : Nat} {before after : Buffer cap} {o : Option Bytes}
    (h : Left before after o) : after.str = o.getD before.str := by
  cases o with
  | none => exact congrArg Buffer.str h
  | some s => exact Holds.str h

/-- What is logged: the strings of this request, or what the buffers held. -/
theorem entry_names (world : World) (client : List Bytes) (method : Buffer 16)
    (path : Buffer 1024) : (workerEntry world client method path).names =
      ((methodOf client).getD method.str, (pathOf client).getD path.str) := by
  obtain ⟨hm, hp, -⟩ := handleRequest_spec world client method path
  rw [← left_str hm, ← left_str hp, workerEntry, Entry.names]

/-- The entry of a connection. -/
theorem workerLog_get (worlds : Nat → World) (stale : Nat → Stale) (clients : List (List Bytes))
    (i k : Nat) : (workerLog worlds stale k clients)[i]? =
      (clients[i]?).map fun client =>
        workerEntry (worlds (k + i)) client (stale (k + i)).1 (stale (k + i)).2 := by
  induction clients generalizing i k with
  | nil => rfl
  | cons client clients ih =>
    cases i with
    | zero => rfl
    | succ i =>
      rw [workerLog, List.getElem?_cons_succ, List.getElem?_cons_succ, ih, Nat.add_assoc,
        Nat.add_comm 1 i]

/-! ## The result -/

/-- A file system without files. -/
def emptyWorld : World := ⟨fun _ => false, fun _ => .noPipe⟩

/-- **A log entry describes its own request exactly when nothing was received, or two words**, for
    every sequence of connections. -/
theorem ownRequest_iff (clients : List (List Bytes)) :
    OwnRequest clients ↔ ∀ client ∈ clients, Worded client := by
  constructor
  · intro h client hclient
    obtain ⟨i, hi, hget⟩ := List.getElem_of_mem hclient
    have hi' : clients[i]? = some client := by rw [List.getElem?_eq_getElem hi, hget]
    rw [worded_iff]
    -- two runs whose buffers hold different strings at the start of every round
    have hrun := h i client hi' clients i hi' (fun _ => emptyWorld) (fun _ => emptyWorld)
      (fun _ => (filled 16 65, filled 1024 65)) (fun _ => (filled 16 66, filled 1024 66))
    rw [workerLog_get, workerLog_get, hi', Option.map_some, Option.map_some, Option.map_some,
      Option.map_some, entry_names, entry_names] at hrun
    have hnames := Prod.mk.inj (Option.some.inj hrun)
    cases hm : methodOf client with
    | none =>
      rw [hm] at hnames
      have hne := hnames.1
      rw [Option.getD_none, Option.getD_none, filled_str (by decide) (by decide),
        filled_str (by decide) (by decide)] at hne
      exact absurd hne (by decide)
    | some m =>
      cases hp : pathOf client with
      | none =>
        rw [hp] at hnames
        have hne := hnames.2
        rw [Option.getD_none, Option.getD_none, filled_str (by decide) (by decide),
          filled_str (by decide) (by decide)] at hne
        exact absurd hne (by decide)
      | some p => exact ⟨m, p, rfl, rfl⟩
  · intro h i client hi clients' j hj worlds worlds' stale stale'
    obtain ⟨m, p, hm, hp⟩ := (worded_iff client).mp (h client (List.mem_of_getElem? hi))
    rw [workerLog_get, workerLog_get, hi, hj, Option.map_some, Option.map_some, Option.map_some,
      Option.map_some, entry_names, entry_names, hm, hp, Option.getD_some, Option.getD_some,
      Option.getD_some, Option.getD_some]

/-- A request for `/cgi-bin/a`. -/
def requestA : List Bytes := [text "GET /cgi-bin/a HTTP/1.1\r\n\r\n"]

/-- A request line of one word. -/
def requestGet : List Bytes := [text "GET\r\n\r\n"]

/-- Behind a request for `/cgi-bin/a`, whose path is still in the buffer, the request of one word
    logs this path; on its own it logs what was there at the start. -/
theorem earlier_path_logged : ¬ OwnRequest [requestA, requestGet] := by
  intro h
  let left := handleRequest emptyWorld requestA (filled 16 65) (filled 1024 65)
  have hrun := h 1 requestGet rfl [requestGet] 0 rfl (fun _ => emptyWorld) (fun _ => emptyWorld)
    (fun _ => (left.method, left.target)) (fun _ => (filled 16 65, filled 1024 65))
  rw [workerLog_get, workerLog_get] at hrun
  have hpath : pathOf requestGet = none := by decide +kernel
  have hleft : left.target.str = text "/cgi-bin/a" := by
    have hspec := (handleRequest_spec emptyWorld requestA (filled 16 65) (filled 1024 65)).2.1
    have hp : pathOf requestA = some (text "/cgi-bin/a") := by decide +kernel
    rw [hp] at hspec
    exact hspec.str
  have hnames := congrArg (fun o => o.map Prod.snd) hrun
  simp only [List.getElem?_cons_succ, List.getElem?_cons_zero, Option.map_some, entry_names,
    hpath, Option.getD_none, hleft] at hnames
  rw [filled_str (by decide) (by decide)] at hnames
  exact absurd hnames (by decide)

end Httpd
