/-
  httpd — one request: `parse_request_line`, `run_cgi` and `handle_request`.

  1. **State** — a `char[cap]` is a function on `Fin cap`, so that what a buffer held before is
     still in it where nothing was written.  A `const char *` that is only read is its string, the
     bytes before the NUL.
  2. **What comes from outside** — a connection is the list of the pieces that successive calls of
     `recv` would deliver, an empty one standing for its failure.  What the file system and the CGI
     process do is the `World`: which paths are executable, and for a call whether `pipe`, `fork`,
     `waitpid` and the process succeed, and what was read from the pipe.
  3. **Program** — `handleRequest` returns, next to the status and the two buffers, what was passed
     to `send_all`, what was parsed, and how the CGI was called.  `sscanf` and `snprintf` have the
     widths and sizes of the source; a conversion that does not take place leaves its buffer alone.
  4. **What is idealised** — what `send_all` does with what it gets is not looked at by the caller;
     `setenv` and `dup2` succeed in the child; `read_pipe_all` is the subject of `Httpd.ReadPipe`.
     `isspace`, `isdigit` and `isalnum` are those of the C locale.
-/
import Mathlib.Algebra.Order.Ring.Int
import Mathlib.Data.List.OfFn
import MiniLabs.Httpd.Server

set_option linter.unusedVariables false

namespace Httpd

abbrev Bytes := List UInt8

/-- The bytes of a string literal. -/
def text (s : String) : Bytes := s.toList.map fun c => c.toNat.toUInt8

/-! ## Strings and buffers -/

/-- `char[cap]`. -/
abbrev Buffer (cap : Nat) := Fin cap → UInt8

namespace Buffer

variable {cap : Nat}

/-- The string in the buffer. -/
def str (b : Buffer cap) : Bytes := (List.ofFn b).takeWhile (· ≠ 0)

/-- A string with its NUL is written to the front. -/
def store (b : Buffer cap) (s : Bytes) : Buffer cap :=
  fun i => if h : i < s.length then s[i] else if i.val = s.length then 0 else b i

/-- `b[i] = v`. -/
def put (b : Buffer cap) (i : Nat) (v : UInt8) : Buffer cap := fun j => if j.val = i then v else b j

/-- `snprintf(b, cap, "%s", s)`. -/
def snprintf (b : Buffer cap) (s : Bytes) : Buffer cap := b.store (s.take (cap - 1))

end Buffer

/-- `isspace`. -/
def isSpace (c : UInt8) : Bool := c == 32 || (9 ≤ c && c ≤ 13)

/-- `isdigit`. -/
def isDigit (c : UInt8) : Bool := 48 ≤ c && c ≤ 57

/-- `isalnum`. -/
def isAlnum (c : UInt8) : Bool := isDigit c || (65 ≤ c && c ≤ 90) || (97 ≤ c && c ≤ 122)

/-- `strncmp(s, lit, strlen(lit)) == 0`. -/
def startsWith (s : Bytes) (lit : String) : Bool := (text lit).isPrefixOf s

/-- `strstr(s, lit) != NULL`. -/
def contains (s : Bytes) (lit : String) : Bool := s.tails.any fun t => startsWith t lit

/-- `atoi`: the value that `strtol` gives, as a `long` and then as an `int`. -/
def atoi (s : Bytes) : Int :=
  let s := s.dropWhile isSpace
  let negative := s.head? = some 45
  let s := if s.head? = some 45 ∨ s.head? = some 43 then s.tail else s
  let value : Nat := (s.takeWhile isDigit).foldl (fun v c => v * 10 + (c.toNat - 48)) 0
  let long : Int := if negative then max (-(value : Int)) (-2 ^ 63) else min value (2 ^ 63 - 1)
  long.bmod (2 ^ 32)

/-! ## The request line -/

/-- The conversion `%ns`: blanks are skipped, then up to `n` bytes that are none are taken; it
    fails at the end of the text. -/
def scanWord (n : Nat) (s : Bytes) : Option (Bytes × Bytes) :=
  match s.dropWhile isSpace with
  | [] => none
  | c :: s =>
    let word := ((c :: s).takeWhile fun c => !isSpace c).take n
    some (word, (c :: s).drop word.length)

/-- What `sscanf` returns and leaves; `version` counts only behind the third conversion. -/
structure Scanned (methodCap targetCap : Nat) where
  count : Nat
  method : Buffer methodCap
  target : Buffer targetCap
  version : Bytes

section Line

variable {methodCap targetCap : Nat}

/-- `sscanf(buf, "%15s %1023s %31s", method, target, version)`. -/
def sscanf (buf : Bytes) (method : Buffer methodCap) (target : Buffer targetCap) :
    Scanned methodCap targetCap :=
  match scanWord 15 buf with
  | none => ⟨0, method, target, []⟩
  | some (word, buf) =>
    let method := method.store word
    match scanWord 1023 buf with
    | none => ⟨1, method, target, []⟩
    | some (word, buf) =>
      let target := target.store word
      match scanWord 31 buf with
      | none => ⟨2, method, target, []⟩
      | some (version, _) => ⟨3, method, target, version⟩

/-- `parse_request_line`: three words, the third of which begins with `HTTP/`. -/
def parseRequestLine (buf : Bytes) (method : Buffer methodCap) (target : Buffer targetCap) :
    Bool × Buffer methodCap × Buffer targetCap :=
  let s := sscanf buf method target
  if s.count ≠ 3 then (false, s.method, s.target)
  else
    let method := s.method.put (methodCap - 1) 0
    let target := s.target.put (targetCap - 1) 0
    (startsWith s.version "HTTP/", method, target)

end Line

/-- `valid_cgi_path`: below `/cgi-bin/`, without `..`, and of harmless characters only. -/
def validCgiPath (path : Bytes) : Bool :=
  if !startsWith path "/cgi-bin/" then false
  else if contains path ".." then false
  else path.all fun c => isAlnum c || c == 47 || c == 45 || c == 95 || c == 46

/-! ## Responses -/

/-- `reason_phrase`. -/
def reasonPhrase (status : Nat) : String :=
  match status with
  | 200 => "OK"
  | 403 => "Forbidden"
  | 404 => "Not Found"
  | 500 => "Internal Server Error"
  | _ => "OK"

/-- `HTTP/1.1 status reason`. -/
def statusLine (status : Nat) : String :=
  "HTTP/1.1 " ++ toString status ++ " " ++ reasonPhrase status ++ "\r\n"

/-- What `send_simple_response` sends. -/
def simpleResponse (status : Nat) (body : String) : List Bytes :=
  [text (statusLine status ++ "Content-Type: text/plain\r\n" ++
    "Content-Length: " ++ toString body.length ++ "\r\n" ++ "Connection: close\r\n" ++ "\r\n"),
   text body]

/-! ## The CGI process -/

/-- How a CGI is called: `REQUEST_METHOD`, the path given to `execl`, `QUERY_STRING`. -/
structure CgiCall where
  method : Bytes
  path : Bytes
  query : Bytes
  deriving DecidableEq, Repr

/-- What becomes of the call: `pipe` or `fork` fails; or the process runs, `read_pipe_all` returns
    its output or NULL, `waitpid` succeeds or not, and the process ends with an exit code or
    otherwise. -/
inductive Child
  | noPipe
  | noFork
  | ran (out : Option Bytes) (waited : Bool) (exitCode : Option Nat)

/-- The file system and the processes. -/
structure World where
  /-- `access(path, X_OK) == 0`. -/
  executable : Bytes → Bool
  child : CgiCall → Child

/-- `status >= 100 && status <= 599`. -/
def statusInRange (status : Int) : Option Nat :=
  if 100 ≤ status ∧ status ≤ 599 then some status.toNat else none

/-- `parse_cgi_status`.  Behind a `Status:` without a good number `out` has moved on. -/
def parseCgiStatus (out : Bytes) : Nat :=
  let moved := if startsWith out "Status:" then out.dropWhile fun c => !isDigit c else out
  match if startsWith out "Status:" then statusInRange (atoi moved) else none with
  | some status => status
  | none =>
    if startsWith moved "HTTP/1." then
      match moved.dropWhile (· ≠ 32) with
      | [] => 200
      | _ :: p => (statusInRange (atoi p)).getD 200
    else 200

/-- `run_cgi`: the status, and the output unless it is NULL. -/
def runCgi (world : World) (call : CgiCall) : Nat × Option Bytes :=
  match world.child call with
  | .noPipe => (500, none)
  | .noFork => (500, none)
  | .ran _ false _ => (500, none)
  | .ran none true _ => (500, none)
  | .ran (some out) true exitCode =>
    if exitCode = some 0 then (parseCgiStatus (out.takeWhile (· ≠ 0)), some out) else (500, none)

/-! ## `handle_request` -/

/-- `BUFFER_SIZE`. -/
def bufferSize : Nat := 8192

/-- What one call of `recv` for `size` bytes gives: `none` is a result that is not positive. -/
def recv (pieces : List Bytes) (size : Nat) : Option Bytes :=
  match pieces with
  | [] => none
  | [] :: _ => none
  | piece :: _ => some (piece.take size)

/-- What `handle_request` returns and does. -/
structure Handled where
  status : Nat
  method : Buffer 16
  target : Buffer 1024
  sent : List Bytes
  /-- Method, path and query, when the request line was accepted. -/
  parsed : Option (Bytes × Bytes × Bytes)
  cgi : Option CgiCall

/-- What is sent behind `run_cgi`. -/
def cgiResponse (status : Nat) (out : Option Bytes) : List Bytes :=
  if status = 500 then simpleResponse 500 "cgi failed\n"
  else
    let out := out.getD []
    if startsWith (out.takeWhile (· ≠ 0)) "HTTP/1." then [out]
    else [text (statusLine status), out]

/-- `handle_request`: nothing received, a bad request, a method or path that is refused, a file that
    is not executable, or a CGI.  `method` and `target` are the buffers of the caller. -/
def handleRequest (world : World) (client : List Bytes) (method : Buffer 16)
    (target : Buffer 1024) : Handled :=
  match recv client (bufferSize - 1) with
  | none => ⟨500, method.snprintf (text "-"), target.snprintf (text "-"), [], none, none⟩
  | some buffer =>
    let buffer := buffer.takeWhile (· ≠ 0)
    match parseRequestLine buffer method target with
    | (false, method, target) =>
      ⟨500, method, target, simpleResponse 500 "bad request\n", none, none⟩
    | (true, method, target) =>
      let before := target.str.takeWhile (· ≠ 63)
      let qmark := target.str.dropWhile (· ≠ 63)
      let target := if qmark = [] then target else target.put before.length 0
      let query := qmark.tail.take 1023
      let path := target.str.take 1023
      let parsed := some (method.str, path, query)
      if method.str ≠ text "GET" ∨ validCgiPath path = false then
        ⟨404, method, target.snprintf path, simpleResponse 404 "not found\n", parsed, none⟩
      else
        let fsPath := (text "." ++ path).take 1023
        if world.executable fsPath = false then
          ⟨404, method, target.snprintf path, simpleResponse 404 "not found\n", parsed, none⟩
        else
          let call := ⟨method.str, fsPath, query⟩
          let (status, out) := runCgi world call
          ⟨status, method, target.snprintf path, cgiResponse status out, parsed, some call⟩

/-- What `worker_main` passes to `ordered_log`. -/
def workerEntry (world : World) (client : List Bytes) (method : Buffer 16)
    (path : Buffer 1024) : Entry :=
  let h := handleRequest world client method path
  ⟨h.method.str, h.target.str, h.status⟩

end Httpd
