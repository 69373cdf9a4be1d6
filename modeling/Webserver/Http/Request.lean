import Webserver.Support.BoundedLoop
import Webserver.Support.Numeral

/-!
# `Request` and its parser

The class of `request.h` and `request.cc`: the fields, the byte-driven state machine `Consume`, and the
thread-local variables that `Parse` works on.

Undefined behaviour is `none`.  `Consume` has two places that can meet it: `headers_.back()` of an empty
vector and `path_[path_.size() - 1]` of an empty string.  The second is reached by a request line whose
URI is empty.
-/

namespace Webserver.Http

open ByteString BoundedLoop CxxString Numeral

/-- `Request::Result`. -/
inductive Result where
  | good
  | bad
  | indeterminate
  deriving DecidableEq, Repr

/-- The state used internally by the parser. -/
inductive State where
  | methodStart
  | method
  | uri
  | httpVersionH
  | httpVersionT1
  | httpVersionT2
  | httpVersionP
  | httpVersionSlash
  | httpVersionMajorStart
  | httpVersionMajor
  | httpVersionMinorStart
  | httpVersionMinor
  | expectingNewline1
  | headerLineStart
  | headerLws
  | headerName
  | spaceBeforeHeaderValue
  | headerValue
  | expectingNewline2
  | expectingNewline3
  | body
  deriving DecidableEq, Repr

abbrev Headers := List (Bytes × Bytes)

structure Request where
  state : State
  remaining : ℕ
  rawRequest : Bytes
  method : Bytes
  uri : Bytes
  path : Bytes
  version : Bytes
  headers : Headers
  body : Bytes
  deriving DecidableEq

namespace Request

/-- The default constructor, for an object with static storage: `remaining` starts as zero. -/
def fresh : Request := ⟨.methodStart, 0, [], [], [], [], [], [], []⟩

/-- `Request::Reset`, which leaves `remaining` alone. -/
def reset (r : Request) : Request := { fresh with remaining := r.remaining }

/-- `Request::GetHeaderValue`: the value of the first header with this name, or the empty string. -/
def getHeaderValue (r : Request) (name : Bytes) : Bytes :=
  ((r.headers.find? fun h => h.1 = name).map Prod.snd).getD []

/-- `Request::SetUri`. -/
def setUri (r : Request) (uri : Bytes) : Except StdException Request := do
  let uriPos := (find (bytes " ") r.rawRequest).succ
  let uriEnd := findFrom (bytes " ") r.rawRequest (some uriPos)
  let uriLen := Pos.sub uriEnd (some uriPos)
  let rawRequest ← replace r.rawRequest (some uriPos) uriLen uri
  return { r with uri := uri, rawRequest := rawRequest }

end Request

/-! ### Character classes -/

/-- The helpers take the character as an `int`. -/
def isChar (c : ℤ) : Bool := 0 ≤ c ∧ c ≤ 127

def isCtl (c : ℤ) : Bool := (0 ≤ c ∧ c ≤ 31) ∨ c = 127

/-- The case labels of `is_tspecial`. -/
def tspecials : Bytes := bytes "()<>@,;:\\\"/[]?=\x7b\x7d \t"

def isTspecial (c : ℤ) : Bool := c ∈ tspecials.map charToInt

def isDigit (c : ℤ) : Bool := charToInt (byte '0') ≤ c ∧ c ≤ charToInt (byte '9')

/-- The test that methods and header names share. -/
def notTokenChar (input : Byte) : Bool :=
  !isChar (charToInt input) || isCtl (charToInt input) || isTspecial (charToInt input)

/-! ### The path -/

/-- One turn of the `for` loop that decodes `uri_` into `path_`, on `i` and `path_`.  The result `some
none` is the early return that clears the path. -/
def pathBody (uri : Bytes) (s : ℕ × Bytes) : (ℕ × Bytes) ⊕ Option (Option Bytes) :=
  let (i, path) := s
  if i < uri.length then
    match uri[i]? with
    | none => .inr none
    | some c =>
      if c = byte '%' then
        if i + 3 ≤ uri.length then
          match substr uri (some (i + 1)) (some 2) with
          | .error _ => .inr none
          | .ok is =>
            match extractHexInt is with
            | some value => .inl (i + 2 + 1, path ++ [toChar value])
            | none => .inr (some none)
        else .inr (some none)
      else if c = byte '+' then .inl (i + 1, path ++ [byte ' '])
      else .inl (i + 1, path ++ [c])
  else .inr (some (some path))

/-- The decoding loop, started on a given `path_`. -/
def decodeUri (uri path : Bytes) : Option (Option Bytes) :=
  (runLoop (pathBody uri) (uri.length + 1) (0, path)).join

/-- The rest of the path inference: no way backwards in the directory, and an index for directories. -/
def finishPath (path : Bytes) : Option Bytes :=
  if find (bytes "..") path ≠ npos then some []
  else do
    let last ← path.getLast?
    if last = byte '/' then some (path ++ bytes "index.html") else some path

/-- What `path_` becomes when the URI is complete. -/
def inferPath (uri path : Bytes) : Option Bytes := do
  match ← decodeUri uri path with
  | none => some []
  | some decoded => finishPath decoded

/-! ### The state machine -/

/-- `headers_.back().first.push_back(input)`. -/
def pushHeaderName (headers : Headers) (input : Byte) : Option Headers := do
  let (name, value) ← headers.getLast?
  some (headers.dropLast ++ [(name ++ [input], value)])

/-- `headers_.back().second.push_back(input)`. -/
def pushHeaderValue (headers : Headers) (input : Byte) : Option Headers := do
  let (name, value) ← headers.getLast?
  some (headers.dropLast ++ [(name, value ++ [input])])

@[simp] theorem pushHeaderName_append (hs : Headers) (name value : Bytes) (c : Byte) :
    pushHeaderName (hs ++ [(name, value)]) c = some (hs ++ [(name ++ [c], value)]) := by
  simp [pushHeaderName]

@[simp] theorem pushHeaderValue_append (hs : Headers) (name value : Bytes) (c : Byte) :
    pushHeaderValue (hs ++ [(name, value)]) c = some (hs ++ [(name, value ++ [c])]) := by
  simp [pushHeaderValue]

/-- A state that waits for one byte of the version and copies it. -/
def expectVersion (r : Request) (input expected : Byte) (next : State) : Option (Result × Request) :=
  if input = expected then
    some (.indeterminate, { r with state := next, version := r.version ++ [expected] })
  else some (.bad, r)

/-- A state that waits for a line feed. -/
def expectNewline (r : Request) (input : Byte) (next : State) : Option (Result × Request) :=
  if input = byte '\n' then some (.indeterminate, { r with state := next })
  else some (.bad, r)

/-- `Request::Consume`, after the byte has been added to `raw_request_`. -/
def consumeIn (r : Request) (input : Byte) : Option (Result × Request) :=
  match r.state with
  | .methodStart =>
    if notTokenChar input then some (.bad, r)
    else some (.indeterminate, { r with state := .method, method := r.method ++ [input] })
  | .method =>
    if input = byte ' ' then some (.indeterminate, { r with state := .uri })
    else if notTokenChar input then some (.bad, r)
    else some (.indeterminate, { r with method := r.method ++ [input] })
  | .uri =>
    if input = byte ' ' then do
      let path ← inferPath r.uri r.path
      some (.indeterminate, { r with state := .httpVersionH, path := path })
    else if isCtl (charToInt input) then some (.bad, r)
    else some (.indeterminate, { r with uri := r.uri ++ [input] })
  | .httpVersionH => expectVersion r input (byte 'H') .httpVersionT1
  | .httpVersionT1 => expectVersion r input (byte 'T') .httpVersionT2
  | .httpVersionT2 => expectVersion r input (byte 'T') .httpVersionP
  | .httpVersionP => expectVersion r input (byte 'P') .httpVersionSlash
  | .httpVersionSlash => expectVersion r input (byte '/') .httpVersionMajorStart
  | .httpVersionMajorStart =>
    if isDigit (charToInt input) then
      some (.indeterminate, { r with state := .httpVersionMajor, version := r.version ++ [input] })
    else some (.bad, r)
  | .httpVersionMajor =>
    if input = byte '.' then
      some (.indeterminate,
        { r with state := .httpVersionMinorStart, version := r.version ++ [byte '.'] })
    else if isDigit (charToInt input) then
      some (.indeterminate, { r with version := r.version ++ [input] })
    else some (.bad, r)
  | .httpVersionMinorStart =>
    if isDigit (charToInt input) then
      some (.indeterminate, { r with state := .httpVersionMinor, version := r.version ++ [input] })
    else some (.bad, r)
  | .httpVersionMinor =>
    if input = byte '\r' then some (.indeterminate, { r with state := .expectingNewline1 })
    else if isDigit (charToInt input) then
      some (.indeterminate, { r with version := r.version ++ [input] })
    else some (.bad, r)
  | .expectingNewline1 => expectNewline r input .headerLineStart
  | .headerLineStart =>
    if input = byte '\r' then some (.indeterminate, { r with state := .expectingNewline3 })
    else if r.headers ≠ [] ∧ (input = byte ' ' ∨ input = byte '\t') then
      some (.indeterminate, { r with state := .headerLws })
    else if notTokenChar input then some (.bad, r)
    else do
      let headers ← pushHeaderName (r.headers ++ [([], [])]) input
      some (.indeterminate, { r with state := .headerName, headers := headers })
  | .headerLws =>
    if input = byte '\r' then some (.indeterminate, { r with state := .expectingNewline2 })
    else if input = byte ' ' ∨ input = byte '\t' then some (.indeterminate, r)
    else if isCtl (charToInt input) then some (.bad, r)
    else do
      let headers ← pushHeaderValue r.headers input
      some (.indeterminate, { r with state := .headerValue, headers := headers })
  | .headerName =>
    if input = byte ':' then some (.indeterminate, { r with state := .spaceBeforeHeaderValue })
    else if notTokenChar input then some (.bad, r)
    else do
      let headers ← pushHeaderName r.headers input
      some (.indeterminate, { r with headers := headers })
  | .spaceBeforeHeaderValue =>
    if input = byte ' ' then some (.indeterminate, { r with state := .headerValue })
    else some (.bad, r)
  | .headerValue =>
    if input = byte '\r' then some (.indeterminate, { r with state := .expectingNewline2 })
    else if isCtl (charToInt input) then some (.bad, r)
    else do
      let headers ← pushHeaderValue r.headers input
      some (.indeterminate, { r with headers := headers })
  | .expectingNewline2 => expectNewline r input .headerLineStart
  | .expectingNewline3 =>
    if input = byte '\n' then
      match stoull (r.getHeaderValue (bytes "Content-Length")) with
      | .ok n =>
        if n > 0 then some (.indeterminate, { r with remaining := n, state := .body })
        else some (.good, { r with remaining := n })
      | .error _ => some (.good, r)
    else some (.bad, r)
  | .body =>
    -- an `unsigned long long` counter wraps around below zero
    let remaining := (r.remaining + (2 ^ 64 - 1)) % 2 ^ 64
    let r := { r with body := r.body ++ [input], remaining := remaining }
    if remaining > 0 then some (.indeterminate, r) else some (.good, r)

/-- `Request::Consume`. -/
def consume (r : Request) (input : Byte) : Option (Result × Request) :=
  consumeIn { r with rawRequest := r.rawRequest ++ [input] } input

/-! ### `Request::Parse` -/

/-- The two `thread_local` variables. -/
structure ThreadState where
  result : Result
  localRequest : Request
  deriving DecidableEq

/-- The variables of a thread that has not parsed anything yet. -/
def ThreadState.fresh : ThreadState := ⟨.indeterminate, Request.fresh⟩

/-- The `while` loop of `Parse`: the variables afterwards and the returned pointer. -/
def parseFrom : ThreadState → Bytes → Option (ThreadState × Option Request)
  | t, [] => some (t, none)
  | t, input :: rest => do
    let (result, r) ← consume t.localRequest input
    match result with
    | .good => some (⟨result, r.reset⟩, some r)
    | .bad => some (⟨result, r.reset⟩, none)
    | .indeterminate => parseFrom ⟨result, r⟩ rest

/-- `Request::Parse`. -/
def parse (t : ThreadState) (rawRequest : Bytes) : Option (ThreadState × Option Request) :=
  parseFrom { t with result := .indeterminate } rawRequest

/-- `Request::GetParseResult`. -/
def getParseResult (t : ThreadState) : Result := t.result

/-- The request of the unit test `IndeterminateRequest`. -/
example : (parse .fresh (bytes "GET /echo HT")).map (fun p => (getParseResult p.1, p.2)) =
    some (.indeterminate, none) := by decide

end Webserver.Http
