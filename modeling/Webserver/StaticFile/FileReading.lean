import Webserver.StaticFile.StaticFileHandler
import Webserver.Support.FileStream

/-!
# How `HandleRequest` reads its file

`do_lua` reads the file character by character, the other branch of `HandleRequest` in blocks of 512.  Here both loops
run over a stream, in whatever pieces the operating system gives the file; `StaticFileHandler` has the file as a whole.

* `handleRequestOn_eq` — the two agree, and the loops always come to an end.
-/

namespace Webserver.StaticFile

open BoundedLoop ByteString CxxString FileStream Http Server

/-- A file system whose files are read piece by piece, with the same libraries as a `Host`. -/
structure Disk where
  openFile : Bytes → Option (Source Byte)
  runLua : Bytes → Request → Response → Option (Response × Bytes)
  markdown : Bytes → Bytes

/-- The files as a whole. -/
def Disk.host (disk : Disk) : Host :=
  ⟨fun name => (disk.openFile name).map Source.contents, fun name => (disk.openFile name).any Source.breaks,
    disk.runLua, disk.markdown⟩

/-! ### The two loops -/

/-- The variables of the loop of `do_lua`, with its stream. -/
structure StreamScanner where
  state : LuaState
  lua : Bytes
  again : Option Byte
  file : Stream Byte

/-- The `switch` for the character `c`. -/
def streamTurn (s : LuaState) (lua : Bytes) (c : Byte) (file : Stream Byte) :
    StreamScanner ⊕ (Option Bytes × Stream Byte) :=
  match luaCase s c lua with
  | none => .inr (none, file)
  | some (s', lua', next) => .inl ⟨s', lua', if next then none else some c, file⟩

/-- One turn of the `while (true)` loop; it is left when `file.get(c)` fails. -/
def streamBody (m : StreamScanner) : StreamScanner ⊕ (Option Bytes × Stream Byte) :=
  match m.again with
  | some c => streamTurn m.state m.lua c m.file
  | none =>
    match m.file.get with
    | (some c, file) => streamTurn m.state m.lua c file
    | (none, file) => .inr (some (m.lua ++ bytes "]])"), file)

/-- `do_lua`, with at most `fuel` turns, and the stream that it leaves. -/
def doLuaOn (fuel : ℕ) (disk : Disk) (file : Stream Byte) (request : Request) (response : Response) :
    Option (Option (Response × Bytes) × Stream Byte) := do
  let (script, file) ← runLoop streamBody fuel ⟨.start, bytes "put([[", none, file⟩
  return (script.bind fun script => disk.runLua (cStr script) request response, file)

/-- `HandleRequest` after the file has been opened. -/
def respondWithStream (fuel : ℕ) (disk : Disk) (file : Stream Byte) (extension type : Bytes) (request : Request)
    (response : Response) : Option (Status × Response) := do
  let response := response.setStatus .ok
  if type = bytes "text/html" then
    let (called, file) ← doLuaOn fuel disk file request response
    match called with
    | none => return (.error, response)
    | some (response, body) =>
      if file.bad then return (.error, response)
      let body := if extension = bytes "md" then disk.markdown body else body
      return (.ok, fillResponse response body type)
  else
    let (body, file) ← runLoop (blockBody 512) fuel ([], file)
    if file.bad then return (.error, response)
    return (.ok, fillResponse response body type)

/-- `StaticFileHandler::HandleRequest`, with at most `fuel` turns of its loop. -/
def handleRequestOn (fuel : ℕ) (disk : Disk) (h : StaticFileHandler) (request : Request) (response : Response) :
    Except StdException (Option (Status × Response)) := do
  let path ← filePath h request
  let extension ← extensionOf path
  let type := extensionToType extension
  match disk.openFile (cStr (h.root ++ path)) with
  | none => return some (.ok, .defaultResponse .notFound)
  | some file => return respondWithStream fuel disk file.stream extension type request response

/-! ### They read the whole file -/

/-- The scanner on a stream and the scanner on what is left of the file. -/
structure Follows (breaks : Bool) (m : Scanner) (t : StreamScanner) : Prop where
  state : t.state = m.state
  lua : t.lua = m.lua
  again : t.again = m.again
  rest : t.file.rest = m.file
  good : t.file.good = true
  breaks : t.file.source.breaks = breaks

theorem follows_start (file : Source Byte) :
    Follows file.breaks (luaStart file.contents) ⟨.start, bytes "put([[", none, file.stream⟩ :=
  ⟨rfl, rfl, rfl, rfl, rfl, rfl⟩

theorem streamTurn_inl {s s' : LuaState} {lua lua' : Bytes} {c : Byte} {next : Bool} {file : Stream Byte}
    (h : luaCase s c lua = some (s', lua', next)) :
    streamTurn s lua c file = .inl ⟨s', lua', if next then none else some c, file⟩ := by
  rw [streamTurn, h]

theorem streamTurn_inr {s : LuaState} {lua : Bytes} {c : Byte} {file : Stream Byte} (h : luaCase s c lua = none) :
    streamTurn s lua c file = .inr (none, file) := by
  rw [streamTurn, h]

/-- What the two scanners do with one character. -/
theorem follows_turn {breaks : Bool} {s : LuaState} {lua rest : Bytes} {c : Byte} {file : Stream Byte}
    (hrest : file.rest = rest) (hgood : file.good = true) (hbreaks : file.source.breaks = breaks) :
    (∀ m', luaTurn s lua c rest = .inl m' → ∃ t', streamTurn s lua c file = .inl t' ∧ Follows breaks m' t') ∧
      ∀ r, luaTurn s lua c rest = .inr r →
        r = none ∧ ∃ file', streamTurn s lua c file = .inr (none, file') := by
  cases hcase : luaCase s c lua with
  | none =>
    rw [luaTurn, hcase]
    refine ⟨fun m' h => ?_, fun r h => ⟨(Sum.inr.inj h).symm, file, streamTurn_inr hcase⟩⟩
    cases h
  | some result =>
    obtain ⟨s', lua', next⟩ := result
    rw [luaTurn, hcase]
    refine ⟨fun m' h => ?_, fun r h => ?_⟩
    · obtain rfl := Sum.inl.inj h
      exact ⟨_, streamTurn_inl hcase, ⟨rfl, rfl, rfl, hrest, hgood, hbreaks⟩⟩
    · cases h

/-- What the two scanners end with: the same script, and a stream that is bad where the file breaks. -/
def EndsWith (breaks : Bool) (r : Option Bytes) (q : Option Bytes × Stream Byte) : Prop :=
  q.1 = r ∧ (r ≠ none → q.2.bad = breaks)

theorem follows_body_inl {breaks : Bool} (m : Scanner) (t : StreamScanner) (m' : Scanner) (h : Follows breaks m t)
    (hbody : luaBody m = .inl m') : ∃ t', streamBody t = .inl t' ∧ Follows breaks m' t' := by
  obtain ⟨state, lua, again, file⟩ := m
  obtain ⟨state', lua', again', stream⟩ := t
  obtain ⟨rfl, rfl, rfl, hrest, hgood, hbreaks⟩ := h
  cases again' with
  | some c => exact (follows_turn hrest hgood hbreaks).1 m' hbody
  | none =>
    cases file with
    | nil => cases hbody
    | cons c cs =>
      obtain ⟨stream', hget, hrest', hgood', hbreaks'⟩ := get_cons hgood hrest
      rw [streamBody, hget]
      exact (follows_turn hrest' hgood' (hbreaks'.trans hbreaks)).1 m' hbody

theorem follows_body_inr {breaks : Bool} (m : Scanner) (t : StreamScanner) (r : Option Bytes) (h : Follows breaks m t)
    (hbody : luaBody m = .inr r) : ∃ q, streamBody t = .inr q ∧ EndsWith breaks r q := by
  obtain ⟨state, lua, again, file⟩ := m
  obtain ⟨state', lua', again', stream⟩ := t
  obtain ⟨rfl, rfl, rfl, hrest, hgood, hbreaks⟩ := h
  have hundefined : ∀ file', EndsWith breaks none (none, file') := fun _ => ⟨rfl, fun h => absurd rfl h⟩
  cases again' with
  | some c =>
    obtain ⟨rfl, file', hturn⟩ := (follows_turn hrest hgood hbreaks).2 r hbody
    exact ⟨_, hturn, hundefined file'⟩
  | none =>
    cases file with
    | nil =>
      obtain rfl := Sum.inr.inj hbody
      obtain ⟨stream', hget, hbad⟩ := get_nil hgood hrest
      rw [streamBody, hget]
      exact ⟨_, rfl, rfl, fun _ => hbad.trans hbreaks⟩
    | cons c cs =>
      obtain ⟨stream', hget, hrest', hgood', hbreaks'⟩ := get_cons hgood hrest
      obtain ⟨rfl, file', hturn⟩ := (follows_turn hrest' hgood' (hbreaks'.trans hbreaks)).2 r hbody
      rw [streamBody, hget]
      exact ⟨_, hturn, hundefined file'⟩

/-- `do_lua` on a stream. -/
theorem exists_doLuaOn (disk : Disk) (file : Source Byte) (request : Request) (response : Response) :
    ∃ stream bound, (∀ extra, doLuaOn (bound + extra) disk file.stream request response =
        some (doLua disk.host file.contents request response, stream)) ∧
      (doLua disk.host file.contents request response ≠ none → stream.bad = file.breaks) := by
  obtain ⟨script, hscript⟩ := runLoop_luaBody file.contents
  have hreturns : Returns luaBody (luaStart file.contents) script := ⟨_, hscript⟩
  obtain ⟨⟨script', stream⟩, ⟨bound, hbound⟩, rfl, hbad⟩ :=
    hreturns.simulate (Follows file.breaks) (EndsWith file.breaks) follows_body_inl follows_body_inr
      (follows_start file)
  have hlua : doLua disk.host file.contents request response =
      script'.bind fun script => disk.runLua (cStr script) request response := by
    rw [doLua, luaScript, hscript]
    rfl
  refine ⟨stream, bound, fun extra => ?_, fun hcalled => hbad fun hnone => ?_⟩
  · rw [doLuaOn, runLoop_add extra hbound, hlua]
    rfl
  · obtain rfl : script' = none := hnone
    exact hcalled hlua

/-- What `HandleRequest` makes of an open file. -/
theorem exists_respondWithStream (disk : Disk) {name : Bytes} {file : Source Byte}
    (hopen : disk.openFile name = some file) (extension type : Bytes) (request : Request) (response : Response) :
    ∃ bound, ∀ extra, respondWithStream (bound + extra) disk file.stream extension type request response =
      some (respondWithFile disk.host name file.contents extension type request response) := by
  have hfails : disk.host.readFails name = file.breaks := by
    show (disk.openFile name).any Source.breaks = _
    rw [hopen]
    rfl
  by_cases htype : type = bytes "text/html"
  · obtain ⟨stream, bound, hlua, hbad⟩ := exists_doLuaOn disk file request (response.setStatus .ok)
    refine ⟨bound, fun extra => ?_⟩
    simp only [respondWithStream, respondWithFile, if_pos htype, hlua, hfails]
    cases hcalled : doLua disk.host file.contents request (response.setStatus .ok) with
    | none => rfl
    | some called =>
      have hstream : stream.bad = file.breaks := hbad (by rw [hcalled]; exact Option.some_ne_none called)
      rw [← hstream]
      show (if stream.bad = true then _ else _) = some (if stream.bad = true then _ else _)
      cases stream.bad with
      | true => rfl
      | false => rfl
  · obtain ⟨body, stream, ⟨bound, hloop⟩, hbad, hbody⟩ :=
      returns_blockBody (n := 512) (by decide) _ [] (f := file.stream) rfl le_rfl
    refine ⟨bound, fun extra => ?_⟩
    simp only [respondWithStream, respondWithFile, if_neg htype, runLoop_add extra hloop, hfails]
    show (if stream.bad = true then _ else _) = _
    rw [hbad]
    cases hbreaks : file.breaks with
    | true => rw [show file.stream.source.breaks = file.breaks from rfl, hbreaks]; rfl
    | false =>
      rw [show file.stream.source.breaks = file.breaks from rfl, hbreaks, hbody hbreaks]
      rfl

/-- **The handler that reads through a stream is the handler that has the file as a whole**, in whatever pieces the
file comes and wherever it breaks. -/
theorem handleRequestOn_eq (disk : Disk) (h : StaticFileHandler) (request : Request) (response : Response) :
    ∃ bound, ∀ extra, handleRequestOn (bound + extra) disk h request response =
      (handleRequest disk.host h request response).map some := by
  simp only [handleRequestOn, handleRequest]
  cases filePath h request with
  | error e => exact ⟨0, fun _ => rfl⟩
  | ok path =>
    simp only [ok_bind]
    cases extensionOf path with
    | error e => exact ⟨0, fun _ => rfl⟩
    | ok extension =>
      simp only [ok_bind]
      have hhost : disk.host.openFile (cStr (h.root ++ path)) =
          (disk.openFile (cStr (h.root ++ path))).map Source.contents := rfl
      rw [hhost]
      cases hopen : disk.openFile (cStr (h.root ++ path)) with
      | none => exact ⟨0, fun _ => rfl⟩
      | some file =>
        obtain ⟨bound, hrespond⟩ :=
          exists_respondWithStream disk hopen extension (extensionToType extension) request response
        exact ⟨bound, fun extra => congrArg Except.ok (hrespond extra)⟩

end Webserver.StaticFile
