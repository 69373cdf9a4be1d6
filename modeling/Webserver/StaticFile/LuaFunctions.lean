import Webserver.Http.StatusLine
import Webserver.StaticFile.StaticFileHandler

/-!
# The functions a Lua page writes its response with

`do_lua` registers three functions that change something outside of the Lua machine: `addheader`,
`setstatus` and `put`.  What the interpreter does is a parameter: the calls that a script makes on a
request, or nothing when it ends in an error.  A call that raises an error changes nothing, and the script
may catch the error and go on.

* `runCalls_status` — the status a page ends with.
* `handleRequest_known_iff` — when the status of a response has a text.
-/

namespace Webserver.StaticFile

open ByteString CxxString Http Server

/-! ### The registered functions -/

/-- A call of a registered function, with arguments that passed `luaL_checkstring` or `luaL_checkint`. -/
inductive LuaCall where
  | addheader (name value : Bytes)
  | setstatus (arg : ℤ)
  | put (text : Bytes)
  deriving DecidableEq

/-- The test in `lua_setstatus`. -/
def isValidStatus (arg : ℤ) : Bool :=
  (200 ≤ arg ∧ arg ≤ 204) ∨ arg = 301 ∨ arg = 302 ∨ arg = 304 ∨ arg = 400 ∨ arg = 401 ∨ arg = 403 ∨
    arg = 404 ∨ (500 ≤ arg ∧ arg ≤ 503)

/-- `lua_addheader`. -/
def luaAddheader (name value : Bytes) (response : Response) : Response :=
  response.addHeader (cStr name) (cStr value)

/-- `lua_setstatus`; an argument error is `none`. -/
def luaSetstatus (arg : ℤ) (response : Response) : Option Response :=
  if isValidStatus arg then some (response.setStatus arg) else none

/-- `lua_put`. -/
def luaPut (text body : Bytes) : Bytes := body ++ cStr text

/-- What a call does to the response and its body. -/
def LuaCall.run : LuaCall → Response × Bytes → Option (Response × Bytes)
  | .addheader name value, (response, body) => some (luaAddheader name value response, body)
  | .setstatus arg, (response, body) => (luaSetstatus arg response).map fun response => (response, body)
  | .put text, (response, body) => some (response, luaPut text body)

/-- The calls of a script, one after the other. -/
def runCalls (calls : List LuaCall) (s : Response × Bytes) : Response × Bytes :=
  calls.foldl (fun s call => (call.run s).getD s) s

/-- The calls that a script makes on a request. -/
abbrev LuaInterpreter := Bytes → Request → Option (List LuaCall)

/-- The script that `do_lua` has put together, run with an empty body. -/
def runScript (lua : LuaInterpreter) (script : Bytes) (request : Request) (response : Response) :
    Option (Response × Bytes) :=
  (lua script request).map fun calls => runCalls calls (response, [])

/-! ### The status of a page -/

/-- The status that a call sets. -/
def LuaCall.newStatus : LuaCall → Option ResponseCode
  | .setstatus arg => if isValidStatus arg then some arg else none
  | _ => none

/-- The status of the last call that sets one. -/
def lastStatus (calls : List LuaCall) : Option ResponseCode := (calls.filterMap LuaCall.newStatus).getLast?

theorem lastStatus_cons (call : LuaCall) (calls : List LuaCall) :
    lastStatus (call :: calls) = (lastStatus calls).or call.newStatus := by
  rw [lastStatus, lastStatus, List.filterMap_cons]
  cases call.newStatus with
  | none => simp only [Option.or_none]
  | some code =>
    simp only [List.getLast?_cons]
    cases (calls.filterMap LuaCall.newStatus).getLast? with
    | none => rfl
    | some last => rfl

/-- **One call** sets the status, or leaves it alone, and does not forward anything. -/
theorem LuaCall.run_status (call : LuaCall) (s : Response × Bytes) :
    ((call.run s).getD s).1.status = call.newStatus.or s.1.status ∧
      ((call.run s).getD s).1.fullResponse = s.1.fullResponse := by
  obtain ⟨response, body⟩ := s
  cases call with
  | addheader name value => exact ⟨rfl, rfl⟩
  | setstatus arg =>
    rw [LuaCall.run, luaSetstatus, LuaCall.newStatus]
    split_ifs
    · exact ⟨rfl, rfl⟩
    · exact ⟨rfl, rfl⟩
  | put text => exact ⟨rfl, rfl⟩

/-- **The status a page ends with** is the last one it sets, or the one it started with. -/
theorem runCalls_status (calls : List LuaCall) (s : Response × Bytes) :
    (runCalls calls s).1.status = (lastStatus calls).or s.1.status ∧
      (runCalls calls s).1.fullResponse = s.1.fullResponse := by
  induction calls generalizing s with
  | nil => exact ⟨rfl, rfl⟩
  | cons call calls ih =>
    obtain ⟨hstatus, hfull⟩ := ih ((call.run s).getD s)
    obtain ⟨hstatus', hfull'⟩ := call.run_status s
    rw [hstatus'] at hstatus
    rw [hfull'] at hfull
    rw [lastStatus_cons, Option.or_assoc]
    exact ⟨hstatus, hfull⟩

theorem isValidStatus_of_lastStatus {calls : List LuaCall} {code : ResponseCode}
    (h : lastStatus calls = some code) : isValidStatus code := by
  obtain ⟨call, -, hcall⟩ := List.mem_filterMap.mp (List.mem_of_getLast? h)
  cases call with
  | addheader name value => cases hcall
  | put text => cases hcall
  | setstatus arg =>
    rw [LuaCall.newStatus] at hcall
    split_ifs at hcall with hvalid
    rwa [← Option.some.inj hcall]

/-- The test lets one code through that has no text. -/
theorem mem_knownCodes_iff {code : ℤ} (h : isValidStatus code) : code ∈ knownCodes ↔ code ≠ 203 := by
  have hknown : code ∈ knownCodes ↔ code = 200 ∨ code = 201 ∨ code = 202 ∨ code = 204 ∨ code = 301 ∨
      code = 302 ∨ code = 304 ∨ code = 400 ∨ code = 401 ∨ code = 403 ∨ code = 404 ∨ code = 500 ∨
      code = 501 ∨ code = 502 ∨ code = 503 := by
    simp only [knownCodes, statusTexts, List.map_cons, List.map_nil, List.mem_cons, List.not_mem_nil, or_false]
    rfl
  have hrange := of_decide_eq_true h
  rw [hknown]
  omega

/-! ### The responses of the handler -/

/-- The host whose interpreter runs scripts on the registered functions. -/
def withLua (host : Host) (lua : LuaInterpreter) : Host := { host with runLua := runScript lua }

/-- **The page that a request is answered with**, by the calls its script makes: the file can be opened and
read, it is sent as HTML, and the script does not end in an error. -/
def ServesPage (host : Host) (lua : LuaInterpreter) (h : StaticFileHandler) (request : Request)
    (calls : List LuaCall) : Prop :=
  ∃ path extension file script, filePath h request = .ok path ∧ extensionOf path = .ok extension ∧
    extensionToType extension = bytes "text/html" ∧ host.openFile (cStr (h.root ++ path)) = some file ∧
    host.readFails (cStr (h.root ++ path)) = false ∧ luaScript file = some (some script) ∧
    lua (cStr script) request = some calls

section Handler

variable {host : Host} {lua : LuaInterpreter} {h : StaticFileHandler} {request : Request}

theorem ServesPage.unique {calls calls' : List LuaCall} (hpage : ServesPage host lua h request calls)
    (hpage' : ServesPage host lua h request calls') : calls = calls' := by
  obtain ⟨path, extension, file, script, hpath, -, -, hopen, -, hscript, hcalls⟩ := hpage
  obtain ⟨path', extension', file', script', hpath', -, -, hopen', -, hscript', hcalls'⟩ := hpage'
  obtain rfl := Except.ok.inj (hpath.symm.trans hpath')
  obtain rfl := Option.some.inj (hopen.symm.trans hopen')
  obtain rfl := Option.some.inj (Option.some.inj (hscript.symm.trans hscript'))
  exact Option.some.inj (hcalls.symm.trans hcalls')

theorem doLua_eq_some_iff {file : Bytes} {response : Response} {r : Response × Bytes} :
    doLua (withLua host lua) file request response = some r ↔
      ∃ script calls, luaScript file = some (some script) ∧ lua (cStr script) request = some calls ∧
        runCalls calls (response, []) = r := by
  rw [doLua]
  constructor
  · intro hrun
    obtain ⟨script, hscript, hrun⟩ := Option.bind_eq_some_iff.mp hrun
    obtain ⟨calls, hcalls, hrun⟩ := Option.map_eq_some_iff.mp hrun
    exact ⟨script, calls, Option.join_eq_some_iff.mp hscript, hcalls, hrun⟩
  · intro hrun
    obtain ⟨script, calls, hscript, hcalls, hrun⟩ := hrun
    exact Option.bind_eq_some_iff.mpr
      ⟨script, Option.join_eq_some_iff.mpr hscript, Option.map_eq_some_iff.mpr ⟨calls, hcalls, hrun⟩⟩

theorem handleRequest_of_opened {path extension file : Bytes} (hpath : filePath h request = .ok path)
    (hextension : extensionOf path = .ok extension)
    (hopen : host.openFile (cStr (h.root ++ path)) = some file) (response : Response) :
    handleRequest host h request response = .ok (respondWithFile host (cStr (h.root ++ path)) file extension
      (extensionToType extension) request response) := by
  simp only [handleRequest, hpath, hextension, ok_bind, hopen]
  rfl

/-- **A page** is answered with the response its script leaves, filled out with a body. -/
theorem handleRequest_eq_fillResponse {calls : List LuaCall} (hpage : ServesPage host lua h request calls) :
    ∃ body, handleRequest (withLua host lua) h request .new =
      .ok (.ok, fillResponse (runCalls calls (Response.new.setStatus .ok, [])).1 body (bytes "text/html")) := by
  obtain ⟨path, extension, file, script, hpath, hextension, htype, hopen, hfails, hscript, hcalls⟩ := hpage
  have hrun : doLua (withLua host lua) file request (Response.new.setStatus .ok) =
      some (runCalls calls (Response.new.setStatus .ok, [])) :=
    doLua_eq_some_iff.mpr ⟨script, calls, hscript, hcalls, rfl⟩
  rw [@handleRequest_of_opened (withLua host lua) h request path extension file hpath hextension hopen,
    respondWithFile, htype, if_pos rfl, hrun]
  show ∃ body, Except.ok (if host.readFails (cStr (h.root ++ path)) then _ else _) = _
  rw [hfails]
  exact ⟨_, rfl⟩

/-- A page is sent with the last status its script sets, or as `ok`. -/
theorem handleRequest_of_servesPage {calls : List LuaCall} (hpage : ServesPage host lua h request calls) :
    ∃ res, handleRequest (withLua host lua) h request .new = .ok (.ok, res) ∧ res.fullResponse = [] ∧
      res.status = some ((lastStatus calls).getD .ok) := by
  obtain ⟨body, hok⟩ := handleRequest_eq_fillResponse hpage
  obtain ⟨hstatus, hfull⟩ := runCalls_status calls (Response.new.setStatus .ok, [])
  refine ⟨_, hok, hfull, ?_⟩
  show (runCalls calls (Response.new.setStatus .ok, [])).1.status = _
  rw [hstatus]
  cases lastStatus calls with
  | none => rfl
  | some code => rfl

/-- A file that is not a page is sent as it is. -/
theorem respondWithFile_of_noPage {path extension file : Bytes} (hpath : filePath h request = .ok path)
    (hextension : extensionOf path = .ok extension)
    (hopen : host.openFile (cStr (h.root ++ path)) = some file)
    (hno : ∀ calls, ¬ ServesPage host lua h request calls) {res : Response}
    (hok : respondWithFile (withLua host lua) (cStr (h.root ++ path)) file extension
      (extensionToType extension) request .new = (.ok, res)) :
    res.fullResponse = [] ∧ res.status = some .ok := by
  rw [respondWithFile] at hok
  by_cases htype : extensionToType extension = bytes "text/html"
  · rw [if_pos htype] at hok
    cases hrun : doLua (withLua host lua) file request (Response.new.setStatus .ok) with
    | none => rw [hrun] at hok; cases hok
    | some r =>
      obtain ⟨script, calls, hscript, hcalls, -⟩ := doLua_eq_some_iff.mp hrun
      rw [hrun] at hok
      cases hfails : host.readFails (cStr (h.root ++ path)) with
      | true =>
        simp only [withLua, hfails] at hok
        cases hok
      | false =>
        exact absurd ⟨path, extension, file, script, hpath, hextension, htype, hopen, hfails, hscript, hcalls⟩
          (hno calls)
  · rw [if_neg htype] at hok
    split_ifs at hok with hfails
    · cases hok
    · obtain rfl := (Prod.mk.inj hok).2
      exact ⟨rfl, rfl⟩

/-- **Any other response** is a file as it is, or the page of `NotFoundHandler`. -/
theorem handleRequest_of_noPage (hno : ∀ calls, ¬ ServesPage host lua h request calls) {res : Response}
    (hok : handleRequest (withLua host lua) h request .new = .ok (.ok, res)) :
    res.fullResponse = [] ∧ (res.status = some .ok ∨ res.status = some .notFound) := by
  cases hpath : filePath h request with
  | error e => rw [handleRequest, hpath] at hok; cases hok
  | ok path =>
    cases hextension : extensionOf path with
    | error e => rw [handleRequest, hpath, ok_bind, hextension] at hok; cases hok
    | ok extension =>
      cases hopen : host.openFile (cStr (h.root ++ path)) with
      | none =>
        simp only [handleRequest, hpath, hextension, ok_bind, withLua, hopen] at hok
        obtain rfl := (Prod.mk.inj (Except.ok.inj hok)).2
        exact ⟨rfl, .inr rfl⟩
      | some file =>
        rw [@handleRequest_of_opened (withLua host lua) h request path extension file hpath hextension hopen]
          at hok
        obtain ⟨hfull, hstatus⟩ := respondWithFile_of_noPage hpath hextension hopen hno (Except.ok.inj hok)
        exact ⟨hfull, .inl hstatus⟩

/-- **A response of the handler has a status**, and the status has a text exactly when it is not 203 that
the page ends with. -/
theorem handleRequest_known_iff {res : Response}
    (hok : handleRequest (withLua host lua) h request .new = .ok (.ok, res)) :
    res.fullResponse = [] ∧ ∃ code, res.status = some code ∧
      (code ∈ knownCodes ↔ ∀ calls, ServesPage host lua h request calls → lastStatus calls ≠ some 203) := by
  by_cases hpage : ∃ calls, ServesPage host lua h request calls
  · obtain ⟨calls, hpage⟩ := hpage
    obtain ⟨res', hok', hfull, hstatus⟩ := handleRequest_of_servesPage hpage
    obtain rfl : res' = res := (Prod.mk.inj (Except.ok.inj (hok'.symm.trans hok))).2
    have honly : (∀ calls', ServesPage host lua h request calls' → lastStatus calls' ≠ some 203) ↔
        lastStatus calls ≠ some 203 :=
      ⟨fun hall => hall calls hpage, fun hne calls' hpage' => by rwa [hpage'.unique hpage]⟩
    refine ⟨hfull, _, hstatus, ?_⟩
    rw [honly]
    cases hlast : lastStatus calls with
    | none => exact iff_of_true (by decide) (fun h => by cases h)
    | some code =>
      rw [Option.getD_some, mem_knownCodes_iff (isValidStatus_of_lastStatus hlast), Ne, Ne, Option.some.injEq]
  · rw [not_exists] at hpage
    obtain ⟨hfull, hstatus⟩ := handleRequest_of_noPage hpage hok
    have hall : ∀ calls, ServesPage host lua h request calls → lastStatus calls ≠ some 203 :=
      fun calls h => absurd h (hpage calls)
    rcases hstatus with hstatus | hstatus
    · exact ⟨hfull, _, hstatus, iff_of_true (by decide) hall⟩
    · exact ⟨hfull, _, hstatus, iff_of_true (by decide) hall⟩

end Handler

end Webserver.StaticFile
