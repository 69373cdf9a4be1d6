import Webserver.ReverseProxy.RemoteStatus
import Webserver.Server.Session
import Webserver.StaticFile.LuaFunctions

/-!
# The virtual method `HandleRequest`

The handlers of all classes as one function.  What they find outside of the program and of their own
members is `Surroundings`; the history is the one at the time of the call, as other sessions add to it.

* `sentAsRecorded_handleRequest_iff` — when `do_write` records the code that it sends, handler by handler.
-/

namespace Webserver.Server

open ByteString Http StaticFile ReverseProxy

/-! ### The handlers -/

/-- The files and the Lua interpreter, the network, and what the server shows of itself. -/
structure Surroundings where
  host : Host
  lua : LuaInterpreter
  net : ℕ → Round
  /-- A bound on the redirects that a proxy follows. -/
  fuel : ℕ
  handlersByUrl : HandlerInfo
  requestHistory : List (Bytes × ResponseCode)

/-- `EchoHandler::HandleRequest`. -/
def EchoHandler.handleRequest (request : Request) (_response : Response) : Status × Response :=
  (.ok, .plainTextResponse request.rawRequest)

/-- `NotFoundHandler::HandleRequest`. -/
def NotFoundHandler.handleRequest (_request : Request) (_response : Response) : Status × Response :=
  (.ok, .defaultResponse .notFound)

/-- `std::to_string` of an `int`. -/
def decimalInt (n : ℤ) : Bytes := if n < 0 then byte '-' :: decimal n.natAbs else decimal n.natAbs

/-- A row of a table of the status page. -/
def statusRow (row : Bytes × Bytes) : Bytes :=
  bytes "<tr><td>" ++ row.1 ++ bytes "</td><td style=\"width:100px\">" ++ row.2 ++ bytes "</td></tr>"

/-- The number of rows and the table, without its end. -/
def statusTable (first second : String) (rows : List (Bytes × Bytes)) : Bytes :=
  decimal rows.length ++ bytes "\r\n<br><br><table style=\"width:640px\"><tr><th align=\"left\">" ++
    bytes first ++ bytes "</th><th align=\"left\" style=\"width:100px\">" ++ bytes second ++
    bytes "</th></tr>" ++ rows.flatMap statusRow

/-- The page that `StatusHandler` makes of the two tables of the server. -/
def statusPage (hi : HandlerInfo) (rh : List (Bytes × ResponseCode)) : Bytes :=
  bytes "<html><head><title>Webserver Status</title></head><body>\r\nTotal number of request handlers: " ++
    statusTable "URL Prefix" "Handler Type" hi.entries ++
    bytes "</table><br><br><br>\r\nTotal number of requests received so far: " ++
    statusTable "Request URI" "Response Code" (rh.map fun r => (r.1, decimalInt r.2)) ++
    bytes "</table></body></html>"

/-- `StatusHandler::HandleRequest`. -/
def StatusHandler.handleRequest (w : Surroundings) (_request : Request) (_response : Response) :
    Status × Response :=
  (.ok, .htmlResponse (statusPage w.handlersByUrl w.requestHistory))

/-- **The virtual method `HandleRequest`**, as far as it returns: `none` is an exception, or a proxy that
is still redirected. -/
def RequestHandler.handleRequest (w : Surroundings) (handler : RequestHandler) (request : Request)
    (response : Response) : Option (Status × Response) :=
  match handler with
  | .echoHandler => some (EchoHandler.handleRequest request response)
  | .notFoundHandler => some (NotFoundHandler.handleRequest request response)
  | .statusHandler => some (StatusHandler.handleRequest w request response)
  | .staticFileHandler h => (StaticFile.handleRequest (withLua w.host w.lua) h request response).toOption
  | .reverseProxyHandler h => do
    let (_, result) ← ReverseProxy.handleRequest w.fuel w.net h request response
    result.toOption

/-! ### The code that is sent and the code that is recorded -/

/-- **The code recorded is the code sent**: the status has been assigned, and `do_write` sends a text whose
status line has the code that it appends to the history. -/
def SentAsRecorded (beyondCrlf uri : Bytes) (res : Response) : Prop :=
  ∃ status, res.status = some status ∧ ∀ o, ∃ sent,
    doWrite beyondCrlf uri res o = some ⟨o.sent ++ [sent], o.history ++ [(uri, status)]⟩ ∧
      StatusLine sent status

section

variable {beyondCrlf uri : Bytes} {res : Response}

theorem sentAsRecorded_iff : SentAsRecorded beyondCrlf uri res ↔
    ∃ status sent, res.status = some status ∧ res.toString beyondCrlf = some sent ∧
      StatusLine sent status := by
  constructor
  · intro h
    obtain ⟨status, hstatus, hwrites⟩ := h
    obtain ⟨sent, hsent⟩ := Response.toString_isSome hstatus beyondCrlf
    obtain ⟨sent', hwrite, hline⟩ := hwrites ⟨[], []⟩
    rw [doWrite, hsent, hstatus] at hwrite
    have hsame : [sent] = [sent'] := congrArg Outcome.sent (Option.some.inj hwrite)
    obtain rfl := List.singleton_inj.mp hsame
    exact ⟨status, sent, hstatus, hsent, hline⟩
  · intro h
    obtain ⟨status, sent, hstatus, hsent, hline⟩ := h
    refine ⟨status, hstatus, fun o => ⟨sent, ?_, hline⟩⟩
    rw [doWrite, hsent, hstatus]
    rfl

/-- A response that is not forwarded. -/
theorem sentAsRecorded_iff_known {status : ResponseCode} (hfull : res.fullResponse = [])
    (hstatus : res.status = some status) : SentAsRecorded beyondCrlf uri res ↔ status ∈ knownCodes := by
  obtain ⟨sent, hsent⟩ := Response.toString_isSome hstatus beyondCrlf
  rw [sentAsRecorded_iff, ← statusLine_toString_iff hfull hstatus hsent]
  constructor
  · intro h
    obtain ⟨status', sent', hstatus', hsent', hline⟩ := h
    rwa [Option.some.inj (hstatus.symm.trans hstatus'), Option.some.inj (hsent.symm.trans hsent')]
  · intro hline
    exact ⟨status, sent, hstatus, hsent, hline⟩

theorem sentAsRecorded_defaultResponse {status : ResponseCode} (h : status ∈ knownCodes) :
    SentAsRecorded beyondCrlf uri (.defaultResponse status) :=
  (sentAsRecorded_iff_known rfl rfl).mpr h

/-- A forwarded response. -/
theorem sentAsRecorded_iff_forwarded (hstatus : res.status = recordedStatus (secondToken res.fullResponse)) :
    SentAsRecorded beyondCrlf uri res ↔
      StatusLine res.fullResponse .ok ∨ StatusLine res.fullResponse .notFound := by
  rw [sentAsRecorded_iff, ← statusLine_recorded_iff, hstatus]
  refine exists_congr fun status => ?_
  by_cases hnil : res.fullResponse = []
  · have hnone : recordedStatus (secondToken res.fullResponse) = none := by
      rw [hnil]
      rfl
    rw [hnone]
    exact iff_of_false (fun ⟨_, h, _⟩ => by cases h) (fun h => by cases h.1)
  · rw [Response.toString, if_pos hnil]
    constructor
    · intro h
      obtain ⟨sent, hrecorded, hsent, hline⟩ := h
      rw [← Option.some.inj hsent] at hline
      exact ⟨hrecorded, hline⟩
    · intro h
      exact ⟨_, h.1, rfl, h.2⟩

end

/-! ### Handler by handler -/

/-- **What a handler depends on** for the code to be the one that is sent: the page that is served does not
end with the status 203, and the reply that is forwarded has a status line with 200 or 404. -/
def Agrees (w : Surroundings) (handler : RequestHandler) (request : Request) : Prop :=
  match handler with
  | .staticFileHandler h => ∀ calls, ServesPage w.host w.lua h request calls → lastStatus calls ≠ some 203
  | .reverseProxyHandler h =>
    ∀ reply, Forwards w.net h request reply → StatusLine reply .ok ∨ StatusLine reply .notFound
  | _ => True

section

variable {w : Surroundings} {handler : RequestHandler} {request : Request} {res : Response}

theorem exceptToOption_eq_some {ε α : Type*} {e : Except ε α} {a : α} (h : e.toOption = some a) : e = .ok a := by
  cases e with
  | error e => cases h
  | ok b => rw [Option.some.inj h]

theorem handleRequest_static {h : StaticFileHandler} {r : Status × Response}
    (hcall : RequestHandler.handleRequest w (.staticFileHandler h) request .new = some r) :
    StaticFile.handleRequest (withLua w.host w.lua) h request .new = .ok r :=
  exceptToOption_eq_some hcall

theorem handleRequest_proxy {h : ReverseProxyHandler} {r : Status × Response}
    (hcall : RequestHandler.handleRequest w (.reverseProxyHandler h) request .new = some r) :
    ∃ h', ReverseProxy.handleRequest w.fuel w.net h request .new = some (h', .ok r) := by
  obtain ⟨⟨h', result⟩, hreturns, hresult⟩ := Option.bind_eq_some_iff.mp hcall
  rw [← exceptToOption_eq_some hresult]
  exact ⟨h', hreturns⟩

/-- **A handler that reports success** has its code recorded as it is sent exactly when its surroundings
agree. -/
theorem sentAsRecorded_handleRequest_iff {beyondCrlf uri : Bytes}
    (hcall : handler.handleRequest w request .new = some (.ok, res)) :
    SentAsRecorded beyondCrlf uri res ↔ Agrees w handler request := by
  cases handler with
  | echoHandler =>
    obtain rfl := (Prod.mk.inj (Option.some.inj hcall)).2
    exact iff_of_true ((sentAsRecorded_iff_known rfl rfl).mpr (by decide)) trivial
  | notFoundHandler =>
    obtain rfl := (Prod.mk.inj (Option.some.inj hcall)).2
    exact iff_of_true (sentAsRecorded_defaultResponse (by decide)) trivial
  | statusHandler =>
    obtain rfl := (Prod.mk.inj (Option.some.inj hcall)).2
    exact iff_of_true ((sentAsRecorded_iff_known rfl rfl).mpr (by decide)) trivial
  | staticFileHandler h =>
    obtain ⟨hfull, status, hstatus, hknown⟩ := handleRequest_known_iff (handleRequest_static hcall)
    exact (sentAsRecorded_iff_known hfull hstatus).trans hknown
  | reverseProxyHandler h =>
    obtain ⟨h', hreturns⟩ := handleRequest_proxy hcall
    obtain ⟨reply, hforwards, honly, hfull, hstatus⟩ := handleRequest_ok hreturns
    rw [← hfull] at hstatus
    rw [sentAsRecorded_iff_forwarded hstatus, hfull]
    constructor
    · intro hline reply' hforwards'
      rw [honly reply' hforwards']
      exact hline
    · intro hall
      exact hall reply hforwards

/-- A handler that fails has served no page and forwarded nothing. -/
theorem agrees_of_error (hcall : handler.handleRequest w request .new = some (.error, res)) :
    Agrees w handler request := by
  cases handler with
  | echoHandler => exact trivial
  | notFoundHandler => exact trivial
  | statusHandler => exact trivial
  | staticFileHandler h =>
    intro calls hpage
    obtain ⟨res', hok, -⟩ := handleRequest_of_servesPage hpage
    rw [handleRequest_static hcall] at hok
    cases hok
  | reverseProxyHandler h =>
    intro reply hforwards
    obtain ⟨h', hreturns⟩ := handleRequest_proxy hcall
    exact absurd hforwards (handleRequest_error hreturns)

end

end Webserver.Server
