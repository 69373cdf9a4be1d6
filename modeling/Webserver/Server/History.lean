import Webserver.Server.HandleRequest

/-!
# The request history

`do_write` appends the status of a response to the history of the server and sends what `ToString` makes
of the response.  A run of `do_read` that reaches `do_write` does so in one of four places; only a handler
that reports success can make the two codes differ.

* `session_of_reachesWrite` — what a session does in such a run.
* `doWrite_records_sent_iff` — when the history has the code that is sent.
-/

namespace Webserver.Server

open ByteString ConfigTree Http ReverseProxy

/-! ### The runs that reach `do_write` -/

/-- What the parser has decided at the end of the last read that is used: a good request, or a bad one. -/
def decided : ThreadState → List Read → Option (Option Request)
  | _, [] => none
  | t, read :: reads => do
    let (t, request) ← parse t read.data
    match getParseResult t with
    | .good => do
      let request ← request
      some (some request)
    | .bad => some none
    | .indeterminate => decided t reads

section Runs

variable {η : Type*} (call : η → Request → Option (Status × Response)) (handlers : HandlerMap η)

/-- **A run of a session that reaches `do_write`**, with the URI and the response that it is called with.  A
handler is called with a new response, and need not return. -/
inductive ReachesWrite (reads : List Read) : Bytes → Response → Prop
  | bad (hdecided : decided .fresh reads = some none) :
      ReachesWrite reads (bytes "(bad request)") (.defaultResponse .badRequest)
  | emptyPath {request : Request} (hdecided : decided .fresh reads = some (some request))
      (hpath : request.path = []) :
      ReachesWrite reads (bytes "(bad request)") (.defaultResponse .badRequest)
  | handled {request : Request} {k : Bytes} {handler : η} {response : Response}
      (hdecided : decided .fresh reads = some (some request))
      (hdispatched : Dispatched handlers request k handler)
      (hcall : call handler request = some (.ok, response)) : ReachesWrite reads request.uri response
  | failed {request : Request} {k : Bytes} {handler : η} {response : Response}
      (hdecided : decided .fresh reads = some (some request))
      (hdispatched : Dispatched handlers request k handler)
      (hcall : call handler request = some (.error, response)) :
      ReachesWrite reads request.uri (.defaultResponse .internalServerError)

/-! ### The runs are those of a session -/

section Session

variable (handle : η → Request → Status × Response) (beyondCrlf : Bytes)

theorem doRead_of_decided {t : ThreadState} {reads : List Read} {r : Option Request}
    (h : decided t reads = some r) (o : Outcome) :
    doRead handle handlers beyondCrlf t o reads =
      r.elim (doWrite beyondCrlf (bytes "(bad request)") (.defaultResponse .badRequest) o)
        fun request => serve handle handlers beyondCrlf request o := by
  induction reads generalizing t with
  | nil => cases h
  | cons read reads ih =>
    rw [decided] at h
    rw [doRead]
    cases hparse : parse t read.data with
    | none => rw [hparse] at h; cases h
    | some p =>
      obtain ⟨t', request⟩ := p
      rw [hparse] at h
      simp only [Option.bind_eq_bind, Option.bind_some] at h ⊢
      cases hresult : getParseResult t' with
      | good =>
        simp only [hresult] at h ⊢
        cases request with
        | none => cases h
        | some request =>
          obtain rfl := Option.some.inj h
          rfl
      | bad =>
        simp only [hresult] at h ⊢
        obtain rfl := Option.some.inj h
        rfl
      | indeterminate =>
        simp only [hresult] at h ⊢
        exact ih h

/-- **A run that reaches `do_write`** ends in that call, when the handlers return. -/
theorem session_of_reachesWrite {reads : List Read} {uri : Bytes} {res : Response}
    (h : ReachesWrite (fun handler request => some (handle handler request)) handlers reads uri res)
    (o : Outcome) : session handle handlers beyondCrlf o reads = doWrite beyondCrlf uri res o := by
  cases h with
  | bad hdecided => exact doRead_of_decided handlers handle beyondCrlf hdecided o
  | @emptyPath request hdecided hpath =>
    rw [session, doRead_of_decided handlers handle beyondCrlf hdecided o]
    exact if_pos hpath
  | @handled request k handler response hdecided hdispatched hcall =>
    rw [session, doRead_of_decided handlers handle beyondCrlf hdecided o]
    show serve handle handlers beyondCrlf request o = _
    rw [serve_of_dispatched handle handlers beyondCrlf hdispatched, Option.some.inj hcall]
  | @failed request k handler response hdecided hdispatched hcall =>
    rw [session, doRead_of_decided handlers handle beyondCrlf hdecided o]
    show serve handle handlers beyondCrlf request o = _
    rw [serve_of_dispatched handle handlers beyondCrlf hdispatched, Option.some.inj hcall]

end Session

end Runs

/-! ### The code that is recorded -/

theorem Dispatched.unique {η : Type*} {handlers : HandlerMap η} {request : Request} {k k' : Bytes}
    {handler handler' : η} (h : Dispatched handlers request k handler)
    (h' : Dispatched handlers request k' handler') : handler = handler' :=
  (Prod.mk.inj (Except.ok.inj (Option.some.inj (h.2.symm.trans h'.2)))).2

/-- **The code recorded is the code sent** exactly when the handler that a good request is dispatched to
agrees: no page that it serves ends with the status 203, and every reply that it forwards has a status line
with 200 or 404.  This is every run that reaches `do_write`, for all handlers, reads and surroundings. -/
theorem doWrite_records_sent_iff {w : Surroundings} {handlers : HandlerMap RequestHandler}
    {beyondCrlf uri : Bytes} {reads : List Read} {res : Response}
    (hreach : ReachesWrite (fun handler request => handler.handleRequest w request .new) handlers reads uri
      res) :
    SentAsRecorded beyondCrlf uri res ↔
      ∀ request k handler, decided .fresh reads = some (some request) →
        Dispatched handlers request k handler → Agrees w handler request := by
  cases hreach with
  | bad hdecided =>
    refine iff_of_true (sentAsRecorded_defaultResponse (by decide)) ?_
    intro request k handler hdecided'
    rw [hdecided] at hdecided'
    cases hdecided'
  | emptyPath hdecided hpath =>
    refine iff_of_true (sentAsRecorded_defaultResponse (by decide)) ?_
    intro request k handler hdecided' hdispatched
    obtain rfl := Option.some.inj (Option.some.inj (hdecided.symm.trans hdecided'))
    exact absurd hpath hdispatched.1
  | handled hdecided hdispatched hcall =>
    rw [sentAsRecorded_handleRequest_iff hcall]
    constructor
    · intro hagrees request k handler hdecided' hdispatched'
      obtain rfl := Option.some.inj (Option.some.inj (hdecided.symm.trans hdecided'))
      rw [hdispatched'.unique hdispatched]
      exact hagrees
    · intro hall
      exact hall _ _ _ hdecided hdispatched
  | failed hdecided hdispatched hcall =>
    refine iff_of_true (sentAsRecorded_defaultResponse (by decide)) ?_
    intro request k handler hdecided' hdispatched'
    obtain rfl := Option.some.inj (Option.some.inj (hdecided.symm.trans hdecided'))
    rw [hdispatched'.unique hdispatched]
    exact agrees_of_error hcall

/-! ### A page and a forwarded reply -/

/-- One handler for every request. -/
def defaultHandlers (type : String) (settings : List NginxConfigStatement) : HandlerMap RequestHandler :=
  (parseFreshHandlers ⟨[⟨[bytes "default", bytes type], some ⟨settings⟩⟩]⟩).handlers

/-- A file that sets the status 202. -/
def acceptedPage : Bytes := bytes "<?lua setstatus(202) ?>"

/-- That file under every name, an interpreter that runs its script, and a network with one reply. -/
def surroundings (reply : Bytes) : Surroundings where
  host := ⟨fun _ => some acceptedPage, fun _ => false, fun _ _ _ => none, id⟩
  lua script _ :=
    if script = bytes "put([[]]) setstatus(202) put([[]])" then some [.put [], .setstatus 202, .put []]
    else none
  net := answering reply
  fuel := 1
  handlersByUrl := .empty
  requestHistory := []

/-- One read, of a request for a page. -/
def pageRead : Read := ⟨bytes "GET /a.htm HTTP/1.0\r\n\r\n", by decide, by decide⟩

/-- A page that sets its status. -/
theorem doWrite_records_sent_iff_page :
    ∃ res, res.status = some .accepted ∧ (SentAsRecorded [0] (bytes "/a.htm") res ↔
      ∀ request k handler, decided .fresh [pageRead] = some (some request) →
        Dispatched (defaultHandlers "StaticFileHandler" [⟨[bytes "root", bytes "r"], none⟩]) request k handler →
        Agrees (surroundings []) handler request) := by
  have hdecided : decided .fresh [pageRead] = some (some (getRequest (bytes "/a.htm") [])) := rfl
  have hdispatched : Dispatched (defaultHandlers "StaticFileHandler" [⟨[bytes "root", bytes "r"], none⟩])
      (getRequest (bytes "/a.htm") []) [] (.staticFileHandler ⟨[], bytes "r"⟩) := ⟨by decide, rfl⟩
  have hcall : ∃ res, RequestHandler.handleRequest (surroundings []) (.staticFileHandler ⟨[], bytes "r"⟩)
      (getRequest (bytes "/a.htm") []) .new = some (.ok, res) ∧ res.status = some .accepted := ⟨_, rfl, rfl⟩
  obtain ⟨res, hcall, hstatus⟩ := hcall
  exact ⟨res, hstatus, doWrite_records_sent_iff (.handled hdecided hdispatched hcall)⟩

/-- One read, of a request that a proxy can forward. -/
def proxyRead : Read := ⟨bytes "GET / HTTP/1.0\r\nHost: a\r\n\r\n", by decide, by decide⟩

/-- A redirect that the proxy does not follow leaves the status unassigned. -/
theorem status_unassigned :
    ∃ res, ReachesWrite (fun handler request =>
          handler.handleRequest (surroundings (bytes "HTTP/1.0 302 Found\r\n\r\n")) request .new)
        (defaultHandlers "ReverseProxyHandler"
          [⟨[bytes "remote_host", bytes "b"], none⟩, ⟨[bytes "remote_port", bytes "80"], none⟩])
        [proxyRead] (bytes "/") res ∧
      res.status = none ∧ ∀ beyondCrlf, ¬ SentAsRecorded beyondCrlf (bytes "/") res := by
  have hdecided : decided .fresh [proxyRead] =
      some (some (getRequest (bytes "/") [(bytes "Host", bytes "a")])) := rfl
  have hdispatched : Dispatched (defaultHandlers "ReverseProxyHandler"
      [⟨[bytes "remote_host", bytes "b"], none⟩, ⟨[bytes "remote_port", bytes "80"], none⟩])
      (getRequest (bytes "/") [(bytes "Host", bytes "a")]) []
      (.reverseProxyHandler ⟨[], bytes "b", bytes "80"⟩) := ⟨by decide, rfl⟩
  have hcall : ∃ res, RequestHandler.handleRequest (surroundings (bytes "HTTP/1.0 302 Found\r\n\r\n"))
      (.reverseProxyHandler ⟨[], bytes "b", bytes "80"⟩) (getRequest (bytes "/") [(bytes "Host", bytes "a")])
      .new = some (.ok, res) ∧ res.status = none := ⟨_, rfl, rfl⟩
  obtain ⟨res, hcall, hstatus⟩ := hcall
  refine ⟨res, .handled hdecided hdispatched hcall, hstatus, ?_⟩
  intro beyondCrlf h
  obtain ⟨status, hassigned, -⟩ := h
  rw [hstatus] at hassigned
  cases hassigned

end Webserver.Server
