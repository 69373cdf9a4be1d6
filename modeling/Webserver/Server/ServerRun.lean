import Webserver.Server.History
import Webserver.Server.Registration
import Webserver.ReverseProxy.ProxyState
import Webserver.Support.Transducer

/-!
# The server over many connections

`Session::do_read` once more, now with what it leaves behind in the server: the handlers are objects that the
map owns, a proxy changes itself when it is redirected, and `do_write` adds to the history.  The connections are
taken one after the other here.  An exception in the thread of a session ends the process, so a run has a result
only without one.

* `visit_cases` — everything that a connection can do to the server.
* `serverRun_handlers` — the handlers of a run are those of the configuration, but for the hosts of the proxies.
* `serverRun_history` — what is recorded, and what a status page shows of it.
-/

namespace Webserver.Server

open ByteString ConfigTree Http OrderedMap ReverseProxy StaticFile Transducer

/-! ### The server and its connections -/

/-- What does not change while the server runs. -/
structure Site where
  host : Host
  lua : LuaInterpreter
  /-- A bound on the redirects that a proxy follows. -/
  fuel : ℕ
  beyondCrlf : Bytes
  handlersByUrl : HandlerInfo

/-- A connection: its reads, and the network while its request is handled. -/
structure Visit where
  reads : List Read
  net : ℕ → Round

/-- The members of `Server` that sessions use. -/
structure ServerState where
  handlers : HandlerMap RequestHandler
  requests : List (Bytes × ResponseCode)

/-- What a session writes: the entry of the history, and the text for the client. -/
structure Answer where
  entry : Bytes × ResponseCode
  sent : Bytes
  deriving DecidableEq

/-- The surroundings of a handler that is called now. -/
def ServerState.surroundings (site : Site) (net : ℕ → Round) (s : ServerState) : Surroundings :=
  ⟨site.host, site.lua, net, site.fuel, site.handlersByUrl, s.requests⟩

/-- The object under a key has changed. -/
def HandlerMap.replace {η : Type*} (m : HandlerMap η) (k : Bytes) (handler : η) : HandlerMap η where
  map := m.map.set k handler
  default_isSome := by
    rw [Map.find_set]
    split_ifs
    · rfl
    · exact m.default_isSome

/-- `HandleRequest`, with the object that it leaves behind. -/
def RequestHandler.call (w : Surroundings) (handler : RequestHandler) (request : Request) (response : Response) :
    Option (RequestHandler × Status × Response) :=
  match handler with
  | .reverseProxyHandler h => do
    let (h, result) ← ReverseProxy.handleRequest w.fuel w.net h request response
    let (status, response) ← result.toOption
    some (.reverseProxyHandler h, status, response)
  | handler => do
    let (status, response) ← handler.handleRequest w request response
    some (handler, status, response)

/-- `Session::do_write`. -/
def ServerState.doWrite (site : Site) (uri : Bytes) (res : Response) (s : ServerState) :
    Option (ServerState × Option Answer) := do
  let resStr ← res.toString site.beyondCrlf
  let status ← res.status
  some ({ s with requests := s.requests ++ [(uri, status)] }, some ⟨(uri, status), resStr⟩)

/-- What `do_read` does with a complete request. -/
def ServerState.serve (site : Site) (net : ℕ → Round) (s : ServerState) (request : Request) :
    Option (ServerState × Option Answer) :=
  if request.path = [] then s.doWrite site (bytes "(bad request)") (.defaultResponse .badRequest)
  else
    match dispatch s.handlers.map request.path with
    | some (.ok (k, handler)) => do
      let (handler, status, response) ← handler.call (s.surroundings site net) request .new
      let s := { s with handlers := s.handlers.replace k handler }
      match status with
      | .ok => s.doWrite site request.uri response
      | .error => s.doWrite site request.uri (.defaultResponse .internalServerError)
    | _ => none

/-- `Session::do_read`. -/
def ServerState.doRead (site : Site) (net : ℕ → Round) :
    ThreadState → ServerState → List Read → Option (ServerState × Option Answer)
  | _, s, [] => some (s, none)
  | t, s, read :: reads => do
    let (t, request) ← parse t read.data
    match getParseResult t with
    | .good => do
      let request ← request
      s.serve site net request
    | .bad => s.doWrite site (bytes "(bad request)") (.defaultResponse .badRequest)
    | .indeterminate => ServerState.doRead site net t s reads

/-- A connection, in a thread of its own. -/
def visit (site : Site) (s : ServerState) (v : Visit) : Option (ServerState × Option Answer) :=
  s.doRead site v.net .fresh v.reads

/-- The connections one after the other. -/
def serverRun (site : Site) : ServerState → List Visit → Option (ServerState × List (Option Answer)) :=
  runAll (visit site)

/-- The server that `main` starts with a configuration. -/
def ServerState.start (config : NginxConfig) : ServerState := ⟨(parseFreshHandlers config).handlers, []⟩

/-! ### What a connection can do -/

section Visit

variable {site : Site} {s s' : ServerState} {v : Visit} {a : Option Answer}

theorem doRead_decided {t : ThreadState} {net : ℕ → Round} {reads : List Read} {r : Option Request}
    (h : decided t reads = some r) :
    s.doRead site net t reads =
      r.elim (s.doWrite site (bytes "(bad request)") (.defaultResponse .badRequest)) (s.serve site net) := by
  induction reads generalizing t with
  | nil => cases h
  | cons read reads ih =>
    rw [decided] at h
    rw [ServerState.doRead]
    cases hparse : parse t read.data with
    | none => rw [hparse] at h; cases h
    | some p =>
      obtain ⟨t', request⟩ := p
      rw [hparse] at h
      simp only [Option.bind_eq_bind, Option.bind_some] at h ⊢
      cases hresult : getParseResult t' with
      | good =>
        simp only [hresult] at h ⊢
        cases request with
        | none => cases h
        | some request =>
          obtain rfl := Option.some.inj h
          rfl
      | bad =>
        simp only [hresult] at h ⊢
        obtain rfl := Option.some.inj h
        rfl
      | indeterminate =>
        simp only [hresult] at h ⊢
        exact ih h

theorem doRead_undecided {t : ThreadState} {net : ℕ → Round} {reads : List Read} (h : decided t reads = none)
    (hread : s.doRead site net t reads = some (s', a)) : s' = s ∧ a = none := by
  induction reads generalizing t with
  | nil =>
    obtain ⟨rfl, rfl⟩ := Prod.mk.inj (Option.some.inj hread)
    exact ⟨rfl, rfl⟩
  | cons read reads ih =>
    rw [decided] at h
    rw [ServerState.doRead] at hread
    cases hparse : parse t read.data with
    | none => rw [hparse] at hread; cases hread
    | some p =>
      obtain ⟨t', request⟩ := p
      rw [hparse] at h hread
      simp only [Option.bind_eq_bind, Option.bind_some] at h hread
      cases hresult : getParseResult t' with
      | good =>
        simp only [hresult] at h hread
        cases request with
        | none => cases hread
        | some request => cases h
      | bad =>
        simp only [hresult] at h
        cases h
      | indeterminate =>
        simp only [hresult] at h hread
        exact ih h hread

theorem doWrite_eq_some_iff {uri : Bytes} {res : Response} :
    s.doWrite site uri res = some (s', a) ↔
      ∃ status sent, res.status = some status ∧ res.toString site.beyondCrlf = some sent ∧
        s' = ⟨s.handlers, s.requests ++ [(uri, status)]⟩ ∧ a = some ⟨(uri, status), sent⟩ := by
  constructor
  · intro h
    obtain ⟨sent, hsent, h⟩ := Option.bind_eq_some_iff.mp h
    obtain ⟨status, hstatus, h⟩ := Option.bind_eq_some_iff.mp h
    obtain ⟨rfl, rfl⟩ := Prod.mk.inj (Option.some.inj h)
    exact ⟨status, sent, hstatus, hsent, rfl, rfl⟩
  · intro h
    obtain ⟨status, sent, hstatus, hsent, rfl, rfl⟩ := h
    rw [ServerState.doWrite, hsent, hstatus]
    rfl

/-- The response that `do_read` sends for the result of a handler. -/
def reported : Status × Response → Response
  | (.ok, response) => response
  | (.error, _) => .defaultResponse .internalServerError

theorem serve_dispatched {net : ℕ → Round} {request : Request} {k : Bytes} {handler : RequestHandler}
    (h : Dispatched s.handlers request k handler) :
    s.serve site net request = some (s', a) ↔
      ∃ handler' result, handler.call (s.surroundings site net) request .new = some (handler', result) ∧
        ServerState.doWrite site request.uri (reported result) ⟨s.handlers.replace k handler', s.requests⟩ =
          some (s', a) := by
  rw [ServerState.serve, if_neg h.1, h.2]
  constructor
  · intro hserve
    obtain ⟨⟨handler', status, response⟩, hcall, hserve⟩ := Option.bind_eq_some_iff.mp hserve
    refine ⟨handler', (status, response), hcall, ?_⟩
    cases status with
    | ok => exact hserve
    | error => exact hserve
  · intro h
    obtain ⟨handler', ⟨status, response⟩, hcall, hwrite⟩ := h
    refine Option.bind_eq_some_iff.mpr ⟨(handler', status, response), hcall, ?_⟩
    cases status with
    | ok => exact hwrite
    | error => exact hwrite

/-- The request of a connection has no handler: it is bad, or its path is empty. -/
def Refused (v : Visit) : Prop :=
  ∃ r, decided .fresh v.reads = some r ∧ ∀ request, r = some request → request.path = []

/-- The request of a connection goes to the handler under the key `k`. -/
def GoesTo (s : ServerState) (v : Visit) (request : Request) (k : Bytes) (handler : RequestHandler) : Prop :=
  decided .fresh v.reads = some (some request) ∧ Dispatched s.handlers request k handler

theorem visit_refused (h : Refused v) :
    visit site s v = s.doWrite site (bytes "(bad request)") (.defaultResponse .badRequest) := by
  obtain ⟨r, hdecided, hpath⟩ := h
  rw [visit, doRead_decided hdecided]
  cases r with
  | none => rfl
  | some request => exact if_pos (hpath request rfl)

theorem visit_goesTo {request : Request} {k : Bytes} {handler : RequestHandler}
    (h : GoesTo s v request k handler) :
    visit site s v = some (s', a) ↔
      ∃ handler' result, handler.call (s.surroundings site v.net) request .new = some (handler', result) ∧
        ServerState.doWrite site request.uri (reported result) ⟨s.handlers.replace k handler', s.requests⟩ =
          some (s', a) := by
  rw [visit, doRead_decided h.1]
  exact serve_dispatched h.2

/-- A connection is undecided to its end, refused, or goes to a handler. -/
theorem visit_kinds (s : ServerState) (v : Visit) : decided .fresh v.reads = none ∨ Refused v ∨
    ∃ request k handler, GoesTo s v request k handler := by
  cases hdecided : decided .fresh v.reads with
  | none => exact .inl rfl
  | some r =>
    cases r with
    | none => exact .inr (.inl ⟨none, hdecided, fun request h => by cases h⟩)
    | some request =>
      by_cases hpath : request.path = []
      · refine .inr (.inl ⟨some request, hdecided, ?_⟩)
        intro request' heq
        rw [← Option.some.inj heq]
        exact hpath
      · obtain ⟨r, hr⟩ := dispatch_isSome s.handlers request.path
        obtain ⟨k, handler, rfl, -⟩ := returns_dispatch ⟨_, hr⟩
        exact .inr (.inr ⟨request, k, handler, hdecided, hpath, hr⟩)

/-- **Everything that a connection can do**: nothing, while its request is not complete; refuse a bad request;
or have a handler called, which may have changed. -/
theorem visit_cases (h : visit site s v = some (s', a)) :
    (decided .fresh v.reads = none ∧ s' = s ∧ a = none) ∨
      (Refused v ∧ s.doWrite site (bytes "(bad request)") (.defaultResponse .badRequest) = some (s', a)) ∨
      ∃ request k handler handler' result, GoesTo s v request k handler ∧
        handler.call (s.surroundings site v.net) request .new = some (handler', result) ∧
        ServerState.doWrite site request.uri (reported result) ⟨s.handlers.replace k handler', s.requests⟩ =
          some (s', a) := by
  rcases visit_kinds s v with hdecided | hrefused | ⟨request, k, handler, hgoes⟩
  · exact .inl ⟨hdecided, doRead_undecided hdecided h⟩
  · exact .inr (.inl ⟨hrefused, (visit_refused hrefused).symm.trans h⟩)
  · obtain ⟨handler', result, hcall, hwrite⟩ := (visit_goesTo hgoes).mp h
    exact .inr (.inr ⟨request, k, handler, handler', result, hgoes, hcall, hwrite⟩)

end Visit

/-! ### The handler that a connection goes to -/

section Target

variable {η : Type*}

/-- The key of the handler that a connection goes to, with its request. -/
def target (handlers : HandlerMap η) (v : Visit) : Option (Bytes × Request) :=
  match decided .fresh v.reads with
  | some (some request) =>
    if request.path = [] then none
    else
      match dispatch handlers.map request.path with
      | some (.ok (k, _)) => some (k, request)
      | _ => none
  | _ => none

theorem target_eq_some_iff {handlers : HandlerMap η} {v : Visit} {k : Bytes} {request : Request} :
    target handlers v = some (k, request) ↔
      decided .fresh v.reads = some (some request) ∧ ∃ handler, Dispatched handlers request k handler := by
  rw [target]
  cases hdecided : decided .fresh v.reads with
  | none => exact iff_of_false (fun h => by cases h) (fun h => by cases h.1)
  | some r =>
    cases r with
    | none => exact iff_of_false (fun h => by cases h) (fun h => by cases h.1)
    | some request' =>
      simp only
      obtain ⟨r, hr⟩ := dispatch_isSome handlers request'.path
      obtain ⟨k', handler, rfl, -⟩ := returns_dispatch ⟨_, hr⟩
      rw [hr]
      constructor
      · intro h
        split_ifs at h with hpath
        obtain ⟨rfl, rfl⟩ := Prod.mk.inj (Option.some.inj h)
        exact ⟨rfl, handler, hpath, hr⟩
      · intro h
        obtain ⟨heq, handler', hpath, hr'⟩ := h
        obtain rfl := Option.some.inj (Option.some.inj heq)
        rw [hr] at hr'
        obtain ⟨rfl, rfl⟩ := Prod.mk.inj (Except.ok.inj (Option.some.inj hr'))
        rw [if_neg hpath]

/-- The same keys are registered. -/
def SameKeys (m m' : Map Bytes η) : Prop := ∀ k, (m.find k).isSome ↔ (m'.find k).isSome

/-- **The loop only asks which keys there are.** -/
theorem Dispatched.of_sameKeys {handlers handlers' : HandlerMap η} (hkeys : SameKeys handlers.map handlers'.map)
    {request : Request} {k : Bytes} {handler : η} (h : Dispatched handlers request k handler) :
    ∃ handler', Dispatched handlers' request k handler' := by
  obtain ⟨k₁, handler₁, heq, hfind, hboundary, hlongest⟩ := returns_dispatch ⟨_, h.2⟩
  obtain ⟨rfl, rfl⟩ := Prod.mk.inj (Except.ok.inj heq)
  obtain ⟨r, hr⟩ := dispatch_isSome handlers' request.path
  obtain ⟨k', handler', rfl, hfind', hboundary', hlongest'⟩ := returns_dispatch ⟨_, hr⟩
  have hle := hlongest k' ((hkeys k').mpr (by rw [hfind']; rfl)) hboundary'
  have hge := hlongest' k ((hkeys k).mp (by rw [hfind]; rfl)) hboundary
  obtain rfl : k' = k := (List.prefix_of_prefix_length_le hboundary'.1 hboundary.1 hle).eq_of_length
    (Nat.le_antisymm hle hge)
  exact ⟨handler', h.1, hr⟩

theorem target_congr {handlers handlers' : HandlerMap η} (hkeys : SameKeys handlers.map handlers'.map)
    (v : Visit) : target handlers v = target handlers' v := by
  refine Option.ext fun p => ?_
  obtain ⟨k, request⟩ := p
  rw [target_eq_some_iff, target_eq_some_iff]
  refine and_congr_right fun _ => ⟨?_, ?_⟩
  · intro hsome
    obtain ⟨handler, h⟩ := hsome
    exact h.of_sameKeys hkeys
  · intro hsome
    obtain ⟨handler, h⟩ := hsome
    exact h.of_sameKeys fun k => (hkeys k).symm

theorem Dispatched.find {handlers : HandlerMap η} {request : Request} {k : Bytes} {handler : η}
    (h : Dispatched handlers request k handler) : handlers.map.find k = some handler := by
  obtain ⟨k₁, handler₁, heq, hfind, -, -⟩ := returns_dispatch ⟨_, h.2⟩
  obtain ⟨rfl, rfl⟩ := Prod.mk.inj (Except.ok.inj heq)
  exact hfind

end Target

/-! ### The objects of the handlers -/

section Objects

variable {site : Site} {s s' : ServerState} {v : Visit} {a : Option Answer}

/-- **What a call does to its object**: nothing, unless it is a proxy. -/
theorem call_eq_some {w : Surroundings} {handler handler' : RequestHandler} {request : Request}
    {response : Response} {r : Status × Response}
    (h : handler.call w request response = some (handler', r)) :
    handler.handleRequest w request response = some r ∧
      (((∀ p, handler ≠ .reverseProxyHandler p) ∧ handler' = handler) ∨
        ∃ p p', handler = .reverseProxyHandler p ∧ handler' = .reverseProxyHandler p' ∧
          ReverseProxy.handleRequest w.fuel w.net p request response = some (p', .ok r)) := by
  have hplain (hne : ∀ p, handler ≠ .reverseProxyHandler p)
      (h : (do
        let (status, response) ← handler.handleRequest w request response
        some (handler, status, response)) = some (handler', r)) :
      handler.handleRequest w request response = some r ∧ (∀ p, handler ≠ .reverseProxyHandler p) ∧
        handler' = handler := by
    obtain ⟨⟨status, response'⟩, hcall, h⟩ := Option.bind_eq_some_iff.mp h
    obtain ⟨rfl, rfl⟩ := Prod.mk.inj (Option.some.inj h)
    exact ⟨hcall, hne, rfl⟩
  cases handler with
  | reverseProxyHandler p =>
    obtain ⟨⟨p', result⟩, hreturns, h⟩ := Option.bind_eq_some_iff.mp h
    obtain ⟨⟨status, response'⟩, hresult, h⟩ := Option.bind_eq_some_iff.mp h
    obtain ⟨rfl, rfl⟩ := Prod.mk.inj (Option.some.inj h)
    have hok : result = .ok (status, response') := exceptToOption_eq_some hresult
    refine ⟨Option.bind_eq_some_iff.mpr ⟨(p', result), hreturns, hresult⟩, .inr ⟨p, p', rfl, rfl, ?_⟩⟩
    rw [hreturns, hok]
  | echoHandler => exact (hplain (fun p hp => by cases hp) h).imp_right .inl
  | notFoundHandler => exact (hplain (fun p hp => by cases hp) h).imp_right .inl
  | statusHandler => exact (hplain (fun p hp => by cases hp) h).imp_right .inl
  | staticFileHandler _ => exact (hplain (fun p hp => by cases hp) h).imp_right .inl

/-- **One connection** leaves the handlers as they are, or changes the object that it goes to. -/
theorem visit_handlers (h : visit site s v = some (s', a)) :
    (target s.handlers v = none ∧ s'.handlers = s.handlers) ∨
      ∃ k request handler handler' r, target s.handlers v = some (k, request) ∧
        s.handlers.map.find k = some handler ∧ s'.handlers = s.handlers.replace k handler' ∧
        handler.call (s.surroundings site v.net) request .new = some (handler', r) := by
  have hnone (hdecided : ∀ request, decided .fresh v.reads = some (some request) → request.path = []) :
      target s.handlers v = none := by
    rw [Option.eq_none_iff_forall_ne_some]
    intro goesTo htarget
    obtain ⟨k, request⟩ := goesTo
    obtain ⟨hsome, handler, hpath, -⟩ := target_eq_some_iff.mp htarget
    exact hpath (hdecided request hsome)
  rcases visit_cases h with ⟨hdecided, rfl, -⟩ | ⟨⟨r, hdecided, hpath⟩, hwrite⟩ |
    ⟨request, k, handler, handler', r, hgoes, hcall, hwrite⟩
  · refine .inl ⟨hnone fun request hsome => ?_, rfl⟩
    rw [hdecided] at hsome
    cases hsome
  · obtain ⟨status, sent, -, -, rfl, -⟩ := doWrite_eq_some_iff.mp hwrite
    refine .inl ⟨hnone fun request hsome => ?_, rfl⟩
    exact hpath request (Option.some.inj (hdecided.symm.trans hsome))
  · obtain ⟨status, sent, -, -, rfl, -⟩ := doWrite_eq_some_iff.mp hwrite
    exact .inr ⟨k, request, handler, handler', r, target_eq_some_iff.mpr ⟨hgoes.1, handler, hgoes.2⟩,
      hgoes.2.find, rfl, hcall⟩

theorem sameKeys_replace {η : Type*} {m : HandlerMap η} {k : Bytes} {handler handler' : η}
    (h : m.map.find k = some handler) : SameKeys (m.replace k handler').map m.map := by
  intro k'
  show ((m.map.set k handler').find k').isSome ↔ _
  rw [Map.find_set]
  split_ifs with hk
  · rw [hk, h]
    rfl
  · rfl

theorem visit_sameKeys (h : visit site s v = some (s', a)) : SameKeys s'.handlers.map s.handlers.map := by
  rcases visit_handlers h with ⟨-, heq⟩ | ⟨k, request, handler, handler', r, -, hfind, heq, -⟩
  · rw [heq]
    exact fun k => Iff.rfl
  · rw [heq]
    exact sameKeys_replace hfind

theorem find_replace {η : Type*} (m : HandlerMap η) (k : Bytes) (handler : η) (k' : Bytes) :
    (m.replace k handler).map.find k' = if k' = k then some handler else m.map.find k' := by
  show (m.map.set k handler).find k' = _
  rw [Map.find_set]
  split_ifs
  · rfl
  · rfl

/-- A handler that is no proxy stays what it is. -/
theorem visit_find (h : visit site s v = some (s', a)) {k : Bytes} {handler : RequestHandler}
    (hfind : s.handlers.map.find k = some handler) (hne : ∀ p, handler ≠ .reverseProxyHandler p) :
    s'.handlers.map.find k = some handler := by
  rcases visit_handlers h with ⟨-, heq⟩ | ⟨k₁, request, handler₁, handler', r, -, hfind₁, heq, hcall⟩
  · rw [heq, hfind]
  · rw [heq, find_replace]
    split_ifs with hk
    · subst hk
      obtain rfl := Option.some.inj (hfind.symm.trans hfind₁)
      rcases (call_eq_some hcall).2 with ⟨-, rfl⟩ | ⟨p, p', rfl, -⟩
      · rfl
      · exact absurd rfl (hne p)
    · exact hfind

/-- The call of the handler under the key `k`, if a connection goes there. -/
def callTo (handlers : HandlerMap RequestHandler) (k : Bytes) (v : Visit) : Option Call :=
  match target handlers v with
  | some (k', request) => if k' = k then some ⟨request, .new, v.net⟩ else none
  | none => none

theorem callTo_congr {handlers handlers' : HandlerMap RequestHandler} (hkeys : SameKeys handlers.map handlers'.map)
    {k : Bytes} {v : Visit} : callTo handlers k v = callTo handlers' k v := by
  rw [callTo, callTo, target_congr hkeys]

/-- A proxy stays a proxy, and only a connection that goes to it changes it, by that call. -/
theorem visit_find_proxy (h : visit site s v = some (s', a)) {k : Bytes} {p : ReverseProxyHandler}
    (hfind : s.handlers.map.find k = some (.reverseProxyHandler p)) :
    ∃ p', s'.handlers.map.find k = some (.reverseProxyHandler p') ∧
      match callTo s.handlers k v with
      | none => p' = p
      | some c => ∃ result, ReverseProxy.handleRequest site.fuel c.net p c.request c.response =
          some (p', result) := by
  rcases visit_handlers h with ⟨htarget, heq⟩ | ⟨k₁, request, handler₁, handler', r, htarget, hfind₁, heq, hcall⟩
  · rw [heq, callTo, htarget]
    exact ⟨p, hfind, rfl⟩
  · rw [heq, callTo, htarget, find_replace]
    by_cases hk : k₁ = k
    · subst hk
      obtain rfl := Option.some.inj (hfind.symm.trans hfind₁)
      rcases (call_eq_some hcall).2 with ⟨hne, -⟩ | ⟨p₁, p', heq₁, rfl, hreturns⟩
      · exact absurd rfl (hne p)
      · obtain rfl := RequestHandler.reverseProxyHandler.inj heq₁
        rw [if_pos rfl]
        simp only [if_pos]
        exact ⟨p', rfl, _, hreturns⟩
    · rw [if_neg (Ne.symm hk)]
      simp only [if_neg hk]
      exact ⟨p, hfind, rfl⟩

end Objects

/-! ### The handlers of a run -/

section Run

variable {site : Site} {config : NginxConfig} {visits : List Visit} {t : ServerState} {answers : List (Option Answer)}

theorem createByName_proxy {type : Bytes} {p : ReverseProxyHandler}
    (h : createByName type = some (.reverseProxyHandler p)) : p = ⟨[], [], []⟩ := by
  simp only [createByName] at h
  split_ifs at h
  · cases h
  · cases h
  · exact (RequestHandler.reverseProxyHandler.inj (Option.some.inj h)).symm
  · cases h
  · cases h

/-- A registered object was created by the name of its class, and accepted by `Init`. -/
theorem created_of_mem {r : Registration} (h : r ∈ allRegistrations config) :
    (∃ type, createByName type = some r.created) ∧ (r.created.init r.key r.block).1 = .ok := by
  have hregistration {key infoKey type : Bytes} {child : Option NginxConfig}
      (h : registration key infoKey type child = some r) :
      (∃ type, createByName type = some r.created) ∧ (r.created.init r.key r.block).1 = .ok := by
    obtain ⟨handler, block, hcreated, -, hok, rfl⟩ := registration_eq_some_iff.mp h
    exact ⟨⟨type, hcreated⟩, hok⟩
  rcases mem_allRegistrations.mp h with hmem | ⟨rfl, -⟩
  · obtain ⟨statement, -, hpath | ⟨-, hdefault⟩⟩ := mem_registrations.mp hmem
    · unfold effectivePath at hpath
      split at hpath
      · split_ifs at hpath
        exact hregistration hpath
      · cases hpath
    · unfold effectiveDefault at hdefault
      split at hdefault
      · split_ifs at hdefault
        exact hregistration hdefault
      · cases hdefault
  · exact ⟨⟨_, createByName_notFoundHandler⟩, rfl⟩

/-- A proxy of a configuration is made by `Init` from an object without settings. -/
theorem find_start_proxy {k : Bytes} {p : ReverseProxyHandler}
    (hfind : (ServerState.start config).handlers.map.find k = some (.reverseProxyHandler p)) :
    ∃ block, (ReverseProxyHandler.init ⟨[], [], []⟩ k block).1 = .ok ∧ p = configured k block := by
  obtain ⟨r, hr, hhandler⟩ := Option.map_eq_some_iff.mp ((find_handlers config k).symm.trans hfind)
  obtain ⟨⟨type, hcreated⟩, hok⟩ := created_of_mem (List.mem_of_find?_eq_some hr)
  obtain rfl : r.key = k := by simpa using List.find?_some hr
  obtain ⟨created, key, block, infoKey, type'⟩ := r
  cases created with
  | reverseProxyHandler p₀ =>
    obtain rfl := createByName_proxy hcreated
    exact ⟨block, hok, (RequestHandler.reverseProxyHandler.inj hhandler).symm⟩
  | echoHandler => cases hhandler
  | notFoundHandler => cases hhandler
  | statusHandler => cases hhandler
  | staticFileHandler h => cases hhandler

/-- **The handlers of a run.**  The keys are those of the configuration.  Under a key without a proxy there is
the same handler for ever; under a key with a proxy there is the one that `Init` made, after a call for each
connection that went there. -/
theorem serverRun_handlers (hrun : serverRun site (.start config) visits = some (t, answers)) (k : Bytes) :
    let start := ServerState.start config
    (start.handlers.map.find k = none → t.handlers.map.find k = none) ∧
      (∀ handler, (∀ p, handler ≠ .reverseProxyHandler p) → start.handlers.map.find k = some handler →
        t.handlers.map.find k = some handler) ∧
      ∀ p, start.handlers.map.find k = some (.reverseProxyHandler p) →
        ∃ block p', p = configured k block ∧ t.handlers.map.find k = some (.reverseProxyHandler p') ∧
          Reached k block (visits.filterMap (callTo start.handlers k)) p' := by
  intro start
  have hkeys : SameKeys t.handlers.map start.handlers.map := by
    refine runAll_trace (fun _ _ u => SameKeys u.handlers.map start.handlers.map) (fun _ => Iff.rfl) ?_ hrun
    intro _ _ u v u' a hu hvisit k
    exact (visit_sameKeys hvisit k).trans (hu k)
  refine ⟨?_, ?_, ?_⟩
  · intro hnone
    rw [← Option.not_isSome_iff_eq_none, hkeys k, hnone]
    exact Bool.false_ne_true
  · intro handler hne hfind
    refine runAll_trace (fun _ _ u => u.handlers.map.find k = some handler) hfind ?_ hrun
    intro _ _ u v u' a hu hvisit
    exact visit_find hvisit hu hne
  · intro p hfind
    obtain ⟨block, hok, rfl⟩ := find_start_proxy hfind
    suffices h : SameKeys t.handlers.map start.handlers.map ∧
        ∃ p', t.handlers.map.find k = some (.reverseProxyHandler p') ∧
          Reached k block (visits.filterMap (callTo start.handlers k)) p' by
      obtain ⟨-, p', hfind', hreached⟩ := h
      exact ⟨block, p', rfl, hfind', hreached⟩
    refine runAll_trace (fun done _ u => SameKeys u.handlers.map start.handlers.map ∧
      ∃ p', u.handlers.map.find k = some (.reverseProxyHandler p') ∧
        Reached k block (done.filterMap (callTo start.handlers k)) p')
      ⟨fun _ => Iff.rfl, _, hfind, .init hok⟩ ?_ hrun
    intro done _ u v u' a hinv hvisit
    obtain ⟨hu, p, hp, hreached⟩ := hinv
    refine ⟨fun k => (visit_sameKeys hvisit k).trans (hu k), ?_⟩
    obtain ⟨p', hp', hcall⟩ := visit_find_proxy hvisit hp
    refine ⟨p', hp', ?_⟩
    rw [callTo_congr hu] at hcall
    rw [List.filterMap_append]
    cases hv : callTo start.handlers k v with
    | none =>
      rw [hv] at hcall
      rw [List.filterMap_cons_none hv, List.filterMap_nil, List.append_nil, hcall]
      exact hreached
    | some c =>
      rw [hv] at hcall
      obtain ⟨result, hreturns⟩ := hcall
      rw [List.filterMap_cons_some hv, List.filterMap_nil]
      exact .handle hreached hreturns

/-! ### The history of a run -/

/-- The entries of a list of answers. -/
def recorded (answers : List (Option Answer)) : List (Bytes × ResponseCode) :=
  answers.flatMap fun a => (a.map Answer.entry).toList

/-- **One connection** adds the entry of its answer to the history. -/
theorem visit_requests {s s' : ServerState} {v : Visit} {a : Option Answer} (h : visit site s v = some (s', a)) :
    s'.requests = s.requests ++ (a.map Answer.entry).toList := by
  rcases visit_cases h with ⟨-, rfl, rfl⟩ | ⟨-, hwrite⟩ | ⟨request, k, handler, handler', r, -, -, hwrite⟩
  · exact (List.append_nil _).symm
  · obtain ⟨status, sent, -, -, rfl, rfl⟩ := doWrite_eq_some_iff.mp hwrite
    rfl
  · obtain ⟨status, sent, -, -, rfl, rfl⟩ := doWrite_eq_some_iff.mp hwrite
    rfl

/-- A connection is left without an answer while its request is not complete. -/
theorem visit_eq_none_iff {s s' : ServerState} {v : Visit} {a : Option Answer} (h : visit site s v = some (s', a)) :
    a = none ↔ decided .fresh v.reads = none := by
  rcases visit_cases h with ⟨hdecided, -, rfl⟩ | ⟨⟨r, hdecided, -⟩, hwrite⟩ |
    ⟨request, k, handler, handler', r, hgoes, -, hwrite⟩
  · exact iff_of_true rfl hdecided
  · obtain ⟨status, sent, -, -, rfl, rfl⟩ := doWrite_eq_some_iff.mp hwrite
    rw [hdecided]
    exact iff_of_false (fun h => by cases h) (fun h => by cases h)
  · obtain ⟨status, sent, -, -, rfl, rfl⟩ := doWrite_eq_some_iff.mp hwrite
    rw [hgoes.1]
    exact iff_of_false (fun h => by cases h) (fun h => by cases h)

/-- A status page shows the history before its own entry. -/
theorem visit_status {s s' : ServerState} {v : Visit} {a : Option Answer} (h : visit site s v = some (s', a))
    {k : Bytes} {request : Request} (htarget : target s.handlers v = some (k, request))
    (hfind : s.handlers.map.find k = some .statusHandler) :
    ∃ sent, a = some ⟨(request.uri, .ok), sent⟩ ∧
      (Response.htmlResponse (statusPage site.handlersByUrl s.requests)).toString site.beyondCrlf = some sent := by
  obtain ⟨hdecided, handler, hdispatched⟩ := target_eq_some_iff.mp htarget
  obtain rfl := Option.some.inj (hfind.symm.trans hdispatched.find)
  obtain ⟨handler', r, hcall, hwrite⟩ := (visit_goesTo ⟨hdecided, hdispatched⟩).mp h
  obtain rfl := (Prod.mk.inj (Option.some.inj hcall)).2
  obtain ⟨status, sent, hstatus, hsent, -, rfl⟩ := doWrite_eq_some_iff.mp hwrite
  obtain rfl := Option.some.inj hstatus
  exact ⟨sent, rfl, hsent⟩

/-- The history has the entries of the answers. -/
theorem requests_of_run {visits : List Visit} (hrun : serverRun site (.start config) visits = some (t, answers)) :
    t.requests = recorded answers := by
  have hall := runAll_log ServerState.requests (fun a => (a.map Answer.entry).toList)
    (fun _ _ _ _ hvisit => visit_requests hvisit) hrun
  rwa [show (ServerState.start config).requests = [] from rfl, List.nil_append] at hall

/-- **The history of a run.**  It has the entries of the answers in their order.  The connection `v` has an answer
unless its request is not complete; and if it goes to a `StatusHandler`, it is sent the page with the entries of
the answers before its own. -/
theorem serverRun_history {front back : List Visit} {v : Visit}
    (hrun : serverRun site (.start config) (front ++ v :: back) = some (t, answers)) :
    t.requests = recorded answers ∧
      ∃ earlier a later, answers = earlier ++ a :: later ∧ earlier.length = front.length ∧
        (a = none ↔ decided .fresh v.reads = none) ∧
        ∀ k request, target (ServerState.start config).handlers v = some (k, request) →
          (ServerState.start config).handlers.map.find k = some .statusHandler →
          ∃ sent, a = some ⟨(request.uri, .ok), sent⟩ ∧
            (Response.htmlResponse (statusPage site.handlersByUrl (recorded earlier))).toString site.beyondCrlf =
              some sent := by
  refine ⟨requests_of_run hrun, ?_⟩
  obtain ⟨u, earlier, u', a, later, hfront, hvisit, -, rfl⟩ := runAll_middle_iff.mp hrun
  refine ⟨earlier, a, later, rfl, length_runAll hfront, visit_eq_none_iff hvisit, ?_⟩
  intro k request htarget hfind
  have hkept : SameKeys u.handlers.map (ServerState.start config).handlers.map ∧
      u.handlers.map.find k = some .statusHandler := by
    refine runAll_trace (fun _ _ u => SameKeys u.handlers.map (ServerState.start config).handlers.map ∧
      u.handlers.map.find k = some .statusHandler) ⟨fun _ => Iff.rfl, hfind⟩ ?_ hfront
    intro _ _ u v u' a hinv hvisit
    obtain ⟨hkeys, hu⟩ := hinv
    exact ⟨fun k => (visit_sameKeys hvisit k).trans (hkeys k), visit_find hvisit hu fun p hp => by cases hp⟩
  rw [← requests_of_run hfront]
  exact visit_status hvisit ((target_congr hkept.1 v).trans htarget) hkept.2

end Run

/-! ### A proxy and a status page -/

/-- The files and the interpreter of `surroundings`. -/
def quietSite : Site := ⟨(surroundings []).host, (surroundings []).lua, 1, [0], .empty⟩

/-- A configuration with one block. -/
def oneBlock (type : String) (settings : List NginxConfigStatement) : NginxConfig :=
  ⟨[⟨[bytes "default", bytes type], some ⟨settings⟩⟩]⟩

/-- A connection with one read, while the network has one reply. -/
def singleRead (read : Read) : Visit := ⟨[read], answering (bytes "HTTP/1.0 200 OK\r\n\r\n")⟩

/-- One connection to a proxy. -/
theorem serverRun_handlers_proxy :
    ∃ t answers block p', serverRun quietSite (.start (oneBlock "ReverseProxyHandler"
        [⟨[bytes "remote_host", bytes "b"], none⟩, ⟨[bytes "remote_port", bytes "80"], none⟩]))
        [singleRead proxyRead] = some (t, answers) ∧
      t.handlers.map.find [] = some (.reverseProxyHandler p') ∧
      Reached [] block ([singleRead proxyRead].filterMap (callTo (ServerState.start (oneBlock "ReverseProxyHandler"
        [⟨[bytes "remote_host", bytes "b"], none⟩, ⟨[bytes "remote_port", bytes "80"], none⟩])).handlers [])) p' := by
  have hrun : ∃ t answers, serverRun quietSite (.start (oneBlock "ReverseProxyHandler"
      [⟨[bytes "remote_host", bytes "b"], none⟩, ⟨[bytes "remote_port", bytes "80"], none⟩]))
      [singleRead proxyRead] = some (t, answers) := ⟨_, _, rfl⟩
  obtain ⟨t, answers, hrun⟩ := hrun
  obtain ⟨block, p', -, hfind, hreached⟩ := (serverRun_handlers hrun []).2.2 ⟨[], bytes "b", bytes "80"⟩ rfl
  exact ⟨t, answers, block, p', hrun, hfind, hreached⟩

/-- The second of two connections to a status page. -/
theorem serverRun_history_status :
    ∃ t answers, serverRun quietSite (.start (oneBlock "StatusHandler" []))
        ([singleRead pageRead] ++ singleRead proxyRead :: []) = some (t, answers) ∧
      t.requests = recorded answers := by
  have hrun : ∃ t answers, serverRun quietSite (.start (oneBlock "StatusHandler" []))
      ([singleRead pageRead] ++ singleRead proxyRead :: []) = some (t, answers) := ⟨_, _, rfl⟩
  obtain ⟨t, answers, hrun⟩ := hrun
  exact ⟨t, answers, hrun, (serverRun_history hrun).1⟩

end Webserver.Server
