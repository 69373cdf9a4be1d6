import Webserver.Support.IncrementalMachine
import Webserver.Http.RequestMachine
import Webserver.Http.Response
import Webserver.Server.Dispatch

/-!
# Sessions

`Session::do_read` and `Session::do_write`.  A session runs in a thread of its own, so its parser starts
fresh.  It takes a list of reads, after which the connection reports an error; what it leaves behind is
the `Outcome`: the responses written to the client and the history of the server.  Handlers are functions
of the request.

Undefined behaviour is `none`: a request line with an empty URI, or a handler that reports success
without having set a status.

As `Parse` resumes a machine that is fed byte by byte, a session only depends on the concatenation of its
reads (`doRead_eq_answer`).
-/

namespace Webserver.Server

open ByteString Http IncrementalMachine OrderedMap

/-- What a session leaves behind. -/
structure Outcome where
  sent : List Bytes
  history : List (Bytes × ResponseCode)
  deriving DecidableEq

/-- One `read_some` without an error: at least one byte, and no more than the buffer holds. -/
structure Read where
  data : Bytes
  nonempty : data ≠ []
  length_le : data.length ≤ 8192

/-- `Session::do_write`. -/
def doWrite (beyondCrlf uri : Bytes) (res : Response) (o : Outcome) : Option Outcome := do
  let resStr ← res.toString beyondCrlf
  let status ← res.status
  some ⟨o.sent ++ [resStr], o.history ++ [(uri, status)]⟩

section Session

variable {η : Type*} (handle : η → Request → Status × Response) (handlers : HandlerMap η)
  (beyondCrlf : Bytes)

/-- What `do_read` does with a complete request. -/
def serve (request : Request) (o : Outcome) : Option Outcome :=
  if request.path = [] then
    doWrite beyondCrlf (bytes "(bad request)") (.defaultResponse .badRequest) o
  else
    match dispatch handlers.map request.path with
    | some (.ok (_, handler)) =>
      match handle handler request with
      | (.ok, response) => doWrite beyondCrlf request.uri response o
      | (.error, _) => doWrite beyondCrlf request.uri (.defaultResponse .internalServerError) o
    | _ => none

/-- `do_read` hands the request to the handler under the key `k`. -/
def Dispatched (request : Request) (k : Bytes) (handler : η) : Prop :=
  request.path ≠ [] ∧ dispatch handlers.map request.path = some (.ok (k, handler))

/-- What a handler is called for. -/
theorem serve_of_dispatched {request : Request} {k : Bytes} {handler : η}
    (h : Dispatched handlers request k handler) (o : Outcome) :
    serve handle handlers beyondCrlf request o =
      match handle handler request with
      | (.ok, response) => doWrite beyondCrlf request.uri response o
      | (.error, _) => doWrite beyondCrlf request.uri (.defaultResponse .internalServerError) o := by
  rw [serve, if_neg h.1, h.2]

/-- The handlers of a configuration are called with the key they were initialized with. -/
theorem Dispatched.configuredAt {config : ConfigTree.NginxConfig} {request : Request} {k : Bytes}
    {handler : RequestHandler}
    (h : Dispatched (parseFreshHandlers config).handlers request k handler) :
    handler.ConfiguredAt k ∧ Boundary k request.path := by
  obtain ⟨k', handler', heq, hfind, hboundary, -⟩ := returns_dispatch ⟨_, h.2⟩
  obtain ⟨rfl, rfl⟩ := Prod.mk.inj (Except.ok.inj heq)
  exact ⟨allConfigured_parseFreshHandlers config k handler hfind, hboundary⟩

/-- `Session::do_read`, which calls itself after an indeterminate request. -/
def doRead : ThreadState → Outcome → List Read → Option Outcome
  | _, o, [] => some o
  | t, o, read :: reads => do
    let (t, request) ← parse t read.data
    match getParseResult t with
    | .good => do
      let request ← request
      serve handle handlers beyondCrlf request o
    | .bad => doWrite beyondCrlf (bytes "(bad request)") (.defaultResponse .badRequest) o
    | .indeterminate => doRead t o reads

/-- A session, in its own thread. -/
def session (o : Outcome) (reads : List Read) : Option Outcome :=
  doRead handle handlers beyondCrlf ThreadState.fresh o reads

/-! ### A session sees one stream -/

/-- What a session does once the parser has stopped, or the reads are at an end. -/
def answer (o : Outcome) : Request ⊕ Stop → Option Outcome
  | .inl _ => some o
  | .inr .undefined => none
  | .inr (.good r) => serve handle handlers beyondCrlf r o
  | .inr (.bad _) => doWrite beyondCrlf (bytes "(bad request)") (.defaultResponse .badRequest) o

/-- **`do_read` is the parser fed in chunks.** -/
theorem doRead_eq_answer (o : Outcome) (reads : List Read) (t : ThreadState) :
    doRead handle handlers beyondCrlf t o reads =
      answer handle handlers beyondCrlf o
        (feedChunks absorb t.localRequest (reads.map Read.data)) := by
  induction reads generalizing t with
  | nil => rfl
  | cons read reads ih =>
    rw [doRead, List.map_cons, feedChunks, parse_eq_feed]
    cases hf : feed absorb t.localRequest read.data with
    | inl r => exact ih ⟨.indeterminate, r⟩
    | inr p =>
      obtain ⟨stop, rest⟩ := p
      cases stop with
      | undefined => rfl
      | good r => rfl
      | bad r => rfl

/-- The stream of a list of reads. -/
def stream (reads : List Read) : Bytes := (reads.map Read.data).flatten

theorem session_eq_answer (o : Outcome) (reads : List Read) :
    session handle handlers beyondCrlf o reads =
      answer handle handlers beyondCrlf o (verdict (feed absorb Request.fresh (stream reads))) := by
  rw [session, doRead_eq_answer, feed_flatten]
  rfl

/-! ### One response at most -/

/-- Exactly one response has been sent and recorded. -/
def OneResponse (o o' : Outcome) : Prop :=
  ∃ response entry, o' = ⟨o.sent ++ [response], o.history ++ [entry]⟩

theorem oneResponse_doWrite {uri : Bytes} {res : Response} {o o' : Outcome}
    (h : doWrite beyondCrlf uri res o = some o') : OneResponse o o' := by
  rw [doWrite] at h
  cases hstr : res.toString beyondCrlf with
  | none => rw [hstr] at h; cases h
  | some resStr =>
    cases hstatus : res.status with
    | none => rw [hstr, hstatus] at h; cases h
    | some status =>
      rw [hstr, hstatus] at h
      exact ⟨resStr, (uri, status), (Option.some.inj h).symm⟩

theorem oneResponse_serve {request : Request} {o o' : Outcome}
    (h : serve handle handlers beyondCrlf request o = some o') : OneResponse o o' := by
  rw [serve] at h
  split_ifs at h with hpath
  · exact oneResponse_doWrite beyondCrlf h
  · split at h
    · split at h
      · exact oneResponse_doWrite beyondCrlf h
      · exact oneResponse_doWrite beyondCrlf h
    · cases h

/-- A session answers nothing while the parser waits for more, and one response otherwise. -/
theorem answer_spec {o o' : Outcome} {v : Request ⊕ Stop}
    (h : answer handle handlers beyondCrlf o v = some o') :
    (∃ r, v = .inl r ∧ o' = o) ∨ ((∃ stop, v = .inr stop) ∧ OneResponse o o') := by
  cases v with
  | inl r => exact .inl ⟨r, rfl, (Option.some.inj h).symm⟩
  | inr stop =>
    refine .inr ⟨⟨stop, rfl⟩, ?_⟩
    cases stop with
    | undefined => cases h
    | good r => exact oneResponse_serve handle handlers beyondCrlf h
    | bad r => exact oneResponse_doWrite beyondCrlf h

/-! ### Where a session is undefined -/

theorem doWrite_isSome {uri : Bytes} {res : Response} {status : ResponseCode} (h : res.status = some status)
    (o : Outcome) : ∃ o', doWrite beyondCrlf uri res o = some o' := by
  obtain ⟨resStr, hstr⟩ := Response.toString_isSome h beyondCrlf
  rw [doWrite, hstr, h]
  exact ⟨_, rfl⟩

/-- A request is answered unless its handler reports success without a status. -/
theorem serve_isSome (hhandle : ∀ handler request, (handle handler request).1 = .ok →
    ∃ status, (handle handler request).2.status = some status) (request : Request) (o : Outcome) :
    ∃ o', serve handle handlers beyondCrlf request o = some o' := by
  rw [serve]
  split_ifs with hpath
  · exact doWrite_isSome beyondCrlf rfl o
  · obtain ⟨r, hr⟩ := dispatch_isSome handlers request.path
    obtain ⟨k, handler, rfl, -⟩ := returns_dispatch ⟨_, hr⟩
    rw [hr]
    show ∃ o', (match handle handler request with | (.ok, response) => _ | (.error, _) => _) = some o'
    cases hh : handle handler request with
    | mk status response =>
      cases status with
      | error => exact doWrite_isSome beyondCrlf rfl o
      | ok =>
        obtain ⟨code, hcode⟩ := hhandle handler request (by rw [hh])
        rw [hh] at hcode
        exact doWrite_isSome beyondCrlf hcode o

theorem session_eq_none {o : Outcome} {reads : List Read}
    (h : session handle handlers beyondCrlf o reads = none) :
    EmptyUriLine (stream reads) ∨
      ∃ handler request, (handle handler request).1 = .ok ∧ (handle handler request).2.status = none := by
  by_contra hno
  rw [not_or] at hno
  have hhandle : ∀ handler request, (handle handler request).1 = .ok →
      ∃ status, (handle handler request).2.status = some status := by
    intro handler request hok
    refine Option.ne_none_iff_exists'.mp fun hnone => hno.2 ⟨handler, request, hok, hnone⟩
  rw [session_eq_answer] at h
  cases hf : feed absorb Request.fresh (stream reads) with
  | inl r => rw [hf] at h; cases h
  | inr p =>
    obtain ⟨stop, rest⟩ := p
    rw [hf] at h
    cases stop with
    | undefined => exact hno.1 (emptyUriLine_of_stops _ sound_fresh hf)
    | good r =>
      obtain ⟨o', ho'⟩ := serve_isSome handle handlers beyondCrlf hhandle r o
      have hnone : serve handle handlers beyondCrlf r o = none := h
      rw [ho'] at hnone
      cases hnone
    | bad r =>
      obtain ⟨o', ho'⟩ : ∃ o', doWrite beyondCrlf (bytes "(bad request)") (.defaultResponse .badRequest) o =
          some o' := doWrite_isSome beyondCrlf rfl o
      have hnone : doWrite beyondCrlf (bytes "(bad request)") (.defaultResponse .badRequest) o = none := h
      rw [ho'] at hnone
      cases hnone

/-! ### Fragmentation -/

/-- The stream has become neither good nor bad. -/
def Undecided (s : Bytes) : Prop :=
  ∃ t ret, parse ThreadState.fresh s = some (t, ret) ∧ getParseResult t = .indeterminate

theorem undecided_iff (s : Bytes) :
    Undecided s ↔ ∃ r, verdict (feed absorb Request.fresh s) = .inl r := by
  constructor
  · intro h
    obtain ⟨t, ret, hparse, hresult⟩ := h
    rcases parse_eq_some_iff.mp hparse with ⟨r, hf, -, -⟩ | ⟨r, rest, -, rfl, -⟩ | ⟨r, rest, -, rfl, -⟩
    · exact ⟨r, congrArg verdict hf⟩
    · cases hresult
    · cases hresult
  · intro h
    obtain ⟨r, hr⟩ := h
    cases hf : feed absorb Request.fresh s with
    | inl r' => exact ⟨⟨.indeterminate, r'⟩, none, parse_eq_some_iff.mpr (.inl ⟨r', hf, rfl, rfl⟩), rfl⟩
    | inr p =>
      rw [hf] at hr
      cases hr

/-- **Network fragmentation is invisible.**  Two sessions that read the same stream in different pieces
leave the same behind: nothing, exactly when the stream never becomes good or bad, or exactly one
response and one entry of the history.  The only other end is undefined behaviour, which takes an empty
URI or a handler that reports success without a status. -/
theorem session_fragmentation (o : Outcome) (reads reads' : List Read)
    (h : stream reads = stream reads') :
    session handle handlers beyondCrlf o reads = session handle handlers beyondCrlf o reads' ∧
      (∀ o', session handle handlers beyondCrlf o reads = some o' →
        (Undecided (stream reads) ∧ o' = o) ∨ (¬ Undecided (stream reads) ∧ OneResponse o o')) ∧
      (session handle handlers beyondCrlf o reads = none → EmptyUriLine (stream reads) ∨
        ∃ handler request, (handle handler request).1 = .ok ∧
          (handle handler request).2.status = none) := by
  refine ⟨?_, ?_, session_eq_none handle handlers beyondCrlf⟩
  · rw [session_eq_answer, session_eq_answer, h]
  · intro o' ho'
    rw [session_eq_answer] at ho'
    rw [undecided_iff]
    rcases answer_spec handle handlers beyondCrlf ho' with ⟨r, hr, rfl⟩ | ⟨⟨stop, hstop⟩, hone⟩
    · exact .inl ⟨⟨r, hr⟩, rfl⟩
    · refine .inr ⟨?_, hone⟩
      rw [hstop]
      intro hex
      obtain ⟨r, hr⟩ := hex
      cases hr

end Session

/-- The request with a body of two bytes. -/
def bodyRequest : Bytes := bytes "POST /a HTTP/1.0\r\nContent-Length: 2\r\n\r\nhi"

/-- A good request that is cut in a header and in its body: one response and one entry. -/
theorem session_fragmentation_two_cuts :
    ∃ o', session (fun _ _ => (.ok, .defaultResponse .ok)) (parseFreshHandlers .empty).handlers [0] ⟨[], []⟩
        [⟨bytes "POST /a HTTP/1.0\r\nContent-Le", by decide, by decide⟩,
          ⟨bytes "ngth: 2\r\n\r\nh", by decide, by decide⟩, ⟨bytes "i", by decide, by decide⟩] = some o' ∧
      session (fun _ _ => (.ok, .defaultResponse .ok)) (parseFreshHandlers .empty).handlers [0] ⟨[], []⟩
        [⟨bodyRequest, by decide, by decide⟩] = some o' ∧
      OneResponse ⟨[], []⟩ o' := by
  have hread : (parse ThreadState.fresh bodyRequest).map (getParseResult ∘ Prod.fst) = some .good := by decide
  have hrun : ∃ o', session (fun _ _ => (.ok, .defaultResponse .ok)) (parseFreshHandlers .empty).handlers [0] ⟨[], []⟩
      [⟨bodyRequest, by decide, by decide⟩] = some o' := ⟨_, rfl⟩
  obtain ⟨o', hrun⟩ := hrun
  obtain ⟨heq, hone, -⟩ := session_fragmentation (fun _ _ => (.ok, .defaultResponse .ok))
    (parseFreshHandlers .empty).handlers [0] ⟨[], []⟩
    [⟨bytes "POST /a HTTP/1.0\r\nContent-Le", by decide, by decide⟩,
      ⟨bytes "ngth: 2\r\n\r\nh", by decide, by decide⟩, ⟨bytes "i", by decide, by decide⟩]
    [⟨bodyRequest, by decide, by decide⟩] (by decide)
  rw [hrun] at heq
  refine ⟨o', heq, hrun, ?_⟩
  rcases hone o' heq with ⟨⟨t, ret, hparse, hundecided⟩, -⟩ | ⟨-, hone⟩
  · have hstream : stream [⟨bytes "POST /a HTTP/1.0\r\nContent-Le", by decide, by decide⟩,
        ⟨bytes "ngth: 2\r\n\r\nh", by decide, by decide⟩, ⟨bytes "i", by decide, by decide⟩] = bodyRequest := by
      decide
    rw [hstream] at hparse
    rw [hparse, Option.map_some, Function.comp_apply, hundecided] at hread
    cases hread
  · exact hone

end Webserver.Server
