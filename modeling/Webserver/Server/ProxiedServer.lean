import Webserver.ReverseProxy.HeaderRewriting
import Webserver.Server.Exchange

/-!
# A server behind a proxy

Two servers of `ServerRun`, one of which forwards to the other: what its proxy writes is what the other one reads,
and what the other one sends is the reply that comes back.

* `visit_proxied` — one request, as the client of the proxy sees it.
* `serverRun_proxied` — a run of the server behind is a run of the proxy in front.
-/

namespace Webserver.Server

open BoundedLoop ByteString CxxString Http Numeral OrderedMap ReverseProxy Transducer

/-! ### What comes back -/

/-- The code that a proxy records for a reply with this code. -/
def proxiedCode (code : ResponseCode) : ResponseCode :=
  if code = .ok then .ok
  else if code = .notFound ∨ code = .internalServerError then .notFound
  else .internalServerError

theorem recordedStatus_of_statusLine {reply : Bytes} {code : ResponseCode} (hline : StatusLine reply code)
    (hcode : code ≠ .movedTemporarily) : recordedStatus (secondToken reply) = some (proxiedCode code) := by
  obtain ⟨digits, hdigits, htoken⟩ := secondToken_of_statusLine hline
  have hvalue : ∀ {text : Bytes} {code' : ResponseCode}, IsCode text code' → (digits = text ↔ code = code') := by
    intro text code' htext
    constructor
    · intro heq
      rw [hdigits.2.2, heq, ← htext.2.2]
    · intro heq
      exact (heq ▸ hdigits).unique htext
  have hmoved : IsCode (bytes "302") .movedTemporarily := ⟨by decide, by decide, by decide⟩
  simp only [htoken, recordedStatus, hvalue isCode_ok, hvalue hmoved, hvalue isCode_notFound,
    hvalue isCode_internalServerError, if_neg hcode, proxiedCode]
  by_cases hok : code = .ok
  · rw [if_pos hok, if_pos hok]
  by_cases hfound : code = .notFound
  · rw [if_neg hok, if_neg hok, if_pos hfound, if_pos (.inl hfound)]
  by_cases herror : code = .internalServerError
  · rw [if_neg hok, if_neg hok, if_neg hfound, if_pos herror, if_pos (.inr herror)]
  · rw [if_neg hok, if_neg hok, if_neg hfound, if_neg herror, if_neg (not_or.mpr ⟨hfound, herror⟩)]

/-- A reply with a status line is not the text that stands for a failure. -/
theorem ne_errorReply_of_statusLine {reply : Bytes} {code : ResponseCode} (hline : StatusLine reply code) :
    reply ≠ errorReply := by
  obtain ⟨version, digits, rest, rfl, -⟩ := hline
  intro heq
  have hspace : byte ' ' ∈ errorReply := heq ▸ List.mem_append_right _ List.mem_cons_self
  exact absurd hspace (by decide)

/-! ### One request -/

/-- A request on its way: what the client sends, its connection to the proxy, and the connection from the proxy to
the server behind. -/
structure Hop where
  request : RequestText
  front : Visit
  behind : Visit

/-- **Both ends of a request that is forwarded.**  The client sends the request to the proxy; the server behind reads
what the proxy writes, in any pieces; and what it sends is the reply that the proxy reads. -/
structure Joined (port : ℤ) (p : ReverseProxyHandler) (hop : Hop) (sent : Bytes) : Prop where
  client : hop.request.render <+: stream hop.front.reads
  connects : (hop.front.net 0).Connects port
  written : remoteRequest port p.remoteHost (hop.request.forward p.originalUriPrefix).render =
    .ok (stream hop.behind.reads)
  writes : (hop.front.net 0).writes
  reply : (hop.front.net 0).reply = sent
  expected : IsExpected (hop.front.net 0).ec

/-- A text that the proxy forwards: it has a status line, and is no redirect. -/
structure Forwardable (sent : Bytes) (code : ResponseCode) : Prop where
  line : StatusLine sent code
  ne_moved : code ≠ .movedTemporarily
  notRedirect : ¬ IsRedirect sent

section Proxy

variable {site : Site} {s : ServerState} {port : ℤ} {p : ReverseProxyHandler} {k : Bytes} {hop : Hop}

theorem replace_self {η : Type*} {m : HandlerMap η} {handler : η} (h : m.map.find k = some handler) :
    m.replace k handler = m := by
  obtain ⟨map, hdefault⟩ := m
  have hmap : map.set k handler = map := by
    refine Map.ext_find fun k' => ?_
    rw [Map.find_set]
    split_ifs with hk
    · rw [hk]
      exact h.symm
    · rfl
  rw [HandlerMap.replace, HandlerMap.mk.injEq]
  exact hmap

/-- **The call of the proxy** forwards the reply in its first turn, and leaves the object as it was. -/
theorem handleRequest_joined {fuel : ℕ} (hport : stoi p.remotePort = .ok port) (hfuel : 0 < fuel) {sent : Bytes}
    {code : ResponseCode} (hjoined : Joined port p hop sent) (hsent : Forwardable sent code) :
    ∃ res, ReverseProxy.handleRequest fuel hop.front.net p hop.request.toRequest .new = some (p, .ok (.ok, res)) ∧
      res.status = some (proxiedCode code) ∧ res.fullResponse = sent := by
  obtain ⟨fuel, rfl⟩ := Nat.exists_eq_succ_of_ne_zero hfuel.ne'
  have hexpected : (hop.front.net 0).ec = 2 ∨ (hop.front.net 0).ec = 0 ∨ (hop.front.net 0).ec = 335544539 :=
    hjoined.expected
  have hredirect : ¬ find (bytes "HTTP/1.1 302 Found") (hop.front.net 0).reply ≠ npos := by
    rw [hjoined.reply]
    exact mt find_ne_npos_iff.mp hsent.notRedirect
  have hturn : originBody p.remotePort (hop.request.forward p.originalUriPrefix).render hop.front.net
      (ReverseProxyHandler.start p) = .inr (⟨p.remoteHost, 0, [(p.remoteHost, stream hop.behind.reads)]⟩, .ok sent) := by
    have hbody := @originBody_of_connects _ _ hop.front.net port (ReverseProxyHandler.start p) hport hjoined.connects _
      hjoined.written
    have hfinal : finalReply (hop.front.net 0) = sent := by rw [finalReply, if_pos hexpected, hjoined.reply]
    refine hbody.trans ((if_pos hjoined.writes).trans ((if_neg hredirect).trans ?_))
    exact congrArg (fun reply => Sum.inr (_, Except.ok reply)) hfinal
  have hsend : sendRequestToOrigin (fuel + 1) hop.front.net p hop.request.toRequest hop.request.uri =
      some (⟨p.remoteHost, 0, [(p.remoteHost, stream hop.behind.reads)]⟩, .ok sent) := by
    rw [sendRequestToOrigin, originRequest_toRequest]
    exact runLoop_succ_inr hturn fuel
  obtain ⟨digits, hdigits⟩ := getRemoteResponseCode_isOk sent
  refine ⟨(setRemoteStatus digits .new).setFullResponse sent, handleRequest_eq_some_iff.mpr ⟨_, _, hsend, rfl, ?_⟩, ?_,
    rfl⟩
  · rw [respond, if_neg (ne_errorReply_of_statusLine hsent.line), hdigits]
  · exact (setRemoteStatus_status hdigits).trans (recordedStatus_of_statusLine hsent.line hsent.ne_moved)

/-- **The client of the proxy** is sent what the server behind has sent. -/
theorem visit_proxied (hport : stoi p.remotePort = .ok port) (hfuel : 0 < site.fuel)
    (hdispatched : Dispatched s.handlers hop.request.toRequest k (.reverseProxyHandler p)) {sent : Bytes}
    {code : ResponseCode} (hjoined : Joined port p hop sent) (hsent : Forwardable sent code) :
    visit site s hop.front = some (⟨s.handlers, s.requests ++ [(hop.request.uri, proxiedCode code)]⟩,
      some ⟨(hop.request.uri, proxiedCode code), sent⟩) := by
  have hdecided : decided .fresh hop.front.reads = some (some hop.request.toRequest) :=
    decided_some_iff.mpr ⟨_, hjoined.client, rfl⟩
  obtain ⟨res, hcall, hstatus, hfull⟩ := handleRequest_joined hport hfuel hjoined hsent
  rw [visit_goesTo ⟨hdecided, hdispatched⟩]
  refine ⟨.reverseProxyHandler p, (.ok, res), ?_, doWrite_eq_some_iff.mpr ⟨_, sent, hstatus, ?_, ?_, rfl⟩⟩
  · show (ReverseProxy.handleRequest site.fuel hop.front.net p hop.request.toRequest .new).bind _ = _
    rw [hcall]
    rfl
  · have hne : sent ≠ [] := by
      obtain ⟨version, digits, rest, rfl, -⟩ := hsent.line
      exact List.append_ne_nil_of_right_ne_nil _ (List.cons_ne_nil _ _)
    rw [show reported (Status.ok, res) = res from rfl, Response.toString, hfull, if_pos hne]
  · rw [replace_self hdispatched.find]
    rfl

/-- **What a request comes to** that is forwarded: the client is sent what the server behind has sent, the proxy
records the code of the reply, or the one that it takes for it, and the server behind has read the request of the
client, if the edits of the proxy only meet what they are for. -/
structure Proxied (port : ℤ) (p : ReverseProxyHandler) (hop : Hop) (behind front : Option Answer) : Prop where
  passed : ∃ answer code, behind = some answer ∧ StatusLine answer.sent code ∧
    front = some ⟨(hop.request.uri, proxiedCode code), answer.sent⟩
  read : RewritesOnly port p.remoteHost (hop.request.forward p.originalUriPrefix) →
    ∃ m' : RequestText, decided .fresh hop.behind.reads = some (some m'.toRequest) ∧
      m'.method = hop.request.method ∧ m'.uri = forwardUri p.originalUriPrefix hop.request.uri ∧
      m'.version = proxiedVersion port hop.request.version ∧
      m'.headers = proxiedHeaders port p.remoteHost hop.request.headers ∧ m'.body = hop.request.body

theorem proxied_of_joined {answer : Answer} {code : ResponseCode} (hjoined : Joined port p hop answer.sent)
    (hsent : Forwardable answer.sent code) :
    Proxied port p hop (some answer) (some ⟨(hop.request.uri, proxiedCode code), answer.sent⟩) := by
  refine ⟨⟨answer, code, rfl, hsent.line, rfl⟩, fun hrewrites => ?_⟩
  obtain ⟨m', hwritten, hfields⟩ := remoteRequest_faithful hrewrites
  rw [hjoined.written] at hwritten
  exact ⟨m', decided_some_iff.mpr ⟨m', by rw [Except.ok.inj hwritten], rfl⟩, hfields⟩

end Proxy

/-! ### A run -/

/-- **A run of the server behind is a run of the proxy in front.**  When all requests of a run have been forwarded by
one proxy, and no answer is a redirect, then the clients of the proxy are answered one by one as the server behind has
answered, and the handlers of the proxy stay as they are. -/
theorem serverRun_proxied {site origin : Site} {s t t' : ServerState} {port : ℤ} {p : ReverseProxyHandler} {k : Bytes}
    {hops : List Hop} {answers : List (Option Answer)} (hport : stoi p.remotePort = .ok port) (hfuel : 0 < site.fuel)
    (hrun : serverRun origin t (hops.map Hop.behind) = some (t', answers))
    (hjoined : List.Forall₂ (fun hop a => ∃ answer code, a = some answer ∧
      Dispatched s.handlers hop.request.toRequest k (.reverseProxyHandler p) ∧ Joined port p hop answer.sent ∧
        Forwardable answer.sent code) hops answers) :
    ∃ s' answers', serverRun site s (hops.map Hop.front) = some (s', answers') ∧ s'.handlers = s.handlers ∧
      List.Forall₂ (fun q a' => Proxied port p q.1 q.2 a') (hops.zip answers) answers' := by
  have hall := @runAll_simulate _ _ _ (visit origin) t t' _ _ _ _ (visit site)
    (fun _ u => u.handlers = s.handlers) (fun hop a => ∃ answer code, a = some answer ∧
      Dispatched s.handlers hop.request.toRequest k (.reverseProxyHandler p) ∧ Joined port p hop answer.sent ∧
        Forwardable answer.sent code) (Proxied port p) Hop.behind Hop.front ?_ hops answers s rfl hrun hjoined
  · exact hall
  · intro u u' hop v b hu hvisit hb
    obtain ⟨answer, code, rfl, hdispatched, hends, hsent⟩ := hb
    rw [← hu] at hdispatched
    exact ⟨_, _, visit_proxied hport hfuel hdispatched hends hsent, hu, proxied_of_joined hends hsent⟩

/-! ### An echo behind a proxy -/

/-- The request of `proxyRead`. -/
def hostGet : RequestText :=
  plainGet (bytes "/") [⟨bytes "Host", bytes "a", [], by decide, by decide, by decide⟩] (by decide) (by decide)
    (by decide)

/-- The answer of `EchoHandler` to what the proxy makes of it. -/
def echoReply : Bytes :=
  bytes "HTTP/1.0 200 OK\r\nContent-Length: 27\r\nContent-Type: text/plain\r\n\r\nGET / HTTP/1.0\r\nHost: b\r\n\r\n"

def echoHop : Hop :=
  ⟨hostGet, ⟨[proxyRead], answering echoReply⟩,
    ⟨[⟨bytes "GET / HTTP/1.0\r\nHost: b\r\n\r\n", by decide, by decide⟩], answering []⟩⟩

/-- One request through a proxy. -/
theorem serverRun_proxied_echo :
    let front := ServerState.start (oneBlock "ReverseProxyHandler"
      [⟨[bytes "remote_host", bytes "b"], none⟩, ⟨[bytes "remote_port", bytes "80"], none⟩])
    ∃ answers s' answers', serverRun quietSite front [echoHop.front] = some (s', answers') ∧
      s'.handlers = front.handlers ∧ List.Forall₂ (fun q a' =>
        Proxied 80 ⟨[], bytes "b", bytes "80"⟩ q.1 q.2 a') ([echoHop].zip answers) answers' := by
  intro front
  have hrun : ∃ t', serverRun quietSite (.start (oneBlock "EchoHandler" [])) [echoHop.behind] =
      some (t', [some ⟨(bytes "/", 200), echoReply⟩]) := ⟨_, rfl⟩
  obtain ⟨t', hrun⟩ := hrun
  have hsent : Forwardable echoReply 200 :=
    ⟨⟨bytes "HTTP/1.0", bytes "200", _, rfl, isVersion_http10, isCode_ok, by decide⟩, by decide,
      find_eq_none_iff.mp (by decide +kernel)⟩
  have hjoined : Joined 80 ⟨[], bytes "b", bytes "80"⟩ echoHop echoReply :=
    ⟨by decide, by unfold Round.Connects; decide, by decide, rfl, rfl, .inl rfl⟩
  obtain ⟨s', answers', hfront⟩ := @serverRun_proxied quietSite quietSite front _ _ 80 ⟨[], bytes "b", bytes "80"⟩ []
    [echoHop] _ (by decide) (by decide) hrun
    (.cons ⟨_, 200, rfl, ⟨by decide, rfl⟩, hjoined, hsent⟩ .nil)
  exact ⟨_, s', answers', hfront⟩

end Webserver.Server
