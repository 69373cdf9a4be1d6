import Webserver.ReverseProxy.ProxySafety

/-!
# The state of the proxy

The loop over redirects uses the member `remote_host` as its variable, so a call of `HandleRequest` leaves
the host of its last redirect in the handler.  The other members are never assigned.

* `Followed` — the turns that a call enters, on the port, the text and the replies alone.
* `handleRequest_remoteHost_iff` — when one call keeps the host.
* `reached_configured_iff` — when every handler of a run is the one that `Init` configured.
-/

namespace Webserver.ReverseProxy

open BoundedLoop ByteString ConfigTree CxxString Http Numeral Server

/-! ### The turns of one call -/

theorem RedirectsTo.unique {reply host host' : Bytes} (h : RedirectsTo reply host)
    (h' : RedirectsTo reply host') : host = host' := by
  rw [← redirectHost_eq_ok_iff] at h h'
  exact Except.ok.inj (h.symm.trans h')

theorem Turn.unique {port : ℤ} {net : ℕ → Round} {remoteHost : Bytes} {k : ℕ} {host host' : Bytes}
    (h : Turn port net remoteHost k host) (h' : Turn port net remoteHost k host') : host = host' := by
  induction h with
  | first =>
    cases h' with
    | first => rfl
  | redirected _ _ _ _ hnamed _ =>
    cases h' with
    | redirected _ _ _ _ hnamed' => exact hnamed.unique hnamed'

/-- The text of a turn can be made: there is a `Host` to replace, and on port 443 a version. -/
def Rewritable (port : ℤ) (remoteHost text : Bytes) : Prop :=
  ∃ s, NamesHost remoteHost text s ∧ (port = 443 → VersionLeft s)

/-- **The turns that a call enters**: those after redirects to requests that could be written. -/
def Followed (port : ℤ) (text : Bytes) (net : ℕ → Round) (remoteHost : Bytes) (k : ℕ) (host : Bytes) : Prop :=
  Turn port net remoteHost k host ∧
    ∀ j < k, ∀ host', Turn port net remoteHost j host' → Rewritable port host' text

section Loop

variable {remotePort text : Bytes} {net : ℕ → Round} {port : ℤ} {remoteHost : Bytes} {s s' : Sending}

theorem followed_zero (port : ℤ) (text : Bytes) (net : ℕ → Round) (remoteHost : Bytes) :
    Followed port text net remoteHost 0 remoteHost :=
  ⟨.first, fun j hj => absurd hj (Nat.not_lt_zero j)⟩

/-- One more turn. -/
theorem followed_succ_iff {k : ℕ} {host' : Bytes} :
    Followed port text net remoteHost (k + 1) host' ↔
      ∃ host, Followed port text net remoteHost k host ∧ (net k).Connects port ∧
        Rewritable port host text ∧ (net k).writes ∧ IsRedirect (net k).reply ∧
        RedirectsTo (net k).reply host' := by
  constructor
  · rintro ⟨hturn, hall⟩
    cases hturn with
    | @redirected _ host _ turn connects writes redirect named =>
      exact ⟨host, ⟨turn, fun j hj => hall j (Nat.lt_succ_of_lt hj)⟩, connects,
        hall k (Nat.lt_succ_self k) host turn, writes, redirect, named⟩
  · rintro ⟨host, ⟨hturn, hall⟩, hconnects, hrewrite, hwrites, hredirect, hnamed⟩
    refine ⟨.redirected hturn hconnects hwrites hredirect hnamed, ?_⟩
    intro j hj host' hturn'
    rcases Nat.lt_succ_iff_lt_or_eq.mp hj with hj | rfl
    · exact hall j hj host' hturn'
    · rwa [hturn'.unique hturn]

theorem Followed.of_le {k : ℕ} {host : Bytes} (h : Followed port text net remoteHost k host) {j : ℕ}
    (hj : j ≤ k) : ∃ host', Followed port text net remoteHost j host' := by
  induction hj using Nat.decreasingInduction with
  | self => exact ⟨host, h⟩
  | of_succ j _ ih =>
    obtain ⟨host', h'⟩ := ih
    obtain ⟨host, h, -⟩ := followed_succ_iff.mp h'
    exact ⟨host, h⟩

/-- **The loop goes on** exactly with the turns that are followed. -/
theorem originBody_inl_iff_followed (hport : stoi remotePort = .ok port)
    (hs : Followed port text net remoteHost s.round s.remoteHost) :
    (∃ s', originBody remotePort text net s = .inl s') ↔
      ∃ host, Followed port text net remoteHost (s.round + 1) host := by
  constructor
  · rintro ⟨s', hbody⟩
    obtain ⟨hconnects, hwrites, hredirect, hnamed, -, written, hwritten, -⟩ :=
      (originBody_inl_iff hport).mp hbody
    exact ⟨s'.remoteHost, followed_succ_iff.mpr ⟨s.remoteHost, hs, hconnects,
      remoteRequest_isOk_iff.mp ⟨written, hwritten⟩, hwrites, hredirect, hnamed⟩⟩
  · rintro ⟨host, h⟩
    obtain ⟨host', h', hconnects, hrewrite, hwrites, hredirect, hnamed⟩ := followed_succ_iff.mp h
    obtain rfl : host' = s.remoteHost := h'.1.unique hs.1
    obtain ⟨written, hwritten⟩ := remoteRequest_isOk_iff.mpr hrewrite
    exact ⟨⟨host, s.round + 1, s.sent ++ [(s.remoteHost, written)]⟩, (originBody_inl_iff hport).mpr
      ⟨hconnects, hwrites, hredirect, hnamed, rfl, written, hwritten, rfl⟩⟩

/-- What is written is for the host of the first turn, until a redirect. -/
def FirstFor (remoteHost : Bytes) (s : Sending) : Prop :=
  (s.sent = [] → s.remoteHost = remoteHost) ∧ ∀ p ∈ s.sent.head?, p.1 = remoteHost

theorem FirstFor.snoc {remoteHost : Bytes} {s : Sending} (h : FirstFor remoteHost s) (written : Bytes) :
    ∀ p ∈ (s.sent ++ [(s.remoteHost, written)]).head?, p.1 = remoteHost := by
  cases hsent : s.sent with
  | nil =>
    intro p hp
    obtain rfl := Option.some.inj hp
    exact h.1 hsent
  | cons q qs =>
    intro p hp
    refine h.2 p ?_
    rw [hsent]
    exact hp

theorem returns_firstFor (hport : stoi remotePort = .ok port) {result : Except Exn Bytes}
    (h : Returns (originBody remotePort text net) ⟨remoteHost, 0, []⟩ (s', result)) :
    ∀ p ∈ s'.sent.head?, p.1 = remoteHost := by
  obtain ⟨s, hs, hbody⟩ := h.invariant (FirstFor remoteHost)
    ⟨fun _ => rfl, fun p hp => by cases hp⟩ fun s t hs hb => by
      obtain ⟨-, -, -, -, -, written, -, hsent⟩ := (originBody_inl_iff hport).mp hb
      refine ⟨fun hnil => absurd (hsent.symm.trans hnil) (by simp), ?_⟩
      rw [hsent]
      exact hs.snoc written
  rcases originBody_inr hport hbody with rfl | ⟨written, -, rfl⟩
  · exact hs.2
  · exact hs.snoc written

/-- **The loop ends in the last turn** that is followed. -/
theorem returns_last (hport : stoi remotePort = .ok port) {result : Except Exn Bytes}
    (h : Returns (originBody remotePort text net) ⟨remoteHost, 0, []⟩ (s', result)) :
    ∃ s, Followed port text net remoteHost s.round s.remoteHost ∧
      (∀ host, ¬ Followed port text net remoteHost (s.round + 1) host) ∧
      originBody remotePort text net s = .inr (s', result) := by
  obtain ⟨s, hs, hbody⟩ := h.invariant (fun s => Followed port text net remoteHost s.round s.remoteHost)
    (followed_zero port text net remoteHost) fun s t hs hb => by
      obtain ⟨hconnects, hwrites, hredirect, hnamed, hround, written, hwritten, -⟩ :=
        (originBody_inl_iff hport).mp hb
      rw [hround]
      exact followed_succ_iff.mpr ⟨s.remoteHost, hs, hconnects,
        remoteRequest_isOk_iff.mp ⟨written, hwritten⟩, hwrites, hredirect, hnamed⟩
  refine ⟨s, hs, ?_, hbody⟩
  intro host hnext
  obtain ⟨t, ht⟩ := (originBody_inl_iff_followed hport hs).mpr ⟨host, hnext⟩
  rw [ht] at hbody
  cases hbody

/-- **The host that the loop leaves behind** is that of the last turn that is followed. -/
theorem returns_remoteHost (hport : stoi remotePort = .ok port) {result : Except Exn Bytes}
    (h : Returns (originBody remotePort text net) ⟨remoteHost, 0, []⟩ (s', result)) :
    ∃ k, Followed port text net remoteHost k s'.remoteHost ∧
      ∀ host, ¬ Followed port text net remoteHost (k + 1) host := by
  obtain ⟨s, hs, hlast, hbody⟩ := returns_last hport h
  refine ⟨s.round, ?_, hlast⟩
  rcases originBody_inr hport hbody with rfl | ⟨written, -, rfl⟩
  · exact hs
  · exact hs

/-- There is one last turn. -/
theorem Followed.last_round {k k' : ℕ} {host host' : Bytes} (h : Followed port text net remoteHost k host)
    (hlast : ∀ host, ¬ Followed port text net remoteHost (k + 1) host)
    (h' : Followed port text net remoteHost k' host')
    (hlast' : ∀ host, ¬ Followed port text net remoteHost (k' + 1) host) : k = k' := by
  rcases lt_trichotomy k k' with hlt | heq | hlt
  · obtain ⟨next, hnext⟩ := h'.of_le (Nat.succ_le_of_lt hlt)
    exact absurd hnext (hlast next)
  · exact heq
  · obtain ⟨next, hnext⟩ := h.of_le (Nat.succ_le_of_lt hlt)
    exact absurd hnext (hlast' next)

theorem Followed.last_unique {k k' : ℕ} {host host' : Bytes} (h : Followed port text net remoteHost k host)
    (hlast : ∀ host, ¬ Followed port text net remoteHost (k + 1) host)
    (h' : Followed port text net remoteHost k' host')
    (hlast' : ∀ host, ¬ Followed port text net remoteHost (k' + 1) host) : host = host' := by
  obtain rfl := h.last_round hlast h' hlast'
  exact h.1.unique h'.1

end Loop

/-! ### One call -/

/-- A call of `HandleRequest`, with what the network does during it. -/
structure Call where
  request : Request
  response : Response
  net : ℕ → Round

/-- **The last redirect that a call follows**, if it follows any, names the host of the handler. -/
def KeepsHost (h : ReverseProxyHandler) (c : Call) : Prop :=
  ∀ port forwarded k host, stoi h.remotePort = .ok port →
    originRequest h.originalUriPrefix c.request c.request.uri = .ok forwarded →
    Followed port forwarded.rawRequest c.net h.remoteHost k host →
    (∀ next, ¬ Followed port forwarded.rawRequest c.net h.remoteHost (k + 1) next) → host = h.remoteHost

/-- A call only assigns `remote_host`. -/
theorem handleRequest_eq_some_iff {fuel : ℕ} {net : ℕ → Round} {h h' : ReverseProxyHandler}
    {request : Request} {response : Response} {result : Except Exn (Status × Response)} :
    handleRequest fuel net h request response = some (h', result) ↔
      ∃ s r, sendRequestToOrigin fuel net h request request.uri = some (s, r) ∧
        h' = { h with remoteHost := s.remoteHost } ∧ result = respond response r := by
  constructor
  · intro hcall
    obtain ⟨⟨s, r⟩, hsend, hpure⟩ := Option.bind_eq_some_iff.mp hcall
    obtain ⟨rfl, rfl⟩ := Prod.mk.inj (Option.some.inj hpure)
    exact ⟨s, r, hsend, rfl, rfl⟩
  · rintro ⟨s, r, hsend, rfl, rfl⟩
    exact Option.bind_eq_some_iff.mpr ⟨(s, r), hsend, rfl⟩

/-- **What a call can do**: without a port or a request for the remote host it raises an exception at once,
and otherwise it is the loop. -/
theorem sendRequestToOrigin_cases {fuel : ℕ} {net : ℕ → Round} {h : ReverseProxyHandler} {request : Request}
    {remoteUri : Bytes} {s : Sending} {r : Except Exn Bytes}
    (hsend : sendRequestToOrigin fuel net h request remoteUri = some (s, r)) :
    (s = ⟨h.remoteHost, 0, []⟩ ∧ (∃ e, r = .error (.std e)) ∧
      ∀ port forwarded, stoi h.remotePort = .ok port →
        originRequest h.originalUriPrefix request remoteUri ≠ .ok forwarded) ∨
    ∃ port forwarded, stoi h.remotePort = .ok port ∧
      originRequest h.originalUriPrefix request remoteUri = .ok forwarded ∧
      Returns (originBody h.remotePort forwarded.rawRequest net) ⟨h.remoteHost, 0, []⟩ (s, r) := by
  cases hforward : originRequest h.originalUriPrefix request remoteUri with
  | error e =>
    rw [sendRequestToOrigin, hforward] at hsend
    obtain ⟨rfl, rfl⟩ := Prod.mk.inj (Option.some.inj hsend)
    exact .inl ⟨rfl, ⟨e, rfl⟩, fun port forwarded _ hforward' => by cases hforward'⟩
  | ok forwarded =>
    rw [sendRequestToOrigin, hforward] at hsend
    have hreturns : Returns (originBody h.remotePort forwarded.rawRequest net)
        ⟨h.remoteHost, 0, []⟩ (s, r) := ⟨fuel, hsend⟩
    cases hport : stoi h.remotePort with
    | error e =>
      have hbody : originBody h.remotePort forwarded.rawRequest net ⟨h.remoteHost, 0, []⟩ =
          .inr (⟨h.remoteHost, 0, []⟩, .error (.std e)) := by
        rw [originBody, hport]
      obtain ⟨rfl, rfl⟩ := Prod.mk.inj ((returns_iff_of_inr hbody).mp hreturns)
      exact .inl ⟨rfl, ⟨e, rfl⟩, fun port forwarded hport' => by cases hport'⟩
    | ok port => exact .inr ⟨port, forwarded, rfl, rfl, hreturns⟩

theorem sendRequestToOrigin_remoteHost_iff {fuel : ℕ} {h : ReverseProxyHandler} {c : Call} {s : Sending}
    {r : Except Exn Bytes} (hsend : sendRequestToOrigin fuel c.net h c.request c.request.uri = some (s, r)) :
    s.remoteHost = h.remoteHost ↔ KeepsHost h c := by
  rcases sendRequestToOrigin_cases hsend with ⟨rfl, -, hno⟩ | ⟨port, forwarded, hport, hforward, hreturns⟩
  · refine iff_of_true rfl ?_
    intro port forwarded k host hport hforward
    exact absurd hforward (hno port forwarded hport)
  · obtain ⟨k, hfollowed, hlast⟩ := returns_remoteHost hport hreturns
    constructor
    · intro hhost port' forwarded' k' host' hport' hforward' hfollowed' hlast'
      obtain rfl := Except.ok.inj (hport.symm.trans hport')
      obtain rfl := Except.ok.inj (hforward.symm.trans hforward')
      rw [hfollowed'.last_unique hlast' hfollowed hlast, hhost]
    · intro hkeeps
      exact hkeeps port forwarded k s.remoteHost hport hforward hfollowed hlast

/-- **One call** leaves the handler as it was exactly when it keeps the host. -/
theorem handleRequest_eq_self_iff {fuel : ℕ} {h h' : ReverseProxyHandler} {c : Call}
    {result : Except Exn (Status × Response)}
    (hcall : handleRequest fuel c.net h c.request c.response = some (h', result)) :
    h' = h ↔ KeepsHost h c := by
  obtain ⟨s, r, hsend, rfl, -⟩ := handleRequest_eq_some_iff.mp hcall
  rw [← sendRequestToOrigin_remoteHost_iff hsend]
  constructor
  · intro heq
    exact congrArg ReverseProxyHandler.remoteHost heq
  · intro heq
    rw [heq]

/-- **The first host of a call** is the one of the handler. -/
theorem head_sent {fuel : ℕ} {net : ℕ → Round} {h : ReverseProxyHandler} {request : Request}
    {remoteUri : Bytes} {s : Sending} {r : Except Exn Bytes}
    (hsend : sendRequestToOrigin fuel net h request remoteUri = some (s, r)) :
    ∀ p ∈ s.sent.head?, p.1 = h.remoteHost := by
  rcases sendRequestToOrigin_cases hsend with ⟨rfl, -, -⟩ | ⟨port, forwarded, hport, -, hreturns⟩
  · exact fun p hp => by cases hp
  · exact returns_firstFor hport hreturns

/-! ### Runs -/

/-- The handler as `Init` sets it. -/
def configured (uriPrefix : Bytes) (config : NginxConfig) : ReverseProxyHandler :=
  (ReverseProxyHandler.init ⟨[], [], []⟩ uriPrefix config).2

/-- **The states of a handler**: after a successful `Init`, and then after every call of `HandleRequest`
that comes to an end, by an exception too. -/
inductive Reached (uriPrefix : Bytes) (config : NginxConfig) : List Call → ReverseProxyHandler → Prop
  | init (hok : (ReverseProxyHandler.init ⟨[], [], []⟩ uriPrefix config).1 = .ok) :
      Reached uriPrefix config [] (configured uriPrefix config)
  | handle {cs : List Call} {h h' : ReverseProxyHandler} {c : Call} {fuel : ℕ}
      {result : Except Exn (Status × Response)} (hreached : Reached uriPrefix config cs h)
      (hcall : handleRequest fuel c.net h c.request c.response = some (h', result)) :
      Reached uriPrefix config (cs ++ [c]) h'

/-- The three members of a handler are those of another one. -/
def SameMembers (h h' : ReverseProxyHandler) : Prop :=
  h.originalUriPrefix = h'.originalUriPrefix ∧ h.remoteHost = h'.remoteHost ∧ h.remotePort = h'.remotePort

theorem sameMembers_iff {h h' : ReverseProxyHandler} : SameMembers h h' ↔ h = h' := by
  obtain ⟨uriPrefix, host, port⟩ := h
  obtain ⟨uriPrefix', host', port'⟩ := h'
  rw [ReverseProxyHandler.mk.injEq]
  rfl

theorem eq_configured_of_keepsHost {uriPrefix : Bytes} {config : NginxConfig} {cs : List Call}
    {h : ReverseProxyHandler} (hreached : Reached uriPrefix config cs h)
    (hkeeps : ∀ c ∈ cs, KeepsHost (configured uriPrefix config) c) : h = configured uriPrefix config := by
  induction hreached with
  | init => rfl
  | @handle cs h h' c _ _ _ hcall ih =>
    have hsame := ih fun d hd => hkeeps d (List.mem_append_left _ hd)
    have hlast := hkeeps c (List.mem_append_right _ (List.mem_singleton.mpr rfl))
    rw [← hsame] at hlast
    exact ((handleRequest_eq_self_iff hcall).mpr hlast).trans hsame

theorem keepsHost_of_reached {uriPrefix : Bytes} {config : NginxConfig} {cs : List Call}
    {h : ReverseProxyHandler} (hreached : Reached uriPrefix config cs h)
    (hall : ∀ before h', before <+: cs → Reached uriPrefix config before h' →
      h' = configured uriPrefix config) : ∀ c ∈ cs, KeepsHost (configured uriPrefix config) c := by
  induction hreached with
  | init => exact fun c hc => by cases hc
  | @handle cs h h' c _ _ hreached hcall ih =>
    intro d hd
    rcases List.mem_append.mp hd with hd | hd
    · exact ih (fun before h'' hle => hall before h'' (hle.trans (List.prefix_append _ _))) d hd
    · rw [List.mem_singleton.mp hd]
      have hbefore := hall cs h (List.prefix_append _ _) hreached
      have hafter := hall (cs ++ [c]) h' List.prefix_rfl (.handle hreached hcall)
      rw [← hbefore]
      exact (handleRequest_eq_self_iff hcall).mp (hafter.trans hbefore.symm)

/-- **A run changes the proxy exactly when a call does not keep the host.**  Every handler of a run has the
prefix, the host and the port that `Init` set if and only if the last redirect that each call follows names
the configured host; and then the first text of a further call is written for that host. -/
theorem reached_configured_iff {uriPrefix : Bytes} {config : NginxConfig} {cs : List Call}
    {h : ReverseProxyHandler} (hreached : Reached uriPrefix config cs h) :
    ((∀ before h', before <+: cs → Reached uriPrefix config before h' →
        SameMembers h' (configured uriPrefix config)) ↔
      ∀ c ∈ cs, KeepsHost (configured uriPrefix config) c) ∧
    ((∀ c ∈ cs, KeepsHost (configured uriPrefix config) c) →
      ∀ fuel net request s r, sendRequestToOrigin fuel net h request request.uri = some (s, r) →
        ∀ p ∈ s.sent.head?, p.1 = (configured uriPrefix config).remoteHost) := by
  simp only [sameMembers_iff]
  refine ⟨⟨keepsHost_of_reached hreached, ?_⟩, ?_⟩
  · intro hkeeps before h' hle hreached'
    exact eq_configured_of_keepsHost hreached' fun c hc => hkeeps c (hle.subset hc)
  · intro hkeeps fuel net request s r hsend
    rw [← eq_configured_of_keepsHost hreached hkeeps]
    exact head_sent hsend

/-- The configuration of a proxy for `localhost`. -/
def localhostConfig : NginxConfig :=
  ⟨[⟨[bytes "remote_host", bytes "localhost"], none⟩, ⟨[bytes "remote_port", bytes "80"], none⟩]⟩

/-- A network that redirects to `www.b` in the first turn. -/
def redirecting (k : ℕ) : Round :=
  ⟨true, false, true, true, if k = 0 then bytes "HTTP/1.1 302 Found\r\nLocation: http://www.b/\r\n\r\n"
    else bytes "HTTP/1.0 200 OK\r\n\r\n", 2⟩

/-- A call that is not redirected. -/
theorem reached_configured_iff_once :
    (∀ before h', before <+: [⟨getRequest (bytes "/p/x") [(bytes "Host", bytes "a")], Response.new,
          answering (bytes "HTTP/1.0 200 OK\r\n\r\n")⟩] →
        Reached (bytes "/p") localhostConfig before h' →
        SameMembers h' (configured (bytes "/p") localhostConfig)) ↔
      ∀ c ∈ [⟨getRequest (bytes "/p/x") [(bytes "Host", bytes "a")], Response.new,
          answering (bytes "HTTP/1.0 200 OK\r\n\r\n")⟩],
        KeepsHost (configured (bytes "/p") localhostConfig) c := by
  have hcall : ∃ result, handleRequest 1 (answering (bytes "HTTP/1.0 200 OK\r\n\r\n"))
      (configured (bytes "/p") localhostConfig) (getRequest (bytes "/p/x") [(bytes "Host", bytes "a")])
      Response.new = some (configured (bytes "/p") localhostConfig, result) := ⟨_, rfl⟩
  obtain ⟨result, hcall⟩ := hcall
  exact (reached_configured_iff (@Reached.handle _ _ [] _ _ _ _ _ (.init (by decide)) hcall)).1

/-- After one redirect the handler names another host than the configured one. -/
theorem reached_not_configured :
    ∃ c h, Reached (bytes "/p") localhostConfig [c] h ∧
      h.remoteHost ≠ (configured (bytes "/p") localhostConfig).remoteHost := by
  have hcall : ∃ result, handleRequest 2 redirecting (configured (bytes "/p") localhostConfig)
      (getRequest (bytes "/p/x") [(bytes "Host", bytes "a")]) Response.new =
        some (⟨bytes "/p", bytes "www.b", bytes "80"⟩, result) := ⟨_, rfl⟩
  obtain ⟨result, hcall⟩ := hcall
  exact ⟨⟨getRequest (bytes "/p/x") [(bytes "Host", bytes "a")], Response.new, redirecting⟩, _,
    @Reached.handle _ _ [] _ _ _ _ _ (.init (by decide)) hcall, by decide⟩

end Webserver.ReverseProxy
