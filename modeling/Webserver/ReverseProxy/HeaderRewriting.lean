import Webserver.ReverseProxy.ForwardedUri
import Webserver.ReverseProxy.HeaderEdit
import Webserver.ReverseProxy.ProxySafety

/-!
# What the proxy rewrites

The text that is written to the remote host, read again as a request.  `RewritesOnly` says that the edit for
`Host` meets the `Host` header, and on port 443 that the ones for `Connection` and the version meet what
they are for; then only these parts change (`remoteRequest_faithful`).  On other ports this is also
necessary (`rewritesOnly_of_faithful`).

`sent_rewrites_iff` puts this together for all that a call of `sendRequestToOrigin` writes.
-/

namespace Webserver.ReverseProxy

open BoundedLoop ByteString CxxString Http LineEdit Numeral Server

/-! ### The three edits -/

theorem isSearchWord_host : IsSearchWord (bytes "Host") := ⟨⟨by decide, by decide⟩, by decide, by decide⟩

theorem isSearchWord_connection : IsSearchWord (bytes "Connection") :=
  ⟨⟨by decide, by decide⟩, by decide, by decide⟩

/-- **`m'` is `m` with the value `close` for `Connection`**, if there is such a header, and `closeConnection`
makes it so. -/
inductive EditsConnection (m m' : RequestText) : Prop
  | absent (same : m' = m) (none : ¬ bytes "Connection" <:+: m.render)
  | edits (edit : EditsHeader (bytes "Connection") (bytes "close") m m')

/-- The first `HTTP/1` is the one of the version. -/
def EditsVersion (m : RequestText) : Prop := ¬ bytes "HTTP/1" <:+: m.uri ∧ bytes "HTTP/1" <+: m.version

/-- **The edits only meet what they are for.** -/
def RewritesOnly (port : ℤ) (remoteHost : Bytes) (m : RequestText) : Prop :=
  ∃ m₁, EditsHeader (bytes "Host") remoteHost m m₁ ∧
    (port = 443 → (∃ m₂, EditsConnection m₁ m₂) ∧ EditsVersion m)

theorem EditsHeader.sameButHeaders {w v : Bytes} {m m' : RequestText} (h : EditsHeader w v m m') :
    SameButHeaders m m' := by
  cases h with
  | inPlace same => exact same
  | idle same => rw [same]; exact ⟨rfl, rfl, rfl, rfl⟩

theorem setHeader_of_absent {name : Bytes} {hs : Headers} (h : ∀ p ∈ hs, p.1 ≠ name) (value : Bytes) :
    setHeader name value hs = hs := by
  have heq := setHeader_append h value []
  rwa [List.append_nil, setHeader, List.append_nil] at heq

/-- A word that does not occur is not the name of a header. -/
theorem name_ne_of_absent {w : Bytes} {m : RequestText} (h : ¬ w <:+: m.render) :
    ∀ p ∈ m.headers, p.1 ≠ w := by
  intro p hp hname
  obtain ⟨ht, hmem, rfl⟩ := List.mem_map.mp hp
  obtain ⟨pre, post, headers⟩ := List.append_of_mem hmem
  apply h
  rw [render_eq_parts m pre post ht headers, show ht.name = w from hname]
  exact List.infix_append _ _ _

theorem EditsConnection.closeConnection_eq {m m' : RequestText} (h : EditsConnection m m') :
    closeConnection m.render = .ok m'.render := by
  cases h with
  | absent same none => rw [closeConnection_of_absent none, same]
  | edits edit =>
    have hreplace := edit.replaceLine_eq isSearchWord_connection
    have hpiece : bytes "Connection" <:+: m.render := replaceLine_isOk_iff.mp ⟨_, hreplace⟩
    rw [closeConnection, if_pos (find_ne_npos_iff.mpr hpiece)]
    exact hreplace

theorem EditsConnection.headers_eq {m m' : RequestText} (h : EditsConnection m m') :
    m'.headers = setHeader (bytes "Connection") (bytes "close") m.headers := by
  cases h with
  | absent same none => rw [same, setHeader_of_absent (name_ne_of_absent none)]
  | edits edit => exact edit.headers_eq

theorem EditsConnection.sameButHeaders {m m' : RequestText} (h : EditsConnection m m') : SameButHeaders m m' := by
  cases h with
  | absent same => rw [same]; exact ⟨rfl, rfl, rfl, rfl⟩
  | edits edit => exact EditsHeader.sameButHeaders edit

/-- The request with the version `HTTP/1.0`. -/
def withVersion10 (m : RequestText) : RequestText :=
  { m with
    major := [byte '1']
    minor := [byte '0']
    major_ne := by decide
    major_digit := by decide
    minor_ne := by decide
    minor_digit := by decide }

/-- **The edit of the version.** -/
theorem replaceLine_version {m : RequestText} (h : EditsVersion m) :
    replaceLine crlf (bytes "HTTP/1") (bytes "HTTP/1.0") m.render = .ok (withVersion10 m).render := by
  obtain ⟨huri, z, hversion⟩ := h
  have hmethod : ¬ bytes "HTTP/1" <:+: m.method := by
    intro hpiece
    have hslash : byte '/' ∈ m.method := hpiece.subset (by decide)
    exact absurd (m.method_token _ hslash) (by decide)
  have hspace : ∀ c ∈ (bytes " ").head?, c ∉ (bytes "HTTP/1").tail := by decide
  have hspaces : ∀ c ∈ bytes " ", c ∉ bytes "HTTP/1" := by decide
  have hnot : ¬ bytes "HTTP/1" <:+: bytes " " := find_eq_none_iff.mp (by decide)
  have hfront : ¬ bytes "HTTP/1" <:+: m.method ++ (bytes " " ++ m.uri) ++ bytes " " := by
    rw [infix_append_iff hspace, infix_append_iff (t := bytes " " ++ m.uri) hspace,
      infix_append_right_iff (by decide) hspaces]
    exact not_or.mpr ⟨not_or.mpr ⟨hmethod, huri⟩, hnot⟩
  have hfirst := firstAt_iff (c := byte 'H') (w := bytes "TTP/1") (b := z ++
    (crlf ++ (renderHeaders m.headerTexts ++ crlf ++ m.body))) (by decide) |>.mpr hfront
  have htext : m.render = m.method ++ (bytes " " ++ m.uri) ++ bytes " " ++ bytes "HTTP/1" ++
      (z ++ (crlf ++ (renderHeaders m.headerTexts ++ crlf ++ m.body))) := by
    rw [RequestText.render, requestLine_eq, lineText, ← hversion]
    simp only [List.append_assoc]
  have hz : ∀ b ∈ z, ¬ IsControl b := by
    intro b hb
    exact version_notControl m b (by rw [← hversion]; exact List.mem_append_right _ hb)
  have hword : ∀ b ∈ bytes "HTTP/1", ¬ IsControl b := by decide
  rw [htext]
  refine (replaceLine_crlf hword hfirst hz _).trans (congrArg Except.ok ?_)
  rw [RequestText.render, requestLine_eq, lineText]
  simp only [List.append_assoc]
  rfl

/-! ### The text, read again -/

/-- The headers that the remote host should see. -/
def proxiedHeaders (port : ℤ) (remoteHost : Bytes) (headers : Headers) : Headers :=
  if port = 443 then
    setHeader (bytes "Connection") (bytes "close") (setHeader (bytes "Host") remoteHost headers)
  else setHeader (bytes "Host") remoteHost headers

def proxiedVersion (port : ℤ) (version : Bytes) : Bytes := if port = 443 then bytes "HTTP/1.0" else version

/-- **What is written is the request, rewritten as it should be**: the whole text is read as one request,
with the URI that `SetUri` set, another value of `Host`, on port 443 the version `HTTP/1.0` and the value
`close` for `Connection`, and the same otherwise. -/
def Faithful (port : ℤ) (remoteHost : Bytes) (r : Request) (uri written : Bytes) : Prop :=
  ∃ t r', parse ThreadState.fresh written = some (t, some r') ∧ r'.rawRequest = written ∧
    r'.method = r.method ∧ r'.uri = uri ∧ r'.version = proxiedVersion port r.version ∧
    r'.headers = proxiedHeaders port remoteHost r.headers ∧ r'.body = r.body

variable {port : ℤ} {remoteHost : Bytes} {m : RequestText}

/-- **The edits give the rewritten request.** -/
theorem remoteRequest_faithful (h : RewritesOnly port remoteHost m) :
    ∃ m' : RequestText, remoteRequest port remoteHost m.render = .ok m'.render ∧ m'.method = m.method ∧ m'.uri = m.uri ∧
      m'.version = proxiedVersion port m.version ∧ m'.headers = proxiedHeaders port remoteHost m.headers ∧
      m'.body = m.body := by
  obtain ⟨m₁, hhost, h443⟩ := h
  have hsame := EditsHeader.sameButHeaders hhost
  have hreplace : replaceLine (bytes "\r\n") (bytes "Host") (bytes "Host: " ++ remoteHost) m.render =
      .ok m₁.render := hhost.replaceLine_eq isSearchWord_host
  rw [remoteRequest, hreplace, ok_bind]
  by_cases hport : port = 443
  · obtain ⟨⟨m₂, hconnection⟩, hversion⟩ := h443 hport
    have hsame₂ := hconnection.sameButHeaders
    have hversion₂ : EditsVersion m₂ := by
      rw [EditsVersion, hsame₂.uri, hsame₂.version, hsame.uri, hsame.version]
      exact hversion
    have hlast : replaceLine (bytes "\r\n") (bytes "HTTP/1") (bytes "HTTP/1.0") m₂.render =
        .ok (withVersion10 m₂).render := replaceLine_version hversion₂
    rw [if_pos hport, hconnection.closeConnection_eq, ok_bind, hlast]
    refine ⟨withVersion10 m₂, rfl, hsame₂.method.trans hsame.method, hsame₂.uri.trans hsame.uri, ?_, ?_,
      hsame₂.body.trans hsame.body⟩
    · rw [proxiedVersion, if_pos hport]
      rfl
    · rw [proxiedHeaders, if_pos hport, ← hhost.headers_eq]
      exact hconnection.headers_eq
  · rw [if_neg hport]
    refine ⟨m₁, rfl, hsame.method, hsame.uri, ?_, ?_, hsame.body⟩
    · rw [proxiedVersion, if_neg hport, hsame.version]
    · rw [proxiedHeaders, if_neg hport, hhost.headers_eq]

/-- A text that is a request as a whole is read as this request. -/
theorem faithful_iff {r : Request} {uri written : Bytes} :
    Faithful port remoteHost r uri written ↔ ∃ m' : RequestText, written = m'.render ∧ m'.method = r.method ∧
      m'.uri = uri ∧ m'.version = proxiedVersion port r.version ∧
      m'.headers = proxiedHeaders port remoteHost r.headers ∧ m'.body = r.body := by
  constructor
  · intro h
    obtain ⟨t, r', hparse, hraw, hfields⟩ := h
    obtain ⟨-, m', -, rfl⟩ := parse_fresh_good_iff.mp hparse
    exact ⟨m', hraw.symm, hfields⟩
  · intro h
    obtain ⟨m', rfl, hfields⟩ := h
    exact ⟨_, m'.toRequest, parse_fresh_good_iff.mpr ⟨rfl, m', List.prefix_rfl, rfl⟩, rfl, hfields⟩

/-- **Off port 443 nothing else makes the result right.** -/
theorem rewritesOnly_of_faithful (hport : port ≠ 443) {written : Bytes}
    (hwritten : remoteRequest port remoteHost m.render = .ok written)
    (hpresent : ∃ h ∈ m.headerTexts, h.name = bytes "Host")
    (h : Faithful port remoteHost m.toRequest m.uri written) : RewritesOnly port remoteHost m := by
  obtain ⟨m', rfl, hmethod, huri, hversion, hheaders, hbody⟩ := faithful_iff.mp h
  rw [proxiedVersion, if_neg hport] at hversion
  rw [proxiedHeaders, if_neg hport] at hheaders
  have hreplace : replaceLine crlf (bytes "Host") (bytes "Host" ++ bytes ": " ++ remoteHost) m.render =
      .ok m'.render := by
    cases hedit : replaceLine crlf (bytes "Host") (bytes "Host" ++ bytes ": " ++ remoteHost) m.render with
    | error e =>
      have hstart : replaceLine (bytes "\r\n") (bytes "Host") (bytes "Host: " ++ remoteHost) m.render = .error e :=
        hedit
      rw [remoteRequest, hstart] at hwritten
      cases hwritten
    | ok s =>
      have hstart : replaceLine (bytes "\r\n") (bytes "Host") (bytes "Host: " ++ remoteHost) m.render = .ok s :=
        hedit
      rw [remoteRequest, hstart, ok_bind, if_neg hport] at hwritten
      exact hwritten
  obtain ⟨m₁, hedit⟩ := exists_editsHeader isSearchWord_host hpresent hreplace
    ⟨hmethod, huri, hversion, hbody⟩ hheaders
  exact ⟨m₁, hedit, fun h => absurd h hport⟩

/-! ### Everything that a call writes -/

/-- The invariant of the loop: every text was made for its remote host. -/
def AllMade (port : ℤ) (text : Bytes) (s : Sending) : Prop :=
  ∀ host written, (host, written) ∈ s.sent → remoteRequest port host text = .ok written

theorem AllMade.append {text written : Bytes} {s s' : Sending} (h : AllMade port text s)
    (hwritten : remoteRequest port s.remoteHost text = .ok written)
    (hsent : s'.sent = s.sent ++ [(s.remoteHost, written)]) : AllMade port text s' := by
  intro host written' hmem
  rw [hsent, List.mem_append, List.mem_singleton] at hmem
  rcases hmem with hmem | hmem
  · exact h host written' hmem
  · obtain ⟨rfl, rfl⟩ := Prod.mk.inj hmem
    exact hwritten

/-- **Everything that is written** is what `remoteRequest` makes of the request that is sent on. -/
theorem allMade_of_send {h : ReverseProxyHandler} (hport : stoi h.remotePort = .ok port) {fuel : ℕ}
    {net : ℕ → Round} {s' : Sending} {result : Except Exn Bytes}
    (hsend : sendRequestToOrigin fuel net h m.toRequest m.uri = some (s', result)) :
    AllMade port (m.forward h.originalUriPrefix).render s' := by
  rw [sendRequestToOrigin, originRequest_toRequest] at hsend
  have hreturns : Returns (originBody h.remotePort (m.forward h.originalUriPrefix).render net)
      (ReverseProxyHandler.start h) (s', result) := ⟨fuel, hsend⟩
  have hstart : AllMade port (m.forward h.originalUriPrefix).render (ReverseProxyHandler.start h) := by
    intro host written hmem
    cases hmem
  obtain ⟨t, ht, hbody⟩ := hreturns.invariant (AllMade port (m.forward h.originalUriPrefix).render) hstart
    fun t t' ht hb => by
      obtain ⟨-, -, -, -, -, written, hwritten, hsent⟩ := (originBody_inl_iff hport).mp hb
      exact ht.append hwritten hsent
  rcases originBody_inr hport hbody with rfl | ⟨written, hwritten, rfl⟩
  · exact ht
  · exact ht.append hwritten rfl

/-- **When the proxy rewrites only what it means to rewrite.**  For an accepted request with a header
`Host`, a numeric port, and any text that a call of `sendRequestToOrigin` writes, in whichever turn and for
whichever remote host: if the edits only meet what they are for, the text is faithful, and on every port
but 443 only then. -/
theorem sent_rewrites_iff {s : Bytes} {t : ThreadState} {r : Request}
    (hparse : parse ThreadState.fresh s = some (t, some r))
    (hhost : ∃ value, (bytes "Host", value) ∈ r.headers) {h : ReverseProxyHandler}
    (hport : stoi h.remotePort = .ok port) {fuel : ℕ} {net : ℕ → Round} {s' : Sending}
    {result : Except Exn Bytes} (hsend : sendRequestToOrigin fuel net h r r.uri = some (s', result))
    {host written : Bytes} (hsent : (host, written) ∈ s'.sent) :
    ∃ m : RequestText, r = m.toRequest ∧
      (RewritesOnly port host (m.forward h.originalUriPrefix) →
        Faithful port host r (forwardUri h.originalUriPrefix r.uri) written) ∧
      (port ≠ 443 → Faithful port host r (forwardUri h.originalUriPrefix r.uri) written →
        RewritesOnly port host (m.forward h.originalUriPrefix)) := by
  obtain ⟨-, m, -, rfl⟩ := parse_fresh_good_iff.mp hparse
  have hwritten := allMade_of_send hport hsend host written hsent
  refine ⟨m, rfl, ?_, ?_⟩
  · intro hrewrites
    obtain ⟨m', hm', hfields⟩ := remoteRequest_faithful hrewrites
    rw [hwritten] at hm'
    exact faithful_iff.mpr ⟨m', Except.ok.inj hm', hfields⟩
  · intro hne hfaithful
    obtain ⟨value, hvalue⟩ := hhost
    obtain ⟨ht, hmem, hpair⟩ := List.mem_map.mp hvalue
    exact rewritesOnly_of_faithful hne hwritten ⟨ht, hmem, (Prod.mk.inj hpair).1⟩ hfaithful

/-- A call whose only header is the `Host`. -/
theorem sent_rewrites_iff_host :
    ∃ m : RequestText, getRequest (bytes "/p/x") [(bytes "Host", bytes "a")] = m.toRequest ∧
      (RewritesOnly 80 (bytes "localhost") (m.forward (bytes "/p")) →
        Faithful 80 (bytes "localhost") (getRequest (bytes "/p/x") [(bytes "Host", bytes "a")])
          (forwardUri (bytes "/p") (bytes "/p/x")) (bytes "GET /x HTTP/1.0\r\nHost: localhost\r\n\r\n")) ∧
      ((80 : ℤ) ≠ 443 →
        Faithful 80 (bytes "localhost") (getRequest (bytes "/p/x") [(bytes "Host", bytes "a")])
          (forwardUri (bytes "/p") (bytes "/p/x")) (bytes "GET /x HTTP/1.0\r\nHost: localhost\r\n\r\n") →
        RewritesOnly 80 (bytes "localhost") (m.forward (bytes "/p"))) := by
  have hparse : parse ThreadState.fresh (bytes "GET /p/x HTTP/1.0\r\nHost: a\r\n\r\n") =
      some (⟨.good, Request.fresh⟩, some (getRequest (bytes "/p/x") [(bytes "Host", bytes "a")])) := by decide
  have hsend : sendRequestToOrigin 1 (answering []) ⟨bytes "/p", bytes "localhost", bytes "80"⟩
      (getRequest (bytes "/p/x") [(bytes "Host", bytes "a")]) (bytes "/p/x") =
      some (⟨bytes "localhost", 0,
        [(bytes "localhost", bytes "GET /x HTTP/1.0\r\nHost: localhost\r\n\r\n")]⟩, .ok []) := by decide
  exact sent_rewrites_iff hparse ⟨bytes "a", by decide⟩ (by decide) hsend (List.mem_singleton.mpr rfl)

/-- The first `Host` is the end of another name: the value of `X-Forwarded-Host` is replaced. -/
theorem sent_rewrites_other_header :
    ∃ config h s t r value port fuel net s' result host written,
      ReverseProxyHandler.init ⟨[], [], []⟩ (bytes "/p") config = (.ok, h) ∧
      parse ThreadState.fresh s = some (t, some r) ∧ (bytes "Host", value) ∈ r.headers ∧
      stoi h.remotePort = .ok port ∧ sendRequestToOrigin fuel net h r r.uri = some (s', result) ∧
      (host, written) ∈ s'.sent ∧
      ¬ Faithful port host r (forwardUri h.originalUriPrefix r.uri) written := by
  refine ⟨⟨[⟨[bytes "remote_host", bytes "localhost"], none⟩, ⟨[bytes "remote_port", bytes "80"], none⟩]⟩,
    ⟨bytes "/p", bytes "localhost", bytes "80"⟩,
    bytes "GET /p/x HTTP/1.0\r\nX-Forwarded-Host: a\r\nHost: b\r\n\r\n", ⟨.good, Request.fresh⟩,
    getRequest (bytes "/p/x") [(bytes "X-Forwarded-Host", bytes "a"), (bytes "Host", bytes "b")], bytes "b", 80, 1,
    answering [], ⟨bytes "localhost", 0, [(bytes "localhost",
      bytes "GET /x HTTP/1.0\r\nX-Forwarded-Host: localhost\r\nHost: b\r\n\r\n")]⟩, .ok [], bytes "localhost",
    bytes "GET /x HTTP/1.0\r\nX-Forwarded-Host: localhost\r\nHost: b\r\n\r\n", by decide, by decide, by decide,
    by decide, by decide, List.mem_singleton.mpr rfl, ?_⟩
  intro h
  obtain ⟨t, r', hparse, -, -, -, -, hheaders, -⟩ := h
  have hread : parse ThreadState.fresh
      (bytes "GET /x HTTP/1.0\r\nX-Forwarded-Host: localhost\r\nHost: b\r\n\r\n") =
      some (⟨.good, Request.fresh⟩, some (getRequest (bytes "/x")
        [(bytes "X-Forwarded-Host", bytes "localhost"), (bytes "Host", bytes "b")])) := by decide
  rw [hread] at hparse
  rw [← Option.some.inj (Prod.mk.inj (Option.some.inj hparse)).2] at hheaders
  exact absurd hheaders (by decide)

end Webserver.ReverseProxy
