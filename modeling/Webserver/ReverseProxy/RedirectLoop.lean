import Webserver.ReverseProxy.ProxyState

/-!
# The end of the loop over redirects

The loop has no bound of its own: it goes on as long as the remote hosts redirect.

* `Endless` — a sequence of replies that are all redirects.
* `not_returns_of_endless`, `endless_of_not_returns` — the loop is never left exactly on such replies.
* `sendRequestToOrigin_ends_iff` — when a call comes to an end.
-/

namespace Webserver.ReverseProxy

open BoundedLoop ByteString CxxString Http Numeral Server

/-- **Every reply redirects**: it has the text of a 302 status line and names a host, and the request can be
rewritten for every host that is named. -/
def Endless (port : ℤ) (text : Bytes) (net : ℕ → Round) (remoteHost : Bytes) : Prop :=
  Rewritable port remoteHost text ∧
    ∀ k, IsRedirect (net k).reply ∧ ∃ host, RedirectsTo (net k).reply host ∧ Rewritable port host text

section Loop

variable {remotePort text : Bytes} {net : ℕ → Round} {port : ℤ} {remoteHost : Bytes}

/-- The loop is never left on such replies. -/
theorem not_returns_of_endless (hport : stoi remotePort = .ok port)
    (hsuccess : ∀ k, (net k).Connects port ∧ (net k).writes) (h : Endless port text net remoteHost)
    (r : Sending × Except Exn Bytes) :
    ¬ Returns (originBody remotePort text net) ⟨remoteHost, 0, []⟩ r := by
  apply not_returns_of_invariant (fun s => Rewritable port s.remoteHost text) ?_ h.1 r
  intro s hs
  obtain ⟨hredirect, host, hnamed, hrewrite⟩ := h.2 s.round
  obtain ⟨hconnects, hwrites⟩ := hsuccess s.round
  obtain ⟨written, hwritten⟩ := remoteRequest_isOk_iff.mpr hs
  exact ⟨⟨host, s.round + 1, s.sent ++ [(s.remoteHost, written)]⟩, (originBody_inl_iff hport).mpr
    ⟨hconnects, hwrites, hredirect, hnamed, rfl, written, hwritten, rfl⟩, hrewrite⟩

/-- A turn of a loop that is never left follows a redirect to a request that can be written. -/
theorem redirected_of_not_returns (hport : stoi remotePort = .ok port) {s : Sending}
    (h : ∀ r, ¬ Returns (originBody remotePort text net) s r) :
    Rewritable port s.remoteHost text ∧ IsRedirect (net s.round).reply ∧
      ∃ s', RedirectsTo (net s.round).reply s'.remoteHost ∧ s'.round = s.round + 1 ∧
        ∀ r, ¬ Returns (originBody remotePort text net) s' r := by
  obtain ⟨s', hbody, hs'⟩ := exists_inl_of_not_returns h
  obtain ⟨-, -, hredirect, hnamed, hround, written, hwritten, -⟩ := (originBody_inl_iff hport).mp hbody
  exact ⟨remoteRequest_isOk_iff.mp ⟨written, hwritten⟩, hredirect, s', hnamed, hround, hs'⟩

/-- A loop that is never left has every turn. -/
theorem exists_turn_of_not_returns (hport : stoi remotePort = .ok port)
    (h : ∀ r, ¬ Returns (originBody remotePort text net) ⟨remoteHost, 0, []⟩ r) (k : ℕ) :
    ∃ s : Sending, s.round = k ∧ ∀ r, ¬ Returns (originBody remotePort text net) s r := by
  induction k with
  | zero => exact ⟨⟨remoteHost, 0, []⟩, rfl, h⟩
  | succ k ih =>
    obtain ⟨s, rfl, hs⟩ := ih
    obtain ⟨-, -, s', -, hround, hs'⟩ := redirected_of_not_returns hport hs
    exact ⟨s', hround, hs'⟩

theorem endless_of_not_returns (hport : stoi remotePort = .ok port)
    (h : ∀ r, ¬ Returns (originBody remotePort text net) ⟨remoteHost, 0, []⟩ r) :
    Endless port text net remoteHost := by
  refine ⟨(redirected_of_not_returns hport h).1, ?_⟩
  intro k
  obtain ⟨s, rfl, hs⟩ := exists_turn_of_not_returns hport h k
  obtain ⟨-, hredirect, s', hnamed, -, hs'⟩ := redirected_of_not_returns hport hs
  exact ⟨hredirect, s'.remoteHost, hnamed, (redirected_of_not_returns hport hs').1⟩

end Loop

section Call

variable {h : ReverseProxyHandler} {request forwarded : Request} {remoteUri : Bytes} {net : ℕ → Round} {port : ℤ}

/-- A call ends when its loop does. -/
theorem sendRequestToOrigin_eq_some_iff (hforward : originRequest h.originalUriPrefix request remoteUri = .ok forwarded)
    {r : Sending × Except Exn Bytes} :
    (∃ fuel, sendRequestToOrigin fuel net h request remoteUri = some r) ↔
      Returns (originBody h.remotePort forwarded.rawRequest net) ⟨h.remoteHost, 0, []⟩ r := by
  simp only [sendRequestToOrigin, hforward]
  rfl

/-- **When a call comes to an end.**  Against remote hosts whose connections all succeed, the loop stops
exactly when some reply is no redirect: it does not have the text of a 302 status line, or names no host, or
names one that the request cannot be rewritten for. -/
theorem sendRequestToOrigin_ends_iff (hport : stoi h.remotePort = .ok port)
    (hforward : originRequest h.originalUriPrefix request remoteUri = .ok forwarded)
    (hsuccess : ∀ k, (net k).Connects port ∧ (net k).writes) :
    (∃ fuel r, sendRequestToOrigin fuel net h request remoteUri = some r) ↔
      ¬ Endless port forwarded.rawRequest net h.remoteHost := by
  rw [exists_comm]
  simp only [sendRequestToOrigin_eq_some_iff hforward]
  constructor
  · intro hends hendless
    obtain ⟨r, hreturns⟩ := hends
    exact not_returns_of_endless hport hsuccess hendless r hreturns
  · intro hnot
    by_contra hnever
    exact hnot (endless_of_not_returns hport fun r hreturns => hnever ⟨r, hreturns⟩)

end Call

/-- The second reply is no redirect. -/
theorem sendRequestToOrigin_ends_iff_twice :
    ∃ fuel r, sendRequestToOrigin fuel redirecting ⟨bytes "/p", bytes "localhost", bytes "80"⟩
      (getRequest (bytes "/p/x") [(bytes "Host", bytes "a")]) (bytes "/p/x") = some r := by
  have hsuccess : ∀ k, (redirecting k).Connects 80 ∧ (redirecting k).writes :=
    fun _ => ⟨⟨rfl, Bool.false_ne_true, fun h => absurd h (by decide)⟩, rfl⟩
  have hforward : ∃ forwarded, originRequest (bytes "/p") (getRequest (bytes "/p/x") [(bytes "Host", bytes "a")])
      (bytes "/p/x") = .ok forwarded := ⟨_, rfl⟩
  obtain ⟨forwarded, hforward⟩ := hforward
  apply (@sendRequestToOrigin_ends_iff ⟨bytes "/p", bytes "localhost", bytes "80"⟩ _ forwarded _ redirecting 80
    (by decide) hforward hsuccess).mpr
  intro hendless
  exact find_eq_none_iff.mp (by decide) (hendless.2 1).1

/-- A remote host that always redirects keeps the proxy in the loop. -/
theorem sendRequestToOrigin_never_ends :
    ¬ ∃ fuel r, sendRequestToOrigin fuel
      (answering (bytes "HTTP/1.1 302 Found\r\nLocation: http://www.b/\r\n\r\n"))
      ⟨bytes "/p", bytes "localhost", bytes "80"⟩ (getRequest (bytes "/p/x") [(bytes "Host", bytes "a")])
      (bytes "/p/x") = some r := by
  have hforward : originRequest (bytes "/p") (getRequest (bytes "/p/x") [(bytes "Host", bytes "a")])
      (bytes "/p/x") = .ok { getRequest (bytes "/p/x") [(bytes "Host", bytes "a")] with
        uri := bytes "/x", rawRequest := bytes "GET /x HTTP/1.0\r\nHost: a\r\n\r\n" } := by rfl
  have hredirect : IsRedirect (bytes "HTTP/1.1 302 Found\r\nLocation: http://www.b/\r\n\r\n") :=
    find_ne_npos_iff.mp (by decide)
  have hnamed : RedirectsTo (bytes "HTTP/1.1 302 Found\r\nLocation: http://www.b/\r\n\r\n") (bytes "www.b") :=
    redirectHost_eq_ok_iff.mp (by decide)
  have hendless : Endless 80 (bytes "GET /x HTTP/1.0\r\nHost: a\r\n\r\n")
      (answering (bytes "HTTP/1.1 302 Found\r\nLocation: http://www.b/\r\n\r\n")) (bytes "localhost") :=
    ⟨remoteRequest_isOk_iff.mp ⟨_, rfl⟩,
      fun _ => ⟨hredirect, bytes "www.b", hnamed, remoteRequest_isOk_iff.mp ⟨_, rfl⟩⟩⟩
  intro hends
  obtain ⟨fuel, r, hr⟩ := hends
  have hreturns := (sendRequestToOrigin_eq_some_iff hforward).mp ⟨fuel, hr⟩
  exact @not_returns_of_endless (bytes "80") _ _ 80 _ (by decide)
    (fun _ => ⟨⟨rfl, Bool.false_ne_true, fun h => absurd h (by decide)⟩, rfl⟩) hendless r hreturns

end Webserver.ReverseProxy
