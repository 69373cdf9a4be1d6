import Webserver.ReverseProxy.ForwardedUri

/-!
# Exceptions of the proxy

Which exceptions of the standard library leave `ReverseProxyHandler::HandleRequest`.  The port is
converted in every turn of the loop, and the positions that `replace` and `substr` get are results of
searches: the word `Host` in the request, on port 443 the word `HTTP/1` after the two other edits, and
`Location` and `www` in a redirect.

* `remoteRequest_isOk_iff`, `redirectHost_eq_ok_iff` — when the two helpers return.
* `turnResult_originBody` — the six ways in which one turn of the loop ends.
* `originBody_stdError_iff` — when a turn raises an exception.
* `handleRequest_noException_iff` — a whole call, for every network.
-/

namespace Webserver.ReverseProxy

open BoundedLoop ByteString CxxString Http LineEdit Numeral Server

/-! ### The text that is written -/

/-- The pattern occurs outside of the part from the first `word` to the end of its line. -/
def OccursOutside (pat word s : Bytes) : Prop :=
  ∃ a b line rest, FirstAt word s a b ∧ IsLine (bytes "\r\n") (word ++ b) line rest ∧
    (pat <:+: a ∨ pat <:+: rest)

/-- `HTTP/1` occurs, and not only in the part of a line that the first `Connection` starts. -/
def VersionLeft (s : Bytes) : Prop :=
  ¬ bytes "Connection" <:+: s ∧ bytes "HTTP/1" <:+: s ∨ OccursOutside (bytes "HTTP/1") (bytes "Connection") s

/-- **`s` names the remote host**: it is the text with another end of the line that the first `Host` is
in. -/
def NamesHost (remoteHost text s : Bytes) : Prop :=
  ∃ a b line rest, FirstAt (bytes "Host") text a b ∧ IsLine (bytes "\r\n") (bytes "Host" ++ b) line rest ∧
    s = a ++ (bytes "Host: " ++ remoteHost) ++ rest

theorem head?_rest {s line rest : Bytes} (h : IsLine (bytes "\r\n") s line rest) :
    ∀ c ∈ rest.head?, c = byte '\r' := by
  intro c hc
  rcases h.rest_cases with ⟨rfl, -⟩ | ⟨t, rfl, -⟩
  · cases hc
  · exact (Option.some.inj hc).symm

/-- The new `Connection` line neither has nor makes an occurrence of `HTTP/1`. -/
theorem http_infix_connection_iff {a s line rest : Bytes} (hline : IsLine (bytes "\r\n") s line rest) :
    bytes "HTTP/1" <:+: a ++ bytes "Connection: close" ++ rest ↔
      bytes "HTTP/1" <:+: a ∨ bytes "HTTP/1" <:+: rest := by
  have hrest : ∀ c ∈ rest.head?, c ∉ (bytes "HTTP/1").tail := by
    intro c hc
    rw [head?_rest hline c hc]
    decide
  have hconnection : ∀ c ∈ (bytes "Connection: close").head?, c ∉ (bytes "HTTP/1").tail := by decide
  have hnot : ¬ bytes "HTTP/1" <:+: bytes "Connection: close" := find_eq_none_iff.mp (by decide)
  rw [infix_append_iff hrest, infix_append_iff hconnection, or_iff_left hnot]

theorem closeConnection_of_absent {s : Bytes} (h : ¬ bytes "Connection" <:+: s) :
    closeConnection s = .ok s := by
  rw [closeConnection, find_eq_none_iff.mpr h]
  rfl

theorem closeConnection_of_firstAt {s a b line rest : Bytes} (h : FirstAt (bytes "Connection") s a b)
    (hline : IsLine (bytes "\r\n") (bytes "Connection" ++ b) line rest) :
    closeConnection s = .ok (a ++ bytes "Connection: close" ++ rest) := by
  rw [closeConnection, h.find]
  show (if some a.length ≠ none then replaceLine _ _ _ s else Except.ok s) = _
  rw [if_pos (Option.some_ne_none _), replaceLine_eq h hline]

/-- The edits that are only made on port 443. -/
theorem setVersion_isOk_iff {s : Bytes} :
    (∃ s', (closeConnection s >>= replaceLine (bytes "\r\n") (bytes "HTTP/1") (bytes "HTTP/1.0")) = .ok s') ↔
      VersionLeft s := by
  by_cases hconnection : bytes "Connection" <:+: s
  · obtain ⟨a, b, hab⟩ := exists_firstAt hconnection
    obtain ⟨line, rest, hline⟩ := exists_isLine (bytes "\r\n") (bytes "Connection" ++ b)
    rw [closeConnection_of_firstAt hab hline, ok_bind, replaceLine_isOk_iff,
      http_infix_connection_iff hline]
    constructor
    · intro h
      exact .inr ⟨a, b, line, rest, hab, hline, h⟩
    · intro h
      rcases h with h | ⟨a', b', line', rest', hab', hline', h⟩
      · exact absurd hconnection h.1
      · obtain ⟨rfl, rfl⟩ := hab.unique hab'
        obtain ⟨-, rfl⟩ := hline.unique hline'
        exact h
  · rw [closeConnection_of_absent hconnection, ok_bind, replaceLine_isOk_iff]
    constructor
    · intro h
      exact .inl ⟨hconnection, h⟩
    · intro h
      rcases h with h | ⟨a, b, -, -, hab, -⟩
      · exact h.2
      · exact absurd ⟨a, b, hab.split.symm⟩ hconnection

/-- **When the text can be made.** -/
theorem remoteRequest_isOk_iff {port : ℤ} {remoteHost text : Bytes} :
    (∃ text', remoteRequest port remoteHost text = .ok text') ↔
      ∃ s, NamesHost remoteHost text s ∧ (port = 443 → VersionLeft s) := by
  by_cases hhost : bytes "Host" <:+: text
  · obtain ⟨a, b, hab⟩ := exists_firstAt hhost
    obtain ⟨line, rest, hline⟩ := exists_isLine (bytes "\r\n") (bytes "Host" ++ b)
    have hnames : ∀ s, NamesHost remoteHost text s ↔ s = a ++ (bytes "Host: " ++ remoteHost) ++ rest := by
      intro s
      constructor
      · intro h
        obtain ⟨a', b', line', rest', hab', hline', rfl⟩ := h
        obtain ⟨rfl, rfl⟩ := hab.unique hab'
        obtain ⟨-, rfl⟩ := hline.unique hline'
        rfl
      · intro h
        exact ⟨a, b, line, rest, hab, hline, h⟩
    rw [remoteRequest, replaceLine_eq hab hline, ok_bind]
    simp only [hnames, exists_eq_left]
    by_cases hport : port = 443
    · rw [if_pos hport, ← setVersion_isOk_iff]
      exact ⟨fun h _ => h, fun h => h hport⟩
    · rw [if_neg hport]
      exact iff_of_true ⟨_, rfl⟩ (fun h => absurd h hport)
  · refine iff_of_false ?_ ?_
    · rw [remoteRequest, replaceLine_of_absent hhost]
      exact fun ⟨_, h⟩ => by cases h
    · intro h
      obtain ⟨s, ⟨a, b, -, -, hab, -⟩, -⟩ := h
      exact hhost ⟨a, b, hab.split.symm⟩

/-! ### Redirects -/

def IsRedirect (reply : Bytes) : Prop := bytes "HTTP/1.1 302 Found" <:+: reply

/-- **The host a redirect names**: what starts with the first `www` behind the first `Location`, up to a
slash. -/
def RedirectsTo (reply host : Bytes) : Prop :=
  ∃ a b c d, FirstAt (bytes "Location") reply a b ∧ FirstAt (bytes "www") b c d ∧
    host = (bytes "www" ++ d).takeWhile (· ≠ byte '/')

theorem redirectHost_eq_ok_iff {reply host : Bytes} :
    redirectHost reply = .ok host ↔ RedirectsTo reply host := by
  by_cases hlocation : bytes "Location" <:+: reply
  swap
  · refine iff_of_false ?_ ?_
    · rw [redirectHost, find_eq_none_iff.mpr hlocation]
      exact fun h => by cases h
    · intro h
      obtain ⟨a, b, -, -, hab, -⟩ := h
      exact hlocation ⟨a, b, hab.split.symm⟩
  obtain ⟨a, b, hab⟩ := exists_firstAt hlocation
  have hreply : reply = a ++ (bytes "Location" ++ b) := by rw [hab.split, List.append_assoc]
  have hletters : ∀ x ∈ bytes "Location", x ∉ bytes "www" := by decide
  by_cases hwww : bytes "www" <:+: b
  · obtain ⟨c, d, hcd⟩ := exists_firstAt hwww
    have hcd' := hcd.append_left (by decide) hletters
    have hreply' : reply = a ++ (bytes "Location" ++ c) ++ (bytes "www" ++ d) := by
      rw [hreply, hcd'.split]
      simp only [List.append_assoc]
    have hwww' : findFrom (bytes "www") reply (some a.length) =
        some (a ++ (bytes "Location" ++ c)).length := by
      rw [hreply, findFrom_append, hcd'.find]
      exact congrArg some ((Nat.add_comm _ _).trans List.length_append.symm)
    have hcut : redirectHost reply = .ok ((bytes "www" ++ d).takeWhile (· ≠ byte '/')) := by
      show substr reply (findFrom (bytes "www") reply (find (bytes "Location") reply)) (Pos.sub
        (findFrom (bytes "/") reply (findFrom (bytes "www") reply (find (bytes "Location") reply)))
        (findFrom (bytes "www") reply (find (bytes "Location") reply))) = _
      rw [hab.find, hwww', hreply', findFrom_append, Pos.sub_map_add,
        substr_of_le (List.prefix_append _ _).length_le, List.drop_left]
      exact congrArg _ (takeCount_find (byte '/') _)
    rw [hcut, Except.ok.injEq]
    constructor
    · intro h
      exact ⟨a, b, c, d, hab, hcd, h.symm⟩
    · intro h
      obtain ⟨a', b', c', d', hab', hcd', rfl⟩ := h
      obtain ⟨rfl, rfl⟩ := hab.unique hab'
      obtain ⟨rfl, rfl⟩ := hcd.unique hcd'
      rfl
  · refine iff_of_false ?_ ?_
    · have hnone : findFrom (bytes "www") reply (some a.length) = none := by
        rw [hreply, findFrom_append, find_eq_none_iff.mpr]
        · rfl
        · rwa [infix_append_right_iff (by decide) hletters]
      rw [redirectHost, hab.find, hnone]
      exact fun h => by cases h
    · intro h
      obtain ⟨a', b', c, d, hab', hcd, -⟩ := h
      obtain ⟨rfl, rfl⟩ := hab.unique hab'
      exact hwww ⟨c, d, hcd.split.symm⟩

/-! ### One turn of the loop -/

/-- The remote host is found and reached, on port 443 with a handshake. -/
def Round.Connects (port : ℤ) (round : Round) : Prop :=
  round.resolves ∧ ¬ round.notFound ∧ (port = 443 → round.handshake)

theorem connect_eq_none_iff {port : ℤ} {round : Round} : connect port round = none ↔ round.Connects port := by
  rw [connect, Round.Connects]
  split_ifs with hresolves hfound hhandshake
  · exact iff_of_false (fun h => by cases h) (fun h => h.2.1 hfound)
  · exact iff_of_false (fun h => by cases h) (fun h => hhandshake.2 (h.2.2 hhandshake.1))
  · refine iff_of_true rfl ⟨hresolves, hfound, ?_⟩
    intro hport
    by_contra hnot
    exact hhandshake ⟨hport, hnot⟩
  · exact iff_of_false (fun h => by cases h) (fun h => hresolves h.1)

/-- What ends a turn before a text is made is not an exception of the standard library. -/
theorem connect_ne_stdError {port : ℤ} {round : Round} (e : StdException) :
    connect port round ≠ some (.error (.std e)) := by
  rw [connect]
  split_ifs <;> intro h <;> cases h

/-- **What a turn needs** to raise no exception: a `Host` to replace, on port 443 a version, and a redirect
that names a host. -/
structure RoundSafe (port : ℤ) (remoteHost text : Bytes) (round : Round) : Prop where
  rewrite : ∃ s, NamesHost remoteHost text s ∧ (port = 443 → VersionLeft s)
  redirect : round.writes → IsRedirect round.reply → ∃ host, RedirectsTo round.reply host

section Loop

variable {remotePort text : Bytes} {net : ℕ → Round} {port : ℤ} {s : Sending}

/-- A turn that is connected. -/
theorem originBody_of_connects (hport : stoi remotePort = .ok port) (hconnects : (net s.round).Connects port)
    {written : Bytes} (hwritten : remoteRequest port s.remoteHost text = .ok written) :
    originBody remotePort text net s =
      if (net s.round).writes then
        if find (bytes "HTTP/1.1 302 Found") (net s.round).reply ≠ npos then
          match redirectHost (net s.round).reply with
          | .error e => .inr ({ s with sent := s.sent ++ [(s.remoteHost, written)] }, .error (.std e))
          | .ok host => .inl ⟨host, s.round + 1, s.sent ++ [(s.remoteHost, written)]⟩
        else .inr ({ s with sent := s.sent ++ [(s.remoteHost, written)] }, .ok (finalReply (net s.round)))
      else .inr (s, .error .system) := by
  have hconnected := connect_eq_none_iff.mpr hconnects
  cases hhost : redirectHost (net s.round).reply with
  | error e => simp only [originBody, hport, hconnected, hwritten, hhost]
  | ok host => simp only [originBody, hport, hconnected, hwritten, hhost]

theorem find_ne_npos_iff {pat s : Bytes} : find pat s ≠ npos ↔ pat <:+: s :=
  (not_congr find_eq_none_iff).trans not_not

/-- **What one turn does**, once there is a port: six ways in which it ends. -/
inductive TurnResult (port : ℤ) (text : Bytes) (round : Round) (s : Sending) :
    Sending ⊕ (Sending × Except Exn Bytes) → Prop
  | unconnected {result : Except Exn Bytes} (connection : connect port round = some result) :
      TurnResult port text round s (.inr (s, result))
  | unwritable {e : StdException} (connects : round.Connects port)
      (request : remoteRequest port s.remoteHost text = .error e) :
      TurnResult port text round s (.inr (s, .error (.std e)))
  | unwritten {written : Bytes} (connects : round.Connects port)
      (request : remoteRequest port s.remoteHost text = .ok written) (writes : ¬ round.writes) :
      TurnResult port text round s (.inr (s, .error .system))
  | lost {written : Bytes} {e : StdException} (connects : round.Connects port)
      (request : remoteRequest port s.remoteHost text = .ok written) (writes : round.writes)
      (redirect : IsRedirect round.reply) (named : redirectHost round.reply = .error e) :
      TurnResult port text round s
        (.inr ({ s with sent := s.sent ++ [(s.remoteHost, written)] }, .error (.std e)))
  | redirected {written host : Bytes} (connects : round.Connects port)
      (request : remoteRequest port s.remoteHost text = .ok written) (writes : round.writes)
      (redirect : IsRedirect round.reply) (named : redirectHost round.reply = .ok host) :
      TurnResult port text round s (.inl ⟨host, s.round + 1, s.sent ++ [(s.remoteHost, written)]⟩)
  | answered {written : Bytes} (connects : round.Connects port)
      (request : remoteRequest port s.remoteHost text = .ok written) (writes : round.writes)
      (redirect : ¬ IsRedirect round.reply) :
      TurnResult port text round s
        (.inr ({ s with sent := s.sent ++ [(s.remoteHost, written)] }, .ok (finalReply round)))

theorem turnResult_originBody (hport : stoi remotePort = .ok port) (text : Bytes) (net : ℕ → Round)
    (s : Sending) : TurnResult port text (net s.round) s (originBody remotePort text net s) := by
  by_cases hconnects : (net s.round).Connects port
  swap
  · obtain ⟨result, hresult⟩ := Option.ne_none_iff_exists'.mp (mt connect_eq_none_iff.mp hconnects)
    have hbody : originBody remotePort text net s = .inr (s, result) := by
      simp only [originBody, hport, hresult]
    rw [hbody]
    exact .unconnected hresult
  cases hwritten : remoteRequest port s.remoteHost text with
  | error e =>
    have hbody : originBody remotePort text net s = .inr (s, .error (.std e)) := by
      simp only [originBody, hport, connect_eq_none_iff.mpr hconnects, hwritten]
    rw [hbody]
    exact .unwritable hconnects hwritten
  | ok written =>
    rw [originBody_of_connects hport hconnects hwritten]
    by_cases hwrites : (net s.round).writes
    swap
    · rw [if_neg hwrites]
      exact .unwritten hconnects hwritten hwrites
    rw [if_pos hwrites]
    by_cases hredirect : IsRedirect (net s.round).reply
    swap
    · rw [if_neg (mt find_ne_npos_iff.mp hredirect)]
      exact .answered hconnects hwritten hwrites hredirect
    rw [if_pos (find_ne_npos_iff.mpr hredirect)]
    cases hhost : redirectHost (net s.round).reply with
    | error e => exact .lost hconnects hwritten hwrites hredirect hhost
    | ok host => exact .redirected hconnects hwritten hwrites hredirect hhost

/-- **One turn raises an exception** exactly when it is connected and lacks something it needs. -/
theorem originBody_stdError_iff (hport : stoi remotePort = .ok port) :
    (∃ s' e, originBody remotePort text net s = .inr (s', .error (.std e))) ↔
      (net s.round).Connects port ∧ ¬ RoundSafe port s.remoteHost text (net s.round) := by
  have hturn := turnResult_originBody hport text net s
  constructor
  · intro h
    obtain ⟨s', e, hbody⟩ := h
    rw [hbody] at hturn
    cases hturn with
    | unconnected connection => exact absurd connection (connect_ne_stdError e)
    | unwritable connects request =>
      refine ⟨connects, fun hsafe => ?_⟩
      obtain ⟨_, h⟩ := remoteRequest_isOk_iff.mpr hsafe.rewrite
      rw [request] at h
      cases h
    | lost connects request writes redirect named =>
      refine ⟨connects, fun hsafe => ?_⟩
      obtain ⟨host, h⟩ := hsafe.redirect writes redirect
      rw [redirectHost_eq_ok_iff.mpr h] at named
      cases named
  · intro h
    obtain ⟨hconnects, hunsafe⟩ := h
    generalize originBody remotePort text net s = b at hturn
    cases hturn with
    | unconnected connection =>
      rw [connect_eq_none_iff.mpr hconnects] at connection
      cases connection
    | unwritable connects request => exact ⟨s, _, rfl⟩
    | unwritten connects request writes =>
      exact absurd ⟨remoteRequest_isOk_iff.mp ⟨_, request⟩, fun h => absurd h writes⟩ hunsafe
    | lost connects request writes redirect named => exact ⟨_, _, rfl⟩
    | redirected connects request writes redirect named =>
      exact absurd ⟨remoteRequest_isOk_iff.mp ⟨_, request⟩,
        fun _ _ => ⟨_, redirectHost_eq_ok_iff.mp named⟩⟩ hunsafe
    | answered connects request writes redirect =>
      exact absurd ⟨remoteRequest_isOk_iff.mp ⟨_, request⟩, fun _ h => absurd h redirect⟩ hunsafe

/-- **A turn goes on** after a redirect, with the host that it names. -/
theorem originBody_inl_iff (hport : stoi remotePort = .ok port) {s' : Sending} :
    originBody remotePort text net s = .inl s' ↔
      (net s.round).Connects port ∧ (net s.round).writes ∧ IsRedirect (net s.round).reply ∧
      RedirectsTo (net s.round).reply s'.remoteHost ∧ s'.round = s.round + 1 ∧
      ∃ written, remoteRequest port s.remoteHost text = .ok written ∧
        s'.sent = s.sent ++ [(s.remoteHost, written)] := by
  constructor
  · intro hbody
    have hturn := turnResult_originBody hport text net s
    rw [hbody] at hturn
    cases hturn with
    | redirected connects request writes redirect named =>
      exact ⟨connects, writes, redirect, redirectHost_eq_ok_iff.mp named, rfl, _, request, rfl⟩
  · intro h
    obtain ⟨host, round, sent⟩ := s'
    obtain ⟨hconnects, hwrites, hredirect, hnamed, hround, written, hwritten, hsent⟩ := h
    obtain rfl : round = s.round + 1 := hround
    obtain rfl : sent = s.sent ++ [(s.remoteHost, written)] := hsent
    rw [originBody_of_connects hport hconnects hwritten, if_pos hwrites,
      if_pos (find_ne_npos_iff.mpr hredirect), redirectHost_eq_ok_iff.mpr hnamed]

/-- **A turn that leaves the loop** keeps the host, and writes at most one text, made for that host. -/
theorem originBody_inr (hport : stoi remotePort = .ok port) {s' : Sending} {result : Except Exn Bytes}
    (h : originBody remotePort text net s = .inr (s', result)) :
    s' = s ∨ ∃ written, remoteRequest port s.remoteHost text = .ok written ∧
      s' = { s with sent := s.sent ++ [(s.remoteHost, written)] } := by
  have hturn := turnResult_originBody hport text net s
  rw [h] at hturn
  cases hturn with
  | unconnected connection => exact .inl rfl
  | unwritable connects request => exact .inl rfl
  | unwritten connects request writes => exact .inl rfl
  | lost connects request writes redirect named => exact .inr ⟨_, request, rfl⟩
  | answered connects request writes redirect => exact .inr ⟨_, request, rfl⟩

/-! ### A whole call -/

/-- **The turns of a call**, each with the remote host it is made for: the next turn is made after a
redirect, for the host that it names. -/
inductive Turn (port : ℤ) (net : ℕ → Round) (remoteHost : Bytes) : ℕ → Bytes → Prop
  | first : Turn port net remoteHost 0 remoteHost
  | redirected {k : ℕ} {host host' : Bytes} (turn : Turn port net remoteHost k host)
      (connects : (net k).Connects port) (writes : (net k).writes) (redirect : IsRedirect (net k).reply)
      (named : RedirectsTo (net k).reply host') : Turn port net remoteHost (k + 1) host'

/-- The loop is at the head of a turn. -/
theorem turn_of_originBody (hport : stoi remotePort = .ok port) {remoteHost : Bytes} {s s' : Sending}
    (hturn : Turn port net remoteHost s.round s.remoteHost)
    (hbody : originBody remotePort text net s = .inl s') :
    Turn port net remoteHost s'.round s'.remoteHost := by
  obtain ⟨hconnects, hwrites, hredirect, hnamed, hround, -⟩ := (originBody_inl_iff hport).mp hbody
  rw [hround]
  exact .redirected hturn hconnects hwrites hredirect hnamed

/-- No exception of the standard library leaves the loop. -/
def NoException (remotePort text : Bytes) (net : ℕ → Round) (s : Sending) : Prop :=
  ∀ s' e, ¬ Returns (originBody remotePort text net) s (s', .error (.std e))

/-- A connected turn of a loop without exceptions has what it needs. -/
theorem NoException.roundSafe (h : NoException remotePort text net s) (hport : stoi remotePort = .ok port)
    (hconnects : (net s.round).Connects port) : RoundSafe port s.remoteHost text (net s.round) := by
  by_contra hnot
  obtain ⟨s', e, hbody⟩ := (originBody_stdError_iff hport).mpr ⟨hconnects, hnot⟩
  exact h s' e (returns_of_inr hbody)

/-- Every turn is reached by the loop. -/
theorem NoException.turn (hport : stoi remotePort = .ok port) {start : Sending} (hstart : start.round = 0)
    (h : NoException remotePort text net start) {k : ℕ} {host : Bytes}
    (hturn : Turn port net start.remoteHost k host) :
    ∃ s, s.round = k ∧ s.remoteHost = host ∧ NoException remotePort text net s := by
  induction hturn with
  | first => exact ⟨start, hstart, rfl, h⟩
  | @redirected k host host' _ hconnects hwrites hredirect hnamed ih =>
    obtain ⟨s, rfl, rfl, hs⟩ := ih
    obtain ⟨written, hwritten⟩ := remoteRequest_isOk_iff.mpr (hs.roundSafe hport hconnects).rewrite
    have hbody : originBody remotePort text net s =
        .inl ⟨host', s.round + 1, s.sent ++ [(s.remoteHost, written)]⟩ :=
      (originBody_inl_iff hport).mpr ⟨hconnects, hwrites, hredirect, hnamed, rfl, written, hwritten, rfl⟩
    refine ⟨⟨host', s.round + 1, s.sent ++ [(s.remoteHost, written)]⟩, rfl, rfl, ?_⟩
    intro s' e hreturns
    exact hs s' e ((returns_iff_of_inl hbody).mpr hreturns)

/-- **The loop raises no exception** if and only if the port is a number and every connected turn has what
it needs. -/
theorem noException_iff {start : Sending} (hstart : start.round = 0) :
    NoException remotePort text net start ↔ ∃ port, stoi remotePort = .ok port ∧
      ∀ k host, Turn port net start.remoteHost k host → (net k).Connects port →
        RoundSafe port host text (net k) := by
  constructor
  · intro h
    cases hport : stoi remotePort with
    | error e =>
      refine absurd (returns_of_inr ?_) (h start e)
      rw [originBody, hport]
    | ok port =>
      refine ⟨port, rfl, ?_⟩
      intro k host hturn hconnects
      obtain ⟨s, rfl, rfl, hs⟩ := h.turn hport hstart hturn
      exact hs.roundSafe hport hconnects
  · intro h s' e hreturns
    obtain ⟨port, hport, hsafe⟩ := h
    have h0 : Turn port net start.remoteHost start.round start.remoteHost := by
      rw [hstart]
      exact .first
    obtain ⟨t, hturn, hbody⟩ := hreturns.invariant
      (fun t => Turn port net start.remoteHost t.round t.remoteHost) h0
      fun t t' ht hb => turn_of_originBody hport ht hb
    obtain ⟨hconnects, hnot⟩ := (originBody_stdError_iff hport).mp ⟨s', e, hbody⟩
    exact hnot (hsafe _ _ hturn hconnects)

end Loop

/-- A call of `HandleRequest` raises what its loop raises. -/
theorem handleRequest_stdError_iff (h : ReverseProxyHandler) (net : ℕ → Round) (m : RequestText)
    (response : Response) (e : StdException) :
    (∃ fuel h', handleRequest fuel net h m.toRequest response = some (h', .error (.std e))) ↔
      ∃ s', Returns (originBody h.remotePort (m.forward h.originalUriPrefix).render net)
        (ReverseProxyHandler.start h) (s', .error (.std e)) := by
  have hsend : ∀ fuel, sendRequestToOrigin fuel net h m.toRequest m.uri =
      runLoop (originBody h.remotePort (m.forward h.originalUriPrefix).render net) fuel
        (ReverseProxyHandler.start h) := by
    intro fuel
    rw [sendRequestToOrigin, originRequest_toRequest]
  constructor
  · intro hraise
    obtain ⟨fuel, h', hraise⟩ := hraise
    obtain ⟨⟨s', result⟩, hloop, hresult⟩ := Option.bind_eq_some_iff.mp hraise
    obtain ⟨-, hrespond⟩ := Prod.mk.inj (Option.some.inj hresult)
    rw [respond_eq_error_iff] at hrespond
    exact ⟨s', fuel, by rw [← hsend, ← hrespond]; exact hloop⟩
  · intro hraise
    obtain ⟨s', fuel, hloop⟩ := hraise
    refine ⟨fuel, { h with remoteHost := s'.remoteHost }, Option.bind_eq_some_iff.mpr ?_⟩
    exact ⟨(s', .error (.std e)), by rw [← hloop]; exact hsend fuel, rfl⟩

/-- **When no request brings the proxy down.**  Whatever the handler was initialized with, for every
accepted request and everything the network does: no exception of the standard library leaves
`HandleRequest` if and only if the port is a number, and in every connected turn the request has a `Host`,
on port 443 a version that the other edits leave, and a redirect names a host. -/
theorem handleRequest_noException_iff {s : Bytes} {t : ThreadState} {r : Request}
    (hparse : parse ThreadState.fresh s = some (t, some r)) (h : ReverseProxyHandler) (net : ℕ → Round)
    (response : Response) :
    ∃ m : RequestText, r = m.toRequest ∧
      ((∀ fuel h' e, handleRequest fuel net h r response ≠ some (h', .error (.std e))) ↔
        ∃ port, stoi h.remotePort = .ok port ∧
          ∀ k host, Turn port net h.remoteHost k host → (net k).Connects port →
            RoundSafe port host (m.forward h.originalUriPrefix).render (net k)) := by
  obtain ⟨-, m, -, rfl⟩ := parse_fresh_good_iff.mp hparse
  refine ⟨m, rfl, ?_⟩
  have hloop : NoException h.remotePort (m.forward h.originalUriPrefix).render net
      (ReverseProxyHandler.start h) ↔ _ := noException_iff rfl
  refine Iff.trans ?_ hloop
  constructor
  · intro hnone s' e hreturns
    obtain ⟨fuel, h', hraise⟩ := (handleRequest_stdError_iff h net m response e).mpr ⟨s', hreturns⟩
    exact hnone fuel h' e hraise
  · intro hnone fuel h' e hraise
    obtain ⟨s', hreturns⟩ := (handleRequest_stdError_iff h net m response e).mp ⟨fuel, h', hraise⟩
    exact hnone s' e hreturns

/-- A network in which every turn reaches the remote host and gets the same reply. -/
def answering (reply : Bytes) (_ : ℕ) : Round := ⟨true, false, true, true, reply, 2⟩

/-- A request with a `Host`. -/
theorem handleRequest_noException_iff_host :
    ∃ m : RequestText, getRequest (bytes "/p/x") [(bytes "Host", bytes "a")] = m.toRequest ∧
      ((∀ fuel h' e, handleRequest fuel (answering (bytes "HTTP/1.0 200 OK\r\n\r\n"))
          ⟨bytes "/p", bytes "localhost", bytes "80"⟩ (getRequest (bytes "/p/x") [(bytes "Host", bytes "a")])
          Response.new ≠ some (h', .error (.std e))) ↔
        ∃ port, stoi (bytes "80") = .ok port ∧
          ∀ k host, Turn port (answering (bytes "HTTP/1.0 200 OK\r\n\r\n")) (bytes "localhost") k host →
            (answering (bytes "HTTP/1.0 200 OK\r\n\r\n") k).Connects port →
            RoundSafe port host (m.forward (bytes "/p")).render
              (answering (bytes "HTTP/1.0 200 OK\r\n\r\n") k)) := by
  have hparse : parse ThreadState.fresh (bytes "GET /p/x HTTP/1.0\r\nHost: a\r\n\r\n") =
      some (⟨.good, Request.fresh⟩, some (getRequest (bytes "/p/x") [(bytes "Host", bytes "a")])) := by decide
  exact handleRequest_noException_iff hparse _ _ _

/-- A request without a `Host`, which HTTP/1.0 does not ask for, ends in `std::out_of_range`. -/
theorem handleRequest_throws :
    ∃ config h s t r net fuel h', ReverseProxyHandler.init ⟨[], [], []⟩ (bytes "/p") config = (.ok, h) ∧
      parse ThreadState.fresh s = some (t, some r) ∧
      handleRequest fuel net h r Response.new = some (h', .error (.std .outOfRange)) :=
  ⟨⟨[⟨[bytes "remote_host", bytes "localhost"], none⟩, ⟨[bytes "remote_port", bytes "80"], none⟩]⟩,
    ⟨bytes "/p", bytes "localhost", bytes "80"⟩, bytes "GET /p/x HTTP/1.0\r\n\r\n", ⟨.good, Request.fresh⟩,
    getRequest (bytes "/p/x") [], answering [], 1, ⟨bytes "/p", bytes "localhost", bytes "80"⟩, by decide,
    by decide, by decide⟩

end Webserver.ReverseProxy
