import Mathlib.Data.List.DropRight
import Webserver.Http.BodyFraming
import Webserver.Http.StatusLine
import Webserver.ReverseProxy.ProxyState

/-!
# The redirects that are followed

The loop takes a reply for a redirect when a text occurs in it, and takes the next host from the first
`www` behind the first `Location`.  HTTP has a status line and a header for the two.

* `locationHost` — the host in the `Location` header of a reply.
* `FollowsRedirect` — a turn that follows exactly the redirects, to where they say.
* `followsRedirect_iff` — which replies are treated so.
-/

namespace Webserver.ReverseProxy

open BoundedLoop ByteString CxxString Http LineEdit Numeral Server

/-! ### The `Location` header -/

/-- The lines of a text, each without its end. -/
def linesOf : Bytes → List Bytes
  | [] => [[]]
  | [c] => [[c]]
  | c :: d :: s =>
    if c = byte '\r' ∧ d = byte '\n' then [] :: linesOf s
    else
      match linesOf (d :: s) with
      | [] => [[c]]
      | line :: lines => (c :: line) :: lines

/-- The lines between the status line and the first empty line. -/
def headerLinesOf (reply : Bytes) : List Bytes := ((linesOf reply).drop 1).takeWhile (· ≠ [])

/-- The name in front of the colon, without regard to letter case. -/
def isLocation (line : Bytes) : Bool :=
  (takeCount (findFirstOf (bytes ":") line) line).map toLower = bytes "location"

def isBlank (b : Byte) : Bool := b = byte ' ' ∨ b = byte '\t'

/-- The value behind the colon, without the blanks around it. -/
def valueOf (line : Bytes) : Bytes :=
  (((line.dropWhile (· ≠ byte ':')).drop 1).dropWhile isBlank).rdropWhile isBlank

/-- The value of the first `Location` header. -/
def locationValue (reply : Bytes) : Option Bytes := ((headerLinesOf reply).find? isLocation).map valueOf

/-- The authority of a URL that has one: what stands between `//` and the path. -/
def authorityOf (url : Bytes) : Option Bytes :=
  let scheme := takeCount (findFirstOf (bytes ":/?#") url) url
  let rest := url.drop scheme.length
  if (bytes "//").isPrefixOf url then some (takeCount (findFirstOf (bytes "/?#") (url.drop 2)) (url.drop 2))
  else if scheme ≠ [] ∧ (bytes "://").isPrefixOf rest then
    some (takeCount (findFirstOf (bytes "/?#") (rest.drop 3)) (rest.drop 3))
  else none

/-- The host in an authority, without user information and port. -/
def hostOf (authority : Bytes) : Bytes := (authority.rtakeWhile (· ≠ byte '@')).takeWhile (· ≠ byte ':')

/-- The host part of a URL. -/
def hostPart (url : Bytes) : Option Bytes :=
  (authorityOf url).bind fun authority => if hostOf authority = [] then none else some (hostOf authority)

/-- **The host that a reply redirects to.** -/
def locationHost (reply : Bytes) : Option Bytes := (locationValue reply).bind hostPart

example : locationHost (bytes "HTTP/1.0 302 Found\r\nlocation: http://u@www.a.b:80/c?d\r\n\r\n") =
    some (bytes "www.a.b") := by
  decide

/-- A host has no slash in it. -/
theorem slash_notMem_hostPart {url host : Bytes} (h : hostPart url = some host) : byte '/' ∉ host := by
  have hcut (s : Bytes) : byte '/' ∉ takeCount (findFirstOf (bytes "/?#") s) s := by
    rw [takeCount_findFirstOf]
    intro hmem
    have hnot := List.mem_takeWhile_imp hmem
    exact absurd hnot (by decide)
  obtain ⟨authority, hauthority, hhost⟩ := Option.bind_eq_some_iff.mp h
  have hslash : byte '/' ∉ authority := by
    simp only [authorityOf] at hauthority
    split_ifs at hauthority
    · rw [← Option.some.inj hauthority]
      exact hcut _
    · rw [← Option.some.inj hauthority]
      exact hcut _
  split_ifs at hhost
  rw [← Option.some.inj hhost]
  intro hmem
  exact hslash ((List.rtakeWhile_suffix _ _).subset ((List.takeWhile_prefix _).subset hmem))

theorem slash_notMem_locationHost {reply host : Bytes} (h : locationHost reply = some host) :
    byte '/' ∉ host := by
  obtain ⟨url, -, hhost⟩ := Option.bind_eq_some_iff.mp h
  exact slash_notMem_hostPart hhost

/-! ### The host that the code finds -/

/-- The first `www` behind the first `Location` starts a copy of the host, up to a slash or the end of the
reply. -/
def NamedFirst (reply host : Bytes) : Prop :=
  ∃ a b c d, FirstAt (bytes "Location") reply a b ∧ FirstAt (bytes "www") b c d ∧
    (bytes "www" ++ d = host ∨ host ++ bytes "/" <+: bytes "www" ++ d)

theorem takeWhile_eq_iff {host s : Bytes} (hslash : byte '/' ∉ host) :
    s.takeWhile (· ≠ byte '/') = host ↔ s = host ∨ host ++ bytes "/" <+: s := by
  constructor
  · intro h
    have hsplit := List.takeWhile_append_dropWhile (p := (· ≠ byte '/')) (l := s)
    cases hrest : s.dropWhile (· ≠ byte '/') with
    | nil =>
      rw [h, hrest, List.append_nil] at hsplit
      exact .inl hsplit.symm
    | cons c rest =>
      have hc := dropWhile_head? (· ≠ byte '/') s c (by rw [hrest]; rfl)
      obtain rfl : c = byte '/' := not_not.mp (of_decide_eq_false hc)
      rw [h, hrest] at hsplit
      exact .inr ⟨rest, by rw [← hsplit, List.append_assoc]; rfl⟩
  · intro h
    rcases h with rfl | ⟨rest, rfl⟩
    · exact takeWhile_ne_eq_self_iff.mpr hslash
    · rw [List.append_assoc, takeWhile_ne_append_of_notMem hslash]
      show host ++ (byte '/' :: rest).takeWhile _ = host
      rw [List.takeWhile_cons_of_neg (by simp), List.append_nil]

theorem redirectsTo_iff_namedFirst {reply host : Bytes} (hslash : byte '/' ∉ host) :
    RedirectsTo reply host ↔ NamedFirst reply host := by
  constructor
  · intro h
    obtain ⟨a, b, c, d, hab, hcd, hhost⟩ := h
    exact ⟨a, b, c, d, hab, hcd, (takeWhile_eq_iff hslash).mp hhost.symm⟩
  · intro h
    obtain ⟨a, b, c, d, hab, hcd, hhost⟩ := h
    exact ⟨a, b, c, d, hab, hcd, ((takeWhile_eq_iff hslash).mpr hhost).symm⟩

/-! ### One turn -/

/-- The last read has ended as is expected, so the reply is complete. -/
def Round.Complete (round : Round) : Prop := round.ec = 2 ∨ round.ec = 0 ∨ round.ec = 335544539

/-- **The turn follows exactly the redirects**: after a reply with the code 302 the loop goes on with the
host of the `Location` header, and any other reply is returned unchanged. -/
def FollowsRedirect (remotePort text : Bytes) (net : ℕ → Round) (s : Sending) : Prop :=
  (StatusLine (net s.round).reply .movedTemporarily → ∃ host s', locationHost (net s.round).reply = some host ∧
    originBody remotePort text net s = .inl s' ∧ s'.remoteHost = host) ∧
  (¬ StatusLine (net s.round).reply .movedTemporarily → ∃ s', originBody remotePort text net s =
    .inr (s', .ok (net s.round).reply))

section Turn

variable {remotePort text : Bytes} {net : ℕ → Round} {port : ℤ} {s : Sending}

/-- A turn whose reply is taken for an answer. -/
theorem originBody_answered (hport : stoi remotePort = .ok port) (hconnects : (net s.round).Connects port)
    (hrewrite : Rewritable port s.remoteHost text) (hwrites : (net s.round).writes)
    (hcomplete : (net s.round).Complete) :
    (∃ s', originBody remotePort text net s = .inr (s', .ok (net s.round).reply)) ↔
      ¬ IsRedirect (net s.round).reply := by
  obtain ⟨written, hwritten⟩ := remoteRequest_isOk_iff.mpr hrewrite
  rw [originBody_of_connects hport hconnects hwritten, if_pos hwrites]
  by_cases hredirect : IsRedirect (net s.round).reply
  · rw [if_pos (find_ne_npos_iff.mpr hredirect)]
    refine iff_of_false ?_ (fun h => h hredirect)
    intro h
    obtain ⟨s', h⟩ := h
    cases hhost : redirectHost (net s.round).reply with
    | error e => rw [hhost] at h; cases h
    | ok host => rw [hhost] at h; cases h
  · have hfinal : finalReply (net s.round) = (net s.round).reply := if_pos hcomplete
    rw [if_neg (mt find_ne_npos_iff.mp hredirect), hfinal]
    exact iff_of_true ⟨_, rfl⟩ hredirect

/-- **Which replies are treated so.**  The text of a 302 status line occurs in the reply exactly when its
status line has that code, and then the first `www` behind the first `Location` starts a copy of the host of
the `Location` header, up to a slash or the end of the reply. -/
theorem followsRedirect_iff (hport : stoi remotePort = .ok port) (hconnects : (net s.round).Connects port)
    (hrewrite : Rewritable port s.remoteHost text) (hwrites : (net s.round).writes)
    (hcomplete : (net s.round).Complete) :
    FollowsRedirect remotePort text net s ↔
      (IsRedirect (net s.round).reply ↔ StatusLine (net s.round).reply .movedTemporarily) ∧
      (StatusLine (net s.round).reply .movedTemporarily → ∃ host, locationHost (net s.round).reply = some host ∧
        NamedFirst (net s.round).reply host) := by
  have hanswered := originBody_answered hport hconnects hrewrite hwrites hcomplete
  obtain ⟨written, hwritten⟩ := remoteRequest_isOk_iff.mpr hrewrite
  by_cases hstatus : StatusLine (net s.round).reply .movedTemporarily
  · have hfollows : FollowsRedirect remotePort text net s ↔ ∃ host s',
        locationHost (net s.round).reply = some host ∧ originBody remotePort text net s = .inl s' ∧
          s'.remoteHost = host :=
      ⟨fun h => h.1 hstatus, fun h => ⟨fun _ => h, fun hnot => absurd hstatus hnot⟩⟩
    rw [hfollows]
    constructor
    · intro h
      obtain ⟨host, s', hhost, hbody, rfl⟩ := h
      obtain ⟨-, -, hredirect, hnamed, -⟩ := (originBody_inl_iff hport).mp hbody
      refine ⟨iff_of_true hredirect hstatus, fun _ => ⟨s'.remoteHost, hhost, ?_⟩⟩
      exact (redirectsTo_iff_namedFirst (slash_notMem_locationHost hhost)).mp hnamed
    · intro h
      obtain ⟨hiff, hnamed⟩ := h
      obtain ⟨host, hhost, hfirst⟩ := hnamed hstatus
      have hnamed := (redirectsTo_iff_namedFirst (slash_notMem_locationHost hhost)).mpr hfirst
      refine ⟨host, ⟨host, s.round + 1, s.sent ++ [(s.remoteHost, written)]⟩, hhost, ?_, rfl⟩
      exact (originBody_inl_iff hport).mpr
        ⟨hconnects, hwrites, hiff.mpr hstatus, hnamed, rfl, written, hwritten, rfl⟩
  · have hfollows : FollowsRedirect remotePort text net s ↔ ∃ s', originBody remotePort text net s =
        .inr (s', .ok (net s.round).reply) :=
      ⟨fun h => h.2 hstatus, fun h => ⟨fun h302 => absurd h302 hstatus, fun _ => h⟩⟩
    rw [hfollows, hanswered]
    constructor
    · intro hnot
      exact ⟨iff_of_false hnot hstatus, fun h302 => absurd h302 hstatus⟩
    · intro h
      exact mt h.1.mp hstatus

end Turn

/-- A request for a remote host, in the loop of a handler on port 80. -/
def asking : Bytes := bytes "GET / HTTP/1.0\r\nHost: a\r\n\r\n"

theorem followsRedirect_iff_www : FollowsRedirect (bytes "80") asking
    (answering (bytes "HTTP/1.1 302 Found\r\nLocation: http://www.b/c\r\n\r\n")) ⟨bytes "a", 0, []⟩ := by
  have hconnects : (answering (bytes "HTTP/1.1 302 Found\r\nLocation: http://www.b/c\r\n\r\n") 0).Connects 80 :=
    ⟨rfl, Bool.false_ne_true, fun h => absurd h (by decide)⟩
  have hrewrite : Rewritable 80 (bytes "a") asking := remoteRequest_isOk_iff.mp ⟨_, rfl⟩
  have hstatus : StatusLine (bytes "HTTP/1.1 302 Found\r\nLocation: http://www.b/c\r\n\r\n") .movedTemporarily :=
    ⟨bytes "HTTP/1.1", bytes "302", bytes " Found\r\nLocation: http://www.b/c\r\n\r\n", rfl,
      ⟨bytes "1", bytes "1", rfl, ⟨by decide, by decide⟩, by decide, by decide⟩,
      ⟨by decide, by decide, by decide⟩, by decide⟩
  have hnamed : NamedFirst (bytes "HTTP/1.1 302 Found\r\nLocation: http://www.b/c\r\n\r\n") (bytes "www.b") :=
    (redirectsTo_iff_namedFirst (by decide)).mp (redirectHost_eq_ok_iff.mp (by decide))
  apply (followsRedirect_iff (by decide) hconnects hrewrite rfl (.inl rfl)).mpr
  exact ⟨iff_of_true (find_ne_npos_iff.mp (by decide)) hstatus, fun _ => ⟨bytes "www.b", by decide, hnamed⟩⟩

/-- A reply with the code 200 whose body has the text is followed. -/
theorem followed_without_redirect :
    originBody (bytes "80") asking (answering (bytes "HTTP/1.1 200 OK\r\n\r\nHTTP/1.1 302 Found Location www.b/"))
        ⟨bytes "a", 0, []⟩ = .inl ⟨bytes "www.b", 1, [(bytes "a", asking)]⟩ ∧
      ¬ FollowsRedirect (bytes "80") asking
        (answering (bytes "HTTP/1.1 200 OK\r\n\r\nHTTP/1.1 302 Found Location www.b/")) ⟨bytes "a", 0, []⟩ := by
  have hbody : originBody (bytes "80") asking
      (answering (bytes "HTTP/1.1 200 OK\r\n\r\nHTTP/1.1 302 Found Location www.b/")) ⟨bytes "a", 0, []⟩ =
        .inl ⟨bytes "www.b", 1, [(bytes "a", asking)]⟩ := by rfl
  refine ⟨hbody, ?_⟩
  intro hfollows
  have hstatus : StatusLine (bytes "HTTP/1.1 200 OK\r\n\r\nHTTP/1.1 302 Found Location www.b/") .ok :=
    ⟨bytes "HTTP/1.1", bytes "200", bytes " OK\r\n\r\nHTTP/1.1 302 Found Location www.b/", rfl,
      ⟨bytes "1", bytes "1", rfl, ⟨by decide, by decide⟩, by decide, by decide⟩,
      ⟨by decide, by decide, by decide⟩, by decide⟩
  obtain ⟨s', hanswered⟩ := hfollows.2 fun h302 => absurd (h302.unique hstatus) (by decide)
  rw [hbody] at hanswered
  cases hanswered

end Webserver.ReverseProxy
