import Webserver.Http.StatusLine
import Webserver.ReverseProxy.ProxyState

/-!
# The status of a forwarded reply

The proxy sends the reply of the remote host as it is, and takes the status of its own response from the
second token of the first line of the reply.  The status agrees with the line for two codes only.

* `forwards_iff` — which reply is forwarded, on the network alone.
* `statusLine_recorded_iff` — when the reply has a status line with the status.
-/

namespace Webserver.ReverseProxy

open BoundedLoop ByteString CxxString Http Numeral Server

/-! ### The second token of the first line -/

/-- The first line of a reply. -/
def firstLine (reply : Bytes) : Bytes := takeCount (findFirstOf (bytes "\r\n") reply) reply

def secondToken (reply : Bytes) : Option Bytes := (tokens (firstLine reply))[1]?

theorem tokens_append_space (a b : Bytes) : tokens (a ++ byte ' ' :: b) = tokens a ++ tokens b := by
  rw [tokens, List.splitOn_append_cons_self, List.filter_append]
  rfl

theorem tokens_word {w : Bytes} (hne : w ≠ []) (hw : byte ' ' ∉ w) : tokens w = [w] := by
  rw [tokens, List.splitOn_eq_singleton hw, List.filter_singleton]
  simp [hne]

theorem tokens_nil : tokens [] = [] := rfl

theorem tokens_word_append {w c : Bytes} (hne : w ≠ []) (hw : byte ' ' ∉ w) (hc : ∀ x ∈ c.head?, x = byte ' ') :
    tokens (w ++ c) = w :: tokens c := by
  cases c with
  | nil => rw [List.append_nil, tokens_word hne hw, tokens_nil]
  | cons x c =>
    obtain rfl := hc x rfl
    have hrest : tokens (byte ' ' :: c) = tokens c := tokens_append_space [] c
    rw [tokens_append_space, tokens_word hne hw, hrest]
    rfl

theorem firstLine_append {a : Bytes} (ha : ∀ b ∈ a, b ∉ bytes "\r\n") (s : Bytes) :
    firstLine (a ++ s) = a ++ firstLine s := by
  rw [firstLine, firstLine, takeCount_findFirstOf, takeCount_findFirstOf]
  exact List.takeWhile_append_of_pos fun b hb => decide_eq_true (ha b hb)

/-- The first line of a reply with a status line is cut into words by its first two spaces. -/
theorem firstLine_of_statusLine {reply : Bytes} {code : ResponseCode} (h : StatusLine reply code) :
    ∃ version digits rest, firstLine reply = version ++ byte ' ' :: (digits ++ rest) ∧ IsVersion version ∧
      IsCode digits code ∧ ∀ b ∈ rest.head?, b = byte ' ' := by
  obtain ⟨version, digits, rest, rfl, hversion, hcode, hrest⟩ := h
  have hends : ∀ b ∈ bytes "\r\n", b ∈ bytes " \r\n" := by decide
  have hfront : ∀ b ∈ version ++ byte ' ' :: digits, b ∉ bytes "\r\n" := by
    intro b hb hend
    rcases List.mem_append.mp hb with hb | hb
    · exact hversion.notMem (hends b hend) hb
    · rcases List.mem_cons.mp hb with hb | hb
      · rw [hb] at hend
        exact absurd hend (by decide)
      · exact hcode.notMem (hends b hend) hb
  refine ⟨version, digits, firstLine rest, ?_, hversion, hcode, ?_⟩
  · have hline := firstLine_append hfront rest
    rwa [List.append_assoc, List.append_assoc] at hline
  · intro b hb
    cases rest with
    | nil => cases hb
    | cons c rest =>
      rw [firstLine, takeCount_findFirstOf] at hb
      by_cases hend : c ∈ bytes "\r\n"
      · rw [List.takeWhile_cons_of_neg (by simpa using hend)] at hb
        cases hb
      · rw [List.takeWhile_cons_of_pos (by simpa using hend)] at hb
        obtain rfl := Option.some.inj hb
        have hc := hrest c rfl
        rw [show bytes " \r\n" = byte ' ' :: bytes "\r\n" from rfl, List.mem_cons] at hc
        exact hc.resolve_right hend

/-- **The second token of a status line** is its code. -/
theorem secondToken_of_statusLine {reply : Bytes} {code : ResponseCode} (h : StatusLine reply code) :
    ∃ digits, IsCode digits code ∧ secondToken reply = some digits := by
  obtain ⟨version, digits, rest, hline, hversion, hcode, hrest⟩ := firstLine_of_statusLine h
  have hspace : byte ' ' ∈ bytes " \r\n" := by decide
  have hdigits := tokens_word_append hcode.ne_nil (hcode.notMem hspace) hrest
  refine ⟨digits, hcode, ?_⟩
  rw [secondToken, hline, tokens_append_space, tokens_word hversion.ne_nil (hversion.notMem hspace), hdigits]
  rfl

/-! ### The status and the line -/

/-- The status that the response gets, by the second token of the reply. -/
def recordedStatus : Option Bytes → Option ResponseCode
  | none => none
  | some token =>
    if token = bytes "200" then some .ok
    else if token = bytes "302" then none
    else if token = bytes "404" then some .notFound
    else if token = bytes "500" then some .notFound
    else some .internalServerError

theorem setRemoteStatus_status {reply code : Bytes} (h : getRemoteResponseCode reply = .ok code) :
    (setRemoteStatus code .new).status = recordedStatus (secondToken reply) := by
  rw [getRemoteResponseCode, substr_zero, ok_bind] at h
  rw [secondToken, firstLine]
  cases htoken : (tokens (takeCount (findFirstOf (bytes "\r\n") reply) reply))[1]? with
  | none =>
    rw [htoken] at h
    rw [← Except.ok.inj h]
    rfl
  | some token =>
    rw [htoken] at h
    rw [← Except.ok.inj h, recordedStatus]
    split_ifs
    · rfl
    · rfl
    · rfl
    · rfl
    · rfl

/-- The text of a code that a reply is compared with. -/
theorem isCode_ok : IsCode (bytes "200") .ok := ⟨by decide, by decide, by decide⟩

theorem isCode_notFound : IsCode (bytes "404") .notFound := ⟨by decide, by decide, by decide⟩

theorem isCode_internalServerError : IsCode (bytes "500") .internalServerError :=
  ⟨by decide, by decide, by decide⟩

/-- **The status agrees with the line** for 200 and 404, and for no other code: 302 leaves the status
unassigned, 500 becomes 404 and the rest becomes 500. -/
theorem statusLine_recorded_iff {reply : Bytes} :
    (∃ status, recordedStatus (secondToken reply) = some status ∧ StatusLine reply status) ↔
      StatusLine reply .ok ∨ StatusLine reply .notFound := by
  constructor
  · intro h
    obtain ⟨status, hrecorded, hline⟩ := h
    obtain ⟨digits, hcode, htoken⟩ := secondToken_of_statusLine hline
    rw [htoken, recordedStatus] at hrecorded
    split_ifs at hrecorded with h200 h302 h404 h500
    · rw [← Option.some.inj hrecorded] at hline
      exact .inl hline
    · rw [← Option.some.inj hrecorded] at hline
      exact .inr hline
    · rw [← Option.some.inj hrecorded, h500] at hcode
      exact absurd (hcode.unique isCode_notFound) (by decide)
    · rw [← Option.some.inj hrecorded] at hcode
      exact absurd (hcode.unique isCode_internalServerError) h500
  · intro h
    rcases h with hline | hline
    · obtain ⟨digits, hcode, htoken⟩ := secondToken_of_statusLine hline
      refine ⟨_, ?_, hline⟩
      rw [htoken, hcode.unique isCode_ok]
      rfl
    · obtain ⟨digits, hcode, htoken⟩ := secondToken_of_statusLine hline
      refine ⟨_, ?_, hline⟩
      rw [htoken, hcode.unique isCode_notFound]
      rfl

/-! ### The reply that is forwarded -/

/-- The errors that a reply may end with: `eof`, `success` and the short read of SSL. -/
def IsExpected (ec : ℤ) : Prop := ec = 2 ∨ ec = 0 ∨ ec = 335544539

/-- **A turn ends with this reply**: a text for the host can be made and sent, and what comes back is no
redirect and ends as it should. -/
structure Answers (port : ℤ) (text host : Bytes) (round : Round) (reply : Bytes) : Prop where
  connects : round.Connects port
  rewritable : Rewritable port host text
  writes : round.writes
  notRedirect : ¬ IsRedirect round.reply
  expected : IsExpected round.ec
  reply_eq : reply = round.reply

/-- The only result of a turn that is not connected. -/
theorem eq_errorReply_of_connect {port : ℤ} {round : Round} {reply : Bytes}
    (h : connect port round = some (.ok reply)) : reply = errorReply := by
  rw [connect] at h
  split_ifs at h
  · exact (Except.ok.inj (Option.some.inj h)).symm
  · exact (Except.ok.inj (Option.some.inj h)).symm
  · cases h

section Loop

variable {remotePort text : Bytes} {net : ℕ → Round} {port : ℤ} {remoteHost reply : Bytes} {s s' : Sending}

theorem originBody_of_answers (hport : stoi remotePort = .ok port)
    (h : Answers port text s.remoteHost (net s.round) reply) :
    ∃ s', originBody remotePort text net s = .inr (s', .ok reply) := by
  obtain ⟨written, hwritten⟩ := remoteRequest_isOk_iff.mpr h.rewritable
  refine ⟨{ s with sent := s.sent ++ [(s.remoteHost, written)] }, ?_⟩
  rw [originBody_of_connects hport h.connects hwritten, if_pos h.writes,
    if_neg (mt find_ne_npos_iff.mp h.notRedirect)]
  have hexpected : (net s.round).ec = 2 ∨ (net s.round).ec = 0 ∨ (net s.round).ec = 335544539 := h.expected
  rw [finalReply, if_pos hexpected, h.reply_eq]

theorem answers_of_originBody (hport : stoi remotePort = .ok port)
    (h : originBody remotePort text net s = .inr (s', .ok reply)) (hne : reply ≠ errorReply) :
    Answers port text s.remoteHost (net s.round) reply := by
  have hturn := turnResult_originBody hport text net s
  rw [h] at hturn
  cases hturn with
  | unconnected connection => exact absurd (eq_errorReply_of_connect connection) hne
  | answered connects request writes redirect =>
    rw [finalReply] at hne ⊢
    split_ifs at hne ⊢ with hexpected
    · exact ⟨connects, remoteRequest_isOk_iff.mp ⟨_, request⟩, writes, redirect, hexpected, rfl⟩
    · exact absurd rfl hne

/-- **The loop ends with a reply** exactly when the last turn that is followed does. -/
theorem returns_ok_iff (hport : stoi remotePort = .ok port) {result : Except Exn Bytes}
    (h : Returns (originBody remotePort text net) ⟨remoteHost, 0, []⟩ (s', result)) (hne : reply ≠ errorReply) :
    result = .ok reply ↔
      ∃ k host, Followed port text net remoteHost k host ∧ Answers port text host (net k) reply := by
  obtain ⟨s, hs, hlast, hbody⟩ := returns_last hport h
  constructor
  · intro hresult
    rw [hresult] at hbody
    exact ⟨s.round, s.remoteHost, hs, answers_of_originBody hport hbody hne⟩
  · intro hanswers
    obtain ⟨k, host, hfollowed, hanswers⟩ := hanswers
    have hlast' : ∀ host, ¬ Followed port text net remoteHost (k + 1) host := by
      intro host' hnext
      obtain ⟨_, -, -, -, -, hredirect, -⟩ := followed_succ_iff.mp hnext
      exact hanswers.notRedirect hredirect
    obtain rfl := hfollowed.last_round hlast' hs hlast
    rw [hfollowed.1.unique hs.1] at hanswers
    obtain ⟨t, ht⟩ := originBody_of_answers hport hanswers
    exact (Prod.mk.inj (Sum.inr.inj (hbody.symm.trans ht))).2

end Loop

/-- **The reply that a call forwards**: the one of the last turn, unless it is the text that stands for a
failure. -/
def Forwards (net : ℕ → Round) (h : ReverseProxyHandler) (request : Request) (reply : Bytes) : Prop :=
  ∃ port forwarded k host, stoi h.remotePort = .ok port ∧
    originRequest h.originalUriPrefix request request.uri = .ok forwarded ∧
    Followed port forwarded.rawRequest net h.remoteHost k host ∧
    Answers port forwarded.rawRequest host (net k) reply ∧ reply ≠ errorReply

section Call

variable {fuel : ℕ} {net : ℕ → Round} {h h' : ReverseProxyHandler} {request : Request} {reply : Bytes}

theorem forwards_iff {s : Sending} {r : Except Exn Bytes}
    (hsend : sendRequestToOrigin fuel net h request request.uri = some (s, r)) (hne : reply ≠ errorReply) :
    Forwards net h request reply ↔ r = .ok reply := by
  rcases sendRequestToOrigin_cases hsend with ⟨-, ⟨e, rfl⟩, hno⟩ | ⟨port, forwarded, hport, hforward, hreturns⟩
  · refine iff_of_false ?_ (fun h => by cases h)
    intro hforwards
    obtain ⟨port, forwarded, k, host, hport, hforward, -⟩ := hforwards
    exact hno port forwarded hport hforward
  · rw [returns_ok_iff hport hreturns hne]
    constructor
    · intro hforwards
      obtain ⟨port', forwarded', k, host, hport', hforward', hfollowed, hanswers, -⟩ := hforwards
      obtain rfl := Except.ok.inj (hport.symm.trans hport')
      obtain rfl := Except.ok.inj (hforward.symm.trans hforward')
      exact ⟨k, host, hfollowed, hanswers⟩
    · intro hends
      obtain ⟨k, host, hfollowed, hanswers⟩ := hends
      exact ⟨port, forwarded, k, host, hport, hforward, hfollowed, hanswers, hne⟩

/-- **A call that succeeds** forwards one reply. -/
theorem handleRequest_ok {res : Response}
    (hcall : handleRequest fuel net h request .new = some (h', .ok (.ok, res))) :
    ∃ reply, Forwards net h request reply ∧ (∀ reply', Forwards net h request reply' → reply' = reply) ∧
      res.fullResponse = reply ∧ res.status = recordedStatus (secondToken reply) := by
  obtain ⟨s, r, hsend, -, hrespond⟩ := handleRequest_eq_some_iff.mp hcall
  cases r with
  | error e => cases hrespond
  | ok reply =>
    rw [respond] at hrespond
    split_ifs at hrespond with hne
    · cases hrespond
    · obtain ⟨code, hcode⟩ := getRemoteResponseCode_isOk reply
      rw [hcode] at hrespond
      obtain rfl := (Prod.mk.inj (Except.ok.inj hrespond)).2
      refine ⟨reply, (forwards_iff hsend hne).mpr rfl, ?_, rfl, setRemoteStatus_status hcode⟩
      intro reply' hforwards
      obtain ⟨_, _, _, _, _, _, _, _, hne'⟩ := id hforwards
      exact (Except.ok.inj ((forwards_iff hsend hne').mp hforwards)).symm

/-- **A call that fails** forwards nothing. -/
theorem handleRequest_error {res : Response}
    (hcall : handleRequest fuel net h request .new = some (h', .ok (.error, res))) :
    ¬ Forwards net h request reply := by
  obtain ⟨s, r, hsend, -, hrespond⟩ := handleRequest_eq_some_iff.mp hcall
  intro hforwards
  obtain ⟨_, _, _, _, _, _, _, _, hne⟩ := id hforwards
  rw [(forwards_iff hsend hne).mp hforwards, respond, if_neg hne] at hrespond
  obtain ⟨code, hcode⟩ := getRemoteResponseCode_isOk reply
  rw [hcode] at hrespond
  cases hrespond

end Call

end Webserver.ReverseProxy
