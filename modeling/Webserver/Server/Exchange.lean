import Webserver.Http.HeaderBlock
import Webserver.Server.ServerRun
import Webserver.StaticFile.ContentType
import Webserver.StaticFile.PageFraming

/-!
# What a client gets

The connections of `ServerRun`, as the client at the other end sees them: a request in any number of pieces, and
one text for an answer, which the client takes apart by the length that the headers give.

* `decided_some_iff` — the pieces do not matter, and nothing behind the request does.
* `visit_delimited` — every answer that is not forwarded can be taken apart.
* `visit_echo`, `visit_file` — what a client gets from `EchoHandler`, and from `StaticFileHandler`.
-/

namespace Webserver.Server

open ByteString ConfigTree CxxString Http IncrementalMachine OrderedMap StaticFile Transducer
open ReverseProxy (Round)

/-! ### The request -/

/-- What the parser has decided, from where it stopped. -/
theorem decided_eq_feed (t : ThreadState) (reads : List Read) :
    decided t reads =
      match feedChunks absorb t.localRequest (reads.map Read.data) with
      | .inl _ => none
      | .inr .undefined => none
      | .inr (.good r) => some (some r)
      | .inr (.bad _) => some none := by
  induction reads generalizing t with
  | nil => rfl
  | cons read reads ih =>
    rw [decided, List.map_cons, feedChunks, parse_eq_feed]
    cases hf : feed absorb t.localRequest read.data with
    | inl r => exact ih ⟨.indeterminate, r⟩
    | inr p =>
      obtain ⟨stop, rest⟩ := p
      cases stop with
      | undefined => rfl
      | good r => rfl
      | bad r => rfl

/-- **A good request** is one in front of the stream. -/
theorem decided_some_iff {reads : List Read} {request : Request} :
    decided .fresh reads = some (some request) ↔
      ∃ m : RequestText, m.render <+: stream reads ∧ request = m.toRequest := by
  have hstops : decided .fresh reads = some (some request) ↔
      ∃ rest, Stops absorb Request.fresh (stream reads) (.good request) rest := by
    have hfresh : ThreadState.fresh.localRequest = Request.fresh := rfl
    rw [decided_eq_feed, hfresh, feed_flatten]
    show (match verdict (feed absorb Request.fresh (stream reads)) with
      | .inl _ => none
      | .inr .undefined => none
      | .inr (.good r) => some (some r)
      | .inr (.bad _) => some none) = _ ↔ _
    unfold Stops
    cases feed absorb Request.fresh (stream reads) with
    | inl r => exact iff_of_false (fun h => by cases h) (fun ⟨_, h⟩ => by cases h)
    | inr p =>
      obtain ⟨stop, rest⟩ := p
      cases stop with
      | undefined => exact iff_of_false (fun h => by cases h) (fun ⟨_, h⟩ => by cases h)
      | good r =>
        show some (some r) = some (some request) ↔ ∃ rest', Sum.inr (Stop.good r, rest) = Sum.inr (Stop.good request, rest')
        constructor
        · intro h
          rw [Option.some.inj (Option.some.inj h)]
          exact ⟨rest, rfl⟩
        · intro h
          obtain ⟨rest', h⟩ := h
          rw [Stop.good.inj (Prod.mk.inj (Sum.inr.inj h)).1]
      | bad r => exact iff_of_false (fun h => by cases h) (fun ⟨_, h⟩ => by cases h)
  simp only [hstops, stops_fresh_iff]
  constructor
  · intro h
    obtain ⟨rest, m, hstream, hr⟩ := h
    exact ⟨m, ⟨rest, hstream.symm⟩, hr⟩
  · intro h
    obtain ⟨m, ⟨rest, hstream⟩, hr⟩ := h
    exact ⟨rest, m, hstream.symm, hr⟩

/-! ### The answer -/

/-- The two headers that describe a body. -/
def describedAs (type body : Bytes) : List (Bytes × Bytes) :=
  [(bytes "Content-Length", decimal body.length), (bytes "Content-Type", type)]

/-- **A text that a client can take apart**: a status line with this code, headers of which exactly one gives a
length, an empty line, and a body that has this length. -/
def Delimited (sent : Bytes) (code : ResponseCode) (body : Bytes) : Prop :=
  ∃ added type, SplitsAs sent code (added ++ describedAs type body) body ∧ ∀ h ∈ added, ¬ IsContentLength h.1

/-- A response as the handlers fill it in, with the headers that have been `added` in front. -/
structure Described (added : List (Bytes × Bytes)) (status : ResponseCode) (r : Response) : Prop where
  fullResponse : r.fullResponse = []
  status : r.status = some status
  headers : ∃ type, NoLineEnd type ∧ r.headers = added ++ describedAs type r.content

theorem isHeaderField_describedAs {type : Bytes} (htype : NoLineEnd type) (body : Bytes) :
    ∀ h ∈ describedAs type body, IsHeaderField h := by
  have hdigits := (decimal_spec body.length).1
  have hlength : NoLineEnd (bytes "Content-Length") ∧ byte ':' ∉ bytes "Content-Length" := by
    unfold NoLineEnd
    decide
  have hname : NoLineEnd (bytes "Content-Type") ∧ byte ':' ∉ bytes "Content-Type" := by
    unfold NoLineEnd
    decide
  intro h hh
  rcases List.mem_cons.mp hh with rfl | hh
  · exact ⟨hlength.1, hlength.2, not_mem_of_digits hdigits rfl, not_mem_of_digits hdigits rfl⟩
  · obtain rfl := List.mem_singleton.mp hh
    exact ⟨hname.1, hname.2, htype⟩

section Described

variable {added : List (Bytes × Bytes)} {status code : ResponseCode} {r : Response} {beyondCrlf sent body : Bytes}

/-- The text of a response, with what follows `MiscString::crlf` in memory. -/
theorem Described.splitsAs (h : Described added status r) (hadded : ∀ h ∈ added, IsHeaderField h)
    (hsent : r.toString beyondCrlf = some sent) :
    SplitsAs sent (codeOnLine status) r.headers (cStr beyondCrlf ++ r.content) := by
  obtain ⟨type, htype, hheaders⟩ := h.headers
  refine splitsAs_toString h.fullResponse h.status ?_ hsent
  rw [hheaders, List.forall_mem_append]
  exact ⟨hadded, isHeaderField_describedAs htype r.content⟩

/-- **What a client takes from a response** is its content, if nothing follows the array in memory; otherwise no body
has the length that is given. -/
theorem Described.client (h : Described added status r)
    (hadded : ∀ h ∈ added, IsHeaderField h ∧ ¬ IsContentLength h.1) (hsent : r.toString beyondCrlf = some sent) :
    ((∃ code body, Delimited sent code body) ↔ cStr beyondCrlf = []) ∧
      ∀ code body, Delimited sent code body → code = codeOnLine status ∧ body = r.content := by
  have hsplit := h.splitsAs (fun h hh => (hadded h hh).1) hsent
  obtain ⟨type, -, hheaders⟩ := h.headers
  rw [hheaders] at hsplit
  have hparts : ∀ code body, Delimited sent code body → cStr beyondCrlf = [] ∧ code = codeOnLine status ∧
      body = r.content := by
    intro code body hdelimited
    obtain ⟨added', type', hsplit', -⟩ := hdelimited
    obtain ⟨hcode, hheaders', hbody⟩ := hsplit'.unique hsplit
    -- the last two headers are those that describe the bodies
    have hlast := (List.append_inj' hheaders' rfl).2
    have hlength := decimal_inj (Prod.mk.inj (List.cons.inj hlast).1).2
    rw [hbody, List.length_append] at hlength
    have hnil : cStr beyondCrlf = [] := List.length_eq_zero_iff.mp (by omega)
    rw [hnil, List.nil_append] at hbody
    exact ⟨hnil, hcode, hbody⟩
  refine ⟨⟨?_, ?_⟩, fun code body h => (hparts code body h).2⟩
  · intro h
    obtain ⟨code, body, hdelimited⟩ := h
    exact (hparts code body hdelimited).1
  · intro hnil
    rw [hnil, List.nil_append] at hsplit
    exact ⟨_, _, added, type, hsplit, fun h hh => (hadded h hh).2⟩

/-- A response without other headers. -/
theorem Described.client_nil (h : Described [] status r) (hsent : r.toString beyondCrlf = some sent) :
    ((∃ code body, Delimited sent code body) ↔ cStr beyondCrlf = []) ∧
      ∀ code body, Delimited sent code body → code = codeOnLine status ∧ body = r.content :=
  h.client (fun _ hh => absurd hh List.not_mem_nil) hsent

end Described

theorem described_withBody (status : ResponseCode) {type : Bytes} (htype : NoLineEnd type) (content : Bytes) :
    Described [] status (.withBody status content type) := ⟨rfl, rfl, type, htype, rfl⟩

theorem described_defaultResponse (status : ResponseCode) : Described [] status (.defaultResponse status) :=
  described_withBody status (by unfold NoLineEnd; decide) _

/-! ### The responses of the handlers -/

theorem noLineEnd_extensionToType (extension : Bytes) : NoLineEnd (extensionToType extension) := by
  have htable : ∀ m ∈ mappings, NoLineEnd m.2 := by
    unfold NoLineEnd
    decide
  rw [extensionToType]
  cases hfind : mappings.find? fun m => m.1 = extension with
  | none =>
    show NoLineEnd (bytes "text/plain")
    unfold NoLineEnd
    decide
  | some m => exact htable m (List.mem_of_find?_eq_some hfind)

section File

variable {host : Host} {lua : LuaInterpreter} {h : StaticFileHandler} {request : Request}

/-- **What is sent of a file** that is no page: nothing when it cannot be read, and all of it otherwise. -/
theorem handleRequest_of_opens {path extension file : Bytes} (hpath : filePath h request = .ok path)
    (hextension : extensionOf path = .ok extension) (hopen : host.openFile (cStr (h.root ++ path)) = some file)
    (htype : extensionToType extension ≠ bytes "text/html") :
    handleRequest (withLua host lua) h request .new =
      .ok (if host.readFails (cStr (h.root ++ path)) then (.error, Response.new.setStatus .ok)
        else (.ok, .withBody .ok file (extensionToType extension))) := by
  rw [@handleRequest_of_opened (withLua host lua) h request path extension file hpath hextension hopen,
    respondWithFile, if_neg htype]
  rfl

/-- A file of the type HTML is answered as a page, or not at all. -/
theorem servesPage_of_ok {path extension file : Bytes} (hpath : filePath h request = .ok path)
    (hextension : extensionOf path = .ok extension) (hopen : host.openFile (cStr (h.root ++ path)) = some file)
    (htype : extensionToType extension = bytes "text/html") {res : Response}
    (hok : handleRequest (withLua host lua) h request .new = .ok (.ok, res)) :
    ∃ calls, ServesPage host lua h request calls := by
  rw [@handleRequest_of_opened (withLua host lua) h request path extension file hpath hextension hopen,
    respondWithFile, if_pos htype] at hok
  cases hrun : doLua (withLua host lua) file request (Response.new.setStatus .ok) with
  | none => rw [hrun] at hok; cases hok
  | some r =>
    obtain ⟨script, calls, hscript, hcalls, -⟩ := doLua_eq_some_iff.mp hrun
    rw [hrun] at hok
    cases hfails : host.readFails (cStr (h.root ++ path)) with
    | true =>
      simp only [withLua, hfails] at hok
      cases hok
    | false => exact ⟨calls, path, extension, file, script, hpath, hextension, htype, hopen, hfails, hscript, hcalls⟩

/-- What `StaticFileHandler` is to answer for a file that is no page. -/
def fileAnswer (host : Host) (name : Bytes) : ResponseCode × Bytes :=
  match host.openFile name with
  | none => (.notFound, toHtml .notFound)
  | some file => if host.readFails name then (.internalServerError, toHtml .internalServerError) else (.ok, file)

/-- **The answer for a file** that is no page. -/
theorem handleRequest_fileAnswer {path : Bytes} (hpath : filePath h request = .ok path)
    (htype : extensionToType (nameExtension path) ≠ bytes "text/html") :
    ∃ result status, handleRequest (withLua host lua) h request .new = .ok result ∧
      Described [] status (reported result) ∧ codeOnLine status = status ∧
      fileAnswer host (cStr (h.root ++ path)) = (status, (reported result).content) := by
  cases hopen : host.openFile (cStr (h.root ++ path)) with
  | none =>
    refine ⟨(.ok, .defaultResponse .notFound), .notFound, ?_, described_defaultResponse _, rfl, ?_⟩
    · simp only [handleRequest, hpath, extensionOf_eq, ok_bind, withLua, hopen]
      rfl
    · rw [fileAnswer, hopen]
      rfl
  | some file =>
    have hreturns := @handleRequest_of_opens host lua h request path _ file hpath (extensionOf_eq path) hopen htype
    cases hfails : host.readFails (cStr (h.root ++ path)) with
    | true =>
      rw [hfails, if_pos rfl] at hreturns
      refine ⟨_, .internalServerError, hreturns, described_defaultResponse _, rfl, ?_⟩
      rw [fileAnswer, hopen]
      exact if_pos hfails
    | false =>
      rw [hfails, if_neg (by decide)] at hreturns
      refine ⟨_, .ok, hreturns, described_withBody _ (noLineEnd_extensionToType _) _, rfl, ?_⟩
      rw [fileAnswer, hopen]
      exact if_neg (by rw [hfails]; decide)

/-- **A response of `StaticFileHandler`** has the headers that a page has added, and those of its body. -/
theorem described_static {res : Response} (hok : handleRequest (withLua host lua) h request .new = .ok (.ok, res)) :
    ∃ added status, Described added status res ∧ (added = [] ∨
      ∃ calls, ServesPage host lua h request calls ∧ added = (addedHeaders calls).map cField) := by
  by_cases hpage : ∃ calls, ServesPage host lua h request calls
  · obtain ⟨calls, hpage⟩ := hpage
    obtain ⟨res', code, hok', hfull, hstatus, hheaders⟩ := handleRequest_page hpage
    obtain rfl : res' = res := (Prod.mk.inj (Except.ok.inj (hok'.symm.trans hok))).2
    have htype : NoLineEnd (bytes "text/html") := by
      unfold NoLineEnd
      decide
    exact ⟨_, code, ⟨hfull, hstatus, _, htype, hheaders⟩, .inr ⟨calls, hpage, rfl⟩⟩
  · cases hpath : filePath h request with
    | error e => rw [handleRequest, hpath] at hok; cases hok
    | ok path =>
      have hextension := extensionOf_eq path
      cases hopen : host.openFile (cStr (h.root ++ path)) with
      | none =>
        simp only [handleRequest, hpath, hextension, ok_bind, withLua, hopen] at hok
        obtain rfl := (Prod.mk.inj (Except.ok.inj hok)).2
        exact ⟨[], _, described_defaultResponse .notFound, .inl rfl⟩
      | some file =>
        by_cases htype : extensionToType (nameExtension path) = bytes "text/html"
        · exact absurd (servesPage_of_ok hpath hextension hopen htype hok) hpage
        · rw [handleRequest_of_opens hpath hextension hopen htype] at hok
          split_ifs at hok with hfails
          · cases hok
          · obtain rfl := (Prod.mk.inj (Except.ok.inj hok)).2
            exact ⟨[], _, described_withBody _ (noLineEnd_extensionToType _) _, .inl rfl⟩

end File

/-! ### What is sent on a connection -/

/-- The headers in front of those that the handler writes: what a page adds. -/
def AddedBy (site : Site) (handler : RequestHandler) (request : Request) (added : List (Bytes × Bytes)) : Prop :=
  added = [] ∨ ∃ h calls, handler = .staticFileHandler h ∧ ServesPage site.host site.lua h request calls ∧
    added = (addedHeaders calls).map cField

section Visit

variable {site : Site} {s s' u : ServerState} {v : Visit} {a : Answer}

/-- **A handler that is no proxy** leaves a response that `do_read` can send. -/
theorem described_call {net : ℕ → Round} {handler handler' : RequestHandler} {request : Request}
    {result : Status × Response} (hne : ∀ p, handler ≠ .reverseProxyHandler p)
    (hcall : handler.call (s.surroundings site net) request .new = some (handler', result)) :
    ∃ added status, Described added status (reported result) ∧ AddedBy site handler request added := by
  obtain ⟨status, response⟩ := result
  have hhandled := (call_eq_some hcall).1
  cases status with
  | error => exact ⟨[], _, described_defaultResponse .internalServerError, .inl rfl⟩
  | ok =>
    cases handler with
    | echoHandler =>
      obtain rfl := (Prod.mk.inj (Option.some.inj hhandled)).2
      exact ⟨[], _, described_withBody _ (by unfold NoLineEnd; decide) _, .inl rfl⟩
    | notFoundHandler =>
      obtain rfl := (Prod.mk.inj (Option.some.inj hhandled)).2
      exact ⟨[], _, described_defaultResponse .notFound, .inl rfl⟩
    | statusHandler =>
      obtain rfl := (Prod.mk.inj (Option.some.inj hhandled)).2
      exact ⟨[], _, described_withBody _ (by unfold NoLineEnd; decide) _, .inl rfl⟩
    | staticFileHandler h =>
      obtain ⟨added, code, hdescribed, hadded⟩ := described_static (handleRequest_static hhandled)
      refine ⟨added, code, hdescribed, hadded.imp_right fun hpage => ?_⟩
      obtain ⟨calls, hserves, hcalls⟩ := hpage
      exact ⟨h, calls, rfl, hserves, hcalls⟩
    | reverseProxyHandler p => exact absurd rfl (hne p)

/-- **A connection with plain answers**: it goes to no proxy, and a page that it is answered with adds headers that
fit on a line and give no length. -/
structure Plain (site : Site) (s : ServerState) (v : Visit) : Prop where
  noProxy : ∀ k request p, target s.handlers v = some (k, request) →
    s.handlers.map.find k ≠ some (.reverseProxyHandler p)
  harmless : ∀ k request handler added, target s.handlers v = some (k, request) →
    s.handlers.map.find k = some handler → AddedBy site handler request added →
      ∀ h ∈ added, IsHeaderField h ∧ ¬ IsContentLength h.1

/-- The response of a connection, before it is written. -/
theorem visit_described (hplain : Plain site s v) (hvisit : visit site s v = some (s', some a)) :
    ∃ added r, Described added a.entry.2 r ∧ (∀ h ∈ added, IsHeaderField h ∧ ¬ IsContentLength h.1) ∧
      r.toString site.beyondCrlf = some a.sent := by
  rcases visit_cases hvisit with ⟨-, -, hnone⟩ | ⟨-, hwrite⟩ |
    ⟨request, k, handler, handler', result, ⟨hdecided, hdispatched⟩, hcall, hwrite⟩
  · cases hnone
  · obtain ⟨status, sent, hstatus, hsent, -, hanswer⟩ := doWrite_eq_some_iff.mp hwrite
    obtain rfl := Option.some.inj hanswer
    obtain rfl := Option.some.inj hstatus
    exact ⟨[], _, described_defaultResponse .badRequest, fun h hh => absurd hh List.not_mem_nil, hsent⟩
  · obtain ⟨status, sent, hstatus, hsent, -, hanswer⟩ := doWrite_eq_some_iff.mp hwrite
    obtain rfl := Option.some.inj hanswer
    have htarget : target s.handlers v = some (k, request) :=
      target_eq_some_iff.mpr ⟨hdecided, handler, hdispatched⟩
    have hne : ∀ p, handler ≠ .reverseProxyHandler p := by
      intro p heq
      exact hplain.noProxy k request p htarget (heq ▸ hdispatched.find)
    obtain ⟨added, code, hdescribed, hadded⟩ := described_call hne hcall
    obtain rfl := Option.some.inj (hdescribed.status.symm.trans hstatus)
    exact ⟨added, _, hdescribed, hplain.harmless k request handler added htarget hdispatched.find hadded, hsent⟩

/-- **One answer.** -/
theorem visit_delimited (hplain : Plain site s v) (hvisit : visit site s v = some (s', some a)) :
    ((∃ code body, Delimited a.sent code body) ↔ cStr site.beyondCrlf = []) ∧
      ∀ code body, Delimited a.sent code body → code = codeOnLine a.entry.2 := by
  obtain ⟨added, r, hdescribed, hharmless, hsent⟩ := visit_described hplain hvisit
  obtain ⟨hsome, hparts⟩ := hdescribed.client hharmless hsent
  exact ⟨hsome, fun code body h => (hparts code body h).1⟩

end Visit

/-! ### Over a run -/

section Run

variable {site : Site} {s u t : ServerState} {v : Visit} {before behind visits : List Visit}
  {answers : List (Option Answer)}

/-- What a run keeps of the handlers: the keys, and every handler that is no proxy. -/
structure Continues (s u : ServerState) : Prop where
  sameKeys : SameKeys u.handlers.map s.handlers.map
  find : ∀ k handler, (∀ p, handler ≠ .reverseProxyHandler p) → s.handlers.map.find k = some handler →
    u.handlers.map.find k = some handler

theorem Continues.refl (s : ServerState) : Continues s s := ⟨fun _ => Iff.rfl, fun _ _ _ h => h⟩

theorem Continues.visit {u' : ServerState} {a : Option Answer} (h : Continues s u)
    (hvisit : visit site u v = some (u', a)) : Continues s u' :=
  ⟨fun k => (visit_sameKeys hvisit k).trans (h.sameKeys k),
    fun k handler hne hfind => visit_find hvisit (h.find k handler hne hfind) hne⟩

theorem Continues.dispatched {request : Request} {k : Bytes} {handler : RequestHandler} (h : Continues s u)
    (hne : ∀ p, handler ≠ .reverseProxyHandler p) (hdispatched : Dispatched s.handlers request k handler) :
    Dispatched u.handlers request k handler := by
  obtain ⟨handler', hdispatched'⟩ := hdispatched.of_sameKeys fun k => (h.sameKeys k).symm
  obtain rfl : handler' = handler :=
    Option.some.inj (hdispatched'.find.symm.trans (h.find k handler hne hdispatched.find))
  exact hdispatched'

theorem Continues.plain (h : Continues s u) (hplain : Plain site s v) : Plain site u v := by
  have hfind : ∀ k request handler, target u.handlers v = some (k, request) →
      u.handlers.map.find k = some handler → target s.handlers v = some (k, request) ∧
        s.handlers.map.find k = some handler := by
    intro k request handler htarget hhandler
    rw [target_congr h.sameKeys] at htarget
    obtain ⟨handler', hhandler'⟩ : ∃ handler', s.handlers.map.find k = some handler' := by
      rw [← Option.isSome_iff_exists, ← h.sameKeys k, hhandler]
      rfl
    have hne : ∀ p, handler' ≠ .reverseProxyHandler p := by
      intro p heq
      exact hplain.noProxy k request p htarget (heq ▸ hhandler')
    obtain rfl := Option.some.inj (hhandler.symm.trans (h.find k handler' hne hhandler'))
    exact ⟨htarget, hhandler'⟩
  constructor
  · intro k request p htarget hproxy
    obtain ⟨htarget', hproxy'⟩ := hfind k request _ htarget hproxy
    exact hplain.noProxy k request p htarget' hproxy'
  · intro k request handler added htarget hhandler hadded
    obtain ⟨htarget', hhandler'⟩ := hfind k request handler htarget hhandler
    exact hplain.harmless k request handler added htarget' hhandler' hadded

theorem continues_of_run (hrun : serverRun site s visits = some (t, answers)) : Continues s t :=
  runAll_trace (fun _ _ u => Continues s u) (Continues.refl s) (fun _ _ _ _ _ _ hu hstep => hu.visit hstep) hrun

/-- A connection in the middle of a run. -/
theorem exists_visit (hrun : serverRun site s (before ++ v :: behind) = some (t, answers)) :
    ∃ u u' a, Continues s u ∧ visit site u v = some (u', a) ∧ answers[before.length]? = some a := by
  obtain ⟨u, front, u', a, back, hfront, hvisit, -, rfl⟩ := runAll_middle_iff.mp hrun
  refine ⟨u, u', a, continues_of_run hfront, hvisit, ?_⟩
  rw [← length_runAll hfront, List.getElem?_append_right (Nat.le_refl _), Nat.sub_self]
  rfl

/-- A connection to a handler that always leaves the same response. -/
theorem answer_of_call {request : Request} {k : Bytes} {handler : RequestHandler} {result : Status × Response}
    (hrun : serverRun site s (before ++ v :: behind) = some (t, answers))
    (hdecided : decided .fresh v.reads = some (some request)) (hdispatched : Dispatched s.handlers request k handler)
    (hne : ∀ p, handler ≠ .reverseProxyHandler p)
    (hcall : ∀ u : ServerState, handler.handleRequest (u.surroundings site v.net) request .new = some result) :
    ∃ a status, answers[before.length]? = some (some a) ∧ a.entry = (request.uri, status) ∧
      (reported result).status = some status ∧ (reported result).toString site.beyondCrlf = some a.sent := by
  obtain ⟨u, u', a, hu, hvisit, hanswer⟩ := exists_visit hrun
  obtain ⟨handler', result', hcall', hwrite⟩ :=
    (visit_goesTo ⟨hdecided, hu.dispatched hne hdispatched⟩).mp hvisit
  obtain rfl := Option.some.inj ((call_eq_some hcall').1.symm.trans (hcall u))
  obtain ⟨status, sent, hstatus, hsent, -, rfl⟩ := doWrite_eq_some_iff.mp hwrite
  exact ⟨_, status, hanswer, rfl, hstatus, hsent⟩

/-- **The echo.**  A client that is connected to an `EchoHandler`, at any place of any run, and sends a request in any
pieces and with anything behind it, is answered; and a body that it can take from the answer is its request. -/
theorem serverRun_echo {m : RequestText} {k : Bytes}
    (hrun : serverRun site s (before ++ v :: behind) = some (t, answers)) (hstream : m.render <+: stream v.reads)
    (hdispatched : Dispatched s.handlers m.toRequest k .echoHandler) :
    ∃ a, answers[before.length]? = some (some a) ∧ a.entry = (m.uri, .ok) ∧
      ((∃ code body, Delimited a.sent code body) ↔ cStr site.beyondCrlf = []) ∧
      ∀ code body, Delimited a.sent code body → code = .ok ∧ body = m.render := by
  have hdecided : decided .fresh v.reads = some (some m.toRequest) := decided_some_iff.mpr ⟨m, hstream, rfl⟩
  obtain ⟨a, status, hanswer, hentry, hstatus, hsent⟩ := answer_of_call hrun hdecided hdispatched
    (fun p h => by cases h) fun u => rfl
  obtain rfl := Option.some.inj hstatus
  have hdescribed : Described [] .ok (.plainTextResponse m.render) :=
    described_withBody _ (by unfold NoLineEnd; decide) _
  exact ⟨a, hanswer, hentry, hdescribed.client_nil hsent⟩

/-- The file path of a request that goes to a `StaticFileHandler` of a configuration. -/
theorem filePath_of_dispatched {config : NginxConfig} {request : Request} {k : Bytes} {h : StaticFileHandler}
    (hdispatched : Dispatched (ServerState.start config).handlers request k (.staticFileHandler h)) :
    filePath h request = .ok (fileRest k request.path) := by
  obtain ⟨⟨hkey, -⟩, hboundary⟩ := hdispatched.configuredAt
  rw [← hkey]
  exact filePath_eq (hkey ▸ hboundary.1)

/-- **A file.**  For a client that is connected to a `StaticFileHandler` of a configuration, at any place of any run,
and asks for a file whose type is not HTML: what it can take from the answer are all bytes of the file that the rest of
the path names below the root. -/
theorem serverRun_file {config : NginxConfig} {m : RequestText} {k : Bytes} {h : StaticFileHandler}
    (hrun : serverRun site (.start config) (before ++ v :: behind) = some (t, answers))
    (hstream : m.render <+: stream v.reads)
    (hdispatched : Dispatched (ServerState.start config).handlers m.toRequest k (.staticFileHandler h))
    (htype : extensionToType (nameExtension (fileRest k m.toRequest.path)) ≠ bytes "text/html") :
    let expected := fileAnswer site.host (cStr (h.root ++ fileRest k m.toRequest.path))
    ∃ a, answers[before.length]? = some (some a) ∧ a.entry = (m.uri, expected.1) ∧
      ((∃ code body, Delimited a.sent code body) ↔ cStr site.beyondCrlf = []) ∧
      ∀ code body, Delimited a.sent code body → (code, body) = expected := by
  intro expected
  have hdecided : decided .fresh v.reads = some (some m.toRequest) := decided_some_iff.mpr ⟨m, hstream, rfl⟩
  obtain ⟨result, status, hreturns, hdescribed, hknown, hexpected⟩ :=
    @handleRequest_fileAnswer site.host site.lua h m.toRequest _ (filePath_of_dispatched hdispatched) htype
  obtain ⟨a, status', hanswer, hentry, hstatus, hsent⟩ := answer_of_call hrun hdecided hdispatched
    (fun p heq => by cases heq) fun u => congrArg Except.toOption hreturns
  obtain rfl := Option.some.inj (hdescribed.status.symm.trans hstatus)
  have hvalue : expected = (status, (reported result).content) := hexpected
  obtain ⟨hsome, hparts⟩ := hdescribed.client_nil hsent
  rw [hvalue]
  refine ⟨a, hanswer, hentry, hsome, fun code body hdelimited => ?_⟩
  obtain ⟨hcode, hbody⟩ := hparts code body hdelimited
  rw [hcode, hbody, hknown]

end Run

/-! ### An echo and a file -/

/-- `GET <uri> HTTP/1.0` with headers and without a body. -/
def plainGet (uri : Bytes) (hts : List HeaderText) (huri : uri ≠ []) (hbyte : ∀ b ∈ uri, IsUriByte b)
    (hts_length : contentLength (hts.map HeaderText.pair) ≤ 0) : RequestText :=
  { blockRequest hts [] hts_length with
    method := bytes "GET", uri := uri, method_ne := by decide, method_token := by decide, uri_ne := huri,
    uri_byte := hbyte }

/-- One request that is echoed. -/
theorem serverRun_echo_page :
    ∃ t answers a, serverRun quietSite (.start (oneBlock "EchoHandler" [])) ([] ++ singleRead pageRead :: []) =
        some (t, answers) ∧ answers[0]? = some (some a) ∧ a.entry = (bytes "/a.htm", 200) := by
  have hrun : ∃ t answers, serverRun quietSite (.start (oneBlock "EchoHandler" [])) ([] ++ singleRead pageRead :: []) =
      some (t, answers) := ⟨_, _, rfl⟩
  obtain ⟨t, answers, hrun⟩ := hrun
  have hstream : (plainGet (bytes "/a.htm") [] (by decide) (by decide) le_rfl).render <+:
      stream (singleRead pageRead).reads := by
    decide
  obtain ⟨a, hanswer, hentry, -⟩ := @serverRun_echo _ _ _ _ _ _ _ _ [] hrun hstream ⟨by decide, rfl⟩
  exact ⟨t, answers, a, hrun, hanswer, hentry⟩

/-- One read, of a request for a file that is no page. -/
def textRead : Read := ⟨bytes "GET /a.txt HTTP/1.0\r\n\r\n", by decide, by decide⟩

/-- One file. -/
theorem serverRun_file_text :
    let config := oneBlock "StaticFileHandler" [⟨[bytes "root", bytes "r"], none⟩]
    ∃ t answers a, serverRun quietSite (.start config) ([] ++ singleRead textRead :: []) = some (t, answers) ∧
      answers[0]? = some (some a) ∧ a.entry = (bytes "/a.txt", 200) ∧
      ((∃ code body, Delimited a.sent code body) ↔ cStr quietSite.beyondCrlf = []) ∧
      ∀ code body, Delimited a.sent code body → (code, body) = (200, acceptedPage) := by
  intro config
  have hrun : ∃ t answers, serverRun quietSite (.start config) ([] ++ singleRead textRead :: []) =
      some (t, answers) := ⟨_, _, rfl⟩
  obtain ⟨t, answers, hrun⟩ := hrun
  have hstream : (plainGet (bytes "/a.txt") [] (by decide) (by decide) le_rfl).render <+:
      stream (singleRead textRead).reads := by
    decide
  obtain ⟨a, hanswer, hentry, hparts⟩ := @serverRun_file _ _ _ _ _ _ _ _ [] ⟨[], bytes "r"⟩ hrun hstream
    ⟨by decide, rfl⟩ (by decide)
  exact ⟨t, answers, a, hrun, hanswer, hentry, hparts⟩

end Webserver.Server
