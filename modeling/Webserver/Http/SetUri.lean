import Webserver.Http.ParserCalls

/-!
# `Request::SetUri`

The text of a request is edited between its first two spaces.  No byte of a method or of a URI is a space, so
these are the ones around the URI, and the text is then that of the request with the other URI.

* `setUri_toRequest` — what the edit does to the text.
* `returned_toRequest` — every request that `Parse` returns, in any sequence of calls, has a text of the grammar.
* `parse_setUri` — parsing the edited text.
-/

namespace Webserver.Http

open ByteString CxxString IncrementalMachine

namespace RequestText

/-- **`SetUri` replaces the URI in the raw request.** -/
theorem setUri_toRequest (m : RequestText) (uri : Bytes) :
    m.toRequest.setUri uri = .ok { m.toRequest with
      uri := uri
      rawRequest := m.method ++ byte ' ' :: (uri ++ byte ' ' :: m.behindUri) } := by
  have hraw : m.toRequest.rawRequest = m.method ++ byte ' ' :: (m.uri ++ byte ' ' :: m.behindUri) :=
    m.render_eq_behindUri
  have hfront : ∀ s, m.method ++ byte ' ' :: s = m.method ++ bytes " " ++ s :=
    fun s => (List.append_cons m.method (byte ' ') s)
  have hpos : (find (bytes " ") m.toRequest.rawRequest).succ = (m.method ++ bytes " ").length := by
    rw [hraw]
    show (find [byte ' '] _).succ = _
    rw [find_singleton_append m.space_notMem_method, List.length_append]
    rfl
  have hlen : Pos.sub (findFrom (bytes " ") m.toRequest.rawRequest (some (m.method ++ bytes " ").length))
      (some (m.method ++ bytes " ").length) = some m.uri.length := by
    rw [hraw, hfront, findFrom_append, Pos.sub_map_add]
    exact find_singleton_append m.space_notMem_uri _
  rw [Request.setUri, hpos]
  show (replace m.toRequest.rawRequest (some (m.method ++ bytes " ").length)
    (Pos.sub (findFrom (bytes " ") m.toRequest.rawRequest _) _) uri >>= _) = _
  rw [hlen, hraw, hfront, ← List.append_assoc, replace_middle, ok_bind, List.append_assoc, ← hfront]
  rfl

end RequestText

/-! ### Requests that are returned -/

/-- What a thread holds between two calls: the object of the first part of a request. -/
def Partial (r : Request) : Prop := ∃ s, feed absorb Request.fresh s = .inl r

theorem Partial.counting {r : Request} (h : Partial r) : Counting r := by
  obtain ⟨s, hs⟩ := h
  have hstep := counting_feed s counting_fresh
  rwa [hs] at hstep

/-- **One call** leaves a part of a request behind, and returns the request of a text. -/
theorem partial_parse {t t' : ThreadState} {s : Bytes} {request : Option Request} (ht : Partial t.localRequest)
    (h : parse t s = some (t', request)) :
    Partial t'.localRequest ∧ ∀ r, request = some r → ∃ m : RequestText, r = m.toRequest := by
  obtain ⟨front, hfront⟩ := ht
  have hlocal := (parse_localRequest (Partial.counting ⟨front, hfront⟩) h).2
  have hfresh : Partial Request.fresh := ⟨[], rfl⟩
  rcases parse_eq_some_iff.mp h with ⟨r, hf, rfl, rfl⟩ | ⟨r, rest, hf, rfl, rfl⟩ | ⟨r, rest, -, rfl, rfl⟩
  · refine ⟨⟨front ++ s, ?_⟩, fun r' hr' => by cases hr'⟩
    rw [feed_append, hfront]
    exact hf
  · refine ⟨by rw [hlocal (.inl rfl)]; exact hfresh, fun r' hr' => ?_⟩
    obtain rfl := Option.some.inj hr'
    have hall : Stops absorb Request.fresh (front ++ s) (.good r) rest := by
      rw [Stops, feed_append, hfront]
      exact hf
    obtain ⟨m, -, hm⟩ := stops_fresh_iff.mp hall
    exact ⟨m, hm⟩
  · exact ⟨by rw [hlocal (.inr rfl)]; exact hfresh, fun r' hr' => by cases hr'⟩

/-- **Every request that is returned** in a sequence of calls is the one of a text. -/
theorem returned_toRequest {calls : List Bytes} : ∀ {t t' : ThreadState} {seen : List (Result × Option Request)},
    Partial t.localRequest → parseCalls t calls = some (t', seen) → ∀ result r, (result, some r) ∈ seen →
      ∃ m : RequestText, r = m.toRequest := by
  induction calls with
  | nil =>
    intro t t' seen _ h result r hr
    obtain ⟨-, rfl⟩ := Prod.mk.inj (Option.some.inj h)
    cases hr
  | cons s calls ih =>
    intro t t' seen ht h result r hr
    obtain ⟨⟨t₁, request⟩, hparse, h⟩ := Option.bind_eq_some_iff.mp h
    obtain ⟨⟨t₂, seen₂⟩, hcalls, h⟩ := Option.bind_eq_some_iff.mp h
    obtain ⟨-, rfl⟩ := Prod.mk.inj (Option.some.inj h)
    obtain ⟨ht₁, hrequest⟩ := partial_parse ht hparse
    rcases List.mem_cons.mp hr with hr | hr
    · exact hrequest r (Prod.mk.inj hr).2.symm
    · exact ih ht₁ hcalls result r hr

/-! ### Parsing the edited text -/

/-- **`SetUri` edits exactly the URI.**  For a request that `Parse` has returned, in any sequence of calls, and a
URI of URI bytes that is not empty: the edited text is good on a fresh thread, all of it is consumed, and only the
URI and what is inferred from it are different. -/
theorem parse_setUri {calls : List Bytes} {t : ThreadState} {seen : List (Result × Option Request)}
    {r : Request} {u : Bytes} (h : parseCalls ThreadState.fresh calls = some (t, seen))
    (hr : (.good, some r) ∈ seen) (hne : u ≠ []) (hbyte : ∀ b ∈ u, IsUriByte b) :
    ∃ edited r', r.setUri u = .ok edited ∧ Stops absorb Request.fresh edited.rawRequest (.good r') [] ∧
      parse ThreadState.fresh edited.rawRequest = some (⟨.good, r'.reset⟩, some r') ∧
      r'.method = r.method ∧ r'.version = r.version ∧ r'.headers = r.headers ∧ r'.body = r.body ∧ r'.uri = u := by
  obtain ⟨m, rfl⟩ := returned_toRequest (t := ThreadState.fresh) ⟨[], rfl⟩ h _ r hr
  have hedit := m.setUri_toRequest u
  have hraw : m.method ++ byte ' ' :: (u ++ byte ' ' :: m.behindUri) = (m.withUri u hne hbyte).render :=
    (m.withUri u hne hbyte).render_eq_behindUri.symm
  rw [hraw] at hedit
  have hstops : Stops absorb Request.fresh (m.withUri u hne hbyte).render
      (.good (m.withUri u hne hbyte).toRequest) [] :=
    stops_fresh_iff.mpr ⟨_, (List.append_nil _).symm, rfl⟩
  exact ⟨_, _, hedit, hstops, (parse_good_iff_stops _ _ _ _).mpr ⟨rfl, [], hstops⟩, rfl, rfl, rfl, rfl, rfl⟩

/-- A request in two pieces. -/
theorem parse_setUri_pieces :
    ∃ edited r', (getRequest (bytes "/a") []).setUri (bytes "/b?x") = .ok edited ∧
      Stops absorb Request.fresh edited.rawRequest (.good r') [] ∧
      parse ThreadState.fresh edited.rawRequest = some (⟨.good, r'.reset⟩, some r') ∧
      r'.method = bytes "GET" ∧ r'.version = bytes "HTTP/1.0" ∧ r'.headers = [] ∧ r'.body = [] ∧
      r'.uri = bytes "/b?x" := by
  have h : parseCalls ThreadState.fresh [bytes "GET /a HT", bytes "TP/1.0\r\n\r\n"] =
      some (⟨.good, Request.fresh⟩, [(.indeterminate, none), (.good, some (getRequest (bytes "/a") []))]) := by
    decide
  exact parse_setUri h (List.mem_cons_of_mem _ List.mem_cons_self) (by decide) (by decide)

end Webserver.Http
