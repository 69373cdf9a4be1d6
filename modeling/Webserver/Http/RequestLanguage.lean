import Webserver.Http.RequestStates

/-!
# What the request parser accepts

The languages of the single states are put together: the header block by an induction over its lines, the
body by an induction on its length.  A fresh request then accepts exactly the language of the grammar,
and the request that the parser returns is the one the parse tree describes.
-/

namespace Webserver.Http

open ByteString IncrementalMachine Numeral

variable {xs rest raw method uri version : Bytes} {headers : Headers} {r : Request}

/-! ### The header block -/

/-- A header is its first line followed by its continuation lines. -/
theorem HeaderText.render_eq (h : HeaderText) :
    h.render = h.name ++ bytes ": " ++ h.first ++ crlf ++ renderContinuations h.continuations := rfl

/-- **The header lines after a header.**  Induction on the length of the input: each turn reads one
line, and the continuation lines at the front belong to the header that is already there. -/
theorem stops_headerLines (n : ℕ) : ∀ (xs raw : Bytes) (hs : Headers) (name value : Bytes),
    xs.length ≤ n →
    (Stops absorb (late .headerLineStart raw method uri version (hs ++ [(name, value)])) xs
        (.good r) rest ↔
      ∃ (cs : List Continuation) (hts : List HeaderText) (ys : Bytes),
        xs = renderContinuations cs ++ renderHeaders hts ++ byte '\r' :: ys ∧
        Stops absorb (late .expectingNewline3
          (raw ++ (renderContinuations cs ++ renderHeaders hts ++ [byte '\r'])) method uri version
          (hs ++ [(name, value ++ continuationsText cs)] ++ hts.map HeaderText.pair)) ys
          (.good r) rest) := by
  induction n with
  | zero =>
    intro xs raw hs name value hlen
    obtain rfl := List.length_eq_zero_iff.mp (Nat.le_zero.mp hlen)
    simp
  | succ n ih =>
    intro xs raw hs name value hlen
    constructor
    · rw [stops_headerLineStart]
      rintro (⟨ys, rfl, h⟩ | ⟨c, hs', name', value', ys, heq, rfl, h⟩ |
        ⟨name', first, ys, hne, htoken, hfirst, rfl, h⟩)
      · refine ⟨[], [], ys, rfl, ?_⟩
        simpa [renderContinuations, renderHeaders, continuationsText] using h
      · obtain ⟨rfl, hpair⟩ := List.append_inj' heq rfl
        obtain ⟨rfl, rfl⟩ := Prod.mk.inj (List.singleton_inj.mp hpair)
        rw [ih _ _ _ _ _ (by
          have := List.length_pos_iff.mpr c.blanks_ne
          simp only [Continuation.render, List.length_append] at hlen
          omega)] at h
        obtain ⟨cs, hts, zs, rfl, h⟩ := h
        refine ⟨c :: cs, hts, zs, by simp [renderContinuations], ?_⟩
        simpa [renderContinuations, continuationsText] using h
      · rw [ih _ _ _ _ _ (by
          have := List.length_pos_iff.mpr hne
          simp only [List.length_append] at hlen
          omega)] at h
        obtain ⟨cs, hts, zs, rfl, h⟩ := h
        refine ⟨[], ⟨name', first, cs, hne, htoken, hfirst⟩ :: hts, zs, ?_, ?_⟩
        · simp [renderContinuations, renderHeaders, HeaderText.render_eq]
        · simpa [renderContinuations, renderHeaders, HeaderText.render_eq, continuationsText,
            HeaderText.pair, HeaderText.value] using h
    · rintro ⟨cs, hts, ys, rfl, h⟩
      rw [stops_headerLineStart]
      rcases cs with _ | ⟨c, cs⟩
      · rcases hts with _ | ⟨⟨name', first, cs, hne, htoken, hfirst⟩, hts⟩
        · refine .inl ⟨ys, rfl, ?_⟩
          simpa [renderContinuations, renderHeaders, continuationsText] using h
        · refine .inr (.inr ⟨name', first, renderContinuations cs ++ renderHeaders hts ++ byte '\r' :: ys,
            hne, htoken, hfirst, ?_, ?_⟩)
          · simp [renderContinuations, renderHeaders, HeaderText.render_eq]
          · rw [ih _ _ _ _ _ (by
              have := List.length_pos_iff.mpr hne
              simp only [renderContinuations, renderHeaders, HeaderText.render_eq, List.flatMap_cons,
                List.flatMap_nil, List.nil_append, List.length_append] at hlen ⊢
              omega)]
            refine ⟨cs, hts, ys, rfl, ?_⟩
            simpa [renderContinuations, renderHeaders, HeaderText.render_eq, continuationsText,
              HeaderText.pair, HeaderText.value] using h
      · refine .inr (.inl ⟨c, hs, name, value, renderContinuations cs ++ renderHeaders hts ++
          byte '\r' :: ys, rfl, by simp [renderContinuations], ?_⟩)
        rw [ih _ _ _ _ _ (by
          have := List.length_pos_iff.mpr c.blanks_ne
          simp only [renderContinuations, List.flatMap_cons, Continuation.render,
            List.length_append] at hlen ⊢
          omega)]
        refine ⟨cs, hts, ys, rfl, ?_⟩
        simpa [renderContinuations, continuationsText] using h

/-- The header lines of a request: the first line cannot be a continuation line. -/
theorem stops_headers :
    Stops absorb (late .headerLineStart raw method uri version []) xs (.good r) rest ↔
      ∃ (hts : List HeaderText) (ys : Bytes), xs = renderHeaders hts ++ byte '\r' :: ys ∧
        Stops absorb (late .expectingNewline3 (raw ++ renderHeaders hts ++ [byte '\r']) method uri
          version (hts.map HeaderText.pair)) ys (.good r) rest := by
  have hline : ∀ (raw xs name first : Bytes),
      Stops absorb (late .headerLineStart raw method uri version ([] ++ [(name, first)])) xs
        (.good r) rest ↔ _ :=
    fun raw xs name first => stops_headerLines xs.length xs raw [] name first le_rfl
  rw [stops_headerLineStart]
  constructor
  · rintro (⟨ys, rfl, h⟩ | ⟨c, hs', name', value', ys, heq, rfl, h⟩ |
      ⟨name, first, ys, hne, htoken, hfirst, rfl, h⟩)
    · exact ⟨[], ys, rfl, by simpa [renderHeaders] using h⟩
    · simp at heq
    · rw [List.nil_append, ← List.nil_append [(name, first)], hline] at h
      obtain ⟨cs, hts, zs, rfl, h⟩ := h
      refine ⟨⟨name, first, cs, hne, htoken, hfirst⟩ :: hts, zs, ?_, ?_⟩
      · simp [renderHeaders, HeaderText.render_eq]
      · simpa [renderHeaders, HeaderText.render_eq, HeaderText.pair, HeaderText.value] using h
  · rintro ⟨hts, ys, rfl, h⟩
    rcases hts with _ | ⟨⟨name, first, cs, hne, htoken, hfirst⟩, hts⟩
    · exact .inl ⟨ys, rfl, by simpa [renderHeaders] using h⟩
    · refine .inr (.inr ⟨name, first, renderContinuations cs ++ renderHeaders hts ++ byte '\r' :: ys,
        hne, htoken, hfirst, ?_, ?_⟩)
      · simp [renderHeaders, HeaderText.render_eq]
      · rw [List.nil_append, ← List.nil_append [(name, first)], hline]
        refine ⟨cs, hts, ys, rfl, ?_⟩
        simpa [renderHeaders, HeaderText.render_eq, HeaderText.pair, HeaderText.value] using h

/-! ### The body -/

/-- The object while the body is read. -/
def inBody (remaining : ℕ) (raw method uri version : Bytes) (headers : Headers) (body : Bytes) :
    Request :=
  ⟨.body, remaining, raw, method, uri, pathOf uri, version, headers, body⟩

theorem absorb_inBody {n : ℕ} (hn : n < 2 ^ 64) (body : Bytes) (c : Byte) :
    absorb (inBody (n + 1) raw method uri version headers body) c =
      if 0 < n then .inl (inBody n (raw ++ [c]) method uri version headers (body ++ [c]))
      else .inr (.good (inBody n (raw ++ [c]) method uri version headers (body ++ [c]))) := by
  have hdec : (n + 1 + (2 ^ 64 - 1)) % 2 ^ 64 = n := by omega
  rw [absorb, consume, consumeIn.eq_def]
  simp only [inBody, hdec, gt_iff_lt]
  split_ifs <;> rfl

/-- The body has exactly `remaining` bytes. -/
theorem stops_inBody (n : ℕ) : ∀ {xs raw body : Bytes}, n + 1 < 2 ^ 64 →
    (Stops absorb (inBody (n + 1) raw method uri version headers body) xs (.good r) rest ↔
      ∃ bs, xs = bs ++ rest ∧ bs.length = n + 1 ∧
        r = inBody 0 (raw ++ bs) method uri version headers (body ++ bs)) := by
  induction n with
  | zero =>
    intro xs raw body hn
    cases xs with
    | nil => simp
    | cons c xs =>
      have hstep : absorb (inBody (0 + 1) raw method uri version headers body) c = _ :=
        absorb_inBody (by decide) body c
      rw [if_neg (lt_irrefl 0)] at hstep
      rw [stops_cons_of_inr hstep]
      constructor
      · rintro ⟨h, rfl⟩
        exact ⟨[c], rfl, rfl, (Stop.good.inj h).symm⟩
      · rintro ⟨bs, hxs, hlen, rfl⟩
        obtain ⟨b, rfl⟩ := List.length_eq_one_iff.mp hlen
        obtain ⟨rfl, rfl⟩ := List.cons.inj hxs
        exact ⟨rfl, rfl⟩
  | succ n ih =>
    intro xs raw body hn
    cases xs with
    | nil => simp
    | cons c xs =>
      have hstep : absorb (inBody (n + 1 + 1) raw method uri version headers body) c = _ :=
        absorb_inBody (by omega) body c
      rw [if_pos (Nat.succ_pos n)] at hstep
      rw [stops_cons_of_inl hstep, ih (by omega)]
      constructor
      · rintro ⟨bs, rfl, hlen, rfl⟩
        exact ⟨c :: bs, rfl, by rw [List.length_cons, hlen], by simp⟩
      · rintro ⟨bs, hxs, hlen, rfl⟩
        rcases bs with _ | ⟨b, bs⟩
        · simp at hlen
        · obtain ⟨rfl, rfl⟩ := List.cons.inj hxs
          exact ⟨bs, rfl, by simpa using hlen, by simp⟩

/-- The object that the parser returns for a request with this text. -/
def RequestText.toRequest (m : RequestText) : Request :=
  ⟨if m.body = [] then .expectingNewline3 else .body, 0, m.render, m.method, m.uri, pathOf m.uri,
    m.version, m.headers, m.body⟩

theorem contentLength_lt (headers : Headers) : contentLength headers < 2 ^ 64 := by
  rw [contentLength]
  cases h : stoull (headerValue headers (bytes "Content-Length")) with
  | ok n => exact stoull_lt h
  | error e => exact Nat.two_pow_pos 64

/-- What the end of the headers does, by what `Content-Length` says.  A failed conversion leaves
`remaining` as it was. -/
theorem consumeIn_endOfHeaders {r : Request} (h : r.state = .expectingNewline3) :
    consumeIn r (byte '\n') =
      match stoull (headerValue r.headers (bytes "Content-Length")) with
      | .ok n =>
        if n > 0 then some (.indeterminate, { r with remaining := n, state := .body })
        else some (.good, { r with remaining := n })
      | .error _ => some (.good, r) := by
  rw [consumeIn.eq_def, h]
  rfl

/-- The end of the headers: what comes next is as long as the headers say. -/
theorem stops_expectingNewline3 :
    Stops absorb (late .expectingNewline3 raw method uri version headers) xs (.good r) rest ↔
      ∃ body, xs = byte '\n' :: body ++ rest ∧ body.length = contentLength headers ∧
        r = ⟨if body = [] then .expectingNewline3 else .body, 0, raw ++ byte '\n' :: body, method, uri,
          pathOf uri, version, headers, body⟩ := by
  rcases xs with _ | ⟨c, xs⟩
  · simp
  by_cases hc : c = byte '\n'
  swap
  · have hbad : absorb (late .expectingNewline3 raw method uri version headers) c =
        .inr (.bad (late .expectingNewline3 (raw ++ [c]) method uri version headers)) := by
      rw [absorb_late]
      simp only [consumeIn, late, if_neg hc]
      rfl
    rw [stops_cons_of_inr hbad]
    constructor
    · rintro ⟨h, -⟩
      cases h
    · rintro ⟨body, hxs, -⟩
      exact absurd (List.cons.inj hxs).1 hc
  subst hc
  have hlt := contentLength_lt headers
  -- the two ways in which there is no body end alike, as `remaining` was zero before
  have hstep : absorb (late .expectingNewline3 raw method uri version headers) (byte '\n') =
      if 0 < contentLength headers then
        .inl (inBody (contentLength headers) (raw ++ [byte '\n']) method uri version headers [])
      else .inr (.good (late .expectingNewline3 (raw ++ [byte '\n']) method uri version headers)) := by
    rw [absorb_late, consumeIn_endOfHeaders rfl]
    show classify (match stoull (headerValue headers (bytes "Content-Length")) with
      | .ok n => _
      | .error _ => _) = _
    cases hcl : stoull (headerValue headers (bytes "Content-Length")) with
    | error e =>
      have h0 : contentLength headers = 0 := by rw [contentLength, hcl]
      rw [h0]
      rfl
    | ok n =>
      have hn : contentLength headers = n := by rw [contentLength, hcl]
      rw [hn]
      rcases Nat.eq_zero_or_pos n with rfl | hpos
      · rfl
      · rw [if_pos hpos]
        exact congrArg classify (if_pos hpos)
  rcases hn : contentLength headers with _ | n
  · rw [hn, if_neg (lt_irrefl 0)] at hstep
    rw [stops_cons_of_inr hstep]
    constructor
    · rintro ⟨h, rfl⟩
      exact ⟨[], rfl, rfl, (Stop.good.inj h).symm⟩
    · rintro ⟨body, hxs, hlen, rfl⟩
      obtain rfl := List.length_eq_zero_iff.mp hlen
      exact ⟨rfl, (List.cons.inj hxs).2⟩
  · rw [hn, if_pos (Nat.succ_pos n)] at hstep
    rw [stops_cons_of_inl hstep, stops_inBody n (by omega)]
    constructor
    · rintro ⟨bs, rfl, hlen, rfl⟩
      have hne : bs ≠ [] := List.ne_nil_of_length_eq_add_one hlen
      exact ⟨bs, rfl, hlen, by simp [inBody, hne]⟩
    · rintro ⟨bs, hxs, hlen, rfl⟩
      have hne : bs ≠ [] := List.ne_nil_of_length_eq_add_one hlen
      exact ⟨bs, (List.cons.inj hxs).2, hlen, by simp [inBody, hne]⟩

/-! ### The language of a fresh request -/

/-- **What `Consume` accepts.**  A fresh object stops as good on the texts of the grammar, and is then the
request that the text describes. -/
theorem stops_fresh_iff :
    Stops absorb Request.fresh xs (.good r) rest ↔
      ∃ m : RequestText, xs = m.render ++ rest ∧ r = m.toRequest := by
  simp only [stops_method, stops_uri, stops_version, stops_headers, stops_expectingNewline3]
  constructor
  · rintro ⟨method, _, rfl, hm, hmt, uri, _, rfl, hu, hub, major, minor, _, rfl, ⟨hma, hmad⟩,
      ⟨hmi, hmid⟩, hts, _, rfl, body, rfl, hlen, rfl⟩
    refine ⟨⟨method, uri, major, minor, hts, body, hm, hmt, hu, hub, hma, hmad, hmi, hmid, hlen⟩, ?_, ?_⟩
    · simp [RequestText.render, RequestText.requestLine, RequestText.version, crlf, bytes]
    · simp [RequestText.toRequest, RequestText.render, RequestText.requestLine, RequestText.version,
        RequestText.headers, crlf, bytes]
  · rintro ⟨⟨method, uri, major, minor, hts, body, hm, hmt, hu, hub, hma, hmad, hmi, hmid, hlen⟩, rfl,
      rfl⟩
    refine ⟨method, _, ?_, hm, hmt, uri, _, rfl, hu, hub, major, minor, _, rfl, ⟨hma, hmad⟩,
      ⟨hmi, hmid⟩, hts, _, rfl, body, rfl, hlen, ?_⟩
    · simp [RequestText.render, RequestText.requestLine, RequestText.version, crlf, bytes]
    · simp [RequestText.toRequest, RequestText.render, RequestText.requestLine, RequestText.version,
        RequestText.headers, crlf, bytes]

/-- `Parse` on a fresh thread returns the request of the text its input starts with. -/
theorem parse_fresh_good_iff {s : Bytes} {t : ThreadState} {r : Request} :
    parse ThreadState.fresh s = some (t, some r) ↔
      t = ⟨.good, r.reset⟩ ∧ ∃ m : RequestText, m.render <+: s ∧ r = m.toRequest := by
  rw [parse_good_iff_stops]
  show _ ∧ (∃ rest, Stops absorb Request.fresh s (.good r) rest) ↔ _
  simp only [stops_fresh_iff]
  constructor
  · rintro ⟨ht, rest, m, rfl, hr⟩
    exact ⟨ht, m, List.prefix_append _ _, hr⟩
  · rintro ⟨ht, m, ⟨rest, rfl⟩, hr⟩
    exact ⟨ht, rest, m, rfl, hr⟩

/-- A result is good exactly when a request is returned. -/
theorem getParseResult_eq_good_iff {t t' : ThreadState} {s : Bytes} {ret : Option Request}
    (h : parse t s = some (t', ret)) : getParseResult t' = .good ↔ ∃ r, ret = some r := by
  rcases parse_eq_some_iff.mp h with ⟨r, -, rfl, rfl⟩ | ⟨r, rest, -, rfl, rfl⟩ | ⟨r, rest, -, rfl, rfl⟩
  · exact iff_of_false (fun h => by cases h) (fun h => by cases h.choose_spec)
  · exact iff_of_true rfl ⟨r, rfl⟩
  · exact iff_of_false (fun h => by cases h) (fun h => by cases h.choose_spec)

/-- Two request texts that one input starts with describe the same request. -/
theorem RequestText.toRequest_unique {s : Bytes} {m m' : RequestText} (h : m.render <+: s)
    (h' : m'.render <+: s) : m.toRequest = m'.toRequest := by
  obtain ⟨rest, rfl⟩ := h
  obtain ⟨rest', heq⟩ := h'
  have hm : Stops absorb Request.fresh (m.render ++ rest) (.good m.toRequest) rest :=
    stops_fresh_iff.mpr ⟨m, rfl, rfl⟩
  have hm' : Stops absorb Request.fresh (m.render ++ rest) (.good m'.toRequest) rest' :=
    stops_fresh_iff.mpr ⟨m', heq.symm, rfl⟩
  exact Stop.good.inj (hm.unique hm').1

/-- They are the same bytes. -/
theorem RequestText.render_unique {s : Bytes} {m m' : RequestText} (h : m.render <+: s)
    (h' : m'.render <+: s) : m.render = m'.render :=
  congrArg Request.rawRequest (toRequest_unique h h')

/-! ### Another URI in the same request -/

namespace RequestText

/-- The request with another URI. -/
def withUri (m : RequestText) (uri : Bytes) (hne : uri ≠ []) (hbyte : ∀ b ∈ uri, IsUriByte b) : RequestText :=
  { m with uri := uri, uri_ne := hne, uri_byte := hbyte }

/-- What follows the URI and its space. -/
def behindUri (m : RequestText) : Bytes := m.version ++ crlf ++ renderHeaders m.headerTexts ++ crlf ++ m.body

theorem render_eq_behindUri (m : RequestText) :
    m.render = m.method ++ byte ' ' :: (m.uri ++ byte ' ' :: m.behindUri) := by
  simp [render, requestLine, behindUri, bytes]

theorem space_notMem_method (m : RequestText) : byte ' ' ∉ m.method :=
  fun h => (m.method_token _ h).ne_space rfl

theorem space_notMem_uri (m : RequestText) : byte ' ' ∉ m.uri := fun h => (m.uri_byte _ h).2 rfl

/-- **The parts of the input that a request is at the front of.** -/
theorem render_prefix_iff (m : RequestText) {method uri tail : Bytes} (hmethod : byte ' ' ∉ method)
    (huri : byte ' ' ∉ uri) :
    m.render <+: method ++ byte ' ' :: (uri ++ byte ' ' :: tail) ↔
      m.method = method ∧ m.uri = uri ∧ m.behindUri <+: tail := by
  rw [render_eq_behindUri]
  constructor
  · intro h
    obtain ⟨rest, hrest⟩ := h
    simp only [List.append_assoc, List.cons_append] at hrest
    obtain ⟨hm, hrest⟩ := (append_cons_inj m.space_notMem_method hmethod).mp hrest
    obtain ⟨hu, hrest⟩ := (append_cons_inj m.space_notMem_uri huri).mp hrest
    exact ⟨hm, hu, rest, hrest⟩
  · intro h
    obtain ⟨hm, hu, rest, hrest⟩ := h
    refine ⟨rest, ?_⟩
    rw [hm, hu, ← hrest]
    simp

end RequestText

/-- A good request is one whose text stands at the front of the input. -/
theorem good_iff {s : Bytes} :
    (∃ t r, parse ThreadState.fresh s = some (t, some r)) ↔ ∃ m : RequestText, m.render <+: s := by
  constructor
  · intro h
    obtain ⟨t, r, h⟩ := h
    obtain ⟨-, m, hm, -⟩ := parse_fresh_good_iff.mp h
    exact ⟨m, hm⟩
  · intro h
    obtain ⟨m, hm⟩ := h
    exact ⟨_, _, parse_fresh_good_iff.mpr ⟨rfl, m, hm, rfl⟩⟩

/-- The object for `GET <uri> HTTP/1.0` with these headers, one line each. -/
def getRequest (uri : Bytes) (headers : Headers) : Request :=
  ⟨.expectingNewline3, 0, bytes "GET " ++ uri ++ bytes " HTTP/1.0\r\n" ++
    headers.flatMap (fun h => h.1 ++ bytes ": " ++ h.2 ++ crlf) ++ crlf, bytes "GET", uri, pathOf uri,
    bytes "HTTP/1.0", headers, []⟩

/-- **The language of the request parser.**  Unless the request line has an empty URI, a call on a fresh
thread is good if and only if its input starts with a text of the grammar.  That text is unique, it is
what `raw_request()` returns, and the other accessors return its parts. -/
theorem parse_accepts_language (s : Bytes) (hs : ¬ EmptyUriLine s) :
    (∃ t ret, parse ThreadState.fresh s = some (t, ret) ∧
      (getParseResult t = .good ↔ ∃ m : RequestText, m.render <+: s)) ∧
    (∀ m m' : RequestText, m.render <+: s → m'.render <+: s → m.render = m'.render) ∧
    ∀ m : RequestText, m.render <+: s → ∃ t r, parse ThreadState.fresh s = some (t, some r) ∧
      getParseResult t = .good ∧ r.rawRequest = m.render ∧ r.method = m.method ∧ r.uri = m.uri ∧
      r.version = m.version ∧ r.headers = m.headers ∧ r.body = m.body := by
  refine ⟨?_, fun m m' h h' => RequestText.render_unique h h', ?_⟩
  · obtain ⟨⟨t, ret⟩, hp⟩ := parse_fresh_isSome hs
    refine ⟨t, ret, hp, ?_⟩
    rw [getParseResult_eq_good_iff hp]
    constructor
    · rintro ⟨r, rfl⟩
      obtain ⟨-, m, hm, -⟩ := parse_fresh_good_iff.mp hp
      exact ⟨m, hm⟩
    · rintro ⟨m, hm⟩
      have hgood := parse_fresh_good_iff.mpr ⟨rfl, m, hm, rfl⟩
      rw [hp] at hgood
      exact ⟨m.toRequest, (Prod.mk.inj (Option.some.inj hgood)).2⟩
  · intro m hm
    exact ⟨⟨.good, m.toRequest.reset⟩, m.toRequest, parse_fresh_good_iff.mpr ⟨rfl, m, hm, rfl⟩,
      rfl, rfl, rfl, rfl, rfl, rfl, rfl⟩

/-- A header that goes on in a second line. -/
theorem parse_accepts_language_folded :
    ∃ t ret, parse ThreadState.fresh (bytes "GET / HTTP/1.0\r\nA: b\r\n c\r\n\r\n") = some (t, ret) ∧
      (getParseResult t = .good ↔
        ∃ m : RequestText, m.render <+: bytes "GET / HTTP/1.0\r\nA: b\r\n c\r\n\r\n") :=
  (parse_accepts_language _ (by decide)).1

end Webserver.Http
