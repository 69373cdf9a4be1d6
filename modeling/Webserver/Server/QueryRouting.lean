import Webserver.Http.RequestLanguage
import Webserver.Server.Session

/-!
# Routing and the query

The path that a request is dispatched with still has its query.  Below the decoded URI without the query the
boundary prefixes of both paths are the same.  The path without a query has one more, itself; the path with
a query has those that reach into the query.  So the query chooses the handler exactly when one of these is
registered (`dispatched_query_iff`).
-/

namespace Webserver.Server

open ByteString Http OrderedMap

/-! ### Boundary prefixes with and without a query -/

/-- A proper prefix of `d` has the same boundary in every continuation of `d`. -/
theorem Boundary.of_append {k d x y : Bytes} (h : Boundary k (d ++ x)) (hlt : k.length < d.length) :
    Boundary k (d ++ y) := by
  have hk : k <+: d := List.prefix_of_prefix_length_le h.1 (List.prefix_append d x) hlt.le
  refine ⟨hk.trans (List.prefix_append d y), ?_⟩
  rcases h.2 with heq | hlast | hnext | hnil
  · have hlen := congrArg List.length heq
    rw [List.length_append] at hlen
    omega
  · exact .inr (.inl hlast)
  · rw [List.getElem?_append_left hlt] at hnext
    refine .inr (.inr (.inl ?_))
    rwa [List.getElem?_append_left hlt]
  · exact .inr (.inr (.inr hnil))

/-- The text in front of a query is a boundary prefix only when it ends in a slash. -/
theorem boundary_query_iff {d e : Bytes} (hd : d ≠ []) :
    Boundary d (d ++ byte '?' :: e) ↔ d.getLast? = some (byte '/') := by
  constructor
  · intro h
    rcases h.2 with heq | hlast | hnext | hnil
    · have hlen := congrArg List.length heq
      rw [List.length_append, List.length_cons] at hlen
      omega
    · exact hlast
    · rw [List.getElem?_append_right le_rfl, Nat.sub_self] at hnext
      exact absurd (Option.some.inj hnext) (by decide)
    · exact absurd hnil hd
  · intro hlast
    exact ⟨List.prefix_append _ _, .inr (.inl hlast)⟩

/-- A path without a query is no boundary prefix of the path with one. -/
theorem not_boundary_withIndex {d e : Bytes} (hd : d ≠ []) :
    ¬ Boundary (withIndex d) (d ++ byte '?' :: e) := by
  rw [withIndex]
  split_ifs with hlast
  · intro h
    have hprefix := (List.prefix_append_right_inj d).mp h.1
    exact absurd (List.cons_prefix_cons.mp hprefix).1 (by decide)
  · rwa [boundary_query_iff hd]

/-- **Without the query.**  A boundary prefix of the plain path, other than the path itself, is one of the
path with a query. -/
theorem Boundary.addQuery {d k : Bytes} (h : Boundary k (withIndex d)) (hk : k ≠ withIndex d) (e : Bytes) :
    Boundary k (d ++ byte '?' :: e) ∧ k <+: d := by
  rw [withIndex] at h hk
  split_ifs at h hk with hlast
  · have hle : k.length ≤ d.length := by
      by_contra hgt
      have hlen := h.length_le (by decide) List.prefix_rfl (not_le.mp hgt)
      exact hk (h.1.eq_of_length (le_antisymm h.1.length_le hlen))
    have hkd : k <+: d := List.prefix_of_prefix_length_le h.1 (List.prefix_append _ _) hle
    refine ⟨?_, hkd⟩
    rcases Nat.lt_or_eq_of_le hle with hlt | heq
    · exact h.of_append hlt
    · obtain rfl := hkd.eq_of_length heq
      exact ⟨List.prefix_append _ _, .inr (.inl hlast)⟩
  · have hlt : k.length < d.length :=
      lt_of_le_of_ne h.1.length_le fun heq => hk (h.1.eq_of_length heq)
    refine ⟨?_, h.1⟩
    rw [← List.append_nil d] at h
    exact h.of_append hlt

/-- **With the query.**  A boundary prefix that does not reach into the query is one of the plain path. -/
theorem Boundary.dropQuery {d k e : Bytes} (hd : d ≠ []) (h : Boundary k (d ++ byte '?' :: e))
    (hk : ¬ d ++ [byte '?'] <+: k) : Boundary k (withIndex d) ∧ k <+: d := by
  have hle : k.length ≤ d.length := by
    by_contra hgt
    refine hk (List.prefix_of_prefix_length_le ?_ h.1 ?_)
    · exact ⟨e, by rw [List.append_assoc]; rfl⟩
    · rw [List.length_append, List.length_singleton]
      omega
  have hkd : k <+: d := List.prefix_of_prefix_length_le h.1 (List.prefix_append _ _) hle
  refine ⟨?_, hkd⟩
  obtain ⟨i, hi⟩ := isPrefix_withIndex d
  rw [← hi]
  rcases Nat.lt_or_eq_of_le hle with hlt | heq
  · exact h.of_append hlt
  · obtain rfl := hkd.eq_of_length heq
    exact ⟨List.prefix_append _ _, .inr (.inl ((boundary_query_iff hd).mp h))⟩

/-! ### The selected key -/

section Routing

variable {η : Type*} {handlers : HandlerMap η}

/-- **What `dispatch` selects**: the longest boundary prefix that is registered. -/
theorem dispatch_spec (handlers : HandlerMap η) (path : Bytes) :
    ∃ k handler, dispatch handlers.map path = some (.ok (k, handler)) ∧ handlers.map.find k = some handler ∧
      Boundary k path ∧ ∀ k', (handlers.map.find k').isSome → Boundary k' path → k'.length ≤ k.length := by
  obtain ⟨r, hr⟩ := dispatch_isSome handlers path
  obtain ⟨k, handler, rfl, hfind, hboundary, hlongest⟩ := returns_dispatch ⟨_, hr⟩
  exact ⟨k, handler, hr, hfind, hboundary, hlongest⟩

/-- **When the query does not matter**: the plain path is no key, and no key reaches into the query. -/
theorem dispatch_query_iff {d e : Bytes} (hd : d ≠ []) :
    dispatch handlers.map (withIndex d) = dispatch handlers.map (d ++ byte '?' :: e) ↔
      handlers.map.find (withIndex d) = none ∧
        ∀ k, (handlers.map.find k).isSome → Boundary k (d ++ byte '?' :: e) → ¬ d ++ [byte '?'] <+: k := by
  obtain ⟨k, handler, hdispatch, hfind, hboundary, hlongest⟩ := dispatch_spec handlers (withIndex d)
  obtain ⟨k', handler', hdispatch', hfind', hboundary', hlongest'⟩ :=
    dispatch_spec handlers (d ++ byte '?' :: e)
  rw [hdispatch, hdispatch']
  constructor
  · intro heq
    obtain ⟨rfl, rfl⟩ := Prod.mk.inj (Except.ok.inj (Option.some.inj heq))
    refine ⟨?_, ?_⟩
    · by_contra hkey
      have hle := hlongest _ (Option.isSome_iff_ne_none.mpr hkey) (boundary_self _)
      obtain rfl := hboundary.1.eq_of_length (le_antisymm hboundary.1.length_le hle)
      exact not_boundary_withIndex hd hboundary'
    · intro q hq hqboundary hreach
      have hqk : q <+: k :=
        List.prefix_of_prefix_length_le hqboundary.1 hboundary'.1 (hlongest' q hq hqboundary)
      have hle := ((hreach.trans hqk).trans hboundary.1)
      rw [withIndex] at hle
      split_ifs at hle
      · have hchar := (List.prefix_append_right_inj d).mp hle
        exact absurd (List.cons_prefix_cons.mp hchar).1 (by decide)
      · have hlen := hle.length_le
        rw [List.length_append, List.length_singleton] at hlen
        omega
  · intro h
    obtain ⟨hplain, hquery⟩ := h
    have hk : k ≠ withIndex d := by
      intro heq
      rw [← heq, hfind] at hplain
      cases hplain
    obtain ⟨hkquery, hkd⟩ := hboundary.addQuery hk e
    have hk' : ¬ d ++ [byte '?'] <+: k' := hquery k' (Option.isSome_of_eq_some hfind') hboundary'
    obtain ⟨hkplain', hkd'⟩ := hboundary'.dropQuery hd hk'
    have hle := hlongest' k (Option.isSome_of_eq_some hfind) hkquery
    have hle' := hlongest k' (Option.isSome_of_eq_some hfind') hkplain'
    obtain rfl : k = k' :=
      (List.prefix_of_prefix_length_le hkd hkd' hle).eq_of_length (le_antisymm hle hle')
    rw [hfind] at hfind'
    rw [Option.some.inj hfind']

/-- Two requests with a path are dispatched to the same handler exactly when their paths select the same
key. -/
theorem dispatched_same_iff {r r' : Request} (hpath : r.path ≠ []) (hpath' : r'.path ≠ []) :
    (∃ k handler, Dispatched handlers r k handler ∧ Dispatched handlers r' k handler) ↔
      dispatch handlers.map r.path = dispatch handlers.map r'.path := by
  constructor
  · intro h
    obtain ⟨k, handler, h₁, h₂⟩ := h
    exact h₁.2.trans h₂.2.symm
  · intro heq
    obtain ⟨k, handler, hdispatch, -⟩ := dispatch_spec handlers r.path
    exact ⟨k, handler, ⟨hpath, hdispatch⟩, hpath', heq ▸ hdispatch⟩

/-- The paths of a URI and of the same URI with a query, when there are any. -/
theorem paths_of_query {u q : Bytes} (hu : u ≠ []) (hpath : pathOf u ≠ [])
    (hpath' : pathOf (u ++ byte '?' :: q) ≠ []) :
    ∃ d e, percentDecode u = some d ∧ pathOf u = withIndex d ∧
      pathOf (u ++ byte '?' :: q) = d ++ byte '?' :: e := by
  obtain ⟨d, hd, hdots⟩ := (pathOf_ne_nil_iff hu).mp hpath
  obtain ⟨d', hd', hdots'⟩ := (pathOf_ne_nil_iff (List.append_ne_nil_of_left_ne_nil hu _)).mp hpath'
  obtain ⟨e, -, rfl⟩ := Option.map_eq_some_iff.mp ((percentDecode_query hd q).symm.trans hd')
  obtain ⟨e', he'⟩ := withIndex_query d e
  refine ⟨d, e', hd, pathOf_of_decoded hu hd hdots, ?_⟩
  rw [← he']
  exact pathOf_of_decoded (List.append_ne_nil_of_left_ne_nil hu _) hd' hdots'

/-- **The query chooses the handler exactly when a key sees it.**  Two requests for a URI and for the same
URI with a query, both with a path, are dispatched to the same handler if and only if the path of the first
is not a key itself, and no key that is a boundary prefix of the path of the second reaches into the
query. -/
theorem dispatched_query_iff {s s' q : Bytes} {t t' : ThreadState} {r r' : Request}
    (hparse : parse ThreadState.fresh s = some (t, some r))
    (hparse' : parse ThreadState.fresh s' = some (t', some r')) (huri : r'.uri = r.uri ++ byte '?' :: q)
    (hpath : r.path ≠ []) (hpath' : r'.path ≠ []) :
    (∃ k handler, Dispatched handlers r k handler ∧ Dispatched handlers r' k handler) ↔
      handlers.map.find r.path = none ∧
        ∀ d k, percentDecode r.uri = some d → (handlers.map.find k).isSome → Boundary k r'.path →
          ¬ d ++ [byte '?'] <+: k := by
  rw [dispatched_same_iff hpath hpath']
  obtain ⟨-, m, -, rfl⟩ := parse_fresh_good_iff.mp hparse
  obtain ⟨-, m', -, rfl⟩ := parse_fresh_good_iff.mp hparse'
  have hquery : m'.uri = m.uri ++ byte '?' :: q := huri
  have hpaths : pathOf (m.uri ++ byte '?' :: q) ≠ [] := hquery ▸ hpath'
  obtain ⟨d, e, hd, hplain, hwith⟩ := paths_of_query m.uri_ne hpath hpaths
  have hr : m.toRequest.path = withIndex d := hplain
  have hr' : m'.toRequest.path = d ++ byte '?' :: e := (congrArg pathOf hquery).trans hwith
  have huniq : ∀ d₁, percentDecode m.toRequest.uri = some d₁ ↔ d = d₁ := by
    intro d₁
    show percentDecode m.uri = some d₁ ↔ d = d₁
    rw [hd, Option.some.injEq]
  simp only [hr, hr', huniq]
  rw [dispatch_query_iff (percentDecode_ne_nil m.uri_ne hd)]
  constructor
  · intro h
    refine ⟨h.1, ?_⟩
    intro d₁ k hd₁
    rw [← hd₁]
    exact h.2 k
  · intro h
    exact ⟨h.1, fun k => h.2 d k rfl⟩

end Routing

/-- The handlers of one `path` block. -/
def echoHandlers : HandlerMap RequestHandler :=
  (parseFreshHandlers ⟨[⟨[bytes "path", bytes "/echo", bytes "EchoHandler"], some .empty⟩]⟩).handlers

/-- Below the key, the query does not matter. -/
theorem dispatched_query_below :
    (∃ k handler, Dispatched echoHandlers (getRequest (bytes "/echo/a") []) k handler ∧
        Dispatched echoHandlers (getRequest (bytes "/echo/a?x") []) k handler) ↔
      echoHandlers.map.find (getRequest (bytes "/echo/a") []).path = none ∧
        ∀ d k, percentDecode (bytes "/echo/a") = some d → (echoHandlers.map.find k).isSome →
          Boundary k (getRequest (bytes "/echo/a?x") []).path → ¬ d ++ [byte '?'] <+: k := by
  have h : parse ThreadState.fresh (bytes "GET /echo/a HTTP/1.0\r\n\r\n") =
      some (⟨.good, Request.fresh⟩, some (getRequest (bytes "/echo/a") [])) := by decide
  have h' : parse ThreadState.fresh (bytes "GET /echo/a?x HTTP/1.0\r\n\r\n") =
      some (⟨.good, Request.fresh⟩, some (getRequest (bytes "/echo/a?x") [])) := by decide
  exact dispatched_query_iff h h' rfl (by decide) (by decide)

/-- The key itself answers without a query, and the default handler with one. -/
theorem dispatched_query_key :
    parse ThreadState.fresh (bytes "GET /echo HTTP/1.0\r\n\r\n") =
        some (⟨.good, Request.fresh⟩, some (getRequest (bytes "/echo") [])) ∧
      parse ThreadState.fresh (bytes "GET /echo?x HTTP/1.0\r\n\r\n") =
        some (⟨.good, Request.fresh⟩, some (getRequest (bytes "/echo?x") [])) ∧
      Dispatched echoHandlers (getRequest (bytes "/echo") []) (bytes "/echo") .echoHandler ∧
      Dispatched echoHandlers (getRequest (bytes "/echo?x") []) [] .notFoundHandler ∧
      ¬ ∃ k handler, Dispatched echoHandlers (getRequest (bytes "/echo") []) k handler ∧
        Dispatched echoHandlers (getRequest (bytes "/echo?x") []) k handler := by
  have hplain : Dispatched echoHandlers (getRequest (bytes "/echo") []) (bytes "/echo") .echoHandler :=
    ⟨by decide, by decide⟩
  have hquery : Dispatched echoHandlers (getRequest (bytes "/echo?x") []) [] .notFoundHandler :=
    ⟨by decide, by decide⟩
  refine ⟨by decide, by decide, hplain, hquery, ?_⟩
  intro h
  obtain ⟨k, handler, h₁, h₂⟩ := h
  have heq := (hplain.2.symm.trans h₁.2).trans (h₂.2.symm.trans hquery.2)
  exact absurd heq (by decide)

end Webserver.Server
