import Webserver.Http.RequestLanguage
import Webserver.Support.LineEdit
import Webserver.StaticFile.StaticFileHandler

/-!
# The file and the query

The request parser infers the path from the URI with its query: the query is decoded, a `..` in it empties
the path, and a slash at the end of the path in front of it is not the end.  `StaticFileHandler` cuts the
query off afterwards.  So a query leaves the file alone except where one of the three rules of the parser
sees it, which is `query_file_iff`.
-/

namespace Webserver.StaticFile

open ByteString Http LineEdit Server

/-! ### The text of the two requests -/

/-- `Parse` answers good. -/
def Good (s : Bytes) : Prop := ∃ t r, parse ThreadState.fresh s = some (t, some r)

/-- The session hands the request on to a handler: it is good, and has a path. -/
def Accepts (s : Bytes) (r : Request) : Prop :=
  (∃ t, parse ThreadState.fresh s = some (t, some r)) ∧ r.path ≠ []

/-- A request with this URI. -/
def requestFor (method tail uri : Bytes) : Bytes := method ++ byte ' ' :: (uri ++ byte ' ' :: tail)

section Requests

variable {method tail u q : Bytes}

theorem good_requestFor_iff (hmethod : byte ' ' ∉ method) (hu : byte ' ' ∉ u) :
    Good (requestFor method tail u) ↔
      ∃ m : RequestText, m.method = method ∧ m.uri = u ∧ m.behindUri <+: tail := by
  refine good_iff.trans (exists_congr fun m => ?_)
  exact m.render_prefix_iff hmethod hu

theorem space_notMem_query (hu : byte ' ' ∉ u) (hq : ∀ b ∈ q, IsUriByte b) : byte ' ' ∉ u ++ byte '?' :: q := by
  rw [List.mem_append, List.mem_cons, not_or, not_or]
  exact ⟨hu, by decide, fun h => (hq _ h).2 rfl⟩

/-- **A query does not make a request good or bad.** -/
theorem good_query_iff (hmethod : byte ' ' ∉ method) (hu : byte ' ' ∉ u) (hne : u ≠ [])
    (hq : ∀ b ∈ q, IsUriByte b) :
    Good (requestFor method tail u) ↔ Good (requestFor method tail (u ++ byte '?' :: q)) := by
  rw [good_requestFor_iff hmethod hu, good_requestFor_iff hmethod (space_notMem_query hu hq)]
  constructor
  · intro h
    obtain ⟨m, rfl, rfl, htail⟩ := h
    refine ⟨m.withUri (m.uri ++ byte '?' :: q) (by simp) ?_, rfl, rfl, htail⟩
    intro b hb
    rcases List.mem_append.mp hb with hb | hb
    · exact m.uri_byte b hb
    · rcases List.mem_cons.mp hb with rfl | hb
      · decide
      · exact hq b hb
  · intro h
    obtain ⟨m, rfl, hm, htail⟩ := h
    refine ⟨m.withUri u hne ?_, rfl, rfl, htail⟩
    intro b hb
    exact m.uri_byte b (hm ▸ List.mem_append_left _ hb)

/-- An accepted request has the URI that it was sent with. -/
theorem accepts_requestFor (hmethod : byte ' ' ∉ method) (hu : byte ' ' ∉ u) {r : Request}
    (h : Accepts (requestFor method tail u) r) : r.path = pathOf u := by
  obtain ⟨⟨t, hparse⟩, -⟩ := h
  obtain ⟨-, m, hm, rfl⟩ := parse_fresh_good_iff.mp hparse
  obtain ⟨-, rfl, -⟩ := (m.render_prefix_iff hmethod hu).mp hm
  rfl

/-- A good request is accepted when its URI has a path. -/
theorem exists_accepts_iff (hmethod : byte ' ' ∉ method) (hu : byte ' ' ∉ u)
    (hgood : Good (requestFor method tail u)) :
    (∃ r, Accepts (requestFor method tail u) r) ↔ pathOf u ≠ [] := by
  constructor
  · intro h
    obtain ⟨r, hr⟩ := h
    rw [← accepts_requestFor hmethod hu hr]
    exact hr.2
  · intro h
    obtain ⟨t, r, hparse⟩ := hgood
    obtain ⟨-, m, hm, rfl⟩ := parse_fresh_good_iff.mp hparse
    obtain ⟨-, rfl, -⟩ := (m.render_prefix_iff hmethod hu).mp hm
    exact ⟨m.toRequest, ⟨t, hparse⟩, h⟩

end Requests

/-! ### The two paths -/

/-- The dots of a path with a query are in the path or in the query. -/
theorem dots_query_iff (d e : Bytes) :
    bytes ".." <:+: d ++ byte '?' :: e ↔ bytes ".." <:+: d ∨ bytes ".." <:+: e := by
  have hhead : ∀ c ∈ (byte '?' :: e).head?, c ∉ (bytes "..").tail := by
    intro c hc
    obtain rfl := Option.some.inj hc
    decide
  rw [infix_append_iff hhead, List.infix_cons_iff]
  refine or_congr_right (or_iff_right ?_)
  intro h
  exact absurd (List.cons_prefix_cons.mp h).1 (by decide)

/-- What the handler leaves of a path with a query. -/
theorem fileRest_query {p d : Bytes} (hp : p <+: d) (e : Bytes) :
    fileRest p (d ++ byte '?' :: e) = (d.drop p.length).takeWhile (· ≠ byte '?') := by
  rw [fileRest, List.drop_append_of_le_length hp.length_le]
  exact takeWhile_append_cons (by decide) _ e

/-- The file name gets an index: the path ends in a slash, and has no question mark of its own. -/
def GetsIndex (p d : Bytes) : Prop := d.getLast? = some (byte '/') ∧ byte '?' ∉ d.drop p.length

instance (p d : Bytes) : Decidable (GetsIndex p d) := inferInstanceAs (Decidable (_ ∧ _))

/-- What the handler leaves of a path without a query. -/
theorem fileRest_withIndex {p d : Bytes} (hp : p <+: d) :
    fileRest p (withIndex d) =
      (d.drop p.length).takeWhile (· ≠ byte '?') ++ if GetsIndex p d then bytes "index.html" else [] := by
  rw [fileRest, withIndex]
  by_cases hlast : d.getLast? = some (byte '/')
  · rw [if_pos hlast, List.drop_append_of_le_length hp.length_le]
    by_cases hmem : byte '?' ∈ d.drop p.length
    · rw [takeWhile_ne_append_of_mem hmem, if_neg fun h => h.2 hmem, List.append_nil]
    · have hself := takeWhile_ne_eq_self_iff.mpr hmem
      rw [takeWhile_ne_append_of_notMem hmem, hself, if_pos ⟨hlast, hmem⟩]
      rfl
  · rw [if_neg hlast, if_neg fun h => hlast h.1, List.append_nil]

/-- **The names that are opened** with and without a query differ only by an index. -/
theorem cStr_index_iff (root x : Bytes) :
    cStr (root ++ (x ++ bytes "index.html")) = cStr (root ++ x) ↔ (0 : Byte) ∈ root ++ x := by
  rw [← List.append_assoc]
  by_cases hzero : (0 : Byte) ∈ root ++ x
  · exact iff_of_true (cStr_append_of_mem hzero _) hzero
  · refine iff_of_false ?_ hzero
    rw [cStr_append_of_notMem hzero, cStr_eq_self hzero]
    intro h
    have hlen := congrArg List.length h
    rw [List.length_append] at hlen
    have hindex : (cStr (bytes "index.html")).length = 10 := by decide
    omega

/-! ### When the query does not matter -/

/-- **A query that leaves the file alone**: it decodes and has no `..`, and where the path in front of it
gets an index, a NUL byte hides the index from the file system. -/
def LeavesFile (h : StaticFileHandler) (d q : Bytes) : Prop :=
  (∃ e, percentDecode q = some e ∧ ¬ bytes ".." <:+: e) ∧
    (GetsIndex h.pathPrefix d → (0 : Byte) ∈ h.root ++ d.drop h.pathPrefix.length)

/-- **The two names are the same** unless an index comes between them. -/
theorem openedName_query_iff {h : StaticFileHandler} {r r' : Request} {d e : Bytes} (hp : h.pathPrefix <+: d)
    (hr : r.path = withIndex d) (hr' : r'.path = d ++ byte '?' :: e) :
    openedName h r = openedName h r' ↔
      (GetsIndex h.pathPrefix d → (0 : Byte) ∈ h.root ++ d.drop h.pathPrefix.length) := by
  have hfront : h.pathPrefix <+: r.path := by
    rw [hr]
    exact hp.trans (isPrefix_withIndex d)
  have hfront' : h.pathPrefix <+: r'.path := by
    rw [hr']
    exact hp.trans (List.prefix_append _ _)
  rw [openedName_eq hfront, openedName_eq hfront', Except.ok.injEq, hr, hr', fileRest_query hp,
    fileRest_withIndex hp]
  by_cases hindex : GetsIndex h.pathPrefix d
  · have hself := takeWhile_ne_eq_self_iff.mpr hindex.2
    rw [if_pos hindex, hself, cStr_index_iff]
    exact ⟨fun hzero _ => hzero, fun hzero => hzero hindex⟩
  · rw [if_neg hindex, List.append_nil]
    exact iff_of_true rfl fun h => absurd h hindex

/-- The path of the request with a query. -/
theorem pathOf_query_ne_nil_iff {u q d : Bytes} (hd : percentDecode u = some d) :
    pathOf (u ++ byte '?' :: q) ≠ [] ↔
      ¬ bytes ".." <:+: d ∧ ∃ e, percentDecode q = some e ∧ ¬ bytes ".." <:+: e := by
  rw [pathOf_ne_nil_iff (by simp), percentDecode_query hd]
  cases hq : percentDecode q with
  | none => simp
  | some e =>
    simp only [Option.map_some, Option.some.injEq, exists_eq_left', dots_query_iff, not_or]

/-- Only a good request is accepted. -/
theorem Accepts.good {s : Bytes} {r : Request} (h : Accepts s r) : Good s := by
  obtain ⟨t, ht⟩ := h.1
  exact ⟨t, r, ht⟩

/-- **The names of two accepted requests**, where the decoded path and query have no `..`. -/
theorem accepted_names_iff {h : StaticFileHandler} {method tail u q d e : Bytes} (hmethod : byte ' ' ∉ method)
    (hu : byte ' ' ∉ u) (hne : u ≠ []) (hq : ∀ b ∈ q, IsUriByte b) (hd : percentDecode u = some d)
    (hdots : ¬ bytes ".." <:+: d) (he : percentDecode q = some e) (hedots : ¬ bytes ".." <:+: e)
    (hp : h.pathPrefix <+: d) {r r' : Request} (hr : Accepts (requestFor method tail u) r)
    (hr' : Accepts (requestFor method tail (u ++ byte '?' :: q)) r') :
    openedName h r = openedName h r' ↔
      (GetsIndex h.pathPrefix d → (0 : Byte) ∈ h.root ++ d.drop h.pathPrefix.length) := by
  obtain ⟨e', he'⟩ := withIndex_query d e
  have hquery : percentDecode (u ++ byte '?' :: q) = some (d ++ byte '?' :: e) := by
    rw [percentDecode_query hd, he]
    rfl
  have hquerydots : ¬ bytes ".." <:+: d ++ byte '?' :: e := by
    rw [dots_query_iff]
    exact fun h => h.elim hdots hedots
  refine @openedName_query_iff h r r' d e' hp ?_ ?_
  · rw [accepts_requestFor hmethod hu hr, pathOf_of_decoded hne hd hdots]
  · rw [accepts_requestFor hmethod (space_notMem_query hu hq) hr', ← he',
      pathOf_of_decoded (by simp) hquery hquerydots]

/-- **The query chooses neither acceptance nor the file** exactly under this condition.  For a URI whose
decoded form starts with the prefix of the handler, and a query of URI bytes: the request with the query is
accepted if and only if the one without is, and `HandleRequest` opens the same name for both, if and only if
the request is bad anyway, or the decoded URI has `..` anyway, or the query leaves the file alone. -/
theorem query_file_iff {h : StaticFileHandler} {method tail u q d : Bytes} (hmethod : byte ' ' ∉ method)
    (hu : byte ' ' ∉ u) (hne : u ≠ []) (hq : ∀ b ∈ q, IsUriByte b) (hd : percentDecode u = some d)
    (hp : h.pathPrefix <+: d) :
    (((∃ r, Accepts (requestFor method tail u) r) ↔
          ∃ r, Accepts (requestFor method tail (u ++ byte '?' :: q)) r) ∧
        ∀ r r', Accepts (requestFor method tail u) r →
          Accepts (requestFor method tail (u ++ byte '?' :: q)) r' → openedName h r = openedName h r') ↔
      (Good (requestFor method tail u) → bytes ".." <:+: d ∨ LeavesFile h d q) := by
  by_cases hgood : Good (requestFor method tail u)
  swap
  · -- neither request is good
    have hbad : ∀ r, ¬ Accepts (requestFor method tail u) r := fun r hr => hgood hr.good
    have hbad' : ∀ r, ¬ Accepts (requestFor method tail (u ++ byte '?' :: q)) r := fun r hr =>
      hgood ((good_query_iff hmethod hu hne hq).mpr hr.good)
    refine iff_of_true ⟨iff_of_false (fun h => hbad _ h.choose_spec) (fun h => hbad' _ h.choose_spec), ?_⟩
      fun h => absurd h hgood
    exact fun r r' hr => absurd hr (hbad r)
  have hgood' := (good_query_iff hmethod hu hne hq).mp hgood
  have hu' := space_notMem_query hu hq
  have hpath : pathOf u ≠ [] ↔ ¬ bytes ".." <:+: d := by
    rw [pathOf_ne_nil_iff hne, hd]
    simp only [Option.some.injEq, exists_eq_left']
  rw [exists_accepts_iff hmethod hu hgood, exists_accepts_iff hmethod hu' hgood', hpath,
    pathOf_query_ne_nil_iff hd]
  by_cases hdots : bytes ".." <:+: d
  · -- neither request has a path
    refine iff_of_true ⟨iff_of_false (fun h => h hdots) (fun h => h.1 hdots), ?_⟩ fun _ => .inl hdots
    intro r r' hr
    have hnil := accepts_requestFor hmethod hu hr
    exact absurd (hnil ▸ hr.2) (fun h => hpath.mp h hdots)
  constructor
  · intro hsame _
    obtain ⟨-, e, he, hedots⟩ := hsame.1.mp hdots
    refine .inr ⟨⟨e, he, hedots⟩, ?_⟩
    obtain ⟨r, hr⟩ := (exists_accepts_iff hmethod hu hgood).mpr (hpath.mpr hdots)
    obtain ⟨r', hr'⟩ := (exists_accepts_iff hmethod hu' hgood').mpr
      ((pathOf_query_ne_nil_iff hd).mpr ⟨hdots, e, he, hedots⟩)
    exact (accepted_names_iff hmethod hu hne hq hd hdots he hedots hp hr hr').mp (hsame.2 r r' hr hr')
  · intro hleaves
    obtain ⟨⟨e, he, hedots⟩, hindex⟩ := (hleaves hgood).resolve_left hdots
    refine ⟨iff_of_true hdots ⟨hdots, e, he, hedots⟩, ?_⟩
    intro r r' hr hr'
    exact (accepted_names_iff hmethod hu hne hq hd hdots he hedots hp hr hr').mpr hindex

/-- A query behind the name of a file. -/
theorem query_file_iff_file :
    (((∃ r, Accepts (requestFor (bytes "GET") (bytes "HTTP/1.0\r\n\r\n") (bytes "/f")) r) ↔
          ∃ r, Accepts (requestFor (bytes "GET") (bytes "HTTP/1.0\r\n\r\n") (bytes "/f?x")) r) ∧
        ∀ r r', Accepts (requestFor (bytes "GET") (bytes "HTTP/1.0\r\n\r\n") (bytes "/f")) r →
          Accepts (requestFor (bytes "GET") (bytes "HTTP/1.0\r\n\r\n") (bytes "/f?x")) r' →
            openedName ⟨[], bytes "/w"⟩ r = openedName ⟨[], bytes "/w"⟩ r') ↔
      (Good (requestFor (bytes "GET") (bytes "HTTP/1.0\r\n\r\n") (bytes "/f")) →
        bytes ".." <:+: bytes "/f" ∨ LeavesFile ⟨[], bytes "/w"⟩ (bytes "/f") (bytes "x")) :=
  query_file_iff (by decide) (by decide) (by decide) (by decide) (by decide) List.nil_prefix

/-- A directory gets its index without a query only. -/
theorem openedName_query_ne :
    ∃ r r', Accepts (requestFor (bytes "GET") (bytes "HTTP/1.0\r\n\r\n") (bytes "/d/")) r ∧
      Accepts (requestFor (bytes "GET") (bytes "HTTP/1.0\r\n\r\n") (bytes "/d/?x")) r' ∧
      openedName ⟨[], bytes "/w"⟩ r = .ok (bytes "/w/d/index.html") ∧
      openedName ⟨[], bytes "/w"⟩ r' = .ok (bytes "/w/d/") :=
  ⟨getRequest (bytes "/d/") [], getRequest (bytes "/d/?x") [],
    ⟨⟨⟨.good, Request.fresh⟩, by decide⟩, by decide⟩, ⟨⟨⟨.good, Request.fresh⟩, by decide⟩, by decide⟩,
    by decide, by decide⟩

end Webserver.StaticFile
