import Webserver.StaticFile.FormData
import Webserver.StaticFile.QueryFile

/-!
# The question mark of the file and that of the form

`HandleRequest` cuts the decoded path at its first question mark, and `lua_get` cuts the URI behind its last
one.  The two agree on a URI with one question mark.  A second one in the query is data for the file path and
a separator for the form; an escape can make a question mark that only `HandleRequest` sees, and an escape
with one digit can hide one from it.

* `luaGet_eq` — `get` is `form2table` on the text of `formText`.
* `formText_query_iff`, `isFilePath_query_iff` — each of the two cuts, on a URI with a query.
* `splitsTogether_iff` — the two cuts are made at the same question mark exactly under `CutsOnce`.
-/

namespace Webserver.StaticFile

open ByteString CxxString Http Server

/-! ### The text that `get` parses -/

/-- The argument of `form2table` in `lua_get`, if it is called. -/
def formText (request : Request) : Except StdException (Option Bytes) :=
  match findLastOf (bytes "?") request.uri with
  | none => .ok none
  | some lastQuestionMark => do
    let data ← substr request.uri (some (lastQuestionMark + 1)) npos
    return some data

theorem luaGet_eq (request : Request) :
    luaGet request = (formText request).map fun data => (data.map form2table).getD .empty := by
  rw [luaGet, formText]
  cases findLastOf (bytes "?") request.uri with
  | none => rfl
  | some i =>
    show (substr request.uri (some (i + 1)) npos >>= fun data => Except.ok (form2table data)) =
      Except.map _ (substr request.uri (some (i + 1)) npos >>= fun data => Except.ok (some data))
    cases substr request.uri (some (i + 1)) npos with
    | error e => rfl
    | ok data => rfl

theorem mem_question_iff {c : Byte} : c ∈ bytes "?" ↔ c = byte '?' := List.mem_singleton

theorem formText_of_notMem {r : Request} (h : byte '?' ∉ r.uri) : formText r = .ok none := by
  have hnone : findLastOf (bytes "?") r.uri = none := by
    apply findLastOf_eq_none_iff.mpr
    intro c hc hmem
    exact h (mem_question_iff.mp hmem ▸ hc)
  rw [formText, hnone]

/-- Everything behind the last question mark. -/
theorem formText_append {r : Request} {a b : Bytes} (huri : r.uri = a ++ byte '?' :: b) (hb : byte '?' ∉ b) :
    formText r = .ok (some b) := by
  have hlast : findLastOf (bytes "?") r.uri = some a.length := by
    rw [huri]
    apply findLastOf_append_cons (mem_question_iff.mpr rfl)
    intro c hc hmem
    exact hb (mem_question_iff.mp hmem ▸ hc)
  have hsplit : r.uri = (a ++ [byte '?']) ++ b := by
    rw [huri, List.append_assoc]
    rfl
  have hlen : (a ++ [byte '?']).length = a.length + 1 := by
    rw [List.length_append, List.length_singleton]
  have hle : a.length + 1 ≤ r.uri.length := by
    rw [hsplit, List.length_append, hlen]
    omega
  have hdrop : r.uri.drop (a.length + 1) = b := by
    rw [hsplit, ← hlen, List.drop_left]
  rw [formText, hlast]
  show (substr r.uri (some (a.length + 1)) npos >>= fun data => Except.ok (some data)) = _
  rw [substr_of_le hle, hdrop]
  rfl

/-- **`get` parses a query** when the query has no question mark of its own. -/
theorem formText_query_iff {r : Request} {u q : Bytes} (huri : r.uri = u ++ byte '?' :: q) :
    formText r = .ok (some q) ↔ byte '?' ∉ q := by
  constructor
  · intro h hmem
    obtain ⟨a, b, rfl, hb⟩ := exists_last_split hmem
    have hsplit : r.uri = (u ++ byte '?' :: a) ++ byte '?' :: b := by
      rw [huri, List.append_assoc]
      rfl
    rw [formText_append hsplit hb, Except.ok.injEq, Option.some.injEq] at h
    apply hb
    rw [h]
    exact hmem
  · intro hq
    exact formText_append huri hq

/-! ### The file path -/

/-- The handler serves this path: its prefix, and the file path that is left of the request. -/
def IsFilePath (h : StaticFileHandler) (r : Request) (path : Bytes) : Prop :=
  ∃ rest, filePath h r = .ok rest ∧ h.pathPrefix ++ rest = path

/-- The handler serves the whole of a path that has no question mark behind the prefix. -/
theorem isFilePath_self_iff {h : StaticFileHandler} {r : Request} (hfront : h.pathPrefix <+: r.path) :
    IsFilePath h r r.path ↔ byte '?' ∉ r.path.drop h.pathPrefix.length := by
  have hself := List.prefix_append_drop hfront
  rw [← takeWhile_ne_eq_self_iff]
  constructor
  · intro hfile
    obtain ⟨rest, hrest, heq⟩ := hfile
    rw [filePath_eq hfront, Except.ok.injEq] at hrest
    have hdrop : r.path.drop h.pathPrefix.length = rest := by rw [← heq, List.drop_left]
    rw [← fileRest, hrest, hdrop]
  · intro hwhile
    refine ⟨_, filePath_eq hfront, ?_⟩
    rw [fileRest, hwhile]
    exact hself.symm

/-- **The handler serves the text in front of a query** when that text starts with the prefix, and has no
question mark behind it. -/
theorem isFilePath_query_iff {h : StaticFileHandler} {r : Request} {d e : Bytes}
    (hfront : h.pathPrefix <+: r.path) (hpath : r.path = d ++ byte '?' :: e) :
    IsFilePath h r d ↔ h.pathPrefix <+: d ∧ byte '?' ∉ d.drop h.pathPrefix.length := by
  constructor
  · intro hfile
    obtain ⟨rest, hrest, rfl⟩ := hfile
    have hstart : h.pathPrefix <+: h.pathPrefix ++ rest := List.prefix_append _ _
    rw [filePath_eq hfront, Except.ok.injEq, hpath, fileRest_query hstart] at hrest
    exact ⟨hstart, takeWhile_ne_eq_self_iff.mp (hrest.trans List.drop_left.symm)⟩
  · intro hcut
    obtain ⟨hstart, hmem⟩ := hcut
    refine ⟨_, filePath_eq hfront, ?_⟩
    rw [hpath, fileRest_query hstart, takeWhile_ne_eq_self_iff.mpr hmem]
    exact (List.prefix_append_drop hstart).symm

/-! ### Both cuts -/

/-- **File path and form data are split at the same question mark**: the first of the URI. -/
def SplitsTogether (h : StaticFileHandler) (r : Request) : Prop :=
  (∀ u q, r.uri = u ++ byte '?' :: q → byte '?' ∉ u →
      (∃ d, percentDecode u = some d ∧ IsFilePath h r d) ∧ formText r = .ok (some q)) ∧
    (byte '?' ∉ r.uri → IsFilePath h r r.path ∧ luaGet r = .ok .empty)

/-- One cut is made: the query has no question mark, the text in front of it decodes to a path with the
prefix, and no escape makes a question mark behind the prefix. -/
def CutsOnce (pathPrefix uri : Bytes) : Prop :=
  (∀ u q, uri = u ++ byte '?' :: q → byte '?' ∉ u → byte '?' ∉ q ∧
      ∃ d, percentDecode u = some d ∧ pathPrefix <+: d ∧ byte '?' ∉ d.drop pathPrefix.length) ∧
    (byte '?' ∉ uri → ∃ d, percentDecode uri = some d ∧ byte '?' ∉ d.drop pathPrefix.length)

/-- The index has no question mark. -/
theorem question_mem_withIndex_iff (d : Bytes) (n : ℕ) :
    byte '?' ∈ (withIndex d).drop n ↔ byte '?' ∈ d.drop n := by
  rw [withIndex]
  split_ifs
  · rw [List.drop_append, List.mem_append, or_iff_left]
    intro h
    exact absurd (List.mem_of_mem_drop h) (by decide)
  · exact Iff.rfl

/-- The path of an accepted request is its decoded URI with the directory rule. -/
theorem Accepts.path_eq {s : Bytes} {r : Request} (haccepts : Accepts s r) :
    ∃ d, percentDecode r.uri = some d ∧ r.path = withIndex d := by
  obtain ⟨⟨t, hparse⟩, hpath⟩ := haccepts
  obtain ⟨-, m, -, rfl⟩ := parse_fresh_good_iff.mp hparse
  obtain ⟨d, hd, hdots⟩ := (pathOf_ne_nil_iff m.uri_ne).mp hpath
  exact ⟨d, hd, pathOf_of_decoded m.uri_ne hd hdots⟩

/-- With a query, the path goes on behind the decoded text in front of it. -/
theorem Accepts.path_query {s u q d : Bytes} {r : Request} (haccepts : Accepts s r)
    (huri : r.uri = u ++ byte '?' :: q) (hd : percentDecode u = some d) :
    ∃ e, r.path = d ++ byte '?' :: e := by
  obtain ⟨d', hd', hpath⟩ := haccepts.path_eq
  rw [huri, percentDecode_query hd] at hd'
  obtain ⟨e, -, rfl⟩ := Option.map_eq_some_iff.mp hd'
  obtain ⟨e', he'⟩ := withIndex_query d e
  exact ⟨e', hpath.trans he'⟩

/-- **When the two cuts are one.**  For every request that the session hands to a handler whose prefix its
path has: file path and form data are split at the first question mark of the URI if and only if one cut is
made. -/
theorem splitsTogether_iff {h : StaticFileHandler} {s : Bytes} {r : Request} (haccepts : Accepts s r)
    (hfront : h.pathPrefix <+: r.path) : SplitsTogether h r ↔ CutsOnce h.pathPrefix r.uri := by
  apply and_congr
  · refine forall₄_congr fun u q huri _ => ?_
    rw [formText_query_iff huri, and_comm]
    refine and_congr_right fun _ => exists_congr fun d => and_congr_right fun hd => ?_
    obtain ⟨e, hpath⟩ := haccepts.path_query huri hd
    exact isFilePath_query_iff hfront hpath
  · refine forall_congr' fun huri => ?_
    obtain ⟨d, hd, hpath⟩ := haccepts.path_eq
    have hform : luaGet r = .ok .empty := by rw [luaGet_eq, formText_of_notMem huri]; rfl
    rw [isFilePath_self_iff hfront, and_iff_left hform, hpath, question_mem_withIndex_iff, hd]
    simp only [Option.some.injEq, exists_eq_left']

/-- A file with a query. -/
theorem splitsTogether_iff_query :
    SplitsTogether ⟨[], bytes "/w"⟩ (getRequest (bytes "/f?x=1") []) ↔
      CutsOnce [] (bytes "/f?x=1") :=
  @splitsTogether_iff ⟨[], bytes "/w"⟩ (bytes "GET /f?x=1 HTTP/1.0\r\n\r\n") (getRequest (bytes "/f?x=1") [])
    ⟨⟨⟨.good, Request.fresh⟩, by decide⟩, by decide⟩ List.nil_prefix

/-- A question mark in the query: the file is `/f`, and the form is `y=2`. -/
theorem not_splitsTogether :
    ∃ r, Accepts (bytes "GET /f?x=1?y=2 HTTP/1.0\r\n\r\n") r ∧
      filePath ⟨[], bytes "/w"⟩ r = .ok (bytes "/f") ∧ formText r = .ok (some (bytes "y=2")) ∧
        ¬ SplitsTogether ⟨[], bytes "/w"⟩ r := by
  refine ⟨getRequest (bytes "/f?x=1?y=2") [], ⟨⟨⟨.good, Request.fresh⟩, by decide⟩, by decide⟩, by decide,
    by decide, ?_⟩
  intro h
  have hform := (h.1 (bytes "/f") (bytes "x=1?y=2") (by decide) (by decide)).2
  exact absurd hform (by decide)

end Webserver.StaticFile
