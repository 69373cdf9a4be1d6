import Webserver.Http.SetUri
import Webserver.StaticFile.FormData

/-!
# The headers of a request in Lua

`headers()` gives a Lua page a table of the headers of the request.  Every header is put into the table over the
ones before it, so a name is bound to its last value, where `GetHeaderValue` returns the first.

* `find_luaHeaders` — what the table binds.
* `sameHeaders_iff` — when a page and the server see the same headers.
-/

namespace Webserver.StaticFile

open ByteString Http OrderedMap

/-- `lua_headers`. -/
def luaHeaders (request : Request) : LuaTable :=
  request.headers.foldl (fun table h => table.set (cStr h.1) (cStr h.2)) .empty

/-- **The same headers**: a name that occurs is bound to what `GetHeaderValue` returns for it, and no other name
is bound. -/
def SameHeaders (request : Request) : Prop :=
  (∀ n ∈ request.headers.map Prod.fst, (luaHeaders request).find n = some (request.getHeaderValue n)) ∧
    ∀ n ∉ request.headers.map Prod.fst, (luaHeaders request).find n = none

/-- The first header with the name `n` has the value `v`. -/
def IsFirst (hs : Headers) (n v : Bytes) : Prop :=
  ∃ before after, hs = before ++ (n, v) :: after ∧ ∀ h ∈ before, h.1 ≠ n

/-- The last header with the name `n` has the value `v`. -/
def IsLast (hs : Headers) (n v : Bytes) : Prop :=
  ∃ before after, hs = before ++ (n, v) :: after ∧ ∀ h ∈ after, h.1 ≠ n

/-- **No name is repeated with another value** at the end. -/
def FirstIsLast (hs : Headers) : Prop := ∀ n v v', IsFirst hs n v → IsLast hs n v' → v = v'

/-! ### The two lookups -/

theorem isFirst_iff {hs : Headers} {n v : Bytes} :
    IsFirst hs n v ↔ (hs.find? fun h => h.1 = n).map Prod.snd = some v := by
  constructor
  · intro h
    obtain ⟨before, after, rfl, hbefore⟩ := h
    have hnone : (before.find? fun h => h.1 = n) = none := by
      rw [List.find?_eq_none]
      intro h hh
      simpa using hbefore h hh
    rw [List.find?_append, hnone, Option.none_or,
      List.find?_cons_of_pos (p := fun h : Bytes × Bytes => decide (h.1 = n)) (decide_eq_true rfl)]
    rfl
  · intro h
    obtain ⟨p, hp, rfl⟩ := Option.map_eq_some_iff.mp h
    obtain ⟨hname, before, after, hsplit, hbefore⟩ := List.find?_eq_some_iff_append.mp hp
    obtain rfl : p.1 = n := of_decide_eq_true hname
    refine ⟨before, after, hsplit, fun h hh => ?_⟩
    simpa using hbefore h hh

theorem getHeaderValue_of_isFirst {request : Request} {n v : Bytes} (h : IsFirst request.headers n v) :
    request.getHeaderValue n = v := by
  rw [Request.getHeaderValue, isFirst_iff.mp h]
  rfl

theorem exists_isFirst {hs : Headers} {n : Bytes} (h : n ∈ hs.map Prod.fst) : ∃ v, IsFirst hs n v := by
  obtain ⟨p, hp, rfl⟩ := List.mem_map.mp h
  have hsome : (hs.find? fun h => h.1 = p.1).isSome :=
    List.find?_isSome.mpr ⟨p, hp, decide_eq_true rfl⟩
  obtain ⟨q, hq⟩ := Option.isSome_iff_exists.mp hsome
  exact ⟨q.2, isFirst_iff.mpr (by rw [hq]; rfl)⟩

/-- **The table** binds every name to its last value, when nothing in the headers has a NUL. -/
theorem find_luaHeaders {request : Request}
    (hnul : ∀ h ∈ request.headers, (0 : Byte) ∉ h.1 ∧ (0 : Byte) ∉ h.2) (n : Bytes) :
    (luaHeaders request).find n = lastOccurrence request.headers n := by
  rw [luaHeaders, foldl_set_cStr hnul, Map.find_foldl_set, Map.find_empty, Option.or_none, lastOccurrence]

/-- The headers of a text have no NUL: names are token bytes, and values have no control characters. -/
theorem nul_notMem_headers (m : RequestText) : ∀ h ∈ m.headers, (0 : Byte) ∉ h.1 ∧ (0 : Byte) ∉ h.2 := by
  have hcontrol : IsControl 0 := by decide
  intro h hh
  obtain ⟨ht, -, rfl⟩ := List.mem_map.mp hh
  refine ⟨fun hmem => (ht.isToken _ hmem).2.1 hcontrol, fun hmem => ?_⟩
  rcases List.mem_append.mp hmem with hmem | hmem
  · exact ht.notControl _ hmem hcontrol
  · obtain ⟨c, -, hc⟩ := List.mem_flatMap.mp hmem
    exact c.notControl _ hc hcontrol

/-! ### The same headers -/

theorem sameHeaders_iff_firstIsLast {request : Request}
    (hnul : ∀ h ∈ request.headers, (0 : Byte) ∉ h.1 ∧ (0 : Byte) ∉ h.2) :
    SameHeaders request ↔ FirstIsLast request.headers := by
  have habsent : ∀ n ∉ request.headers.map Prod.fst, lastOccurrence request.headers n = none := by
    intro n hn
    rw [← lastOccurrence_isSome_iff, Bool.not_eq_true, Option.isSome_eq_false_iff] at hn
    exact Option.isNone_iff_eq_none.mp hn
  rw [SameHeaders]
  simp only [find_luaHeaders hnul]
  constructor
  · intro hsame n v v' hfirst hlast
    have hmem : n ∈ request.headers.map Prod.fst := by
      obtain ⟨before, after, hsplit, -⟩ := hfirst
      rw [hsplit]
      simp
    have hbound := hsame.1 n hmem
    rw [lastOccurrence_eq_some_iff.mpr hlast, getHeaderValue_of_isFirst hfirst] at hbound
    exact (Option.some.inj hbound).symm
  · intro hall
    refine ⟨fun n hn => ?_, habsent⟩
    obtain ⟨v, hfirst⟩ := exists_isFirst hn
    obtain ⟨v', hlast⟩ := Option.isSome_iff_exists.mp (lastOccurrence_isSome_iff.mpr hn)
    rw [getHeaderValue_of_isFirst hfirst, hall n v v' hfirst (lastOccurrence_eq_some_iff.mp hlast)]
    exact hlast

/-- **When a page sees the headers that the server sees.**  For every request that `Parse` returns in any sequence
of calls: the table agrees with `GetHeaderValue` if and only if the first value of every name is also its last. -/
theorem sameHeaders_iff {calls : List Bytes} {t : ThreadState} {seen : List (Result × Option Request)} {r : Request}
    (h : parseCalls ThreadState.fresh calls = some (t, seen)) (hr : (.good, some r) ∈ seen) :
    SameHeaders r ↔ FirstIsLast r.headers := by
  obtain ⟨m, rfl⟩ := returned_toRequest (t := ThreadState.fresh) ⟨[], rfl⟩ h _ r hr
  exact sameHeaders_iff_firstIsLast (nul_notMem_headers m)

/-- A header that goes on in a second line. -/
theorem sameHeaders_iff_folded :
    SameHeaders ⟨.expectingNewline3, 0, bytes "GET / HTTP/1.0\r\nA: b\r\n c\r\n\r\n", bytes "GET", bytes "/",
        bytes "/index.html", bytes "HTTP/1.0", [(bytes "A", bytes "bc")], []⟩ ↔
      FirstIsLast [(bytes "A", bytes "bc")] := by
  have h : parseCalls ThreadState.fresh [bytes "GET / HTTP/1.0\r\nA: b\r\n c\r\n\r\n"] = some (⟨.good, Request.fresh⟩,
      [(.good, some ⟨.expectingNewline3, 0, bytes "GET / HTTP/1.0\r\nA: b\r\n c\r\n\r\n", bytes "GET", bytes "/",
        bytes "/index.html", bytes "HTTP/1.0", [(bytes "A", bytes "bc")], []⟩)]) := by decide
  exact sameHeaders_iff h List.mem_cons_self

/-- A header that comes twice. -/
theorem not_sameHeaders :
    parseCalls ThreadState.fresh [bytes "GET /a HTTP/1.0\r\nX: 1\r\nX: 2\r\n\r\n"] = some (⟨.good, Request.fresh⟩,
        [(.good, some (getRequest (bytes "/a") [(bytes "X", bytes "1"), (bytes "X", bytes "2")]))]) ∧
      (getRequest (bytes "/a") [(bytes "X", bytes "1"), (bytes "X", bytes "2")]).getHeaderValue (bytes "X") =
        bytes "1" ∧
      (luaHeaders (getRequest (bytes "/a") [(bytes "X", bytes "1"), (bytes "X", bytes "2")])).find (bytes "X") =
        some (bytes "2") ∧
      ¬ SameHeaders (getRequest (bytes "/a") [(bytes "X", bytes "1"), (bytes "X", bytes "2")]) := by
  refine ⟨by decide, by decide, by decide, fun h => ?_⟩
  have hbound := h.1 (bytes "X") (by decide)
  exact absurd hbound (by decide)

end Webserver.StaticFile
