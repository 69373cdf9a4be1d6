import Webserver.Support.BoundedLoop
import Webserver.Support.CxxString
import Webserver.Server.ServerConfig

/-!
# Dispatch

The loop of `Session::do_read` that shortens `path_prefix` until the handler map has it.  The prefixes it
looks up are the boundary prefixes of the path, longest first: the path itself, the prefixes that end in
a slash or stop before one, and the empty prefix.  As a `HandlerMap` has the empty key, the loop ends.

* `dispatchBody_spec` — one turn passes over no boundary prefix and gets closer to the end.
* `dispatch_longest_prefix` — the selected key is the longest boundary prefix in the map.
-/

namespace Webserver.Server

open ByteString BoundedLoop CxxString OrderedMap ConfigTree

variable {η : Type*}

/-! ### The loop -/

/-- One turn of the `while` loop, on `path_prefix` and the iterator `it`. -/
def dispatchBody (handlers : Map Bytes η) (s : Bytes × Option η) :
    (Bytes × Option η) ⊕ Except StdException (Bytes × η) :=
  let (pathPrefix, it) := s
  match it with
  | some handler => .inr (.ok (pathPrefix, handler))
  | none =>
    let slashPos := findLastOf (bytes "/") pathPrefix
    match substr pathPrefix (some 0) (some slashPos.succ) with
    | .error e => .inr (.error e)
    | .ok pathPrefix =>
      match handlers.find pathPrefix with
      | some handler => .inl (pathPrefix, some handler)
      | none =>
        match substr pathPrefix (some 0) slashPos with
        | .error e => .inr (.error e)
        | .ok pathPrefix => .inl (pathPrefix, handlers.find pathPrefix)

/-- What the loop is entered with. -/
def dispatchStart (handlers : Map Bytes η) (path : Bytes) : Bytes × Option η :=
  (path, handlers.find path)

/-- The loop, with a bound on its turns that is enough for a map with an empty key. -/
def dispatch (handlers : Map Bytes η) (path : Bytes) : Option (Except StdException (Bytes × η)) :=
  runLoop (dispatchBody handlers) (path.length + 2) (dispatchStart handlers path)

/-! ### Boundary prefixes -/

/-- **A prefix on a segment boundary**: the whole path, or a prefix that ends in a slash, or that has a
slash right after it, or the empty prefix. -/
def Boundary (k path : Bytes) : Prop :=
  k <+: path ∧ (k = path ∨ k.getLast? = some (byte '/') ∨ path[k.length]? = some (byte '/') ∨ k = [])

theorem boundary_self (path : Bytes) : Boundary path path := ⟨List.prefix_rfl, .inl rfl⟩

theorem boundary_nil (path : Bytes) : Boundary [] path := ⟨List.nil_prefix, .inr (.inr (.inr rfl))⟩

/-- A boundary prefix that is proper and not empty is next to a slash. -/
theorem Boundary.slash {k path : Bytes} (h : Boundary k path) (hne : k ≠ []) (hlt : k.length < path.length) :
    ∃ a b, path = a ++ byte '/' :: b ∧ (k = a ∨ k = a ++ [byte '/']) := by
  obtain ⟨⟨rest, rfl⟩, hk⟩ := h
  rcases hk with hk | hk | hk | hk
  · rw [← hk] at hlt
    exact absurd hlt (lt_irrefl _)
  · obtain ⟨a, rfl⟩ := List.getLast?_eq_some_iff.mp hk
    exact ⟨a, rest, by rw [List.append_assoc]; rfl, .inr rfl⟩
  · rw [List.getElem?_append_right le_rfl, Nat.sub_self] at hk
    obtain ⟨c, rest, rfl⟩ := List.exists_cons_of_ne_nil (l := rest) (by rintro rfl; cases hk)
    obtain rfl := Option.some.inj hk
    exact ⟨k, rest, rfl, .inl rfl⟩
  · exact absurd hk hne

/-- What the loop knows at its head: `q` is a boundary prefix, and no longer one is a key. -/
structure Searching (handlers : Map Bytes η) (path q : Bytes) : Prop where
  boundary : Boundary q path
  longer : ∀ k, Boundary k path → q.length < k.length → handlers.find k = none

theorem searching_start (handlers : Map Bytes η) (path : Bytes) : Searching handlers path path := by
  refine ⟨boundary_self path, ?_⟩
  intro k hk hlt
  exact absurd hk.1.length_le (not_le.mpr hlt)

/-- Between a prefix without a key and the next candidate there is no boundary prefix. -/
theorem Searching.next {handlers : Map Bytes η} {path q q' : Bytes} (h : Searching handlers path q)
    (hq : handlers.find q = none) (hq' : Boundary q' path)
    (hgap : ∀ k, Boundary k path → q'.length < k.length → q.length ≤ k.length) :
    Searching handlers path q' := by
  refine ⟨hq', ?_⟩
  intro k hk hlt
  rcases Nat.eq_or_lt_of_le (hgap k hk hlt) with heq | hlt'
  · have hkq : k = q := (List.prefix_of_prefix_length_le hk.1 h.boundary.1 heq.ge).eq_of_length heq.symm
    rw [hkq, hq]
  · exact h.longer k hk hlt'

/-- No boundary prefix ends inside a stretch without a slash. -/
theorem Boundary.length_le {path a b k : Bytes} (hk : Boundary k path) (hb : byte '/' ∉ b)
    (hq : a ++ b <+: path) (hlt : a.length < k.length) : (a ++ b).length ≤ k.length := by
  by_contra hgt
  rw [not_le] at hgt
  obtain ⟨b₁, rfl⟩ : a <+: k :=
    List.prefix_of_prefix_length_le ((List.prefix_append a b).trans hq) hk.1 hlt.le
  obtain ⟨b₂, hb₂⟩ : a ++ b₁ <+: a ++ b := List.prefix_of_prefix_length_le hk.1 hq hgt.le
  rw [List.append_assoc] at hb₂
  obtain rfl := List.append_cancel_left hb₂
  rw [List.mem_append, not_or] at hb
  have hb₁ : b₁ ≠ [] := by
    rintro rfl
    simp at hlt
  obtain ⟨c, b₂, rfl⟩ := List.exists_cons_of_ne_nil (l := b₂) (by rintro rfl; simp at hgt)
  rcases hk.2 with h | h | h | h
  · have hle := hq.length_le
    rw [← h] at hle
    exact absurd hle (not_le.mpr hgt)
  · rw [List.getLast?_append_of_ne_nil _ hb₁] at h
    exact hb.1 (List.mem_of_getLast? h)
  · obtain ⟨rest, rfl⟩ := hq
    rw [← List.append_assoc a, List.append_assoc (a ++ b₁), List.getElem?_append_right le_rfl,
      Nat.sub_self] at h
    obtain rfl := Option.some.inj h
    exact hb.2 List.mem_cons_self
  · exact hb₁ (List.append_eq_nil_iff.mp h).2

/-! ### One turn -/

theorem dispatchBody_slash {handlers : Map Bytes η} {a b : Bytes} (hb : byte '/' ∉ b) :
    dispatchBody handlers (a ++ byte '/' :: b, none) =
      match handlers.find (a ++ [byte '/']) with
      | some handler => .inl (a ++ [byte '/'], some handler)
      | none => .inl (a, handlers.find a) := by
  have hslash : findLastOf (bytes "/") (a ++ byte '/' :: b) = some a.length :=
    findLastOf_append_cons (by decide) fun x hx hset => by
      rw [show bytes "/" = [byte '/'] from rfl, List.mem_singleton] at hset
      exact hb (hset ▸ hx)
  have hfirst : substr (a ++ byte '/' :: b) (some 0) (some (a.length + 1)) = .ok (a ++ [byte '/']) := by
    rw [substr_zero, takeCount, List.take_length_add_append]
    rfl
  have hsecond : substr (a ++ [byte '/']) (some 0) (some a.length) = .ok a := by
    rw [substr_zero, takeCount, List.take_left]
  simp only [dispatchBody, hslash, Pos.succ_some, hfirst, hsecond]

theorem dispatchBody_noSlash {handlers : Map Bytes η} {q : Bytes} (hq : byte '/' ∉ q) :
    dispatchBody handlers (q, none) = .inl ([], handlers.find []) := by
  have hslash : findLastOf (bytes "/") q = none := by
    rw [findLastOf_eq_none_iff]
    intro c hc hset
    rw [show bytes "/" = [byte '/'] from rfl, List.mem_singleton] at hset
    exact hq (hset ▸ hc)
  simp only [dispatchBody, hslash, Pos.succ_none, substr_zero, takeCount, List.take_zero]
  cases handlers.find [] with
  | none => rfl
  | some handler => rfl

theorem exists_last_slash {q : Bytes} (h : byte '/' ∈ q) :
    ∃ a b, q = a ++ byte '/' :: b ∧ byte '/' ∉ b := by
  have hne : findLastOf (bytes "/") q ≠ none := by
    rw [Ne, findLastOf_eq_none_iff]
    exact fun hall => hall _ h (by decide)
  obtain ⟨i, hi⟩ := Option.ne_none_iff_exists'.mp hne
  obtain ⟨a, c, b, rfl, hc, hb, -⟩ := findLastOf_eq_some_iff.mp hi
  rw [show bytes "/" = [byte '/'] from rfl] at hc hb
  obtain rfl := List.mem_singleton.mp hc
  exact ⟨a, b, rfl, fun hmem => hb _ hmem (List.mem_singleton.mpr rfl)⟩

/-- The invariant of the loop: `it` is the result of looking up `path_prefix`. -/
def LoopInv (handlers : Map Bytes η) (path : Bytes) (s : Bytes × Option η) : Prop :=
  s.2 = handlers.find s.1 ∧ Searching handlers path s.1

/-- The measure of the loop: a found key ends it, and otherwise the prefix gets shorter. -/
def loopMeasure (s : Bytes × Option η) : ℕ := s.1.length + if s.2.isSome then 0 else 1

/-- **One turn.**  It goes on with a shorter boundary prefix, or finds a key, and no boundary prefix is
passed over. -/
theorem dispatchBody_spec {handlers : HandlerMap η} {path : Bytes} {s s' : Bytes × Option η}
    (hs : LoopInv handlers.map path s) (hbody : dispatchBody handlers.map s = .inl s') :
    LoopInv handlers.map path s' ∧ loopMeasure s' < loopMeasure s := by
  obtain ⟨q, it⟩ := s
  obtain ⟨hit, hq⟩ := hs
  cases it with
  | some handler => simp [dispatchBody] at hbody
  | none =>
    by_cases hmem : byte '/' ∈ q
    · obtain ⟨a, b, rfl, hb⟩ := exists_last_slash hmem
      have hfront : (a ++ [byte '/']) ++ b <+: path := by
        rw [List.append_assoc]
        exact hq.boundary.1
      have hfirst : Searching handlers.map path (a ++ [byte '/']) := by
        refine hq.next hit.symm ⟨(List.prefix_append _ b).trans hfront, .inr (.inl (by simp))⟩ ?_
        intro k hk hlt
        have hle := hk.length_le hb hfront hlt
        rwa [List.append_assoc] at hle
      rw [dispatchBody_slash hb] at hbody
      cases hfind : handlers.map.find (a ++ [byte '/']) with
      | some handler =>
        rw [hfind] at hbody
        obtain rfl := Sum.inl.inj hbody
        refine ⟨⟨hfind.symm, hfirst⟩, ?_⟩
        simp [loopMeasure]
      | none =>
        rw [hfind] at hbody
        obtain rfl := Sum.inl.inj hbody
        have hslash : path[a.length]? = some (byte '/') := by
          obtain ⟨rest, rfl⟩ := hfront
          simp
        refine ⟨⟨rfl, hfirst.next hfind ⟨?_, .inr (.inr (.inl hslash))⟩ ?_⟩, ?_⟩
        · exact (List.prefix_append _ _).trans hq.boundary.1
        · intro k _ hlt
          rw [List.length_append]
          exact hlt
        · have hit' : (if (handlers.map.find a).isSome then 0 else 1) ≤ 1 := by split_ifs <;> omega
          show a.length + (if (handlers.map.find a).isSome then 0 else 1) < (a ++ byte '/' :: b).length + 1
          rw [List.length_append, List.length_cons]
          omega
    · rw [dispatchBody_noSlash hmem] at hbody
      obtain rfl := Sum.inl.inj hbody
      refine ⟨⟨rfl, hq.next hit.symm (boundary_nil path) ?_⟩, ?_⟩
      · intro k hk hlt
        exact hk.length_le (a := []) hmem hq.boundary.1 hlt
      · simp [loopMeasure, handlers.default_isSome]

/-! ### The selected handler -/

theorem loopInv_start (handlers : Map Bytes η) (path : Bytes) :
    LoopInv handlers path (dispatchStart handlers path) := ⟨rfl, searching_start handlers path⟩

/-- The bound on the turns in `dispatch` is enough. -/
theorem dispatch_isSome (handlers : HandlerMap η) (path : Bytes) :
    ∃ r, dispatch handlers.map path = some r := by
  refine runLoop_of_variant (LoopInv handlers.map path) loopMeasure
    (fun s s' hs hbody => dispatchBody_spec hs hbody) _ _ (loopInv_start _ path) ?_
  show path.length + _ < _
  split_ifs <;> omega

/-- **The result of the loop** is the handler of a key that no longer boundary prefix has. -/
theorem returns_dispatch {handlers : HandlerMap η} {path : Bytes} {r : Except StdException (Bytes × η)}
    (h : Returns (dispatchBody handlers.map) (dispatchStart handlers.map path) r) :
    ∃ k handler, r = .ok (k, handler) ∧ handlers.map.find k = some handler ∧ Boundary k path ∧
      ∀ k', (handlers.map.find k').isSome → Boundary k' path → k'.length ≤ k.length := by
  obtain ⟨⟨q, it⟩, ⟨hit, hq⟩, hbody⟩ := h.invariant (LoopInv handlers.map path) (loopInv_start _ path)
    fun s s' hs hb => (dispatchBody_spec hs hb).1
  cases it with
  | none =>
    by_cases hmem : byte '/' ∈ q
    · obtain ⟨a, b, rfl, hb⟩ := exists_last_slash hmem
      rw [dispatchBody_slash hb] at hbody
      split at hbody <;> cases hbody
    · rw [dispatchBody_noSlash hmem] at hbody
      cases hbody
  | some handler =>
    refine ⟨q, handler, (Sum.inr.inj hbody).symm, hit.symm, hq.boundary, ?_⟩
    intro k' hk' hboundary
    by_contra hgt
    rw [hq.longer k' hboundary (not_le.mp hgt)] at hk'
    simp at hk'

/-- **Dispatch is longest prefix on segment boundaries, and always ends.**  For the handlers of any
configuration and any path, the loop is left with a key and the handler registered under it, and no
longer boundary prefix of the path is registered.  The key is a prefix of the path, so the cut that
`StaticFileHandler` makes with its own prefix is in range. -/
theorem dispatch_longest_prefix (config : NginxConfig) (path : Bytes) :
    ∃ k handler, Returns (dispatchBody (parseFreshHandlers config).handlers.map)
        (dispatchStart (parseFreshHandlers config).handlers.map path) (.ok (k, handler)) ∧
      (parseFreshHandlers config).handlers.map.find k = some handler ∧ Boundary k path ∧
      (∀ k', ((parseFreshHandlers config).handlers.map.find k').isSome → Boundary k' path →
        k'.length ≤ k.length) ∧
      ∀ h, handler = .staticFileHandler h → h.pathPrefix <+: path ∧
        ∃ rest, substr path (some h.pathPrefix.length) npos = .ok rest := by
  obtain ⟨r, hr⟩ := dispatch_isSome (parseFreshHandlers config).handlers path
  obtain ⟨k, handler, rfl, hfind, hboundary, hlongest⟩ := returns_dispatch ⟨_, hr⟩
  refine ⟨k, handler, ⟨_, hr⟩, hfind, hboundary, hlongest, ?_⟩
  intro h hh
  have hconf := allConfigured_parseFreshHandlers config k handler hfind
  rw [hh] at hconf
  have hkey : h.pathPrefix = k := hconf.1
  rw [hkey]
  exact ⟨hboundary.1, _, substr_of_le hboundary.1.length_le npos⟩

end Webserver.Server
