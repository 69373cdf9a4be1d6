import Webserver.Http.SetUri
import Webserver.ReverseProxy.ReverseProxyHandler

/-!
# The forwarded URI

The handler never looks at the length of its prefix: unless the prefix is `/`, the URI is cut before its
second slash, and an empty result becomes `/`.  `forwardUri` is this cut on lists, and
`RequestText.forward` the parse tree of the request with that URI, before the edits for the remote host.

`forwardUri_iff` says for which prefixes and URIs the cut removes the prefix.
-/

namespace Webserver.ReverseProxy

open ByteString ConfigTree CxxString Http LineEdit Server

/-! ### The cut -/

/-- Everything from the second slash on, when the first character counts as the first one. -/
def belowFirstSegment (uri : Bytes) : Bytes := uri.tail.dropWhile (· ≠ byte '/')

/-- **The URI that is sent on.** -/
def forwardUri (originalUriPrefix uri : Bytes) : Bytes :=
  if originalUriPrefix = bytes "/" then uri
  else if belowFirstSegment uri = [] then bytes "/"
  else belowFirstSegment uri

theorem dropWhile_append_slash {a : Bytes} (ha : byte '/' ∉ a) (b : Bytes) :
    (a ++ byte '/' :: b).dropWhile (· ≠ byte '/') = byte '/' :: b := by
  have ha' : ∀ c ∈ a, decide (c ≠ byte '/') = true := by
    intro c hc
    apply decide_eq_true
    intro heq
    exact ha (heq ▸ hc)
  rw [List.dropWhile_append_of_pos ha', List.dropWhile_cons_of_neg (by decide)]

/-- Up to the first slash, if there is one. -/
theorem exists_first_slash {s : Bytes} (h : byte '/' ∈ s) : ∃ a b, s = a ++ byte '/' :: b ∧ byte '/' ∉ a := by
  obtain ⟨a, b, hab⟩ := exists_firstAt ((List.singleton_infix_iff _ _).mpr h)
  exact ⟨a, b, by rw [hab.split, List.append_assoc]; rfl, hab.notMem⟩

theorem erase_firstSegment (uri : Bytes) :
    erase uri (some 0) (findFrom (bytes "/") uri (some 1)) = .ok (belowFirstSegment uri) := by
  rw [erase_zero]
  cases uri with
  | nil => rfl
  | cons c rest =>
    have hfrom : findFrom (bytes "/") ([c] ++ rest) (some 1) = (find [byte '/'] rest).map (· + 1) :=
      findFrom_append [byte '/'] [c] rest
    rw [List.singleton_append] at hfrom
    rw [hfrom, belowFirstSegment, List.tail_cons, ← dropCount_find]
    cases find [byte '/'] rest with
    | none => rfl
    | some i => rfl

/-- The cut does not throw. -/
theorem forwardedUri_eq {originalUriPrefix uri : Bytes} (huri : uri ≠ []) :
    forwardedUri originalUriPrefix uri = .ok (forwardUri originalUriPrefix uri) := by
  rw [forwardedUri, forwardUri, erase_firstSegment]
  by_cases hfront : originalUriPrefix = bytes "/"
  · rw [if_neg (not_not.mpr hfront), if_pos hfront]
    show Except.ok (if uri = [] then bytes "/" else uri) = _
    rw [if_neg huri]
  · rw [if_pos hfront, if_neg hfront]
    rfl

/-! ### The request that is sent on -/

theorem forwardUri_ne_nil {originalUriPrefix uri : Bytes} (huri : uri ≠ []) :
    forwardUri originalUriPrefix uri ≠ [] := by
  rw [forwardUri]
  split_ifs with hfront hbelow
  · exact huri
  · decide
  · exact hbelow

theorem forwardUri_uriByte {originalUriPrefix uri : Bytes} (huri : ∀ b ∈ uri, IsUriByte b) :
    ∀ b ∈ forwardUri originalUriPrefix uri, IsUriByte b := by
  rw [forwardUri]
  split_ifs with hfront hbelow
  · exact huri
  · decide
  · intro b hb
    exact huri b (List.mem_of_mem_tail ((List.dropWhile_sublist _).subset hb))

end Webserver.ReverseProxy

namespace Webserver.Http.RequestText

open ByteString CxxString LineEdit ReverseProxy

/-- **The request text that a proxy with this prefix sends on.** -/
def forward (originalUriPrefix : Bytes) (m : RequestText) : RequestText :=
  { m with
    uri := forwardUri originalUriPrefix m.uri
    uri_ne := forwardUri_ne_nil m.uri_ne
    uri_byte := forwardUri_uriByte m.uri_byte }

end Webserver.Http.RequestText

namespace Webserver.ReverseProxy

open ByteString ConfigTree CxxString Http LineEdit Server

/-- **What is sent on for an accepted request.** -/
theorem originRequest_toRequest (originalUriPrefix : Bytes) (m : RequestText) :
    originRequest originalUriPrefix m.toRequest m.uri = .ok { m.toRequest with
      uri := (m.forward originalUriPrefix).uri
      rawRequest := (m.forward originalUriPrefix).render } := by
  rw [originRequest, forwardedUri_eq m.uri_ne, ok_bind, RequestText.setUri_toRequest,
    RequestText.render_eq_behindUri]
  rfl

/-! ### When the prefix is removed -/

/-- Without one leading slash. -/
def withoutSlash (w : Bytes) : Bytes := if w.head? = some (byte '/') then w.tail else w

/-- **The prefixes and rests that the cut is right for.**  The empty prefix only fits the URI `/`.  A prefix
that ends in a slash must have no other one but at its start, and the rest must not start with a slash.
Any other prefix must be a single segment, and the rest must be empty or start with a slash. -/
def CutsPrefix (p w : Bytes) : Prop :=
  if p = [] then w = bytes "/"
  else if p.getLast? = some (byte '/') then byte '/' ∉ p.tail.dropLast ∧ w.head? ≠ some (byte '/')
  else byte '/' ∉ p.tail ∧ (w = [] ∨ w.head? = some (byte '/'))

/-- The part of the URI behind the prefix, with a slash in front. -/
def withSlash (w : Bytes) : Bytes := byte '/' :: withoutSlash w

theorem length_withoutSlash_le (w : Bytes) : w.length ≤ (withoutSlash w).length + 1 := by
  rw [withoutSlash]
  split_ifs
  · rw [List.length_tail]
    omega
  · omega

theorem withoutSlash_of_slash (w : Bytes) : withoutSlash (byte '/' :: w) = w := if_pos rfl

theorem withoutSlash_of_ne {w : Bytes} (h : w.head? ≠ some (byte '/')) : withoutSlash w = w := if_neg h

/-- The empty prefix. -/
theorem forwardUri_nil_iff {w : Bytes} (hw : w ≠ []) :
    forwardUri [] w = withSlash w ↔ w = bytes "/" := by
  obtain ⟨c, rest, rfl⟩ := List.exists_cons_of_ne_nil hw
  have hlen := length_withoutSlash_le (c :: rest)
  rw [forwardUri, if_neg (by decide), withSlash]
  split_ifs with hbelow
  · constructor
    · intro h
      have hnil : withoutSlash (c :: rest) = [] := (List.cons.inj h).2.symm
      rw [hnil, List.length_cons] at hlen
      obtain rfl : rest = [] := List.length_eq_zero_iff.mp (by simpa using hlen)
      rw [withoutSlash] at hnil
      split_ifs at hnil with hc
      rw [Option.some.inj hc]
      rfl
    · intro h
      rw [h]
      rfl
  · refine iff_of_false ?_ ?_
    · intro h
      have hle := (List.dropWhile_sublist (fun b => decide (b ≠ byte '/')) (l := rest)).length_le
      have heq := congrArg List.length h
      rw [belowFirstSegment, List.tail_cons, List.length_cons] at heq
      rw [List.length_cons] at hlen
      omega
    · intro h
      rw [h] at hbelow
      exact hbelow rfl

theorem append_eq_withoutSlash_iff {b w : Bytes} :
    b ++ w = withoutSlash w ↔ b = [] ∧ w.head? ≠ some (byte '/') := by
  constructor
  · intro h
    have hle : (withoutSlash w).length ≤ w.length := by
      rw [withoutSlash]
      split_ifs
      · rw [List.length_tail]
        omega
      · exact le_rfl
    have hlen := congrArg List.length h
    rw [List.length_append] at hlen
    have hb : b = [] := List.length_eq_zero_iff.mp (by omega)
    refine ⟨hb, ?_⟩
    intro hhead
    obtain ⟨w, rfl⟩ := List.head?_eq_some_iff.mp hhead
    rw [withoutSlash_of_slash, hb, List.nil_append] at h
    exact absurd (congrArg List.length h) (by simp)
  · intro h
    rw [h.1, withoutSlash_of_ne h.2, List.nil_append]

/-- A prefix with a slash behind its first character: the cut is made at that slash. -/
theorem forwardUri_slash_iff {c : Byte} {a b w : Bytes} (ha : byte '/' ∉ a) :
    forwardUri (c :: (a ++ byte '/' :: b)) (c :: (a ++ byte '/' :: b) ++ w) = withSlash w ↔
      b = [] ∧ w.head? ≠ some (byte '/') := by
  have hne : c :: (a ++ byte '/' :: b) ≠ bytes "/" := by
    intro h
    exact absurd (congrArg List.length h) (by simp [bytes])
  have hbelow : belowFirstSegment (c :: (a ++ byte '/' :: b) ++ w) = byte '/' :: (b ++ w) := by
    rw [belowFirstSegment, List.cons_append, List.tail_cons, List.append_assoc, List.cons_append]
    exact dropWhile_append_slash ha (b ++ w)
  rw [forwardUri, if_neg hne, hbelow, if_neg (List.cons_ne_nil _ _), withSlash, List.cons.injEq,
    and_iff_right rfl]
  exact append_eq_withoutSlash_iff

/-- A prefix that is one segment: the cut is made at the first slash of the rest. -/
theorem forwardUri_segment_iff {c : Byte} {q w : Bytes} (hq : byte '/' ∉ q) (hne : c :: q ≠ bytes "/") :
    forwardUri (c :: q) (c :: q ++ w) = withSlash w ↔ w = [] ∨ w.head? = some (byte '/') := by
  have hq' : ∀ d ∈ q, decide (d ≠ byte '/') = true := by
    intro d hd
    apply decide_eq_true
    intro heq
    exact hq (heq ▸ hd)
  have hbelow : belowFirstSegment (c :: q ++ w) = w.dropWhile (· ≠ byte '/') := by
    rw [belowFirstSegment, List.cons_append, List.tail_cons, List.dropWhile_append_of_pos hq']
  rw [forwardUri, if_neg hne, hbelow]
  rcases w with _ | ⟨d, w⟩
  · exact iff_of_true rfl (.inl rfl)
  by_cases hd : d = byte '/'
  · rw [hd, List.dropWhile_cons_of_neg (by decide), if_neg (List.cons_ne_nil _ _), withSlash,
      withoutSlash_of_slash]
    exact iff_of_true rfl (.inr rfl)
  · have hhead : (d :: w).head? ≠ some (byte '/') := fun h => hd (Option.some.inj h)
    have hle := (List.dropWhile_sublist (fun b => decide (b ≠ byte '/')) (l := w)).length_le
    have hdrop : (d :: w).dropWhile (fun b => decide (b ≠ byte '/')) =
        w.dropWhile (fun b => decide (b ≠ byte '/')) := List.dropWhile_cons_of_pos (decide_eq_true hd)
    rw [hdrop, withSlash, withoutSlash_of_ne hhead]
    refine iff_of_false ?_ ?_
    · intro h
      have hlen := congrArg List.length h
      split_ifs at hlen
      · simp [bytes] at hlen
      · rw [List.length_cons, List.length_cons] at hlen
        omega
    · intro h
      rcases h with h | h
      · exact List.cons_ne_nil _ _ h
      · exact hhead h

/-- **When the cut removes the prefix**, for every prefix and every URI that starts with it. -/
theorem forwardUri_iff {p w : Bytes} (huri : p ++ w ≠ []) :
    forwardUri p (p ++ w) = withSlash w ↔ CutsPrefix p w := by
  rw [CutsPrefix]
  rcases p with _ | ⟨c, q⟩
  · rw [if_pos rfl]
    exact forwardUri_nil_iff huri
  rw [if_neg (List.cons_ne_nil _ _), List.tail_cons]
  by_cases hslash : byte '/' ∈ q
  · obtain ⟨a, b, rfl, ha⟩ := exists_first_slash hslash
    rw [forwardUri_slash_iff ha]
    rcases List.eq_nil_or_concat' b with rfl | ⟨b, d, rfl⟩
    · have hlast : (c :: (a ++ [byte '/'])).getLast? = some (byte '/') := by
        rw [← List.cons_append, List.getLast?_concat]
      rw [if_pos hlast, List.dropLast_concat]
      exact and_congr_left' (iff_of_true rfl ha)
    · have hmem : byte '/' ∈ (a ++ byte '/' :: (b ++ [d])).dropLast := by
        rw [← List.cons_append, ← List.append_assoc, List.dropLast_concat]
        exact List.mem_append_right _ List.mem_cons_self
      refine iff_of_false (fun h => by simp at h) ?_
      split_ifs
      · exact fun h => h.1 hmem
      · exact fun h => h.1 hslash
  · by_cases hroot : c :: q = bytes "/"
    · rw [hroot, if_pos (by decide), forwardUri, if_pos rfl]
      obtain rfl : q = [] := (List.cons.inj hroot).2
      show byte '/' :: w = byte '/' :: withoutSlash w ↔ _
      rw [List.cons.injEq, and_iff_right rfl, List.dropLast_nil, and_iff_right List.not_mem_nil]
      exact append_eq_withoutSlash_iff.trans (and_iff_right rfl)
    · have hlast : (c :: q).getLast? ≠ some (byte '/') := by
        intro hlast
        obtain ⟨init, hinit⟩ := List.getLast?_eq_some_iff.mp hlast
        rcases init with _ | ⟨d, init⟩
        · exact hroot hinit
        · rw [List.cons_append, List.cons.injEq] at hinit
          exact hslash (hinit.2 ▸ List.mem_append_right _ (List.mem_singleton.mpr rfl))
      rw [if_neg hlast, forwardUri_segment_iff hslash hroot, and_iff_right hslash]

end Webserver.ReverseProxy
