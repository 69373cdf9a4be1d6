import Webserver.Http.RequestLanguage

/-!
# The reference decoding of a path

A percent escape is two hexadecimal digits.  The parser reads the two characters behind a `%` as a number
instead, so it accepts more.  `referencePath` is the path with the reference decoding.

* `escapesOf` — what stands behind each `%` of a URI.
* `dots_percentDecode_iff` — when the decoded text has two dots in a row, on the URI.
* `path_eq_reference_iff` — which requests have the path of the reference.
-/

namespace Webserver.Http

open ByteString CxxString Numeral

/-! ### The reference -/

/-- The text that a URI stands for; `none` when a `%` is not followed by two hexadecimal digits. -/
def referenceDecode : Bytes → Option Bytes
  | [] => some []
  | c :: rest =>
    if c = byte '%' then
      match rest with
      | hi :: lo :: rest' =>
        if isHexDigit hi ∧ isHexDigit lo then
          (referenceDecode rest').map (UInt8.ofNat (16 * digitValue hi + digitValue lo) :: ·)
        else none
      | _ => none
    else (referenceDecode rest).map ((if c = byte '+' then byte ' ' else c) :: ·)

/-- The path of a URI by the reference decoding. -/
def referencePath (uri : Bytes) : Bytes :=
  match referenceDecode uri with
  | none => []
  | some d => if bytes ".." <:+: d then [] else withIndex d

/-! ### The units of a URI -/

/-- The escapes of a URI: two characters behind each `%`, or as many as are left. -/
def escapesOf : Bytes → List Bytes
  | [] => []
  | c :: rest =>
    if c = byte '%' then
      match rest with
      | a :: b :: rest' => [a, b] :: escapesOf rest'
      | short => [short]
    else escapesOf rest

/-- Two hexadecimal digits. -/
def IsHexPair (e : Bytes) : Prop := ∃ hi lo, e = [hi, lo] ∧ isHexDigit hi ∧ isHexDigit lo

/-- Two characters that hold a number. -/
def Readable (e : Bytes) : Prop := e.length = 2 ∧ ∃ n, extractHexInt e = some n

section Units

variable {c a b : Byte} {rest short : Bytes}

theorem escapesOf_plain (hc : c ≠ byte '%') (rest : Bytes) : escapesOf (c :: rest) = escapesOf rest := by
  rw [escapesOf.eq_def]
  exact if_neg hc

theorem escapesOf_escape (a b : Byte) (rest : Bytes) :
    escapesOf (byte '%' :: a :: b :: rest) = [a, b] :: escapesOf rest := by
  rw [escapesOf, if_pos rfl]

theorem escapesOf_cut (h : short.length < 2) : escapesOf (byte '%' :: short) = [short] := by
  match short, h with
  | [], _ => rfl
  | [a], _ => rfl

theorem referenceDecode_plain (hc : c ≠ byte '%') (rest : Bytes) : referenceDecode (c :: rest) =
    (referenceDecode rest).map ((if c = byte '+' then byte ' ' else c) :: ·) := by
  rw [referenceDecode.eq_def]
  exact if_neg hc

theorem referenceDecode_escape (a b : Byte) (rest : Bytes) : referenceDecode (byte '%' :: a :: b :: rest) =
    if isHexDigit a ∧ isHexDigit b then
      (referenceDecode rest).map (UInt8.ofNat (16 * digitValue a + digitValue b) :: ·)
    else none := by
  rw [referenceDecode, if_pos rfl]

theorem referenceDecode_cut (h : short.length < 2) : referenceDecode (byte '%' :: short) = none := by
  match short, h with
  | [], _ => rfl
  | [a], _ => rfl

end Units

/-! ### Which URIs decode -/

/-- **The reference** is defined when every escape is two hexadecimal digits. -/
theorem referenceDecode_isSome_iff {uri : Bytes} :
    (referenceDecode uri).isSome ↔ ∀ e ∈ escapesOf uri, IsHexPair e := by
  induction uri using uri_induction with
  | nil => exact iff_of_true rfl (fun e he => by cases he)
  | plain c rest hc ih => rw [referenceDecode_plain hc, Option.isSome_map, escapesOf_plain hc, ih]
  | escape a b rest ih =>
    rw [referenceDecode_escape, escapesOf_escape, List.forall_mem_cons]
    by_cases hhex : isHexDigit a ∧ isHexDigit b
    · rw [if_pos hhex, Option.isSome_map, ih]
      exact (and_iff_right ⟨a, b, rfl, hhex⟩).symm
    · rw [if_neg hhex]
      refine iff_of_false Bool.false_ne_true ?_
      intro h
      obtain ⟨hi, lo, heq, hhi, hlo⟩ := h.1
      rw [List.cons.injEq, List.cons.injEq] at heq
      obtain ⟨rfl, rfl, -⟩ := heq
      exact hhex ⟨hhi, hlo⟩
  | cut short hshort =>
    rw [referenceDecode_cut hshort, escapesOf_cut hshort]
    refine iff_of_false Bool.false_ne_true ?_
    intro h
    obtain ⟨hi, lo, rfl, -⟩ := h short List.mem_cons_self
    exact absurd hshort (Nat.lt_irrefl 2)

/-- **The parser** decodes when every escape holds a number. -/
theorem percentDecode_isSome_iff {uri : Bytes} :
    (percentDecode uri).isSome ↔ ∀ e ∈ escapesOf uri, Readable e := by
  induction uri using uri_induction with
  | nil => exact iff_of_true rfl (fun e he => by cases he)
  | plain c rest hc ih => rw [percentDecode_plain hc, Option.isSome_map, escapesOf_plain hc, ih]
  | escape a b rest ih =>
    rw [percentDecode_escape, escapesOf_escape, List.forall_mem_cons]
    cases hvalue : extractHexInt [a, b] with
    | none =>
      refine iff_of_false Bool.false_ne_true ?_
      intro h
      obtain ⟨-, n, hn⟩ := h.1
      rw [hvalue] at hn
      cases hn
    | some n =>
      rw [Option.bind_some, Option.isSome_map, ih]
      exact (and_iff_right ⟨rfl, n, hvalue⟩).symm
  | cut short hshort =>
    rw [percentDecode_cut hshort, escapesOf_cut hshort]
    refine iff_of_false Bool.false_ne_true ?_
    intro h
    exact absurd (h short List.mem_cons_self).1 hshort.ne

/-- The parser agrees with the reference where that is defined. -/
theorem percentDecode_of_reference {uri d : Bytes} (h : referenceDecode uri = some d) :
    percentDecode uri = some d := by
  induction uri using uri_induction generalizing d with
  | nil => exact h
  | plain c rest hc ih =>
    rw [referenceDecode_plain hc] at h
    obtain ⟨e, he, rfl⟩ := Option.map_eq_some_iff.mp h
    rw [percentDecode_plain hc, ih he]
    rfl
  | escape a b rest ih =>
    rw [referenceDecode_escape] at h
    split_ifs at h with hhex
    obtain ⟨e, he, rfl⟩ := Option.map_eq_some_iff.mp h
    rw [percentDecode_escape, extractHexInt_digits hhex.1 hhex.2, Option.bind_some, ih he, toChar_natCast]
    rfl
  | cut short hshort =>
    rw [referenceDecode_cut hshort] at h
    cases h

/-! ### Dots -/

/-- The ways to write a dot. -/
def IsDot (x : Bytes) : Prop := x = bytes "." ∨ x = bytes "%2e" ∨ x = bytes "%2E"

/-- **Two dots in a row**, behind a text with whole escapes. -/
def Dotted (uri : Bytes) : Prop :=
  ∃ a x y b, uri = a ++ (x ++ (y ++ b)) ∧ (∀ e ∈ escapesOf a, e.length = 2) ∧ IsDot x ∧ IsDot y

/-- The text starts with a dot. -/
def StartsWithDot (uri : Bytes) : Prop := ∃ y b, uri = y ++ b ∧ IsDot y

theorem IsDot.eq_singleton {c : Byte} {rest y b : Bytes} (hc : c ≠ byte '%') (h : c :: rest = y ++ b)
    (hy : IsDot y) : c = byte '.' ∧ y = [c] := by
  rcases hy with rfl | rfl | rfl
  · obtain rfl : c = byte '.' := (List.cons.inj h).1
    exact ⟨rfl, rfl⟩
  · exact absurd (List.cons.inj h).1 hc
  · exact absurd (List.cons.inj h).1 hc

theorem IsDot.eq_escape {p q : Byte} {rest y b : Bytes} (h : [byte '%', p, q] ++ rest = y ++ b)
    (hy : IsDot y) : y = [byte '%', p, q] := by
  rcases hy with rfl | rfl | rfl
  · exact absurd (List.cons.inj h).1 (by decide)
  · exact (List.append_inj_left h rfl).symm
  · exact (List.append_inj_left h rfl).symm

/-- The first dot is a unit of its own, or lies further on. -/
theorem dotted_plain_iff {c : Byte} (hc : c ≠ byte '%') (rest : Bytes) :
    Dotted (c :: rest) ↔ c = byte '.' ∧ StartsWithDot rest ∨ Dotted rest := by
  constructor
  · intro h
    obtain ⟨a, x, y, b, huri, ha, hx, hy⟩ := h
    cases a with
    | nil =>
      rw [List.nil_append] at huri
      obtain ⟨hdot, rfl⟩ := IsDot.eq_singleton hc huri hx
      exact .inl ⟨hdot, y, b, (List.cons.inj huri).2, hy⟩
    | cons d a =>
      rw [List.cons_append, List.cons.injEq] at huri
      obtain ⟨rfl, rfl⟩ := huri
      rw [escapesOf_plain hc] at ha
      exact .inr ⟨a, x, y, b, rfl, ha, hx, hy⟩
  · intro h
    rcases h with ⟨rfl, y, b, rfl, hy⟩ | ⟨a, x, y, b, rfl, ha, hx, hy⟩
    · refine ⟨[], bytes ".", y, b, rfl, ?_, .inl rfl, hy⟩
      intro e he
      cases he
    · refine ⟨c :: a, x, y, b, rfl, ?_, hx, hy⟩
      rwa [escapesOf_plain hc]

theorem dotted_escape_iff (p q : Byte) (rest : Bytes) : Dotted (byte '%' :: p :: q :: rest) ↔
    IsDot [byte '%', p, q] ∧ StartsWithDot rest ∨ Dotted rest := by
  constructor
  · intro h
    obtain ⟨a, x, y, b, huri, ha, hx, hy⟩ := h
    rcases a with _ | ⟨d, _ | ⟨d', _ | ⟨d'', a⟩⟩⟩
    · rw [List.nil_append] at huri
      obtain rfl := IsDot.eq_escape huri hx
      exact .inl ⟨hx, y, b, List.append_cancel_left (show [byte '%', p, q] ++ rest = _ from huri), hy⟩
    · rw [List.cons_append, List.cons.injEq] at huri
      rw [← huri.1] at ha
      exact absurd (ha [] List.mem_cons_self) (by decide)
    · rw [List.cons_append, List.cons.injEq] at huri
      rw [← huri.1] at ha
      exact absurd (ha [d'] List.mem_cons_self) (by simp)
    · simp only [List.cons_append, List.cons.injEq] at huri
      obtain ⟨rfl, rfl, rfl, rfl⟩ := huri
      rw [escapesOf_escape, List.forall_mem_cons] at ha
      exact .inr ⟨a, x, y, b, rfl, ha.2, hx, hy⟩
  · intro h
    rcases h with ⟨hx, y, b, rfl, hy⟩ | ⟨a, x, y, b, rfl, ha, hx, hy⟩
    · refine ⟨[], [byte '%', p, q], y, b, rfl, ?_, hx, hy⟩
      intro e he
      cases he
    · refine ⟨byte '%' :: p :: q :: a, x, y, b, rfl, ?_, hx, hy⟩
      rw [escapesOf_escape, List.forall_mem_cons]
      exact ⟨rfl, ha⟩

/-- The digits of the code of a dot. -/
theorem digits_of_dot {p q : Byte} (hp : isHexDigit p) (hq : isHexDigit q)
    (h : 16 * digitValue p + digitValue q = 46) : p = byte '2' ∧ (q = byte 'e' ∨ q = byte 'E') := by
  have hp16 := digitValue_lt hp
  have hq16 := digitValue_lt hq
  have hpv : digitValue p = 2 := by omega
  have hqv : digitValue q = 14 := by omega
  have hprange := isHexDigit_range hp
  have hqrange := isHexDigit_range hq
  rw [digitValue] at hpv hqv
  constructor
  · apply UInt8.toNat_inj.mp
    show p.toNat = 50
    split_ifs at hpv
    all_goals omega
  · have hcode : q.toNat = 101 ∨ q.toNat = 69 := by
      split_ifs at hqv
      all_goals omega
    exact hcode.imp (fun h => UInt8.toNat_inj.mp h) (fun h => UInt8.toNat_inj.mp h)

/-- The escapes of a dot. -/
theorem toChar_eq_dot_iff {p q : Byte} {n : ℤ} (h : extractHexInt [p, q] = some n) :
    toChar n = byte '.' ↔ IsDot [byte '%', p, q] := by
  constructor
  · intro hdot
    have hmod : n % 256 = 46 := by
      have hnat := congrArg UInt8.toNat hdot
      rw [toChar, UInt8.toNat_ofNat'] at hnat
      have h46 : (byte '.').toNat = 46 := rfl
      omega
    rcases extractHexInt_pair h with ⟨hp, hq, rfl⟩ | hsmall
    · have hp16 := digitValue_lt hp
      have hq16 := digitValue_lt hq
      obtain ⟨rfl, rfl | rfl⟩ := digits_of_dot hp hq (by omega)
      · exact .inr (.inl rfl)
      · exact .inr (.inr rfl)
    · omega
  · intro hdot
    have hvalue : extractHexInt [byte '2', byte 'e'] = some 46 ∧ extractHexInt [byte '2', byte 'E'] = some 46 := by
      decide
    have hn : n = 46 := by
      rcases hdot with hdot | hdot | hdot
      · exact absurd (congrArg List.length hdot) (by simp [bytes])
      · have hpair : [p, q] = [byte '2', byte 'e'] := (List.cons.inj hdot).2
        rw [hpair, hvalue.1] at h
        exact (Option.some.inj h).symm
      · have hpair : [p, q] = [byte '2', byte 'E'] := (List.cons.inj hdot).2
        rw [hpair, hvalue.2] at h
        exact (Option.some.inj h).symm
    rw [hn]
    rfl

/-- The first byte of the decoded text is a dot. -/
theorem startsWithDot_iff {uri d : Bytes} (h : percentDecode uri = some d) :
    StartsWithDot uri ↔ d.head? = some (byte '.') := by
  cases uri using uri_induction with
  | nil =>
    obtain rfl := Option.some.inj h
    refine iff_of_false ?_ (fun h => by cases h)
    intro hdot
    obtain ⟨y, b, hsplit, hy⟩ := hdot
    obtain ⟨rfl, rfl⟩ := List.append_eq_nil_iff.mp hsplit.symm
    rcases hy with hy | hy | hy
    all_goals exact absurd (congrArg List.length hy) (by simp [bytes])
  | plain c rest hc _ =>
    rw [percentDecode_plain hc] at h
    obtain ⟨e, -, rfl⟩ := Option.map_eq_some_iff.mp h
    rw [List.head?_cons, Option.some.injEq]
    constructor
    · intro hdot
      obtain ⟨y, b, hsplit, hy⟩ := hdot
      obtain ⟨rfl, -⟩ := IsDot.eq_singleton hc hsplit hy
      rfl
    · intro hdot
      have hc' : c = byte '.' := by
        split_ifs at hdot
        · exact absurd hdot (by decide)
        · exact hdot
      exact ⟨bytes ".", rest, by rw [hc']; rfl, .inl rfl⟩
  | escape p q rest _ =>
    rw [percentDecode_escape] at h
    obtain ⟨n, hn, h⟩ := Option.bind_eq_some_iff.mp h
    obtain ⟨e, -, rfl⟩ := Option.map_eq_some_iff.mp h
    rw [List.head?_cons, Option.some.injEq, toChar_eq_dot_iff hn]
    constructor
    · intro hdot
      obtain ⟨y, b, hsplit, hy⟩ := hdot
      rwa [← IsDot.eq_escape hsplit hy]
    · intro hdot
      exact ⟨[byte '%', p, q], rest, rfl, hdot⟩
  | cut short hshort =>
    rw [percentDecode_cut hshort] at h
    cases h

theorem dots_cons_iff (v : Byte) (d : Bytes) :
    bytes ".." <:+: v :: d ↔ v = byte '.' ∧ d.head? = some (byte '.') ∨ bytes ".." <:+: d := by
  rw [List.infix_cons_iff, show bytes ".." = [byte '.', byte '.'] from rfl, List.cons_prefix_cons]
  refine or_congr_left (and_congr eq_comm ?_)
  cases d with
  | nil => exact iff_of_false (by simp) (fun h => by cases h)
  | cons w d =>
    rw [List.cons_prefix_cons, List.head?_cons, Option.some.injEq, and_iff_left List.nil_prefix]
    exact eq_comm

/-- **Two dots in a row in the decoded text** are two dots in a row in the URI. -/
theorem dots_percentDecode_iff {uri d : Bytes} (h : percentDecode uri = some d) :
    bytes ".." <:+: d ↔ Dotted uri := by
  induction uri using uri_induction generalizing d with
  | nil =>
    obtain rfl := Option.some.inj h
    refine iff_of_false not_dots_nil ?_
    intro hdotted
    obtain ⟨a, x, y, b, hsplit, -, hx, -⟩ := hdotted
    obtain ⟨-, hsplit⟩ := List.append_eq_nil_iff.mp hsplit.symm
    obtain ⟨rfl, -⟩ := List.append_eq_nil_iff.mp hsplit
    rcases hx with hx | hx | hx
    all_goals exact absurd (congrArg List.length hx) (by simp [bytes])
  | plain c rest hc ih =>
    rw [percentDecode_plain hc] at h
    obtain ⟨e, he, rfl⟩ := Option.map_eq_some_iff.mp h
    have hdot : (if c = byte '+' then byte ' ' else c) = byte '.' ↔ c = byte '.' := by
      split_ifs with hplus
      · rw [hplus]
        decide
      · exact Iff.rfl
    rw [dots_cons_iff, dotted_plain_iff hc, ih he, ← startsWithDot_iff he, hdot]
  | escape p q rest ih =>
    rw [percentDecode_escape] at h
    obtain ⟨n, hn, h⟩ := Option.bind_eq_some_iff.mp h
    obtain ⟨e, he, rfl⟩ := Option.map_eq_some_iff.mp h
    rw [dots_cons_iff, dotted_escape_iff, ih he, ← startsWithDot_iff he, toChar_eq_dot_iff hn]
  | cut short hshort =>
    rw [percentDecode_cut hshort] at h
    cases h

/-! ### The path of a request -/

theorem pathOf_eq_reference_iff {uri : Bytes} (huri : uri ≠ []) :
    pathOf uri = referencePath uri ↔ (∀ e ∈ escapesOf uri, IsHexPair e) ∨
      (∃ e ∈ escapesOf uri, ¬ Readable e) ∨ Dotted uri := by
  rw [← referenceDecode_isSome_iff, referencePath]
  cases href : referenceDecode uri with
  | some d =>
    refine iff_of_true ?_ (.inl rfl)
    rw [pathOf_eq huri, percentDecode_of_reference href]
  | none =>
    rw [Option.isSome_none, or_iff_right Bool.false_ne_true]
    show pathOf uri = [] ↔ _
    have hpath := not_congr (pathOf_ne_nil_iff huri)
    rw [not_not] at hpath
    rw [hpath]
    have hread := @percentDecode_isSome_iff uri
    cases hdecode : percentDecode uri with
    | none =>
      rw [hdecode] at hread
      refine iff_of_true ?_ (.inl ?_)
      · intro h
        obtain ⟨d, hd, -⟩ := h
        cases hd
      · by_contra hall
        push Not at hall
        exact absurd (hread.mpr hall) Bool.false_ne_true
    | some d =>
      rw [hdecode] at hread
      have hno : ¬ ∃ e ∈ escapesOf uri, ¬ Readable e := by
        intro h
        obtain ⟨e, he, hnot⟩ := h
        exact hnot (hread.mp rfl e he)
      rw [or_iff_right hno, ← dots_percentDecode_iff hdecode]
      constructor
      · intro h
        by_contra hnot
        exact h ⟨d, rfl, hnot⟩
      · intro hdots h
        obtain ⟨d', hd', hnot⟩ := h
        obtain rfl := Option.some.inj hd'
        exact hnot hdots

/-- **The path of a request is that of the reference** exactly when every escape of its URI is two
hexadecimal digits, or its path is empty anyway: an escape holds no number at all, or there are two dots in a
row. -/
theorem path_eq_reference_iff {s : Bytes} {t : ThreadState} {r : Request}
    (hparse : parse ThreadState.fresh s = some (t, some r)) :
    r.path = referencePath r.uri ↔ (∀ e ∈ escapesOf r.uri, IsHexPair e) ∨
      (∃ e ∈ escapesOf r.uri, ¬ Readable e) ∨ Dotted r.uri := by
  obtain ⟨-, m, -, rfl⟩ := parse_fresh_good_iff.mp hparse
  exact pathOf_eq_reference_iff m.uri_ne

theorem path_eq_reference_iff_plain :
    (getRequest (bytes "/a%20b") []).path = referencePath (getRequest (bytes "/a%20b") []).uri := by
  have hparse : parse ThreadState.fresh (bytes "GET /a%20b HTTP/1.0\r\n\r\n") =
      some (⟨.good, Request.fresh⟩, some (getRequest (bytes "/a%20b") [])) := by decide
  have hescapes : escapesOf (getRequest (bytes "/a%20b") []).uri = [[byte '2', byte '0']] := by decide
  apply (path_eq_reference_iff hparse).mpr
  left
  rw [hescapes]
  intro e he
  exact ⟨byte '2', byte '0', List.mem_singleton.mp he, by decide, by decide⟩

/-- One digit is enough for the parser. -/
theorem path_of_one_digit :
    ∃ t r, parse ThreadState.fresh (bytes "GET /%4g HTTP/1.0\r\n\r\n") = some (t, some r) ∧
      r.path = [byte '/', 4] ∧ referencePath r.uri = [] :=
  ⟨⟨.good, Request.fresh⟩, getRequest (bytes "/%4g") [], by decide, by decide, by decide⟩

end Webserver.Http
