import Webserver.Http.RequestLanguage

/-!
# Body framing

How many bytes behind the headers are taken as the body.  The number goes through `GetHeaderValue`, which
takes the first header that is written exactly `Content-Length`, and `std::stoull`, which skips white space,
negates after a minus sign and stops at the first byte that is not a digit.  Where it throws, the request is
good and has no body.

So the length is never an error: what stands in front of the body is accepted with as many bytes as
`Announced` says, and `parse_body_framing` is this for every good request and for every header block.
-/

namespace Webserver.Http

open ByteString IncrementalMachine Numeral

/-! ### The announced length -/

/-- **`n` is announced** by the value of a header: `std::stoull` reads it, from a number below `2 ^ 64`. -/
def Announces (value : Bytes) (n : ℕ) : Prop :=
  ∃ neg v, StartsWithNumber value neg v ∧ v < 2 ^ 64 ∧ n = if neg then (2 ^ 64 - v) % 2 ^ 64 else v

/-- **The length that the headers announce**: what the first header written `Content-Length` announces, and
nothing when there is no such header or its value announces nothing. -/
def Announced (headers : Headers) (n : ℕ) : Prop :=
  match headers.find? fun h => h.1 = bytes "Content-Length" with
  | none => n = 0
  | some h => Announces h.2 n ∨ (∀ k, ¬ Announces h.2 k) ∧ n = 0

theorem announced_iff {headers : Headers} {n : ℕ} : Announced headers n ↔ n = contentLength headers := by
  unfold Announced
  cases hfind : headers.find? fun h => h.1 = bytes "Content-Length" with
  | none =>
    have hlength : contentLength headers = 0 := by
      rw [contentLength, headerValue, hfind]
      rfl
    rw [hlength]
  | some h =>
    have hread (k : ℕ) : Announces h.2 k ↔ stoull h.2 = .ok k := stoull_eq_ok_iff.symm
    have hheader : headerValue headers (bytes "Content-Length") = h.2 := by
      rw [headerValue, hfind]
      rfl
    simp only [hread]
    cases hvalue : stoull h.2 with
    | error e =>
      have hlength : contentLength headers = 0 := by rw [contentLength, hheader, hvalue]
      simp [hlength]
    | ok k =>
      have hlength : contentLength headers = k := by rw [contentLength, hheader, hvalue]
      rw [hlength]
      constructor
      · intro hn
        rcases hn with hn | ⟨hnone, -⟩
        · exact (Except.ok.inj hn).symm
        · exact absurd rfl (hnone k)
      · intro hn
        exact .inl (congrArg Except.ok hn.symm)

/-! ### Every header block is accepted -/

namespace RequestText

/-- The request line and a header block, up to the blank line. -/
def head (m : RequestText) (hts : List HeaderText) : Bytes := m.requestLine ++ renderHeaders hts ++ crlf

/-- The request with another header block and the body that it announces. -/
def withBlock (m : RequestText) (hts : List HeaderText) (body : Bytes)
    (h : body.length = contentLength (hts.map HeaderText.pair)) : RequestText :=
  { m with headerTexts := hts, body := body, body_length := h }

theorem render_withBlock (m : RequestText) {hts : List HeaderText} {body : Bytes}
    (h : body.length = contentLength (hts.map HeaderText.pair)) :
    (m.withBlock hts body h).render = m.head hts ++ body := rfl

/-- With enough bytes behind it, a header block is good. -/
theorem stops_head (m : RequestText) {hts : List HeaderText} {tail : Bytes}
    (h : contentLength (hts.map HeaderText.pair) ≤ tail.length) :
    ∃ r, Stops absorb Request.fresh (m.head hts ++ tail) (.good r)
      (tail.drop (contentLength (hts.map HeaderText.pair))) := by
  have hlen : (tail.take (contentLength (hts.map HeaderText.pair))).length =
      contentLength (hts.map HeaderText.pair) := List.length_take_of_le h
  refine ⟨(m.withBlock hts _ hlen).toRequest, stops_fresh_iff.mpr ⟨m.withBlock hts _ hlen, ?_, rfl⟩⟩
  rw [render_withBlock, List.append_assoc, List.take_append_drop]

/-- **No length is answered bad.**  A header block is good as soon as the announced bytes have arrived, and
undecided before. -/
theorem parse_head (m : RequestText) (hts : List HeaderText) (tail : Bytes) :
    ∃ t ret, parse ThreadState.fresh (m.head hts ++ tail) = some (t, ret) ∧
      getParseResult t =
        if contentLength (hts.map HeaderText.pair) ≤ tail.length then .good else .indeterminate := by
  rw [parse_eq_feed]
  show ∃ t ret, finish (feed absorb Request.fresh (m.head hts ++ tail)) = some (t, ret) ∧ _
  by_cases henough : contentLength (hts.map HeaderText.pair) ≤ tail.length
  · obtain ⟨r, hr⟩ := m.stops_head henough
    refine ⟨⟨.good, r.reset⟩, some r, ?_, ?_⟩
    · rw [show feed absorb Request.fresh (m.head hts ++ tail) = _ from hr]
      rfl
    · rw [if_pos henough]
      rfl
  · -- with more bytes behind it the machine stops as good, and not before all of them are there
    have hpad : contentLength (hts.map HeaderText.pair) ≤
        (tail ++ List.replicate (contentLength (hts.map HeaderText.pair)) 0).length := by
      rw [List.length_append, List.length_replicate]
      omega
    obtain ⟨r, hr⟩ := m.stops_head hpad
    cases hf : feed absorb Request.fresh (m.head hts ++ tail) with
    | inl r' =>
      refine ⟨⟨.indeterminate, r'⟩, none, rfl, ?_⟩
      rw [if_neg henough]
      rfl
    | inr p =>
      obtain ⟨stop, rest⟩ := p
      have hlonger : Stops absorb Request.fresh
          (m.head hts ++ (tail ++ List.replicate (contentLength (hts.map HeaderText.pair)) 0)) stop
          (rest ++ List.replicate (contentLength (hts.map HeaderText.pair)) 0) := by
        rw [← List.append_assoc]
        exact Stops.append hf _
      have hrest := congrArg List.length (hr.unique hlonger).2
      rw [List.length_drop, List.length_append, List.length_append, List.length_replicate] at hrest
      omega

end RequestText

/-! ### Good requests -/

/-- **Framing of a good request.**  The body is what follows the header block, as long as announced. -/
theorem body_of_parse {s : Bytes} {t : ThreadState} {r : Request}
    (h : parse ThreadState.fresh s = some (t, some r)) :
    ∃ (m : RequestText) (rest : Bytes), s = m.head m.headerTexts ++ r.body ++ rest ∧ r = m.toRequest ∧
      Announced r.headers r.body.length := by
  obtain ⟨-, m, ⟨rest, rfl⟩, rfl⟩ := parse_fresh_good_iff.mp h
  exact ⟨m, rest, rfl, rfl, announced_iff.mpr m.body_length⟩

/-- Headers that are all the same plain numeral announce it. -/
theorem announced_plain {headers : Headers} {n : ℕ} {value : Bytes} (hvalue : PlainNumeral value n)
    (hexists : ∃ h ∈ headers, h.1 = bytes "Content-Length")
    (hall : ∀ h ∈ headers, h.1 = bytes "Content-Length" → h.2 = value) : Announced headers n := by
  unfold Announced
  cases hfind : headers.find? fun h => h.1 = bytes "Content-Length" with
  | none =>
    obtain ⟨h, hmem, hname⟩ := hexists
    have hnot := List.find?_eq_none.mp hfind h hmem
    simp [hname] at hnot
  | some h =>
    have hname : h.1 = bytes "Content-Length" := by simpa using List.find?_some hfind
    show Announces h.2 n ∨ _
    rw [hall h (List.mem_of_find?_eq_some hfind) hname]
    exact .inl (stoull_eq_ok_iff.mp hvalue.stoull_eq)

/-- **The body is as long as announced, and no announcement is refused.**  Every good request is a header
block, the body that it announces, and a rest; where all its `Content-Length` headers are one plain numeral,
that is the length.  And behind every request line and every header block the parser waits for as many bytes
as are announced and then answers good, whatever the `Content-Length` headers are. -/
theorem parse_body_framing :
    (∀ s t r, parse ThreadState.fresh s = some (t, some r) →
      ∃ (m : RequestText) (rest : Bytes), s = m.head m.headerTexts ++ r.body ++ rest ∧ r = m.toRequest ∧
        Announced r.headers r.body.length ∧
        ∀ value n, PlainNumeral value n → (∃ h ∈ r.headers, h.1 = bytes "Content-Length") →
          (∀ h ∈ r.headers, h.1 = bytes "Content-Length" → h.2 = value) → r.body.length = n) ∧
    ∀ (m : RequestText) (hts : List HeaderText) (tail : Bytes), ∃ t ret n,
      parse ThreadState.fresh (m.head hts ++ tail) = some (t, ret) ∧ Announced (hts.map HeaderText.pair) n ∧
        getParseResult t = if n ≤ tail.length then .good else .indeterminate := by
  refine ⟨?_, ?_⟩
  · intro s t r h
    obtain ⟨m, rest, hs, hr, hlength⟩ := body_of_parse h
    refine ⟨m, rest, hs, hr, hlength, ?_⟩
    intro value n hvalue hexists hall
    rw [announced_iff.mp hlength, announced_iff.mp (announced_plain hvalue hexists hall)]
  · intro m hts tail
    obtain ⟨t, ret, hparse, hresult⟩ := m.parse_head hts tail
    exact ⟨t, ret, _, hparse, announced_iff.mpr rfl, hresult⟩

/-- A body of three bytes, with a sign and text behind the number. -/
theorem parse_body_framing_signed :
    ∃ (m : RequestText) (rest : Bytes), bytes "GET / HTTP/1.0\r\nContent-Length: +3x\r\n\r\nabcd" =
      m.head m.headerTexts ++ bytes "abc" ++ rest := by
  have hparse : parse ThreadState.fresh (bytes "GET / HTTP/1.0\r\nContent-Length: +3x\r\n\r\nabcd") =
      some (⟨.good, Request.fresh⟩, some ⟨.body, 0, bytes "GET / HTTP/1.0\r\nContent-Length: +3x\r\n\r\nabc",
        bytes "GET", bytes "/", bytes "/index.html", bytes "HTTP/1.0", [(bytes "Content-Length", bytes "+3x")],
        bytes "abc"⟩) := by decide
  obtain ⟨m, rest, hs, -⟩ := parse_body_framing.1 _ _ _ hparse
  exact ⟨m, rest, hs⟩

/-! ### Names and numerals as HTTP has them -/

/-- An ASCII letter in lower case. -/
def toLower (b : Byte) : Byte := if 65 ≤ b.toNat ∧ b.toNat ≤ 90 then b + 32 else b

/-- The name of the header without regard to letter case. -/
def IsContentLength (name : Bytes) : Prop := name.map toLower = bytes "content-length"

/-- **No body length is guessed**: there is no such header and no body, or all such headers are one plain
numeral, which is the length. -/
def NeverGuessed (r : Request) : Prop :=
  (∀ h ∈ r.headers, ¬ IsContentLength h.1) ∧ r.body = [] ∨
    ∃ value n, PlainNumeral value n ∧ (∃ h ∈ r.headers, IsContentLength h.1) ∧
      (∀ h ∈ r.headers, IsContentLength h.1 → h.2 = value) ∧ r.body.length = n

/-- A value that is no number is accepted. -/
theorem parse_guesses :
    ∃ t r, parse ThreadState.fresh (bytes "GET / HTTP/1.0\r\nContent-Length: x\r\n\r\n") = some (t, some r) ∧
      ¬ NeverGuessed r := by
  refine ⟨⟨.good, Request.fresh⟩, getRequest (bytes "/") [(bytes "Content-Length", bytes "x")], by decide, ?_⟩
  intro h
  rcases h with ⟨hnone, -⟩ | ⟨value, n, ⟨-, hdigits, -⟩, -, hall, -⟩
  · exact hnone _ List.mem_cons_self (by unfold IsContentLength; decide)
  · have hvalue : bytes "x" = value := hall _ List.mem_cons_self (by unfold IsContentLength; decide)
    rw [← hvalue] at hdigits
    exact absurd (hdigits (byte 'x') (by decide)) (by decide)

end Webserver.Http
