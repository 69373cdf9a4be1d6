import Webserver.Http.RequestMachine

/-!
# The states of the request parser

The language of each state, from the request line to the end of a header line, with the object that the
next state starts from.  `early` and `late` are the objects the parser goes through before and after the
end of the URI; every rule says which bytes a state takes and what they add to the object.
-/

namespace Webserver.Http

open ByteString IncrementalMachine Numeral

/-! ### The objects the parser goes through -/

/-- The object while the method or the URI is read. -/
def early (state : State) (raw method uri : Bytes) : Request :=
  ⟨state, 0, raw, method, uri, [], [], [], []⟩

/-- The object between the URI and the body. -/
def late (state : State) (raw method uri version : Bytes) (headers : Headers) : Request :=
  ⟨state, 0, raw, method, uri, pathOf uri, version, headers, []⟩

theorem fresh_eq_early : Request.fresh = early .methodStart [] [] [] := rfl

theorem absorb_early (state : State) (raw method uri : Bytes) (c : Byte) :
    absorb (early state raw method uri) c =
      classify (consumeIn (early state (raw ++ [c]) method uri) c) := rfl

theorem absorb_late (state : State) (raw method uri version : Bytes) (headers : Headers) (c : Byte) :
    absorb (late state raw method uri version headers) c =
      classify (consumeIn (late state (raw ++ [c]) method uri version headers) c) := rfl

variable {xs rest raw method uri version : Bytes} {headers : Headers} {r : Request}

/-! ### The request line -/

theorem stops_method :
    Stops absorb Request.fresh xs (.good r) rest ↔
      ∃ ds ys, xs = ds ++ byte ' ' :: ys ∧ ds ≠ [] ∧ (∀ c ∈ ds, IsTokenByte c) ∧
        Stops absorb (early .uri (ds ++ [byte ' ']) ds []) ys (.good r) rest := by
  refine stops_span_ne absorb (f := fun cs => early .method cs cs [])
    (g := fun cs => early .uri (cs ++ [byte ' ']) cs []) ?_ ?_ ?_ ?_ ?_ ?_ xs rest
  · intro c hc
    rw [fresh_eq_early, absorb_early]
    simp [consumeIn, early, (notTokenChar_eq_false_iff c).mpr hc, classify]
  · intro c hc
    rw [← notTokenChar_eq_false_iff, Bool.not_eq_false] at hc
    refine ⟨.bad (early .methodStart [c] [] []), ?_, by simp⟩
    rw [fresh_eq_early, absorb_early]
    simp [consumeIn, early, hc, classify]
  · intro cs c _ hc
    rw [absorb_early]
    simp only [consumeIn, early, if_neg hc.ne_space, (notTokenChar_eq_false_iff c).mpr hc]
    rfl
  · intro cs _
    rfl
  · decide
  · intro cs c _ hc hne
    rw [← notTokenChar_eq_false_iff, Bool.not_eq_false] at hc
    refine ⟨.bad (early .method (cs ++ [c]) cs []), ?_, by simp⟩
    rw [absorb_early]
    simp only [consumeIn, early, if_neg hne, hc]
    rfl

theorem stops_uri :
    Stops absorb (early .uri raw method []) xs (.good r) rest ↔
      ∃ ds ys, xs = ds ++ byte ' ' :: ys ∧ ds ≠ [] ∧ (∀ c ∈ ds, IsUriByte c) ∧
        Stops absorb (late .httpVersionH (raw ++ ds ++ [byte ' ']) method ds [] []) ys (.good r) rest := by
  have hstep : ∀ cs c, IsUriByte c →
      absorb (early .uri (raw ++ cs) method cs) c =
        .inl (early .uri (raw ++ (cs ++ [c])) method (cs ++ [c])) := by
    intro cs c hc
    have hctl : isCtl (charToInt c) = false := by
      rw [← Bool.not_eq_true, isCtl_charToInt]
      exact hc.1
    rw [absorb_early, List.append_assoc]
    simp only [consumeIn, early, if_neg hc.2, hctl]
    rfl
  have hbad : ∀ cs c, ¬ IsUriByte c → c ≠ byte ' ' →
      absorb (early .uri (raw ++ cs) method cs) c =
        .inr (.bad (early .uri (raw ++ cs ++ [c]) method cs)) := by
    intro cs c hc hne
    have hctl : isCtl (charToInt c) = true := by
      rw [isCtl_charToInt]
      by_contra h
      exact hc ⟨h, hne⟩
    rw [absorb_early]
    simp only [consumeIn, early, if_neg hne, hctl]
    rfl
  refine stops_span_ne absorb (f := fun cs => early .uri (raw ++ cs) method cs)
    (g := fun cs => late .httpVersionH (raw ++ cs ++ [byte ' ']) method cs [] [])
    ?_ ?_ ?_ ?_ ?_ ?_ xs rest
  · intro c hc
    have h := hstep [] c hc
    rwa [List.append_nil] at h
  · intro c hc
    by_cases hne : c = byte ' '
    · subst hne
      refine ⟨.undefined, ?_, by simp⟩
      rw [absorb_early]
      rfl
    · have h := hbad [] c hc hne
      rw [List.append_nil] at h
      exact ⟨_, h, by simp⟩
  · intro cs c _ hc
    exact hstep cs c hc
  · intro cs hcs
    rw [absorb_early]
    simp only [consumeIn, early, if_true, inferPath_eq_some hcs]
    rfl
  · decide
  · intro cs c _ hc hne
    exact ⟨_, hbad cs c hc hne, by simp⟩

/-- A state of the version that copies one byte. -/
theorem stops_expectVersion (state next : State) (d : Byte)
    (h : ∀ r c, r.state = state → consumeIn r c = expectVersion r c d next) :
    Stops absorb (late state raw method uri version headers) xs (.good r) rest ↔
      ∃ ys, xs = d :: ys ∧
        Stops absorb (late next (raw ++ [d]) method uri (version ++ [d]) headers) ys (.good r) rest := by
  refine stops_expect ?_ ?_ xs rest
  · rw [absorb_late, h _ _ rfl, expectVersion, if_pos rfl]
    rfl
  · intro c hc
    rw [absorb_late, h _ _ rfl, expectVersion, if_neg hc]
    exact ⟨_, rfl, by simp⟩

/-- A state that waits for a line feed. -/
theorem stops_expectNewline (state next : State)
    (h : ∀ r c, r.state = state → consumeIn r c = expectNewline r c next) :
    Stops absorb (late state raw method uri version headers) xs (.good r) rest ↔
      ∃ ys, xs = byte '\n' :: ys ∧
        Stops absorb (late next (raw ++ [byte '\n']) method uri version headers) ys (.good r) rest := by
  refine stops_expect ?_ ?_ xs rest
  · rw [absorb_late, h _ _ rfl, expectNewline, if_pos rfl]
    rfl
  · intro c hc
    rw [absorb_late, h _ _ rfl, expectNewline, if_neg hc]
    exact ⟨_, rfl, by simp⟩

/-- The two states of a number of the version.  `tail` is what the delimiter adds to the version. -/
theorem stops_digits (start state next : State) (d : Byte) (tail : Bytes) (hdP : ¬ IsDigitByte d)
    (hstart : ∀ r c, r.state = start → consumeIn r c =
      if isDigit (charToInt c) then
        some (.indeterminate, { r with state := state, version := r.version ++ [c] })
      else some (.bad, r))
    (hstate : ∀ r c, r.state = state → consumeIn r c =
      if c = d then some (.indeterminate, { r with state := next, version := r.version ++ tail })
      else if isDigit (charToInt c) then
        some (.indeterminate, { r with version := r.version ++ [c] })
      else some (.bad, r)) :
    Stops absorb (late start raw method uri version headers) xs (.good r) rest ↔
      ∃ ds ys, xs = ds ++ d :: ys ∧ ds ≠ [] ∧ (∀ c ∈ ds, IsDigitByte c) ∧
        Stops absorb (late next (raw ++ ds ++ [d]) method uri (version ++ ds ++ tail) headers)
          ys (.good r) rest := by
  refine stops_span_ne absorb (f := fun cs => late state (raw ++ cs) method uri (version ++ cs) headers)
    (g := fun cs => late next (raw ++ cs ++ [d]) method uri (version ++ cs ++ tail) headers)
    ?_ ?_ ?_ ?_ hdP ?_ xs rest
  · intro c hc
    rw [absorb_late, hstart _ _ rfl, if_pos ((isDigit_charToInt c).mpr hc)]
    rfl
  · intro c hc
    rw [absorb_late, hstart _ _ rfl, if_neg (mt (isDigit_charToInt c).mp hc)]
    exact ⟨_, rfl, by simp⟩
  · intro cs c _ hc
    have hne : c ≠ d := by
      rintro rfl
      exact hdP hc
    rw [absorb_late, hstate _ _ rfl, if_neg hne, if_pos ((isDigit_charToInt c).mpr hc),
      ← List.append_assoc, ← List.append_assoc]
    rfl
  · intro cs _
    rw [absorb_late, hstate _ _ rfl, if_pos rfl]
    rfl
  · intro cs c _ hc hne
    rw [absorb_late, hstate _ _ rfl, if_neg hne, if_neg (mt (isDigit_charToInt c).mp hc)]
    exact ⟨_, rfl, by simp⟩

/-- The version and the end of the request line. -/
theorem stops_version :
    Stops absorb (late .httpVersionH raw method uri [] []) xs (.good r) rest ↔
      ∃ major minor ys, xs = bytes "HTTP/" ++ major ++ bytes "." ++ minor ++ crlf ++ ys ∧
        (major ≠ [] ∧ (∀ c ∈ major, IsDigitByte c)) ∧ (minor ≠ [] ∧ (∀ c ∈ minor, IsDigitByte c)) ∧
        Stops absorb (late .headerLineStart
          (raw ++ (bytes "HTTP/" ++ major ++ bytes "." ++ minor ++ crlf)) method uri
          (bytes "HTTP/" ++ major ++ bytes "." ++ minor) []) ys (.good r) rest := by
  have hmajor : ∀ {raw version ys},
      Stops absorb (late .httpVersionMajorStart raw method uri version []) ys (.good r) rest ↔ _ :=
    stops_digits _ .httpVersionMajor .httpVersionMinorStart (byte '.') [byte '.']
      (by decide) (by rintro r c h; rw [consumeIn.eq_def, h])
      (by rintro r c h; rw [consumeIn.eq_def, h])
  have hminor : ∀ {raw version ys},
      Stops absorb (late .httpVersionMinorStart raw method uri version []) ys (.good r) rest ↔ _ :=
    stops_digits _ .httpVersionMinor .expectingNewline1 (byte '\r') []
      (by decide) (by rintro r c h; rw [consumeIn.eq_def, h])
      (by rintro r c h; rw [consumeIn.eq_def, h, List.append_nil])
  have hslash : ∀ {ys}, Stops absorb (late .httpVersionH raw method uri [] []) ys (.good r) rest ↔
      ∃ zs, ys = bytes "HTTP/" ++ zs ∧ Stops absorb
        (late .httpVersionMajorStart (raw ++ bytes "HTTP/") method uri (bytes "HTTP/") [])
          zs (.good r) rest := by
    intro ys
    rw [stops_expectVersion _ .httpVersionT1 (byte 'H')
      (by rintro r c h; rw [consumeIn.eq_def, h])]
    simp only [stops_expectVersion .httpVersionT1 .httpVersionT2 (byte 'T')
        (by rintro r c h; rw [consumeIn.eq_def, h]),
      stops_expectVersion .httpVersionT2 .httpVersionP (byte 'T')
        (by rintro r c h; rw [consumeIn.eq_def, h]),
      stops_expectVersion .httpVersionP .httpVersionSlash (byte 'P')
        (by rintro r c h; rw [consumeIn.eq_def, h]),
      stops_expectVersion .httpVersionSlash .httpVersionMajorStart (byte '/')
        (by rintro r c h; rw [consumeIn.eq_def, h])]
    constructor
    · rintro ⟨_, rfl, _, rfl, _, rfl, _, rfl, zs, rfl, h⟩
      refine ⟨zs, rfl, ?_⟩
      simpa [bytes] using h
    · rintro ⟨zs, rfl, h⟩
      refine ⟨_, rfl, _, rfl, _, rfl, _, rfl, zs, rfl, ?_⟩
      simpa [bytes] using h
  have hline : ∀ {raw version ys},
      Stops absorb (late .expectingNewline1 raw method uri version []) ys (.good r) rest ↔ _ :=
    stops_expectNewline _ .headerLineStart (by rintro r c h; rw [consumeIn.eq_def, h])
  simp only [hslash, hmajor, hminor, hline]
  constructor
  · rintro ⟨_, rfl, major, _, rfl, hne, hdigit, minor, _, rfl, hne', hdigit', ys, rfl, h⟩
    refine ⟨major, minor, ys, ?_, ⟨hne, hdigit⟩, ⟨hne', hdigit'⟩, ?_⟩
    · simp [bytes, crlf]
    · simpa [bytes, crlf] using h
  · rintro ⟨major, minor, ys, rfl, ⟨hne, hdigit⟩, ⟨hne', hdigit'⟩, h⟩
    refine ⟨_, ?_, major, _, rfl, hne, hdigit, minor, _, rfl, hne', hdigit', ys, rfl, ?_⟩
    · simp [bytes, crlf]
    · simpa [bytes, crlf] using h

/-! ### Header lines -/

theorem not_isCtl {c : Byte} (hc : ¬ IsControl c) : isCtl (charToInt c) = false := by
  rwa [← Bool.not_eq_true, isCtl_charToInt]

variable {hs : Headers} {name value : Bytes}

/-- The rest of a line whose bytes go to the value of the last header. -/
theorem stops_headerValue :
    Stops absorb (late .headerValue raw method uri version (hs ++ [(name, value)])) xs (.good r) rest ↔
      ∃ text ys, xs = text ++ crlf ++ ys ∧ (∀ c ∈ text, ¬ IsControl c) ∧
        Stops absorb (late .headerLineStart (raw ++ text ++ crlf) method uri version
          (hs ++ [(name, value ++ text)])) ys (.good r) rest := by
  have hspan := stops_span absorb (r := Stop.good r) (P := fun c => ¬ IsControl c)
    (d := byte '\r')
    (f := fun cs => late .headerValue (raw ++ cs) method uri version (hs ++ [(name, value ++ cs)]))
    (g := fun cs =>
      late .expectingNewline2 (raw ++ cs ++ [byte '\r']) method uri version
        (hs ++ [(name, value ++ cs)]))
    (by
      intro cs c hc
      have hne : c ≠ byte '\r' := by
        rintro rfl
        exact hc (by decide)
      rw [absorb_late]
      simp only [consumeIn, late, if_neg hne, not_isCtl hc, pushHeaderValue_append]
      simp [classify])
    (by
      intro cs
      rfl)
    (by decide)
    (by
      intro cs c hc hne
      rw [not_not, ← isCtl_charToInt] at hc
      rw [absorb_late]
      simp only [consumeIn, late, if_neg hne, hc]
      exact ⟨_, rfl, by simp⟩)
    xs rest []
  simp only [List.append_nil, List.nil_append] at hspan
  rw [hspan]
  simp only [stops_expectNewline .expectingNewline2 .headerLineStart
    (by rintro r c h; rw [consumeIn.eq_def, h])]
  constructor
  · rintro ⟨text, _, rfl, htext, ys, rfl, h⟩
    refine ⟨text, ys, by simp [crlf, bytes], htext, ?_⟩
    simpa [crlf, bytes] using h
  · rintro ⟨text, ys, rfl, htext, h⟩
    refine ⟨text, byte '\n' :: ys, by simp [crlf, bytes], htext, ys, rfl, ?_⟩
    simpa [crlf, bytes] using h

/-- A continuation line after its first blank. -/
theorem stops_headerLws :
    Stops absorb (late .headerLws raw method uri version (hs ++ [(name, value)])) xs (.good r) rest ↔
      ∃ blanks text ys, xs = blanks ++ text ++ crlf ++ ys ∧ (∀ c ∈ blanks, IsBlank c) ∧
        (∀ c ∈ text, ¬ IsControl c) ∧ text.head? ≠ some (byte ' ') ∧
        Stops absorb (late .headerLineStart (raw ++ blanks ++ text ++ crlf) method uri version
          (hs ++ [(name, value ++ text)])) ys (.good r) rest := by
  have hskip := stops_skip absorb rest (r := Stop.good r) (P := IsBlank)
    (f := fun cs => late .headerLws (raw ++ cs) method uri version (hs ++ [(name, value)]))
    (g := fun cs => late .headerValue (raw ++ cs) method uri version (hs ++ [(name, value)]))
    (by
      intro cs c hc
      rw [absorb_late, List.append_assoc]
      rcases hc with rfl | rfl
      · rfl
      · rfl)
    (by
      intro cs c xs hc
      rw [IsBlank] at hc
      rw [Stops, Stops, feed, feed, absorb_late, absorb_late]
      by_cases hcr : c = byte '\r'
      · simp only [consumeIn, late, if_pos hcr]
      · by_cases hctl : isCtl (charToInt c) = true
        · simp only [consumeIn, late, if_neg hcr, if_neg hc, hctl]
          simp [classify]
        · simp only [consumeIn, late, if_neg hcr, if_neg hc, if_neg hctl])
    xs []
  simp only [List.append_nil, List.nil_append] at hskip
  rw [hskip]
  simp only [stops_headerValue]
  constructor
  · rintro ⟨blanks, _, rfl, hblanks, hhead, text, ys, rfl, htext, h⟩
    refine ⟨blanks, text, ys, by simp, hblanks, htext, ?_, h⟩
    intro hsp
    obtain ⟨text', rfl⟩ := List.head?_eq_some_iff.mp hsp
    exact hhead (byte ' ') rfl (.inl rfl)
  · rintro ⟨blanks, text, ys, rfl, hblanks, htext, hsp, h⟩
    refine ⟨blanks, text ++ crlf ++ ys, by simp, hblanks, ?_, text, ys, rfl, htext, h⟩
    intro c hc hblank
    cases text with
    | nil =>
      obtain rfl := Option.some.inj hc
      exact absurd hblank (by decide)
    | cons b text =>
      obtain rfl := Option.some.inj hc
      rcases hblank with rfl | rfl
      · exact hsp rfl
      · exact htext _ List.mem_cons_self (by decide)

/-- A header line after the first byte of its name. -/
theorem stops_headerName :
    Stops absorb (late .headerName raw method uri version (hs ++ [(name, [])])) xs (.good r) rest ↔
      ∃ ds first ys, xs = ds ++ bytes ": " ++ first ++ crlf ++ ys ∧ (∀ c ∈ ds, IsTokenByte c) ∧
        (∀ c ∈ first, ¬ IsControl c) ∧
        Stops absorb (late .headerLineStart (raw ++ ds ++ bytes ": " ++ first ++ crlf) method uri version
          (hs ++ [(name ++ ds, first)])) ys (.good r) rest := by
  have hspan := stops_span absorb (r := Stop.good r) (P := IsTokenByte)
    (d := byte ':')
    (f := fun cs => late .headerName (raw ++ cs) method uri version (hs ++ [(name ++ cs, [])]))
    (g := fun cs =>
      late .spaceBeforeHeaderValue (raw ++ cs ++ [byte ':']) method uri version
        (hs ++ [(name ++ cs, [])]))
    (by
      intro cs c hc
      have hne : c ≠ byte ':' := by
        rintro rfl
        exact absurd hc (by decide)
      rw [absorb_late]
      simp only [consumeIn, late, if_neg hne, (notTokenChar_eq_false_iff c).mpr hc,
        pushHeaderName_append]
      simp [classify])
    (by
      intro cs
      rfl)
    (by decide)
    (by
      intro cs c hc hne
      rw [← notTokenChar_eq_false_iff, Bool.not_eq_false] at hc
      rw [absorb_late]
      simp only [consumeIn, late, if_neg hne, hc]
      exact ⟨_, rfl, by simp⟩)
    xs rest []
  have hspace : ∀ {raw ys name}, Stops absorb
      (late .spaceBeforeHeaderValue raw method uri version (hs ++ [(name, [])])) ys (.good r) rest ↔
      ∃ zs, ys = byte ' ' :: zs ∧ Stops absorb
        (late .headerValue (raw ++ [byte ' ']) method uri version (hs ++ [(name, [])])) zs (.good r)
          rest := by
    intro raw ys name
    refine stops_expect rfl ?_ ys rest
    intro c hc
    rw [absorb_late]
    simp only [consumeIn, late, if_neg hc]
    exact ⟨_, rfl, by simp⟩
  simp only [List.append_nil, List.nil_append] at hspan
  rw [hspan]
  simp only [hspace, stops_headerValue]
  constructor
  · rintro ⟨ds, _, rfl, hds, _, rfl, first, ys, rfl, hfirst, h⟩
    refine ⟨ds, first, ys, by simp [bytes], hds, hfirst, ?_⟩
    simpa [bytes] using h
  · rintro ⟨ds, first, ys, rfl, hds, hfirst, h⟩
    refine ⟨ds, _, ?_, hds, _, rfl, first, ys, rfl, hfirst, ?_⟩
    · simp [bytes]
    · simpa [bytes] using h

/-- The three ways on from the start of a header line. -/
theorem consumeIn_headerLineStart {r : Request} (h : r.state = .headerLineStart) (c : Byte) :
    consumeIn r c =
      if c = byte '\r' then some (.indeterminate, { r with state := .expectingNewline3 })
      else if r.headers ≠ [] ∧ (c = byte ' ' ∨ c = byte '\t') then
        some (.indeterminate, { r with state := .headerLws })
      else if notTokenChar c then some (.bad, r)
      else (pushHeaderName (r.headers ++ [([], [])]) c).bind fun headers =>
        some (.indeterminate, { r with state := .headerName, headers := headers }) := by
  rw [consumeIn.eq_def, h]
  rfl

theorem absorb_foldStart {c : Byte} (hc : IsBlank c) :
    absorb (late .headerLineStart raw method uri version (hs ++ [(name, value)])) c =
      .inl (late .headerLws (raw ++ [c]) method uri version (hs ++ [(name, value)])) := by
  have hcr : c ≠ byte '\r' := by
    rintro rfl
    exact absurd hc (by decide)
  rw [absorb_late, consumeIn_headerLineStart rfl, if_neg hcr, if_pos ⟨by simp [late], hc⟩]
  rfl

theorem absorb_nameStart {c : Byte} (hc : IsTokenByte c) :
    absorb (late .headerLineStart raw method uri version headers) c =
      .inl (late .headerName (raw ++ [c]) method uri version (headers ++ [([c], [])])) := by
  have hcr : c ≠ byte '\r' := by
    rintro rfl
    exact absurd hc (by decide)
  rw [absorb_late, consumeIn_headerLineStart rfl, if_neg hcr, if_neg fun h => hc.not_blank h.2,
    (notTokenChar_eq_false_iff c).mpr hc, pushHeaderName_append]
  rfl

/-- **The start of a header line.**  Either the headers end, or the last header goes on, or a new header
begins. -/
theorem stops_headerLineStart :
    Stops absorb (late .headerLineStart raw method uri version headers) xs (.good r) rest ↔
      (∃ ys, xs = byte '\r' :: ys ∧
        Stops absorb (late .expectingNewline3 (raw ++ [byte '\r']) method uri version headers) ys
          (.good r) rest) ∨
      (∃ (c : Continuation) (hs : Headers) (name value ys : Bytes), headers = hs ++ [(name, value)] ∧
        xs = c.render ++ ys ∧
        Stops absorb (late .headerLineStart (raw ++ c.render) method uri version
          (hs ++ [(name, value ++ c.text)])) ys (.good r) rest) ∨
      ∃ name first ys, name ≠ [] ∧ (∀ b ∈ name, IsTokenByte b) ∧ (∀ b ∈ first, ¬ IsControl b) ∧
        xs = name ++ bytes ": " ++ first ++ crlf ++ ys ∧
        Stops absorb (late .headerLineStart (raw ++ (name ++ bytes ": " ++ first ++ crlf)) method uri
          version (headers ++ [(name, first)])) ys (.good r) rest := by
  constructor
  · intro h
    rcases xs with _ | ⟨c, xs⟩
    · exact absurd h not_stops_nil
    by_cases hcr : c = byte '\r'
    · subst hcr
      rw [stops_cons_of_inl rfl] at h
      exact .inl ⟨xs, rfl, h⟩
    by_cases hblank : headers ≠ [] ∧ (c = byte ' ' ∨ c = byte '\t')
    · obtain ⟨hs, ⟨name, value⟩, rfl⟩ := (List.eq_nil_or_concat' headers).resolve_left hblank.1
      rw [stops_cons_of_inl (absorb_foldStart hblank.2), stops_headerLws] at h
      obtain ⟨blanks, text, ys, rfl, hblanks, htext, hsp, h⟩ := h
      refine .inr (.inl ⟨⟨c :: blanks, text, List.cons_ne_nil _ _,
        List.forall_mem_cons.mpr ⟨hblank.2, hblanks⟩, htext, hsp⟩, hs, name, value, ys, rfl, ?_, ?_⟩)
      · simp [Continuation.render]
      · simpa [Continuation.render] using h
    by_cases htoken : IsTokenByte c
    · rw [stops_cons_of_inl (absorb_nameStart htoken), stops_headerName] at h
      obtain ⟨ds, first, ys, rfl, hds, hfirst, h⟩ := h
      refine .inr (.inr ⟨c :: ds, first, ys, List.cons_ne_nil _ _,
        List.forall_mem_cons.mpr ⟨htoken, hds⟩, hfirst, by simp, ?_⟩)
      simpa using h
    · rw [← notTokenChar_eq_false_iff, Bool.not_eq_false] at htoken
      have hbad : absorb (late .headerLineStart raw method uri version headers) c =
          .inr (.bad (late .headerLineStart (raw ++ [c]) method uri version headers)) := by
        rw [absorb_late, consumeIn_headerLineStart rfl, if_neg hcr]
        exact congrArg classify ((if_neg hblank).trans (if_pos htoken))
      rw [stops_cons_of_inr hbad] at h
      exact absurd h.1 (by simp)
  · rintro (⟨ys, rfl, h⟩ | ⟨c, hs, name, value, ys, rfl, rfl, h⟩ |
      ⟨name, first, ys, hne, htoken, hfirst, rfl, h⟩)
    · rwa [stops_cons_of_inl rfl]
    · obtain ⟨blanks, text, hne, hblanks, htext, hsp⟩ := c
      obtain ⟨b, blanks, rfl⟩ := List.exists_cons_of_ne_nil hne
      have hstep : absorb (late .headerLineStart raw method uri version (hs ++ [(name, value)])) b = _ :=
        absorb_foldStart (hblanks b List.mem_cons_self)
      rw [Continuation.render, List.cons_append, List.cons_append, List.cons_append,
        stops_cons_of_inl hstep, stops_headerLws]
      refine ⟨blanks, text, ys, rfl, fun x hx => hblanks x (List.mem_cons_of_mem _ hx), htext, hsp, ?_⟩
      simpa [Continuation.render] using h
    · obtain ⟨c, ds, rfl⟩ := List.exists_cons_of_ne_nil hne
      rw [List.cons_append, List.cons_append, List.cons_append, List.cons_append,
        stops_cons_of_inl (absorb_nameStart (htoken c List.mem_cons_self)), stops_headerName]
      refine ⟨ds, first, ys, rfl, fun x hx => htoken x (List.mem_cons_of_mem _ hx), hfirst, ?_⟩
      simpa using h

end Webserver.Http
