import Webserver.Http.Response
import Webserver.Support.Numeral

/-!
# Status lines

The first line of a response has a version, a code of three digits, and perhaps a reason.  `ToString`
writes one when the response is not forwarded, and the codes without a text get the line of
`internal_server_error`.

* `StatusLine` — a text starts with a status line for a code.
* `StatusLine.unique` — the line has one code.
* `statusLine_toString_iff` — when the line that is written has the code of the response.
-/

namespace Webserver.Http

open ByteString Numeral

/-! ### The grammar -/

/-- A nonempty run of decimal digits. -/
def IsDecimal (s : Bytes) : Prop := s ≠ [] ∧ ∀ b ∈ s, isDecDigit b

/-- `HTTP/` and two numbers with a dot in between. -/
def IsVersion (version : Bytes) : Prop :=
  ∃ major minor, version = bytes "HTTP/" ++ major ++ bytes "." ++ minor ∧ IsDecimal major ∧ IsDecimal minor

/-- Three digits and their number. -/
def IsCode (digits : Bytes) (code : ResponseCode) : Prop :=
  digits.length = 3 ∧ (∀ b ∈ digits, isDecDigit b) ∧ code = ofDigits 10 digits

/-- **The text starts with a status line for this code.**  The code is followed by a space, by the end of
the line, or by nothing. -/
def StatusLine (s : Bytes) (code : ResponseCode) : Prop :=
  ∃ version digits rest, s = version ++ byte ' ' :: (digits ++ rest) ∧ IsVersion version ∧
    IsCode digits code ∧ ∀ b ∈ rest.head?, b ∈ bytes " \r\n"

theorem not_mem_of_digits {s : Bytes} (h : ∀ b ∈ s, isDecDigit b) {c : Byte} (hc : isDecDigit c = false) :
    c ∉ s := by
  intro hmem
  have hdigit := h c hmem
  rw [hc] at hdigit
  exact Bool.false_ne_true hdigit

/-- What a version is made of. -/
theorem IsVersion.notMem_of {version : Bytes} (h : IsVersion version) {c : Byte} (hdigit : isDecDigit c = false)
    (hc : c ∉ bytes "HTTP/.") : c ∉ version := by
  obtain ⟨major, minor, rfl, hmajor, hminor⟩ := h
  have hfront : c ∉ bytes "HTTP/" := fun hmem => hc (List.mem_append_left (bytes ".") hmem)
  have hdot : c ∉ bytes "." := fun hmem => hc (List.mem_append_right (bytes "HTTP/") hmem)
  simp only [List.mem_append, not_or]
  exact ⟨⟨⟨hfront, not_mem_of_digits hmajor.2 hdigit⟩, hdot⟩, not_mem_of_digits hminor.2 hdigit⟩

/-- A version has no space and no end of line in it. -/
theorem IsVersion.notMem {version : Bytes} (h : IsVersion version) {c : Byte} (hc : c ∈ bytes " \r\n") :
    c ∉ version := by
  have hall : ∀ b ∈ bytes " \r\n", isDecDigit b = false ∧ b ∉ bytes "HTTP/." := by decide
  exact h.notMem_of (hall c hc).1 (hall c hc).2

/-- A version starts with its only `H`. -/
theorem IsVersion.eq_nil_of_split {v w x : Bytes} (h : IsVersion v) (hv : x ++ byte 'H' :: w = v) : x = [] := by
  obtain ⟨major, minor, rfl, hmajor, hminor⟩ := h
  cases x with
  | nil => rfl
  | cons c x =>
    have htail : x ++ byte 'H' :: w = bytes "TTP/" ++ major ++ bytes "." ++ minor := (List.cons.inj hv).2
    have hmem : byte 'H' ∈ bytes "TTP/" ++ major ++ bytes "." ++ minor :=
      htail ▸ List.mem_append_right x List.mem_cons_self
    have hdigit : isDecDigit (byte 'H') = false := by decide
    simp only [List.mem_append] at hmem
    rcases hmem with ((hmem | hmem) | hmem) | hmem
    · exact absurd hmem (by decide)
    · exact absurd hmem (not_mem_of_digits hmajor.2 hdigit)
    · exact absurd hmem (by decide)
    · exact absurd hmem (not_mem_of_digits hminor.2 hdigit)

theorem IsVersion.length_le {v : Bytes} (h : IsVersion v) : 8 ≤ v.length := by
  obtain ⟨major, minor, rfl, hmajor, hminor⟩ := h
  have hfront : (bytes "HTTP/").length = 5 := by decide
  have hdot : (bytes ".").length = 1 := by decide
  have h₁ := List.length_pos_iff.mpr hmajor.1
  have h₂ := List.length_pos_iff.mpr hminor.1
  simp only [List.length_append]
  omega

theorem IsVersion.ne_nil {version : Bytes} (h : IsVersion version) : version ≠ [] := by
  obtain ⟨major, minor, rfl, -⟩ := h
  simp [bytes]

theorem isVersion_http10 : IsVersion (bytes "HTTP/1.0") :=
  ⟨bytes "1", bytes "0", rfl, ⟨by decide, by decide⟩, by decide, by decide⟩

theorem StatusLine.unique {s : Bytes} {code code' : ResponseCode} (h : StatusLine s code)
    (h' : StatusLine s code') : code = code' := by
  obtain ⟨version, digits, rest, rfl, hversion, ⟨hlength, -, rfl⟩, -⟩ := h
  obtain ⟨version', digits', rest', heq, hversion', ⟨hlength', -, rfl⟩, -⟩ := h'
  have hparts := (append_cons_inj (hversion.notMem (by decide)) (hversion'.notMem (by decide))).mp heq
  have hdigits := (List.append_inj hparts.2 (hlength.trans hlength'.symm)).1
  rw [hdigits]

theorem IsCode.notMem {digits : Bytes} {code : ResponseCode} (h : IsCode digits code) {c : Byte}
    (hc : c ∈ bytes " \r\n") : c ∉ digits := by
  have hall : ∀ b ∈ bytes " \r\n", isDecDigit b = false := by decide
  exact not_mem_of_digits h.2.1 (hall c hc)

theorem IsCode.ne_nil {digits : Bytes} {code : ResponseCode} (h : IsCode digits code) : digits ≠ [] := by
  intro hnil
  have hlength := h.1
  rw [hnil] at hlength
  cases hlength

/-- Three digits are determined by their number. -/
theorem IsCode.unique {digits digits' : Bytes} {code : ResponseCode} (h : IsCode digits code)
    (h' : IsCode digits' code) : digits = digits' := by
  obtain ⟨hlength, hall, hcode⟩ := h
  obtain ⟨hlength', hall', hcode'⟩ := h'
  obtain ⟨a, b, c, rfl⟩ := List.length_eq_three.mp hlength
  obtain ⟨a', b', c', rfl⟩ := List.length_eq_three.mp hlength'
  have hvalue : ∀ d, isDecDigit d → 48 ≤ d.toNat ∧ d.toNat ≤ 57 ∧ digitValue d = d.toNat - 48 := by
    intro d hd
    have hrange := isDecDigit_range hd
    exact ⟨hrange.1, hrange.2, if_pos hrange.2⟩
  have hnumber : ofDigits 10 [a, b, c] = ofDigits 10 [a', b', c'] := by
    exact Int.ofNat.inj (hcode.symm.trans hcode')
  simp only [List.forall_mem_cons] at hall hall'
  obtain ⟨ha, ha9, hav⟩ := hvalue a hall.1
  obtain ⟨hb, hb9, hbv⟩ := hvalue b hall.2.1
  obtain ⟨hc, hc9, hcv⟩ := hvalue c hall.2.2.1
  obtain ⟨ha', ha9', hav'⟩ := hvalue a' hall'.1
  obtain ⟨hb', hb9', hbv'⟩ := hvalue b' hall'.2.1
  obtain ⟨hc', hc9', hcv'⟩ := hvalue c' hall'.2.2.1
  simp only [ofDigits, List.foldl_cons, List.foldl_nil, hav, hbv, hcv, hav', hbv', hcv'] at hnumber
  have heqa : a = a' := UInt8.toNat_inj.mp (by omega)
  have heqb : b = b' := UInt8.toNat_inj.mp (by omega)
  have heqc : c = c' := UInt8.toNat_inj.mp (by omega)
  rw [heqa, heqb, heqc]

/-! ### The line that is written -/

/-- The codes that have a text of their own. -/
def knownCodes : List ResponseCode := statusTexts.map Prod.fst

/-- The code of the line that is written for a status. -/
def codeOnLine (status : ResponseCode) : ResponseCode :=
  if status ∈ knownCodes then status else .internalServerError

/-- Every text starts with its code. -/
theorem exists_code_of_text {code : ResponseCode} {text : String} (h : (code, text) ∈ statusTexts) :
    ∃ digits reason, bytes text = digits ++ byte ' ' :: reason ∧ IsCode digits code := by
  have htable : ∀ p ∈ statusTexts, bytes p.2 = (bytes p.2).take 3 ++ byte ' ' :: (bytes p.2).drop 4 ∧
      ((bytes p.2).take 3).length = 3 ∧ (∀ b ∈ (bytes p.2).take 3, isDecDigit b) ∧
        p.1 = ofDigits 10 ((bytes p.2).take 3) := by decide
  obtain ⟨htext, hcode⟩ := htable _ h
  exact ⟨_, _, htext, hcode⟩

theorem textOf_eq (status : ResponseCode) : (codeOnLine status, textOf status) ∈ statusTexts := by
  rw [codeOnLine, textOf]
  cases hfind : statusTexts.find? fun p => p.1 = status with
  | none =>
    have hunknown : status ∉ knownCodes := by
      intro hmem
      obtain ⟨p, hp, hstatus⟩ := List.mem_map.mp hmem
      exact List.find?_eq_none.mp hfind p hp (decide_eq_true hstatus)
    rw [if_neg hunknown]
    decide
  | some p =>
    have hmem := List.mem_of_find?_eq_some hfind
    have hstatus : p.1 = status := by simpa using List.find?_some hfind
    have hknown : status ∈ knownCodes := hstatus ▸ List.mem_map_of_mem hmem
    rw [if_pos hknown, ← hstatus]
    exact hmem

/-- The text of a status, behind the version, is a status line whatever follows. -/
theorem statusLine_textOf (status : ResponseCode) (t : Bytes) :
    StatusLine (bytes "HTTP/1.0 " ++ bytes (textOf status) ++ t) (codeOnLine status) := by
  obtain ⟨digits, reason, htext, hcode⟩ := exists_code_of_text (textOf_eq status)
  refine ⟨bytes "HTTP/1.0", digits, byte ' ' :: (reason ++ t), ?_, isVersion_http10, hcode, ?_⟩
  · rw [htext, show bytes "HTTP/1.0 " = bytes "HTTP/1.0" ++ [byte ' '] from rfl]
    simp only [List.append_assoc, List.cons_append, List.nil_append]
  · intro b hb
    rw [← Option.some.inj hb]
    decide

/-- **The line that is written** has the code of the status, or that of the default. -/
theorem statusLine_statusString (status : ResponseCode) (t : Bytes) :
    StatusLine (statusString status ++ t) (codeOnLine status) := by
  rw [statusString, List.append_assoc]
  exact statusLine_textOf status _

/-- **A response that is not forwarded** is sent with the code of its status exactly when that code has a
text. -/
theorem statusLine_toString_iff {r : Response} {status : ResponseCode} {beyondCrlf sent : Bytes}
    (hfull : r.fullResponse = []) (hstatus : r.status = some status)
    (hsent : r.toString beyondCrlf = some sent) : StatusLine sent status ↔ status ∈ knownCodes := by
  rw [Response.toString, if_neg (not_not.mpr hfull), hstatus] at hsent
  have hline : StatusLine sent (codeOnLine status) := by
    rw [← Option.some.inj hsent, List.append_assoc, List.append_assoc]
    exact statusLine_statusString status _
  constructor
  · intro h
    rw [h.unique hline, codeOnLine]
    split_ifs with hknown
    · exact hknown
    · decide
  · intro hknown
    rwa [codeOnLine, if_pos hknown] at hline

end Webserver.Http
