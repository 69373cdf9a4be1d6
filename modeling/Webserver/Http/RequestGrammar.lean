import Webserver.Http.Request

/-!
# The language of requests

    request := method SP uri SP "HTTP/" digit+ "." digit+ CRLF header* CRLF body
    header  := name ":" SP value CRLF continuation*
    continuation := (SP | HT)+ text CRLF

A `RequestText` is a parse tree of this grammar, and a value of the type carries the side conditions of
the grammar as fields: the character classes, that nothing that must be there is empty, and that the
length of the body is the one the headers announce.  `render` prints the tree; the accessors say what a
request with this text should contain.

The character classes are stated on bytes and connected to the tests of the parser, which are made on
`int`s.
-/

namespace Webserver.Http

open ByteString Numeral

/-! ### Character classes -/

/-- A control character. -/
def IsControl (b : Byte) : Prop := b.toNat ≤ 31 ∨ b.toNat = 127

/-- A byte of a method or of a header name. -/
def IsTokenByte (b : Byte) : Prop := b.toNat ≤ 127 ∧ ¬ IsControl b ∧ b ∉ tspecials

/-- A byte of a URI. -/
def IsUriByte (b : Byte) : Prop := ¬ IsControl b ∧ b ≠ byte ' '

def IsDigitByte (b : Byte) : Prop := 48 ≤ b.toNat ∧ b.toNat ≤ 57

/-- A byte that may start a continuation line. -/
def IsBlank (b : Byte) : Prop := b = byte ' ' ∨ b = byte '\t'

instance (b : Byte) : Decidable (IsControl b) := inferInstanceAs (Decidable (_ ∨ _))

instance (b : Byte) : Decidable (IsTokenByte b) := inferInstanceAs (Decidable (_ ∧ _))

instance (b : Byte) : Decidable (IsUriByte b) := inferInstanceAs (Decidable (_ ∧ _))

instance (b : Byte) : Decidable (IsDigitByte b) := inferInstanceAs (Decidable (_ ∧ _))

instance (b : Byte) : Decidable (IsBlank b) := inferInstanceAs (Decidable (_ ∨ _))

theorem isCtl_charToInt (b : Byte) : isCtl (charToInt b) = true ↔ IsControl b := by
  have hb := b.toNat_lt
  by_cases h : b.toNat < 128
  · simp only [isCtl, charToInt_of_lt h, IsControl, decide_eq_true_eq]
    omega
  · simp only [isCtl, charToInt_of_ge (not_lt.mp h), IsControl, decide_eq_true_eq]
    omega

theorem isDigit_charToInt (b : Byte) : isDigit (charToInt b) = true ↔ IsDigitByte b := by
  have hb := b.toNat_lt
  have h0 : charToInt (byte '0') = 48 := by decide
  have h9 : charToInt (byte '9') = 57 := by decide
  by_cases h : b.toNat < 128
  · simp only [isDigit, h0, h9, charToInt_of_lt h, IsDigitByte, decide_eq_true_eq]
    omega
  · simp only [isDigit, h0, h9, charToInt_of_ge (not_lt.mp h), IsDigitByte, decide_eq_true_eq]
    omega

theorem isChar_charToInt (b : Byte) : isChar (charToInt b) = true ↔ b.toNat ≤ 127 := by
  have hb := b.toNat_lt
  by_cases h : b.toNat < 128
  · simp only [isChar, charToInt_of_lt h, decide_eq_true_eq]
    omega
  · simp only [isChar, charToInt_of_ge (not_lt.mp h), decide_eq_true_eq]
    omega

/-- Sign extension loses nothing. -/
theorem charToInt_injective : Function.Injective charToInt := by
  intro a b h
  have ha := a.toNat_lt
  have hb := b.toNat_lt
  rw [charToInt, charToInt] at h
  apply UInt8.toNat_inj.mp
  split_ifs at h <;> omega

theorem isTspecial_charToInt (b : Byte) : isTspecial (charToInt b) = true ↔ b ∈ tspecials := by
  rw [isTspecial, decide_eq_true_eq, List.mem_map_of_injective charToInt_injective]

/-- The test of the parser is the character class of methods and header names. -/
theorem notTokenChar_eq_false_iff (b : Byte) : notTokenChar b = false ↔ IsTokenByte b := by
  rw [notTokenChar, Bool.or_eq_false_iff, Bool.or_eq_false_iff, Bool.not_eq_false',
    isChar_charToInt, Bool.eq_false_iff, Bool.eq_false_iff, ne_eq, ne_eq, isCtl_charToInt,
    isTspecial_charToInt, and_assoc]
  rfl

theorem IsTokenByte.ne_space {b : Byte} (h : IsTokenByte b) : b ≠ byte ' ' := by
  rintro rfl
  exact absurd h (by decide)

theorem IsTokenByte.not_blank {b : Byte} (h : IsTokenByte b) : ¬ IsBlank b := by
  rintro (rfl | rfl)
  · exact absurd h (by decide)
  · exact absurd h (by decide)

/-! ### Parse trees -/

/-- The value of a list of headers under a name: the first one, or the empty string. -/
def headerValue (headers : Headers) (name : Bytes) : Bytes :=
  ((headers.find? fun h => h.1 = name).map Prod.snd).getD []

/-- The number of body bytes that the headers announce. -/
def contentLength (headers : Headers) : ℕ :=
  match stoull (headerValue headers (bytes "Content-Length")) with
  | .ok n => n
  | .error _ => 0

/-- **A continuation line.**  All its leading blanks are in `blanks`. -/
structure Continuation where
  blanks : Bytes
  text : Bytes
  blanks_ne : blanks ≠ []
  isBlank : ∀ b ∈ blanks, IsBlank b
  notControl : ∀ b ∈ text, ¬ IsControl b
  head_ne : text.head? ≠ some (byte ' ')

/-- **A header** with its continuation lines. -/
structure HeaderText where
  name : Bytes
  first : Bytes
  continuations : List Continuation
  name_ne : name ≠ []
  isToken : ∀ b ∈ name, IsTokenByte b
  notControl : ∀ b ∈ first, ¬ IsControl b

def crlf : Bytes := bytes "\r\n"

def Continuation.render (c : Continuation) : Bytes := c.blanks ++ c.text ++ crlf

def renderContinuations (cs : List Continuation) : Bytes := cs.flatMap Continuation.render

def continuationsText (cs : List Continuation) : Bytes := cs.flatMap Continuation.text

namespace HeaderText

def render (h : HeaderText) : Bytes :=
  h.name ++ bytes ": " ++ h.first ++ crlf ++ renderContinuations h.continuations

/-- The value of the header: the text of the continuation lines follows directly. -/
def value (h : HeaderText) : Bytes := h.first ++ continuationsText h.continuations

def pair (h : HeaderText) : Bytes × Bytes := (h.name, h.value)

end HeaderText

def renderHeaders (hs : List HeaderText) : Bytes := hs.flatMap HeaderText.render

/-- **A request.**  `major` and `minor` are the two numbers of the version. -/
structure RequestText where
  method : Bytes
  uri : Bytes
  major : Bytes
  minor : Bytes
  headerTexts : List HeaderText
  body : Bytes
  method_ne : method ≠ []
  method_token : ∀ b ∈ method, IsTokenByte b
  uri_ne : uri ≠ []
  uri_byte : ∀ b ∈ uri, IsUriByte b
  major_ne : major ≠ []
  major_digit : ∀ b ∈ major, IsDigitByte b
  minor_ne : minor ≠ []
  minor_digit : ∀ b ∈ minor, IsDigitByte b
  body_length : body.length = contentLength (headerTexts.map HeaderText.pair)

namespace RequestText

def version (m : RequestText) : Bytes := bytes "HTTP/" ++ m.major ++ bytes "." ++ m.minor

def headers (m : RequestText) : Headers := m.headerTexts.map HeaderText.pair

/-- The request line. -/
def requestLine (m : RequestText) : Bytes :=
  m.method ++ bytes " " ++ m.uri ++ bytes " " ++ m.version ++ crlf

/-- **The text of a request.** -/
def render (m : RequestText) : Bytes :=
  m.requestLine ++ renderHeaders m.headerTexts ++ crlf ++ m.body

end RequestText

/-- The inputs whose request line has an empty URI: a method and two spaces. -/
def EmptyUriLine (s : Bytes) : Prop :=
  ∃ method rest, method ≠ [] ∧ (∀ b ∈ method, IsTokenByte b) ∧ s = method ++ bytes "  " ++ rest

theorem emptyUriLine_iff (s : Bytes) :
    EmptyUriLine s ↔ s.takeWhile IsTokenByte ≠ [] ∧ bytes "  " <+: s.dropWhile IsTokenByte := by
  constructor
  · rintro ⟨method, rest, hne, htoken, rfl⟩
    have htoken' : ∀ b ∈ method, decide (IsTokenByte b) = true := by simpa using htoken
    have hspace : (byte ' ' :: byte ' ' :: rest).dropWhile (fun b => decide (IsTokenByte b)) =
        byte ' ' :: byte ' ' :: rest := List.dropWhile_cons_of_neg (by decide)
    rw [List.append_assoc, List.takeWhile_append_of_pos htoken', List.dropWhile_append_of_pos htoken']
    constructor
    · exact List.append_ne_nil_of_left_ne_nil hne _
    · show bytes "  " <+: (byte ' ' :: byte ' ' :: rest).dropWhile _
      rw [hspace]
      exact ⟨rest, rfl⟩
  · rintro ⟨hne, rest, hrest⟩
    refine ⟨s.takeWhile IsTokenByte, rest, hne, ?_, ?_⟩
    · intro b hb
      simpa using List.mem_takeWhile_imp hb
    · rw [List.append_assoc, hrest, List.takeWhile_append_dropWhile]

instance (s : Bytes) : Decidable (EmptyUriLine s) := decidable_of_iff _ (emptyUriLine_iff s).symm

end Webserver.Http
