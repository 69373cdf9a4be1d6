import Mathlib.Data.List.Basic
import Mathlib.Tactic.Tauto
import Webserver.Support.ByteString

/-!
# `NginxConfigParser::ParseToken`

The stream is the list of bytes still to be read.  `input->get()` at the end of the list makes the
stream not good, which ends the `while` loop; `unget` puts the byte back in front of the rest.

`parseToken` is the method called with a fresh `value`.  The words it can return are `LexableWord`s: a
quoted string closed by its first matching quote, or a bare word.  `parseToken_word` reads such a word
back, `lexableWord_of_parseToken` is the converse.
-/

namespace Webserver.ConfigLexer

open ByteString

/-- `NginxConfigParser::TokenType`. -/
inductive TokenType where
  | start
  | normal
  | startBlock
  | endBlock
  | comment
  | statementEnd
  | eof
  | error
  deriving DecidableEq, Repr

/-- `NginxConfigParser::TokenParserState`. -/
inductive TokenParserState where
  | initialWhitespace
  | singleQuote
  | doubleQuote
  | tokenTypeComment
  | tokenTypeNormal
  deriving DecidableEq, Repr

/-- The bytes skipped in front of a token. -/
def IsBlank (c : Byte) : Prop := c = byte ' ' ∨ c = byte '\t' ∨ c = byte '\n' ∨ c = byte '\r'

instance : DecidablePred IsBlank := fun c => by unfold IsBlank; infer_instance

/-- The bytes that end a bare word.  A carriage return is not among them: the source tests `'\t'`
twice. -/
def EndsWord (c : Byte) : Prop :=
  c = byte ' ' ∨ c = byte '\t' ∨ c = byte '\n' ∨ c = byte '\t' ∨
    c = byte ';' ∨ c = byte '{' ∨ c = byte '}'

instance : DecidablePred EndsWord := fun c => by unfold EndsWord; infer_instance

/-- The loop of `ParseToken`, from a state and the value read so far: the token type, the final value,
and what is left of the stream. -/
def parseTokenFrom : TokenParserState → Bytes → Bytes → TokenType × Bytes × Bytes
  | state, value, [] =>
    (if state = .singleQuote ∨ state = .doubleQuote then .error else .eof, value, [])
  | .initialWhitespace, value, c :: input =>
    if c = byte '{' then (.startBlock, [c], input)
    else if c = byte '}' then (.endBlock, [c], input)
    else if c = byte '#' then parseTokenFrom .tokenTypeComment [c] input
    else if c = byte '"' then parseTokenFrom .doubleQuote [c] input
    else if c = byte '\'' then parseTokenFrom .singleQuote [c] input
    else if c = byte ';' then (.statementEnd, [c], input)
    else if IsBlank c then parseTokenFrom .initialWhitespace value input
    else parseTokenFrom .tokenTypeNormal (value ++ [c]) input
  | .singleQuote, value, c :: input =>
    if c = byte '\'' then (.normal, value ++ [c], input)
    else parseTokenFrom .singleQuote (value ++ [c]) input
  | .doubleQuote, value, c :: input =>
    if c = byte '"' then (.normal, value ++ [c], input)
    else parseTokenFrom .doubleQuote (value ++ [c]) input
  | .tokenTypeComment, value, c :: input =>
    if c = byte '\n' ∨ c = byte '\r' then (.comment, value, input)
    else parseTokenFrom .tokenTypeComment (value ++ [c]) input
  | .tokenTypeNormal, value, c :: input =>
    if EndsWord c then (.normal, value, c :: input)
    else parseTokenFrom .tokenTypeNormal (value ++ [c]) input

/-- `ParseToken` into a fresh string. -/
def parseToken (input : Bytes) : TokenType × Bytes × Bytes :=
  parseTokenFrom .initialWhitespace [] input

/-! ### Lexable words -/

/-- A quote, a text without it, and the quote again. -/
def IsQuotedWord (q : Byte) (w : Bytes) : Prop := ∃ body, w = q :: body ++ [q] ∧ q ∉ body

/-- The first byte of a bare word. -/
def StartsBareWord (c : Byte) : Prop :=
  ¬ IsBlank c ∧ c ≠ byte '{' ∧ c ≠ byte '}' ∧ c ≠ byte '#' ∧ c ≠ byte ';' ∧
    c ≠ byte '"' ∧ c ≠ byte '\''

/-- A first byte that starts a bare word, and then no byte that ends it. -/
def IsBareWord (w : Bytes) : Prop :=
  ∃ c rest, w = c :: rest ∧ StartsBareWord c ∧ ∀ b ∈ rest, ¬ EndsWord b

/-- The words a configuration can be written with. -/
def LexableWord (w : Bytes) : Prop :=
  IsQuotedWord (byte '"') w ∨ IsQuotedWord (byte '\'') w ∨ IsBareWord w

theorem LexableWord.ne_nil {w : Bytes} (h : LexableWord w) : w ≠ [] := by
  rintro rfl
  rcases h with ⟨body, h, -⟩ | ⟨body, h, -⟩ | ⟨c, rest, h, -⟩ <;> simp at h

/-! ### Reading words -/

/-- A quoted word is read up to its first matching quote. -/
theorem parseTokenFrom_quote {q : Byte} {state : TokenParserState}
    (hcons : ∀ v c input, parseTokenFrom state v (c :: input) =
      if c = q then (.normal, v ++ [c], input) else parseTokenFrom state (v ++ [c]) input)
    {body : Bytes} (h : q ∉ body) (value rest : Bytes) :
    parseTokenFrom state value (body ++ q :: rest) = (.normal, value ++ body ++ [q], rest) := by
  induction body generalizing value with
  | nil => rw [List.nil_append, hcons, if_pos rfl, List.append_nil]
  | cons c body ih =>
    rw [List.mem_cons, not_or] at h
    rw [List.cons_append, hcons, if_neg (Ne.symm h.1), ih h.2]
    simp

theorem parseTokenFrom_normal {body : Bytes} (h : ∀ b ∈ body, ¬ EndsWord b) {d : Byte}
    (hd : EndsWord d) (value rest : Bytes) :
    parseTokenFrom .tokenTypeNormal value (body ++ d :: rest) =
      (.normal, value ++ body, d :: rest) := by
  induction body generalizing value with
  | nil => rw [List.nil_append, parseTokenFrom, if_pos hd, List.append_nil]
  | cons c body ih =>
    rw [List.forall_mem_cons] at h
    rw [List.cons_append, parseTokenFrom, if_neg h.1, ih h.2]
    simp

theorem parseTokenFrom_startsBareWord {c : Byte} (h : StartsBareWord c) (value rest : Bytes) :
    parseTokenFrom .initialWhitespace value (c :: rest) =
      parseTokenFrom .tokenTypeNormal (value ++ [c]) rest := by
  obtain ⟨hblank, h1, h2, h3, h4, h5, h6⟩ := h
  rw [parseTokenFrom, if_neg h1, if_neg h2, if_neg h3, if_neg h5, if_neg h6, if_neg h4, if_neg hblank]

/-- **A lexable word in front of a byte that ends bare words is read as one token.** -/
theorem parseToken_word {w : Bytes} (h : LexableWord w) {d : Byte} (hd : EndsWord d) (rest : Bytes) :
    parseToken (w ++ d :: rest) = (.normal, w, d :: rest) := by
  rcases h with ⟨body, rfl, hb⟩ | ⟨body, rfl, hb⟩ | ⟨c, body, rfl, hc, hb⟩
  · have hq : parseTokenFrom .doubleQuote [byte '"'] (body ++ byte '"' :: d :: rest) = _ :=
      parseTokenFrom_quote (fun _ _ _ => rfl) hb _ _
    simpa [parseToken, parseTokenFrom] using hq
  · have hq : parseTokenFrom .singleQuote [byte '\''] (body ++ byte '\'' :: d :: rest) = _ :=
      parseTokenFrom_quote (fun _ _ _ => rfl) hb _ _
    simpa [parseToken, parseTokenFrom] using hq
  · rw [parseToken, List.cons_append, parseTokenFrom_startsBareWord hc,
      parseTokenFrom_normal hb hd]
    rfl

theorem parseToken_blank {c : Byte} (h : IsBlank c) (input : Bytes) :
    parseToken (c :: input) = parseToken input := by
  rcases h with rfl | rfl | rfl | rfl <;> simp [parseToken, parseTokenFrom, IsBlank]

theorem parseToken_blanks {s : Bytes} (h : ∀ c ∈ s, IsBlank c) (input : Bytes) :
    parseToken (s ++ input) = parseToken input := by
  induction s with
  | nil => rfl
  | cons c s ih =>
    rw [List.forall_mem_cons] at h
    rw [List.cons_append, parseToken_blank h.1, ih h.2]

/-! ### What a token consumes -/

/-- What is left of the stream is an end of it. -/
theorem parseTokenFrom_rest_suffix (state : TokenParserState) (value input : Bytes) :
    (parseTokenFrom state value input).2.2 <:+ input := by
  induction input generalizing state value with
  | nil => exact List.suffix_rfl
  | cons c input ih =>
    have h (st v) : (parseTokenFrom st v input).2.2 <:+ c :: input := (ih st v).trans (List.suffix_cons c input)
    cases state <;> simp only [parseTokenFrom] <;> split_ifs <;>
      first | exact h _ _ | exact List.suffix_cons c input | exact List.suffix_rfl

theorem parseTokenFrom_rest_le (state : TokenParserState) (value input : Bytes) :
    (parseTokenFrom state value input).2.2.length ≤ input.length :=
  (parseTokenFrom_rest_suffix state value input).length_le

/-- Every call on a stream that is not at its end takes at least one byte. -/
theorem parseToken_rest_le (c : Byte) (input : Bytes) :
    (parseToken (c :: input)).2.2.length ≤ input.length := by
  simp only [parseToken, parseTokenFrom]
  split_ifs <;> first | exact parseTokenFrom_rest_le _ _ _ | exact le_refl _

theorem parseToken_nil : parseToken [] = (.eof, [], []) := rfl

/-- `ParseToken` never returns `TOKEN_TYPE_START`. -/
theorem parseTokenFrom_ne_start (state : TokenParserState) (value input : Bytes) :
    (parseTokenFrom state value input).1 ≠ .start := by
  induction input generalizing state value with
  | nil =>
    simp only [parseTokenFrom]
    split_ifs <;> simp
  | cons c input ih =>
    cases state <;> simp only [parseTokenFrom] <;> split_ifs <;> first | exact ih _ _ | simp

/-! ### The words that can be returned -/

/-- What the value read so far is, in each state of the lexer. -/
def ValueOk : TokenParserState → Bytes → Prop
  | .initialWhitespace, value => value = []
  | .singleQuote, value => ∃ body, value = byte '\'' :: body ∧ byte '\'' ∉ body
  | .doubleQuote, value => ∃ body, value = byte '"' :: body ∧ byte '"' ∉ body
  | .tokenTypeComment, _ => True
  | .tokenTypeNormal, value => IsBareWord value

theorem IsBareWord.snoc {w : Bytes} (h : IsBareWord w) {c : Byte} (hc : ¬ EndsWord c) :
    IsBareWord (w ++ [c]) := by
  obtain ⟨b, rest, rfl, hb, hrest⟩ := h
  refine ⟨b, rest ++ [c], rfl, hb, ?_⟩
  intro x hx
  rcases List.mem_append.mp hx with hx | hx
  · exact hrest x hx
  · rw [List.mem_singleton.mp hx]
    exact hc

/-- One more byte inside a quoted word. -/
theorem exists_quote_snoc {q : Byte} {value : Bytes} (h : ∃ body, value = q :: body ∧ q ∉ body)
    {c : Byte} (hc : c ≠ q) : ∃ body, value ++ [c] = q :: body ∧ q ∉ body := by
  obtain ⟨body, rfl, hb⟩ := h
  refine ⟨body ++ [c], rfl, ?_⟩
  rw [List.mem_append, not_or, List.mem_singleton]
  exact ⟨hb, Ne.symm hc⟩

theorem isQuotedWord_close {q : Byte} {value : Bytes}
    (h : ∃ body, value = q :: body ∧ q ∉ body) : IsQuotedWord q (value ++ [q]) := by
  obtain ⟨body, rfl, hb⟩ := h
  exact ⟨body, rfl, hb⟩

theorem lexableWord_of_parseTokenFrom {state : TokenParserState} {value input : Bytes}
    (hv : ValueOk state value) (h : (parseTokenFrom state value input).1 = .normal) :
    LexableWord (parseTokenFrom state value input).2.1 := by
  induction input generalizing state value with
  | nil =>
    simp only [parseTokenFrom] at h
    split_ifs at h
  | cons c input ih =>
    cases state with
    | initialWhitespace =>
      have hnil : value = [] := hv
      subst hnil
      simp only [parseTokenFrom] at h ⊢
      split_ifs at h ⊢ with h1 h2 h3 h4 h5 h6 h7
      · exact ih trivial h
      · exact ih ⟨[], by rw [h4], by simp⟩ h
      · exact ih ⟨[], by rw [h5], by simp⟩ h
      · exact ih rfl h
      · exact ih ⟨c, [], rfl, ⟨h7, h1, h2, h3, h6, h4, h5⟩, by simp⟩ h
    | singleQuote =>
      simp only [parseTokenFrom] at h ⊢
      split_ifs at h ⊢ with hc
      · rw [hc]
        exact .inr (.inl (isQuotedWord_close hv))
      · exact ih (exists_quote_snoc hv hc) h
    | doubleQuote =>
      simp only [parseTokenFrom] at h ⊢
      split_ifs at h ⊢ with hc
      · rw [hc]
        exact .inl (isQuotedWord_close hv)
      · exact ih (exists_quote_snoc hv hc) h
    | tokenTypeComment =>
      simp only [parseTokenFrom] at h ⊢
      split_ifs at h ⊢
      exact ih trivial h
    | tokenTypeNormal =>
      simp only [parseTokenFrom] at h ⊢
      split_ifs at h ⊢ with hc
      · exact .inr (.inr hv)
      · exact ih (IsBareWord.snoc hv hc) h

/-- **Every word `ParseToken` returns is lexable.** -/
theorem lexableWord_of_parseToken {input : Bytes} (h : (parseToken input).1 = .normal) :
    LexableWord (parseToken input).2.1 :=
  lexableWord_of_parseTokenFrom rfl h

end Webserver.ConfigLexer
