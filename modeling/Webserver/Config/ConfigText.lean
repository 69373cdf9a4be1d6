import Webserver.Config.ConfigLanguage

/-!
# What a tree keeps of its text

The words of a tree, with the semicolons and braces of its statements, against the text without comments
and unquoted whitespace.  `significant` reads the text on its own, byte by byte, and knows no tokens.

The lexer leaves this reading in two ways.  A carriage return does not end a bare word but becomes a byte of
it, and a bare word at the end of the text is never delivered.  On a text that it accepts these are the only
ways (`spelled_eq_significant_iff`).
-/

namespace Webserver.ConfigText

open ByteString ConfigTree ConfigLexer ConfigParser ConfigGrammar ConfigCursor ConfigLanguage

/-! ### The tree -/

/-- The words in order, with the `;`, `{` and `}` of the statements. -/
def spelled : List NginxConfigStatement → Bytes
  | [] => []
  | ⟨ws, none⟩ :: ss => ws.flatten ++ bytes ";" ++ spelled ss
  | ⟨ws, some ⟨bs⟩⟩ :: ss => ws.flatten ++ bytes "\x7b" ++ spelled bs ++ bytes "\x7d" ++ spelled ss

/-! ### The text -/

/-- Where a byte of a configuration text stands. -/
inductive Place where
  | between
  | word
  | singleQuote
  | doubleQuote
  | comment
  deriving DecidableEq

/-- The bytes that are statements of their own. -/
def IsPunctuation (c : Byte) : Prop := c = byte ';' ∨ c = byte '{' ∨ c = byte '}'

instance : DecidablePred IsPunctuation := fun c => by unfold IsPunctuation; infer_instance

namespace Place

/-- The place after a byte. -/
def next : Place → Byte → Place
  | .between, c =>
    if c = byte '#' then .comment
    else if c = byte '"' then .doubleQuote
    else if c = byte '\'' then .singleQuote
    else if IsBlank c ∨ IsPunctuation c then .between
    else .word
  | .word, c => if IsBlank c ∨ IsPunctuation c then .between else .word
  | .singleQuote, c => if c = byte '\'' then .between else .singleQuote
  | .doubleQuote, c => if c = byte '"' then .between else .doubleQuote
  | .comment, c => if c = byte '\n' ∨ c = byte '\r' then .between else .comment

/-- Bytes that belong neither to a comment nor to unquoted whitespace. -/
def Keeps : Place → Byte → Prop
  | .between, c => ¬ IsBlank c ∧ c ≠ byte '#'
  | .word, c => ¬ IsBlank c
  | .singleQuote, _ | .doubleQuote, _ => True
  | .comment, _ => False

instance (p : Place) : DecidablePred p.Keeps := fun c => by
  cases p <;> unfold Keeps <;> infer_instance

end Place

/-- **The text without comments and unquoted whitespace.** -/
def significant : Place → Bytes → Bytes
  | _, [] => []
  | p, c :: text => (if p.Keeps c then [c] else []) ++ significant (p.next c) text

/-- **No bare word meets a carriage return or the end of the text.** -/
def Clean : Place → Bytes → Prop
  | p, [] => p ≠ .word
  | p, c :: text => ¬ (p = .word ∧ c = byte '\r') ∧ Clean (p.next c) text

instance decidableClean : ∀ (p : Place) (text : Bytes), Decidable (Clean p text)
  | p, [] => inferInstanceAs (Decidable (p ≠ .word))
  | p, c :: text =>
    have := decidableClean (p.next c) text
    inferInstanceAs (Decidable (¬ (p = .word ∧ c = byte '\r') ∧ Clean (p.next c) text))

theorem next_between {c : Byte} (h : IsBlank c ∨ IsPunctuation c) : Place.between.next c = .between := by
  rcases h with (rfl | rfl | rfl | rfl) | (rfl | rfl | rfl) <;> rfl

/-- The bytes that end a bare word of the lexer: all blanks but the carriage return, and punctuation. -/
theorem endsWord_iff {c : Byte} :
    EndsWord c ↔ c ≠ byte '\r' ∧ (IsBlank c ∨ IsPunctuation c) := by
  constructor
  · rintro (rfl | rfl | rfl | rfl | rfl | rfl | rfl) <;> decide
  · rintro ⟨hcr, (rfl | rfl | rfl | rfl) | (rfl | rfl | rfl)⟩
    · decide
    · decide
    · decide
    · exact absurd rfl hcr
    · decide
    · decide
    · decide

/-- Outside of quotes the next significant byte is not a carriage return. -/
theorem head?_significant_ne {p : Place} (hsingle : p ≠ .singleQuote) (hdouble : p ≠ .doubleQuote)
    (text : Bytes) : (significant p text).head? ≠ some (byte '\r') := by
  induction text generalizing p with
  | nil => simp [significant]
  | cons c text ih =>
    rw [significant]
    split_ifs with hkeep
    · have hblank : ¬ IsBlank c := by
        cases p with
        | between => exact hkeep.1
        | word => exact hkeep
        | singleQuote => exact absurd rfl hsingle
        | doubleQuote => exact absurd rfl hdouble
        | comment => exact hkeep.elim
      intro hc
      obtain rfl : c = byte '\r' := by simpa using hc
      exact hblank (by decide)
    · have hnext : p.next c = .between ∨ p.next c = .comment := by
        cases p with
        | between =>
          by_cases hc : c = byte '#'
          · right
            rw [Place.next, if_pos hc]
          · have hblank : IsBlank c := by
              by_contra hblank
              exact hkeep ⟨hblank, hc⟩
            left
            exact next_between (.inl hblank)
        | word =>
          left
          have hblank : IsBlank c := not_not.mp hkeep
          rw [Place.next, if_pos (.inl hblank)]
        | singleQuote => exact absurd rfl hsingle
        | doubleQuote => exact absurd rfl hdouble
        | comment =>
          rw [Place.next]
          split_ifs
          · exact .inl rfl
          · exact .inr rfl
      rw [List.nil_append]
      rcases hnext with h | h
      · exact ih (by rw [h]; decide) (by rw [h]; decide)
      · exact ih (by rw [h]; decide) (by rw [h]; decide)

/-! ### One token -/

/-- The place of the next byte, in each state of the lexer. -/
def placeOf : TokenParserState → Place
  | .initialWhitespace => .between
  | .singleQuote => .singleQuote
  | .doubleQuote => .doubleQuote
  | .tokenTypeComment => .comment
  | .tokenTypeNormal => .word

/-- The significant bytes that the lexer holds in its value. -/
def held : TokenParserState → Bytes → Bytes
  | .initialWhitespace, _ | .tokenTypeComment, _ => []
  | _, value => value

/-- The value read so far, as far as a bare word is concerned. -/
def ValueShape : TokenParserState → Bytes → Prop
  | .initialWhitespace, value => value = []
  | .tokenTypeNormal, value => value ≠ []
  | _, _ => True

/-- The bytes that a token contributes to the tree. -/
def delivered (tokenType : TokenType) (value : Bytes) : Bytes := if tokenType = .comment then [] else value

/-- **What one call of `ParseToken` keeps**, when `shown` are the significant bytes it starts with.  A token
either keeps exactly the significant bytes it consumes, or it has a carriage return in a bare word; the end
of the text keeps nothing. -/
def TokenKeeps (p : Place) (shown text : Bytes) : TokenType × Bytes × Bytes → Prop
  | (.error, _, _) => True
  | (.eof, _, _) => shown ++ significant p text = [] ↔ Clean p text
  | (tokenType, value, rest) =>
    ((Clean p text ↔ Clean .between rest) ∧
        shown ++ significant p text = delivered tokenType value ++ significant .between rest) ∨
      (¬ Clean p text ∧ ∃ w x y, shown ++ significant p text = w ++ x ∧
        delivered tokenType value = w ++ byte '\r' :: y ∧ x.head? ≠ some (byte '\r'))

/-- Bytes on which the lexer goes on. -/
theorem TokenKeeps.cons {p p' : Place} {shown shown' text : Bytes} {c : Byte}
    {r : TokenType × Bytes × Bytes} (hclean : p ≠ .word ∨ c ≠ byte '\r') (hnext : p.next c = p')
    (hshown : shown ++ (if p.Keeps c then [c] else []) = shown')
    (h : TokenKeeps p' shown' text r) : TokenKeeps p shown (c :: text) r := by
  subst hnext
  have hsig : shown ++ significant p (c :: text) = shown' ++ significant (p.next c) text := by
    rw [significant, ← List.append_assoc, hshown]
  have hiff : Clean p (c :: text) ↔ Clean (p.next c) text := and_iff_right (not_and_or.mpr hclean)
  obtain ⟨tokenType, value, rest⟩ := r
  unfold TokenKeeps at h ⊢
  split at h
  · trivial
  · simp only [hsig, hiff]
    exact h
  · simp only [hsig, hiff]
    exact h

/-- A token of one byte. -/
theorem tokenKeeps_punctuation {c : Byte} {text : Bytes} {tokenType : TokenType} (hc : IsPunctuation c)
    (htype : tokenType = .startBlock ∨ tokenType = .endBlock ∨ tokenType = .statementEnd) :
    TokenKeeps .between [] (c :: text) (tokenType, [c], text) := by
  have hnext : Place.between.next c = .between := by
    rcases hc with rfl | rfl | rfl <;> rfl
  have hkeep : Place.between.Keeps c := by
    rcases hc with rfl | rfl | rfl <;> decide
  have hclean : Clean .between (c :: text) ↔ Clean .between text := by
    rw [Clean, hnext]
    exact and_iff_right fun h => by cases h.1
  have hsig : significant .between (c :: text) = [c] ++ significant .between text := by
    rw [significant, hnext, if_pos hkeep]
  rcases htype with rfl | rfl | rfl
  · exact .inl ⟨hclean, hsig⟩
  · exact .inl ⟨hclean, hsig⟩
  · exact .inl ⟨hclean, hsig⟩

/-- The lexer never gives up bytes of a bare word. -/
theorem parseTokenFrom_normal_prefix (value text : Bytes) :
    ∃ y rest, parseTokenFrom .tokenTypeNormal value text = (.normal, value ++ y, rest) ∨
      parseTokenFrom .tokenTypeNormal value text = (.eof, value ++ y, rest) := by
  induction text generalizing value with
  | nil => exact ⟨[], [], .inr (by simp [parseTokenFrom])⟩
  | cons c text ih =>
    rw [parseTokenFrom]
    split_ifs
    · exact ⟨[], c :: text, .inl (by rw [List.append_nil])⟩
    · obtain ⟨y, rest, h⟩ := ih (value ++ [c])
      refine ⟨c :: y, rest, ?_⟩
      simpa using h

/-- A carriage return in a bare word. -/
theorem tokenKeeps_carriageReturn {value : Bytes} (hvalue : value ≠ []) (text : Bytes) :
    TokenKeeps .word value (byte '\r' :: text)
      (parseTokenFrom .tokenTypeNormal (value ++ [byte '\r']) text) := by
  have hclean : ¬ Clean .word (byte '\r' :: text) := fun h => h.1 ⟨rfl, rfl⟩
  have hsig : significant .word (byte '\r' :: text) = significant .between text := rfl
  obtain ⟨y, rest, h | h⟩ := parseTokenFrom_normal_prefix (value ++ [byte '\r']) text
  · rw [h]
    refine .inr ⟨hclean, value, significant .between text, y, by rw [hsig], ?_, ?_⟩
    · show value ++ [byte '\r'] ++ y = _
      rw [List.append_assoc]
      rfl
    · exact head?_significant_ne (by decide) (by decide) text
  · rw [h]
    exact iff_of_false (fun hnil => hvalue (List.append_eq_nil_iff.mp hnil).1) hclean

/-- The byte that closes a quoted word. -/
theorem tokenKeeps_closingQuote {p : Place} {q : Byte} (hword : p ≠ .word) (hnext : p.next q = .between)
    (hkeep : p.Keeps q) (value text : Bytes) :
    TokenKeeps p value (q :: text) (.normal, value ++ [q], text) := by
  refine .inl ⟨?_, ?_⟩
  · rw [Clean, hnext]
    exact and_iff_right fun h => hword h.1
  · show value ++ significant p (q :: text) = value ++ [q] ++ significant .between text
    rw [significant, hnext, if_pos hkeep, List.append_assoc]

/-- The byte that ends a comment. -/
theorem tokenKeeps_commentEnd {c : Byte} (hc : c = byte '\n' ∨ c = byte '\r') (value text : Bytes) :
    TokenKeeps .comment [] (c :: text) (.comment, value, text) := by
  have hnext : Place.comment.next c = .between := if_pos hc
  refine .inl ⟨?_, ?_⟩
  · rw [Clean, hnext]
    exact and_iff_right fun h => by cases h.1
  · rw [significant, hnext]
    rfl

/-- The byte that ends a bare word is left to the next call. -/
theorem tokenKeeps_wordEnd {c : Byte} (hc : EndsWord c) (value text : Bytes) :
    TokenKeeps .word value (c :: text) (.normal, value, c :: text) := by
  obtain ⟨hcr, hend⟩ := endsWord_iff.mp hc
  have hcomment : c ≠ byte '#' := by
    rintro rfl
    revert hend
    decide
  have hword : Place.word.next c = .between := if_pos hend
  have hbetween : Place.between.next c = .between := next_between hend
  have hkeep : Place.word.Keeps c ↔ Place.between.Keeps c := (and_iff_left hcomment).symm
  refine .inl ⟨?_, ?_⟩
  · rw [Clean, Clean, hword, hbetween]
    exact and_congr_left fun _ => iff_of_true (fun h => hcr h.2) (fun h => hcr h.2)
  · show value ++ significant .word (c :: text) = value ++ significant .between (c :: text)
    rw [significant, significant, hword, hbetween]
    simp only [hkeep]

/-- What the lexer keeps of a text, from any of its states. -/
def KeepsFrom (text : Bytes) : Prop :=
  ∀ {state : TokenParserState} {value : Bytes}, ValueShape state value →
    TokenKeeps (placeOf state) (held state value) text (parseTokenFrom state value text)

theorem keepsFrom_nil : KeepsFrom [] := by
  intro state value hv
  cases state with
  | initialWhitespace => simp [parseTokenFrom, TokenKeeps, placeOf, held, significant, Clean]
  | singleQuote => trivial
  | doubleQuote => trivial
  | tokenTypeComment => simp [parseTokenFrom, TokenKeeps, placeOf, held, significant, Clean]
  | tokenTypeNormal =>
    have hne : value ≠ [] := hv
    simp [parseTokenFrom, TokenKeeps, placeOf, held, significant, Clean, hne]

/-- The first byte of a token, or white space in front of it. -/
theorem KeepsFrom.between {text : Bytes} (h : KeepsFrom text) (c : Byte) :
    TokenKeeps .between [] (c :: text) (parseTokenFrom .initialWhitespace [] (c :: text)) := by
  have hclean : Place.between ≠ .word ∨ c ≠ byte '\r' := .inl (by decide)
  rw [parseTokenFrom]
  split_ifs with h1 h2 h3 h4 h5 h6 h7
  · exact tokenKeeps_punctuation (.inr (.inl h1)) (.inl rfl)
  · exact tokenKeeps_punctuation (.inr (.inr h2)) (.inr (.inl rfl))
  · subst h3
    exact TokenKeeps.cons hclean rfl rfl (h trivial)
  · subst h4
    exact TokenKeeps.cons hclean rfl rfl (h trivial)
  · subst h5
    exact TokenKeeps.cons hclean rfl rfl (h trivial)
  · exact tokenKeeps_punctuation (.inl h6) (.inr (.inr rfl))
  · have hnext : Place.between.next c = .between := next_between (.inl h7)
    exact TokenKeeps.cons hclean hnext (if_neg fun hkeep => hkeep.1 h7) (h rfl)
  · have hpunct : ¬ (IsBlank c ∨ IsPunctuation c) := by
      rintro (h | h | h | h)
      · exact h7 h
      · exact h6 h
      · exact h1 h
      · exact h2 h
    have hnext : Place.between.next c = .word := by
      rw [Place.next, if_neg h3, if_neg h4, if_neg h5, if_neg hpunct]
    exact TokenKeeps.cons hclean hnext (if_pos ⟨h7, h3⟩) (h (List.cons_ne_nil c []))

/-- A byte in a bare word or behind it. -/
theorem KeepsFrom.word {text : Bytes} (h : KeepsFrom text) {value : Bytes} (hv : value ≠ []) (c : Byte) :
    TokenKeeps .word value (c :: text) (parseTokenFrom .tokenTypeNormal value (c :: text)) := by
  rw [parseTokenFrom]
  split_ifs with hc
  · exact tokenKeeps_wordEnd hc value text
  · by_cases hcr : c = byte '\r'
    · subst hcr
      exact tokenKeeps_carriageReturn hv text
    · have hgoes : ¬ (IsBlank c ∨ IsPunctuation c) := fun h => hc (endsWord_iff.mpr ⟨hcr, h⟩)
      have hkeep : Place.word.Keeps c := fun h => hgoes (.inl h)
      refine TokenKeeps.cons (.inr hcr) (if_neg hgoes) ?_ (h (by simp [ValueShape]))
      rw [if_pos hkeep]
      rfl

/-- **One call of `ParseToken`**, from any of its states. -/
theorem keepsFrom (text : Bytes) : KeepsFrom text := by
  induction text with
  | nil => exact keepsFrom_nil
  | cons c text ih =>
    intro state value hv
    cases state with
    | initialWhitespace =>
      obtain rfl : value = [] := hv
      exact ih.between c
    | tokenTypeNormal => exact ih.word hv c
    | singleQuote =>
      simp only [parseTokenFrom]
      split_ifs with hc
      · subst hc
        exact @tokenKeeps_closingQuote .singleQuote _ (by decide) rfl trivial value text
      · exact TokenKeeps.cons (.inl (by decide)) (if_neg hc) rfl (ih trivial)
    | doubleQuote =>
      simp only [parseTokenFrom]
      split_ifs with hc
      · subst hc
        exact @tokenKeeps_closingQuote .doubleQuote _ (by decide) rfl trivial value text
      · exact TokenKeeps.cons (.inl (by decide)) (if_neg hc) rfl (ih trivial)
    | tokenTypeComment =>
      simp only [parseTokenFrom]
      split_ifs with hc
      · exact tokenKeeps_commentEnd hc value text
      · exact TokenKeeps.cons (.inl (by decide)) (if_neg hc) rfl (ih trivial)

theorem tokenKeeps_parseToken (text : Bytes) : TokenKeeps .between [] text (parseToken text) :=
  @keepsFrom text .initialWhitespace [] rfl

/-! ### The whole text -/

/-- The bytes of a token. -/
def tokenText : Token → Bytes
  | .word w => w
  | .semicolon => bytes ";"
  | .openBrace => bytes "\x7b"
  | .closeBrace => bytes "\x7d"

theorem spelled_eq (ss : List NginxConfigStatement) : spelled ss = (spell ss).flatMap tokenText := by
  have hwords (ws : List Bytes) : (ws.map Token.word).flatMap tokenText = ws.flatten := by
    rw [List.flatMap_map]
    exact List.flatMap_id
  induction ss using statementsInduction with
  | nil =>
    rw [spelled, spell]
    rfl
  | simple ws ss ih =>
    rw [spelled, spell, List.flatMap_append, List.flatMap_append, hwords, ih]
    rfl
  | block ws bs ss ihb ih =>
    rw [spelled, spell, List.flatMap_append, List.flatMap_append, List.flatMap_append, List.flatMap_append,
      hwords, ih, ihb]
    rfl

/-- The value of a one-byte token. -/
theorem parseTokenFrom_value (state : TokenParserState) (value text : Bytes) :
    ((parseTokenFrom state value text).1 = .statementEnd → (parseTokenFrom state value text).2.1 = bytes ";") ∧
      ((parseTokenFrom state value text).1 = .startBlock →
        (parseTokenFrom state value text).2.1 = bytes "\x7b") ∧
      ((parseTokenFrom state value text).1 = .endBlock →
        (parseTokenFrom state value text).2.1 = bytes "\x7d") := by
  induction text generalizing state value with
  | nil =>
    rw [parseTokenFrom]
    split_ifs <;> simp
  | cons c text ih =>
    cases state with
    | initialWhitespace =>
      simp only [parseTokenFrom]
      split_ifs with h1 h2 h3 h4 h5 h6 h7
      · simp [h1, bytes]
      · simp [h2, bytes]
      · exact ih _ _
      · exact ih _ _
      · exact ih _ _
      · simp [h6, bytes]
      · exact ih _ _
      · exact ih _ _
    | singleQuote | doubleQuote | tokenTypeComment | tokenTypeNormal =>
      simp only [parseTokenFrom]
      split_ifs
      · simp
      · exact ih _ _

theorem text_of_ofType {text : Bytes} {t : Token}
    (h : Token.ofType (parseToken text).2.1 (parseToken text).1 = some t) :
    tokenText t = (parseToken text).2.1 := by
  obtain ⟨hsemi, hopen, hclose⟩ := parseTokenFrom_value .initialWhitespace [] text
  have htype := type_of_ofType h
  cases t with
  | word w =>
    rw [← htype] at h
    exact (Token.word.inj (Option.some.inj h)).symm
  | semicolon => exact (hsemi htype.symm).symm
  | openBrace => exact (hopen htype.symm).symm
  | closeBrace => exact (hclose htype.symm).symm

/-- **The token sequence of a text** spells the significant bytes exactly when the text is clean. -/
theorem flatMap_tokenText_iff {text : Bytes} {ts : List Token} {e : Ending} (hd : Delivers text ts e)
    (heof : e = .eof) : ts.flatMap tokenText = significant .between text ↔ Clean .between text := by
  induction hd with
  | @eof text ht =>
    have hkeeps := tokenKeeps_parseToken text
    generalize parseToken text = r at ht hkeeps
    obtain ⟨tokenType, value, rest⟩ := r
    obtain rfl : tokenType = .eof := ht
    exact eq_comm.trans hkeeps
  | error => cases heof
  | @comment text ts e ht _ ih =>
    have hkeeps := tokenKeeps_parseToken text
    generalize parseToken text = r at ht hkeeps ih
    obtain ⟨tokenType, value, rest⟩ := r
    obtain rfl : tokenType = .comment := ht
    rcases hkeeps with ⟨hclean, hsig⟩ | ⟨-, w, x, y, -, hvalue, -⟩
    · rw [hclean, ← ih heof]
      exact iff_of_eq (congrArg _ hsig)
    · exact absurd hvalue.symm (by simp [delivered])
  | @token text t ts e ht _ ih =>
    have hkeeps := tokenKeeps_parseToken text
    have htext := text_of_ofType ht
    have htype := type_of_ofType ht
    generalize parseToken text = r at ht hkeeps htext htype ih
    obtain ⟨tokenType, value, rest⟩ := r
    obtain rfl : t.type = tokenType := htype
    have hkept : delivered t.type value = tokenText t := by
      rw [htext, delivered, if_neg (by cases t <;> simp [Token.type])]
    rw [List.flatMap_cons]
    have hcases : ((Clean .between text ↔ Clean .between rest) ∧
          significant .between text = tokenText t ++ significant .between rest) ∨
        (¬ Clean .between text ∧ ∃ w x y, significant .between text = w ++ x ∧
          tokenText t = w ++ byte '\r' :: y ∧ x.head? ≠ some (byte '\r')) := by
      rw [← hkept]
      cases t <;> exact hkeeps
    rcases hcases with ⟨hclean, hsig⟩ | ⟨hclean, w, x, y, hsig, hword, hx⟩
    · rw [hclean, ← ih heof, hsig, List.append_cancel_left_eq]
    · refine iff_of_false ?_ hclean
      rw [hsig, hword, List.append_assoc, List.append_cancel_left_eq]
      rintro rfl
      exact hx rfl

/-- **What an accepted text loses.**  The words and the punctuation of the tree spell the text without
comments and unquoted whitespace if and only if no bare word of the text meets a carriage return or the end
of the text. -/
theorem spelled_eq_significant_iff {text : Bytes} {c : NginxConfig} (h : parse text = some (true, c)) :
    spelled c.statements = significant .between text ↔ Clean .between text := by
  obtain ⟨ts, e, hd⟩ := delivers_total text
  obtain ⟨heof, hderives⟩ := (parse_true_iff hd c).mp h
  obtain ⟨-, -, hspell⟩ := derivesConfig_iff.mp hderives
  rw [spelled_eq, ← hspell]
  exact flatMap_tokenText_iff hd heof

/-- A block with a comment. -/
theorem spelled_eq_significant_block :
    spelled [⟨[bytes "a", bytes "\"b c\""], some ⟨[⟨[bytes "d"], none⟩]⟩⟩] =
        significant .between (bytes "a \"b c\" \x7b # e\n d; \x7d") ↔
      Clean .between (bytes "a \"b c\" \x7b # e\n d; \x7d") :=
  @spelled_eq_significant_iff (bytes "a \"b c\" \x7b # e\n d; \x7d")
    ⟨[⟨[bytes "a", bytes "\"b c\""], some ⟨[⟨[bytes "d"], none⟩]⟩⟩]⟩ rfl

/-- A word at the end of the text is dropped, and the text is accepted. -/
theorem spelled_ne_significant :
    parse (bytes "a; b") = some (true, ⟨[⟨[bytes "a"], none⟩]⟩) ∧
      spelled [⟨[bytes "a"], none⟩] ≠ significant .between (bytes "a; b") := by
  refine ⟨rfl, ?_⟩
  rw [spelled, spelled]
  decide

end Webserver.ConfigText
