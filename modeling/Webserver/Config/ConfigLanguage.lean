import Webserver.Config.ConfigCursor

/-!
# The language of the config parser, and its printer

* `parse_accepts_grammar` — the parser accepts a text exactly when its token sequence ends at the end of
  the file and derives from the block grammar, and then returns the derivation tree.
* `parse_toString_roundtrip` — parsing undoes printing on trees of lexable words, and the trees the
  parser accepts are such trees.
* `allStatements_of_parse` — also the tree of a rejected text has lexable words in all its statements.
-/

namespace Webserver.ConfigLanguage

open ByteString BoundedLoop ConfigTree ConfigLexer ConfigParser ConfigGrammar ConfigCursor

/-! ### Acceptance -/

theorem parse_true_iff {input : Bytes} {ts : List Token} {e : Ending} (hd : Delivers input ts e)
    (c : NginxConfig) : parse input = some (true, c) ↔ e = .eof ∧ DerivesConfig ts c := by
  rw [parse_eq_outcome hd, Option.some.injEq, Cursor.outcome_eq_true_iff, Cursor.run_eq_iff]

/-- **The config parser accepts exactly the block grammar.**  On a text whose token sequence is `ts`, the
parser always returns, and it returns `true` with the tree `c` if and only if the sequence ends at the end
of the file and `c` is its derivation tree. -/
theorem parse_accepts_grammar {input : Bytes} {ts : List Token} {e : Ending}
    (hd : Delivers input ts e) :
    (∃ b c, parse input = some (b, c)) ∧
      ∀ c, parse input = some (true, c) ↔ e = .eof ∧ DerivesConfig ts c := by
  exact ⟨⟨_, _, parse_eq_outcome hd⟩, parse_true_iff hd⟩

/-- A block in a block. -/
theorem parse_accepts_grammar_nested :
    (∃ b c, parse (bytes "a b \x7b c \x7b d; \x7d e; \x7d") = some (b, c)) ∧
      (parse (bytes "a b \x7b c \x7b d; \x7d e; \x7d") = some (true, ⟨[⟨[bytes "a", bytes "b"],
          some ⟨[⟨[bytes "c"], some ⟨[⟨[bytes "d"], none⟩]⟩⟩, ⟨[bytes "e"], none⟩]⟩⟩]⟩) ↔
        Ending.eof = .eof ∧ DerivesConfig [.word (bytes "a"), .word (bytes "b"), .openBrace, .word (bytes "c"),
          .openBrace, .word (bytes "d"), .semicolon, .closeBrace, .word (bytes "e"), .semicolon, .closeBrace]
          ⟨[⟨[bytes "a", bytes "b"],
            some ⟨[⟨[bytes "c"], some ⟨[⟨[bytes "d"], none⟩]⟩⟩, ⟨[bytes "e"], none⟩]⟩⟩]⟩) := by
  have hd : Delivers (bytes "a b \x7b c \x7b d; \x7d e; \x7d") [.word (bytes "a"), .word (bytes "b"), .openBrace,
      .word (bytes "c"), .openBrace, .word (bytes "d"), .semicolon, .closeBrace, .word (bytes "e"), .semicolon,
      .closeBrace] .eof :=
    .token (by decide) (.token (by decide) (.token (by decide) (.token (by decide) (.token (by decide)
      (.token (by decide) (.token (by decide) (.token (by decide) (.token (by decide) (.token (by decide)
        (.token (by decide) (.eof (by decide))))))))))))
  obtain ⟨htotal, haccepts⟩ := parse_accepts_grammar hd
  exact ⟨htotal, haccepts _⟩

/-! ### Token sequences of printed text -/

section Printed

variable {input rest : Bytes} {ts : List Token} {e : Ending}

theorem delivers_blanks {s : Bytes} (hs : ∀ c ∈ s, IsBlank c) (hd : Delivers rest ts e) :
    Delivers (s ++ rest) ts e :=
  hd.of_parseToken_eq (parseToken_blanks hs rest)

theorem delivers_word {w : Bytes} (hw : LexableWord w) {d : Byte} (hdelim : EndsWord d)
    (hd : Delivers (d :: rest) ts e) : Delivers (w ++ d :: rest) (.word w :: ts) e := by
  have h := parseToken_word hw hdelim rest
  exact .token (by rw [h]; rfl) (by rw [h]; exact hd)

theorem delivers_semicolon (hd : Delivers rest ts e) :
    Delivers (byte ';' :: rest) (.semicolon :: ts) e :=
  .token (by simp [parseToken, parseTokenFrom, Token.ofType]) (by simpa [parseToken, parseTokenFrom])

theorem delivers_openBrace (hd : Delivers rest ts e) :
    Delivers (byte '{' :: rest) (.openBrace :: ts) e :=
  .token (by simp [parseToken, parseTokenFrom, Token.ofType]) (by simpa [parseToken, parseTokenFrom])

theorem delivers_closeBrace (hd : Delivers rest ts e) :
    Delivers (byte '}' :: rest) (.closeBrace :: ts) e :=
  .token (by simp [parseToken, parseTokenFrom, Token.ofType]) (by simpa [parseToken, parseTokenFrom])

/-- A newline between statements is skipped. -/
theorem delivers_newline (hd : Delivers rest ts e) : Delivers (byte '\n' :: rest) ts e :=
  hd.of_parseToken_eq (parseToken_blank (by simp [IsBlank]) rest)

theorem delivers_space (hd : Delivers rest ts e) : Delivers (byte ' ' :: rest) ts e :=
  hd.of_parseToken_eq (parseToken_blank (by simp [IsBlank]) rest)

theorem delivers_joinTokens {ws : List Bytes} (hws : ∀ w ∈ ws, LexableWord w) {d : Byte}
    (hdelim : EndsWord d) (hd : Delivers (d :: rest) ts e) :
    Delivers (joinTokens ws ++ d :: rest) (ws.map .word ++ ts) e := by
  induction ws with
  | nil => exact hd
  | cons w ws ih =>
    rw [List.forall_mem_cons] at hws
    cases ws with
    | nil => exact delivers_word hws.1 hdelim hd
    | cons w' ws =>
      have hspace := delivers_space (ih hws.2)
      have h := delivers_word hws.1 (by simp [EndsWord]) hspace
      simpa [joinTokens, bytes] using h

theorem isBlank_of_mem_indent {depth : ℤ} {c : Byte} (h : c ∈ indent depth) : IsBlank c := by
  rw [indent, List.mem_flatten] at h
  obtain ⟨l, hl, hc⟩ := h
  rw [List.eq_of_mem_replicate hl] at hc
  left
  simpa [bytes] using hc

end Printed

/-- The tokens of a statement that can be written down: at least one, all lexable. -/
def LexableTokens (ws : List Bytes) : Prop := ws ≠ [] ∧ ∀ w ∈ ws, LexableWord w

/-- A non-empty tree whose statements, at every depth, have lexable tokens and at least one. -/
def WellFormed (c : NginxConfig) : Prop :=
  c.statements ≠ [] ∧ AllStatements LexableTokens c.statements

/-- **The printer and the lexer.**  Printed statements are read as their own token sequence, whatever the
indentation. -/
theorem delivers_statementsToString {ss : List NginxConfigStatement}
    (h : AllStatements LexableTokens ss) (depth : ℤ) {rest : Bytes} {ts : List Token} {e : Ending}
    (hd : Delivers rest ts e) : Delivers (statementsToString ss depth ++ rest) (spell ss ++ ts) e := by
  induction h generalizing depth rest ts with
  | nil => simpa [statementsToString, spell] using hd
  | @simple ws ss hws _ ih =>
    have hline := delivers_semicolon (delivers_newline (ih depth hd))
    have hjoin := delivers_joinTokens hws.2 (by simp [EndsWord]) hline
    have hall := delivers_blanks (fun c hc => isBlank_of_mem_indent (show c ∈ indent depth from hc)) hjoin
    rw [statementsToString_simple, spell]
    simpa [bytes] using hall
  | @block ws bs ss hws _ _ ihb ih =>
    have hclose := delivers_closeBrace (delivers_newline (ih depth hd))
    have hindent := delivers_blanks (fun c hc => isBlank_of_mem_indent (show c ∈ indent depth from hc)) hclose
    have hbody := delivers_openBrace (delivers_newline (ihb (depth + 1) hindent))
    have hjoin := delivers_joinTokens hws.2 (by simp [EndsWord]) (delivers_space hbody)
    have hall := delivers_blanks (fun c hc => isBlank_of_mem_indent (show c ∈ indent depth from hc)) hjoin
    rw [statementsToString_block, spell]
    simpa [bytes] using hall

theorem parse_toString {c : NginxConfig} (h : WellFormed c) (depth : ℤ) :
    parse (c.toString depth) = some (true, c) := by
  obtain ⟨ss⟩ := c
  have hnil : Delivers [] [] .eof := .eof (by rw [parseToken_nil])
  have hd := delivers_statementsToString h.2 depth hnil
  rw [List.append_nil, List.append_nil, NginxConfig.statements_mk] at hd
  rw [toString_mk, parse_true_iff hd]
  exact ⟨rfl, derivesConfig_iff.mpr ⟨h.1, h.2.mono fun _ hws => hws.1, rfl⟩⟩

/-! ### Accepted trees -/

/-- The words of a token sequence are lexable. -/
theorem lexableWord_of_delivers {input : Bytes} {ts : List Token} {e : Ending}
    (hd : Delivers input ts e) {w : Bytes} (hw : Token.word w ∈ ts) : LexableWord w := by
  induction hd with
  | eof | error => cases hw
  | comment _ _ ih => exact ih hw
  | @token input t ts e ht _ ih =>
    rcases List.mem_cons.mp hw with rfl | hw
    · have htype := type_of_ofType ht
      rw [← htype] at ht
      obtain rfl : (parseToken input).2.1 = w := by simpa [Token.type, Token.ofType] using ht
      exact lexableWord_of_parseToken htype.symm
    · exact ih hw

theorem allStatements_lexable {ss : List NginxConfigStatement} (h : AllStatements (· ≠ []) ss)
    (hw : ∀ w, Token.word w ∈ spell ss → LexableWord w) : AllStatements LexableTokens ss := by
  induction h with
  | nil => exact .nil
  | simple hws _ ih =>
    rw [spell] at hw
    refine .simple ⟨hws, fun w h => hw w ?_⟩ (ih fun w h => hw w ?_)
    · simp [h]
    · simp [h]
  | block hws _ _ ihb ih =>
    rw [spell] at hw
    refine .block ⟨hws, fun w h => hw w ?_⟩ (ihb fun w h => hw w ?_) (ih fun w h => hw w ?_)
    · simp [h]
    · simp [h]
    · simp [h]

theorem wellFormed_of_parse {input : Bytes} {c : NginxConfig}
    (h : parse input = some (true, c)) : WellFormed c := by
  obtain ⟨ts, e, hd⟩ := delivers_total input
  obtain ⟨-, hderives⟩ := (parse_true_iff hd c).mp h
  obtain ⟨hne, hall, rfl⟩ := derivesConfig_iff.mp hderives
  exact ⟨hne, allStatements_lexable hall fun w => lexableWord_of_delivers hd⟩

/-- **Parsing undoes printing.**  Every well-formed tree is read back from its printed text at every
indentation depth; every tree of an accepting parse is well formed; so an accepted tree survives printing
and parsing. -/
theorem parse_toString_roundtrip :
    (∀ (c : NginxConfig) (depth : ℤ), WellFormed c → parse (c.toString depth) = some (true, c)) ∧
      (∀ (input : Bytes) (c : NginxConfig), parse input = some (true, c) → WellFormed c) ∧
      ∀ (input : Bytes) (c : NginxConfig) (depth : ℤ),
        parse input = some (true, c) → parse (c.toString depth) = some (true, c) :=
  ⟨fun _ depth h => parse_toString h depth, fun _ _ h => wellFormed_of_parse h,
    fun _ _ depth h => parse_toString (wellFormed_of_parse h) depth⟩

/-- A block whose header has a quoted word with a delimiter in it. -/
theorem parse_toString_roundtrip_block :
    parse ((⟨[⟨[bytes "a", bytes "\"b;\""], some ⟨[⟨[bytes "c"], none⟩]⟩⟩]⟩ : NginxConfig).toString 1) =
      some (true, ⟨[⟨[bytes "a", bytes "\"b;\""], some ⟨[⟨[bytes "c"], none⟩]⟩⟩]⟩) := by
  have ha : LexableWord (bytes "a") := .inr (.inr ⟨byte 'a', [], rfl, by simp [StartsBareWord, IsBlank], by simp⟩)
  have hb : LexableWord (bytes "\"b;\"") := .inl ⟨bytes "b;", rfl, by decide⟩
  have hc : LexableWord (bytes "c") := .inr (.inr ⟨byte 'c', [], rfl, by simp [StartsBareWord, IsBlank], by simp⟩)
  have hblock : LexableTokens [bytes "a", bytes "\"b;\""] := ⟨by simp, by simp [ha, hb]⟩
  have hinner : LexableTokens [bytes "c"] := ⟨by simp, by simp [hc]⟩
  exact parse_toString_roundtrip.1 _ 1 ⟨by simp, .block hblock (.simple hinner .nil) .nil⟩

/-! ### Trees of rejected texts -/

/-- Every statement of the cursor, complete or open, can be written down. -/
structure LexableCursor (z : Cursor) : Prop where
  frames : ∀ f ∈ z.frames, LexableTokens f.2 ∧ AllStatements LexableTokens f.1
  done : AllStatements LexableTokens z.done
  words : ∀ w ∈ z.words, LexableWord w

theorem lexableCursor_start : LexableCursor Cursor.start :=
  ⟨fun _ hf => (List.not_mem_nil hf).elim, .nil, fun _ hw => (List.not_mem_nil hw).elim⟩

/-- **One step** adds no other word than that of its token. -/
theorem LexableCursor.step {z z' : Cursor} {t : Token} (hz : LexableCursor z)
    (ht : ∀ w, t = .word w → LexableWord w) (h : z.step t = some z') : LexableCursor z' := by
  cases Cursor.step_transition h with
  | word =>
    refine ⟨hz.frames, hz.done, ?_⟩
    intro v hv
    rcases List.mem_append.mp hv with hv | hv
    · exact hz.words v hv
    · rw [List.mem_singleton.mp hv]
      exact ht _ rfl
  | semicolon hw =>
    exact ⟨hz.frames, hz.done.append (.simple ⟨hw, hz.words⟩ .nil), fun _ hv => (List.not_mem_nil hv).elim⟩
  | openBrace hw =>
    refine ⟨?_, .nil, fun _ hv => (List.not_mem_nil hv).elim⟩
    exact List.forall_mem_cons.mpr ⟨⟨⟨hw, hz.words⟩, hz.done⟩, hz.frames⟩
  | closeBrace =>
    obtain ⟨⟨hwords, hd⟩, hframes⟩ := List.forall_mem_cons.mp hz.frames
    exact ⟨hframes, hd.append (.block hwords hz.done .nil), fun _ hv => (List.not_mem_nil hv).elim⟩

theorem allStatements_plug {P : List Bytes → Prop} {fs : List Frame} {ss : List NginxConfigStatement}
    (hfs : ∀ f ∈ fs, P f.2 ∧ AllStatements P f.1) (hss : AllStatements P ss) :
    AllStatements P (plug fs ss).statements := by
  induction fs generalizing ss with
  | nil => exact hss
  | cons f fs ih =>
    obtain ⟨⟨hw, hd⟩, hfs⟩ := List.forall_mem_cons.mp hfs
    exact ih hfs (hd.append (.block hw hss .nil))

/-- **The tree of a cursor**, with the statement that is being read. -/
theorem LexableCursor.config {z : Cursor} (hz : LexableCursor z) :
    AllStatements LexableTokens z.config.statements := by
  have hopen : AllStatements LexableTokens (openStatement z.words) := by
    rw [openStatement]
    split_ifs with hw
    · exact .nil
    · exact .simple ⟨hw, hz.words⟩ .nil
  exact allStatements_plug hz.frames (hz.done.append hopen)

/-- The tree that is left when a token sequence has been read, wherever the parser stops. -/
theorem LexableCursor.outcome {ts : List Token} (hts : ∀ w, Token.word w ∈ ts → LexableWord w) (e : Ending) :
    ∀ {z : Cursor}, LexableCursor z → AllStatements LexableTokens (z.outcome ts e).2.statements := by
  induction ts with
  | nil =>
    intro z hz
    cases e with
    | eof => exact hz.config
    | error => exact hz.config
  | cons t ts ih =>
    intro z hz
    cases hs : z.step t with
    | none =>
      rw [Cursor.outcome_cons_of_none hs]
      exact hz.config
    | some z' =>
      rw [Cursor.outcome_cons_of_some hs]
      refine ih (fun w hw => hts w (List.mem_cons_of_mem t hw)) (hz.step ?_ hs)
      rintro w rfl
      exact hts w List.mem_cons_self

/-- Every statement of the tree, at every depth, has lexable words and at least one. -/
theorem allStatements_of_parse {input : Bytes} {ok : Bool} {c : NginxConfig} (h : parse input = some (ok, c)) :
    AllStatements LexableTokens c.statements := by
  obtain ⟨ts, e, hd⟩ := delivers_total input
  rw [parse_eq_outcome hd] at h
  have hall := lexableCursor_start.outcome (fun w => lexableWord_of_delivers hd) e
  rwa [Option.some.inj h] at hall

/-- The words of the top-level statements are lexable. -/
def LexableTop (c : NginxConfig) : Prop := ∀ s ∈ c.statements, ∀ w ∈ s.tokens, LexableWord w

/-- **Every tree the parser leaves behind**, accepted or not, has lexable words in its top-level
statements. -/
theorem lexableTop_of_parse {input : Bytes} {b : Bool} {c : NginxConfig} (h : parse input = some (b, c)) :
    LexableTop c := by
  intro s hs w hw
  exact ((allStatements_of_parse h).of_mem hs).2 w hw

end Webserver.ConfigLanguage
