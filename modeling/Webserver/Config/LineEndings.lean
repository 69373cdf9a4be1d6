import Webserver.Config.ConfigLanguage

/-!
# Line endings of a config

The text with every newline replaced by a carriage return and a newline.  Between words and behind a comment
the carriage return is skipped; but it does not end a bare word, so that a bare word directly in front of a
newline gets it as its last byte.

`Scans` is the one token sequence of a text, with a mark on each such word.  The two texts have the same tokens
but for the marked ones (`delivers_withCrlf`), and the same result.  They have the same tree exactly when
`Parse` takes no marked word.

* `sameToken_parseToken` — one call of `ParseToken` on the two texts.
* `outcome_fst_congr` — the result depends on the types of the tokens only.
* `words_outcome` — the words of a tree are those of the tokens that have been taken.
* `parse_withCrlf_iff` — when the line endings do not matter.
-/

namespace Webserver.LineEndings

open ByteString ConfigTree ConfigLexer ConfigParser ConfigGrammar ConfigCursor

/-- Every newline replaced by a carriage return and a newline. -/
def withCrlf (text : Bytes) : Bytes := text.flatMap fun c => if c = byte '\n' then bytes "\r\n" else [c]

theorem withCrlf_newline (text : Bytes) :
    withCrlf (byte '\n' :: text) = byte '\r' :: byte '\n' :: withCrlf text := rfl

theorem withCrlf_cons {c : Byte} (hc : c ≠ byte '\n') (text : Bytes) :
    withCrlf (c :: text) = c :: withCrlf text := by
  rw [withCrlf, List.flatMap_cons, if_neg hc]
  rfl

/-! ### One token -/

/-- A quoted word, as against a bare one. -/
def IsQuoted (w : Bytes) : Prop := w.head? = some (byte '"') ∨ w.head? = some (byte '\'')

instance : DecidablePred IsQuoted := fun w =>
  inferInstanceAs (Decidable (w.head? = some (byte '"') ∨ w.head? = some (byte '\'')))

/-- The word is bare, and a newline follows it directly. -/
def EndsLine (r : TokenType × Bytes × Bytes) : Prop :=
  r.1 = .normal ∧ ¬ IsQuoted r.2.1 ∧ r.2.2.head? = some (byte '\n')

instance : DecidablePred EndsLine := fun r =>
  inferInstanceAs (Decidable (r.1 = .normal ∧ ¬ IsQuoted r.2.1 ∧ r.2.2.head? = some (byte '\n')))

/-- **What `ParseToken` reads of the two texts.**  The second token may only differ from the first where a
bare word ends a line, where a quoted word has a newline, or at the end of the text. -/
inductive SameToken : TokenType × Bytes × Bytes → TokenType × Bytes × Bytes → Prop
  | plain {tokenType : TokenType} {value rest : Bytes} (h : ¬ EndsLine (tokenType, value, rest)) :
      SameToken (tokenType, value, rest) (tokenType, value, withCrlf rest)
  | comment {value rest : Bytes} :
      SameToken (.comment, value, rest) (.comment, value, byte '\n' :: withCrlf rest)
  | lineEnd {value rest : Bytes} (hbare : ¬ IsQuoted value) :
      SameToken (.normal, value, byte '\n' :: rest)
        (.normal, value ++ [byte '\r'], byte '\n' :: withCrlf rest)
  | newline {value value' rest : Bytes} (hquoted : IsQuoted value) (hmem : byte '\n' ∈ value) :
      SameToken (.normal, value, rest) (.normal, value', withCrlf rest)
  | stop {tokenType : TokenType} {value value' : Bytes} (h : tokenType = .eof ∨ tokenType = .error) :
      SameToken (tokenType, value, []) (tokenType, value', [])

theorem isQuoted_append {value : Bytes} (h : IsQuoted value) (more : Bytes) : IsQuoted (value ++ more) := by
  cases value with
  | nil => exact absurd h (by decide)
  | cons c value => exact h

/-- Inside quotes a newline is a byte of the word, and so is the carriage return in front of it. -/
theorem sameToken_quote {q : Byte} {state : TokenParserState} (hq : q ≠ byte '\n' ∧ q ≠ byte '\r')
    (hnil : ∀ v, parseTokenFrom state v [] = (.error, v, []))
    (hcons : ∀ v c text, parseTokenFrom state v (c :: text) =
      if c = q then (.normal, v ++ [c], text) else parseTokenFrom state (v ++ [c]) text)
    {text : Bytes} : ∀ {value value' : Bytes}, IsQuoted value → (value' = value ∨ byte '\n' ∈ value) →
      SameToken (parseTokenFrom state value text) (parseTokenFrom state value' (withCrlf text)) := by
  induction text with
  | nil =>
    intro value value' _ _
    show SameToken (parseTokenFrom state value []) (parseTokenFrom state value' [])
    rw [hnil, hnil]
    exact .stop (.inr rfl)
  | cons c text ih =>
    intro value value' hquoted hvalue
    by_cases hnewline : c = byte '\n'
    · subst hnewline
      rw [withCrlf_newline, hcons, hcons, hcons, if_neg hq.1.symm, if_neg hq.2.symm, if_neg hq.1.symm]
      apply ih (isQuoted_append hquoted _)
      exact .inr (List.mem_append_right _ (List.mem_singleton.mpr rfl))
    · rw [withCrlf_cons hnewline, hcons, hcons]
      by_cases hclose : c = q
      · rw [if_pos hclose, if_pos hclose]
        rcases hvalue with rfl | hmem
        · exact .plain fun h => h.2.1 (isQuoted_append hquoted _)
        · exact .newline (isQuoted_append hquoted _) (List.mem_append_left _ hmem)
      · rw [if_neg hclose, if_neg hclose]
        apply ih (isQuoted_append hquoted _)
        exact hvalue.imp (fun h => by rw [h]) (List.mem_append_left _)

/-- The carriage return ends a comment, and the newline behind it is left. -/
theorem sameToken_comment {text : Bytes} (hcr : byte '\r' ∉ text) : ∀ {value : Bytes},
    SameToken (parseTokenFrom .tokenTypeComment value text)
      (parseTokenFrom .tokenTypeComment value (withCrlf text)) := by
  induction text with
  | nil => exact .stop (.inl rfl)
  | cons c text ih =>
    intro value
    rw [List.mem_cons, not_or] at hcr
    by_cases hnewline : c = byte '\n'
    · subst hnewline
      exact .comment
    · have hgoes : ¬ (c = byte '\n' ∨ c = byte '\r') := not_or.mpr ⟨hnewline, Ne.symm hcr.1⟩
      rw [withCrlf_cons hnewline, parseTokenFrom, parseTokenFrom, if_neg hgoes, if_neg hgoes]
      exact ih hcr.2

/-- The carriage return becomes a byte of a bare word. -/
theorem sameToken_normal {text : Bytes} (hcr : byte '\r' ∉ text) : ∀ {value : Bytes}, value ≠ [] →
    ¬ IsQuoted value → SameToken (parseTokenFrom .tokenTypeNormal value text)
      (parseTokenFrom .tokenTypeNormal value (withCrlf text)) := by
  induction text with
  | nil => exact fun _ _ => .stop (.inl rfl)
  | cons c text ih =>
    intro value hne hbare
    rw [List.mem_cons, not_or] at hcr
    by_cases hnewline : c = byte '\n'
    · subst hnewline
      have hends : EndsWord (byte '\n') := by decide
      have hgoes : ¬ EndsWord (byte '\r') := by decide
      rw [withCrlf_newline, parseTokenFrom, parseTokenFrom, parseTokenFrom, if_pos hends, if_neg hgoes,
        if_pos hends]
      exact .lineEnd hbare
    · rw [withCrlf_cons hnewline, parseTokenFrom, parseTokenFrom]
      by_cases hends : EndsWord c
      · rw [if_pos hends, if_pos hends, ← withCrlf_cons hnewline]
        exact .plain fun h => hnewline (Option.some.inj h.2.2)
      · rw [if_neg hends, if_neg hends]
        apply ih hcr.2 (List.append_ne_nil_of_left_ne_nil hne _)
        intro hquoted
        apply hbare
        obtain ⟨b, value, rfl⟩ := List.exists_cons_of_ne_nil hne
        exact hquoted

/-- **One call of `ParseToken`.** -/
theorem sameToken_parseToken {text : Bytes} (hcr : byte '\r' ∉ text) :
    SameToken (parseToken text) (parseToken (withCrlf text)) := by
  induction text with
  | nil => exact .stop (.inl rfl)
  | cons c text ih =>
    rw [List.mem_cons, not_or] at hcr
    by_cases hnewline : c = byte '\n'
    · subst hnewline
      rw [withCrlf_newline, parseToken_blank (by decide), parseToken_blank (by decide),
        parseToken_blank (by decide)]
      exact ih hcr.2
    rw [withCrlf_cons hnewline]
    by_cases hblank : IsBlank c
    · rw [parseToken_blank hblank, parseToken_blank hblank]
      exact ih hcr.2
    have hpunctuation : ∀ {tokenType : TokenType}, tokenType ≠ .normal →
        SameToken (tokenType, [c], text) (tokenType, [c], withCrlf text) :=
      fun htype => .plain fun h => htype h.1
    simp only [parseToken, parseTokenFrom]
    split_ifs with h1 h2 h3 h4 h5 h6
    · exact hpunctuation (by decide)
    · exact hpunctuation (by decide)
    · exact sameToken_comment hcr.2
    · subst h4
      exact sameToken_quote (by decide) (fun _ => rfl) (fun _ _ _ => rfl) (by decide) (.inl rfl)
    · subst h5
      exact sameToken_quote (by decide) (fun _ => rfl) (fun _ _ _ => rfl) (by decide) (.inl rfl)
    · exact hpunctuation (by decide)
    · apply sameToken_normal hcr.2 (List.cons_ne_nil _ _)
      intro hquoted
      rcases hquoted with h | h
      · exact h4 (Option.some.inj h)
      · exact h5 (Option.some.inj h)

/-! ### The tokens of the two texts -/

/-- The token sequence of a text, with a mark on the bare words that end a line. -/
inductive Scans : Bytes → List (Token × Bool) → Ending → Prop
  | eof {input : Bytes} (h : (parseToken input).1 = .eof) : Scans input [] .eof
  | error {input : Bytes} (h : (parseToken input).1 = .error) : Scans input [] .error
  | comment {input : Bytes} {ps : List (Token × Bool)} {e : Ending} (h : (parseToken input).1 = .comment)
      (hrest : Scans (parseToken input).2.2 ps e) : Scans input ps e
  | token {input : Bytes} {t : Token} {ps : List (Token × Bool)} {e : Ending}
      (h : Token.ofType (parseToken input).2.1 (parseToken input).1 = some t)
      (hrest : Scans (parseToken input).2.2 ps e) :
      Scans input ((t, decide (EndsLine (parseToken input))) :: ps) e

/-- Without the marks it is the token sequence of the text. -/
theorem delivers_of_scans {text : Bytes} {ps : List (Token × Bool)} {e : Ending} (h : Scans text ps e) :
    Delivers text (ps.map Prod.fst) e := by
  induction h with
  | eof h => exact .eof h
  | error h => exact .error h
  | comment h _ ih => exact .comment h ih
  | token h _ ih => exact .token h ih

/-- Every text has such a sequence. -/
theorem scans_total (text : Bytes) : ∃ ps e, Scans text ps e := by
  obtain ⟨ts, e, hd⟩ := delivers_total text
  suffices h : ∃ ps, Scans text ps e from ⟨h.choose, e, h.choose_spec⟩
  induction hd with
  | eof h => exact ⟨[], .eof h⟩
  | error h => exact ⟨[], .error h⟩
  | comment h _ ih =>
    obtain ⟨ps, hps⟩ := ih
    exact ⟨ps, .comment h hps⟩
  | token h _ ih =>
    obtain ⟨ps, hps⟩ := ih
    exact ⟨_, .token h hps⟩

/-- It has no other one. -/
theorem Scans.unique {text : Bytes} {ps ps' : List (Token × Bool)} {e e' : Ending} (h : Scans text ps e)
    (h' : Scans text ps' e') : ps' = ps ∧ e' = e := by
  have htoken : ∀ {v : Bytes} {t : Token} {tokenType : TokenType}, Token.ofType v tokenType = some t →
      tokenType ≠ .eof ∧ tokenType ≠ .error ∧ tokenType ≠ .comment := by
    intro v t tokenType ht
    refine ⟨?_, ?_, ?_⟩ <;> intro h <;> rw [h] at ht <;> cases ht
  induction h generalizing ps' with
  | eof h =>
    cases h' with
    | eof => exact ⟨rfl, rfl⟩
    | error h' | comment h' => cases h.symm.trans h'
    | token h' => exact absurd h (htoken h').1
  | error h =>
    cases h' with
    | error => exact ⟨rfl, rfl⟩
    | eof h' | comment h' => cases h.symm.trans h'
    | token h' => exact absurd h (htoken h').2.1
  | comment h _ ih =>
    cases h' with
    | comment _ hrest => exact ih hrest
    | eof h' | error h' => cases h.symm.trans h'
    | token h' => exact absurd h (htoken h').2.2
  | token h _ ih =>
    cases h' with
    | eof h' => exact absurd h' (htoken h).1
    | error h' => exact absurd h' (htoken h).2.1
    | comment h' => exact absurd h' (htoken h).2.2
    | token h' hrest =>
      obtain ⟨rfl, rfl⟩ := ih hrest
      obtain rfl := Option.some.inj (h.symm.trans h')
      exact ⟨rfl, rfl⟩

/-- The token in the text with the other line endings. -/
def crlfToken : Token × Bool → Token
  | (.word w, true) => .word (w ++ [byte '\r'])
  | (t, _) => t

theorem crlfToken_false (t : Token) : crlfToken (t, false) = t := by
  cases t <;> rfl

theorem type_crlfToken (p : Token × Bool) : (crlfToken p).type = p.1.type := by
  obtain ⟨t, mark⟩ := p
  cases t with
  | word w => cases mark <;> rfl
  | semicolon | openBrace | closeBrace => rfl

/-- Only words are marked. -/
theorem word_of_mark {text : Bytes} {ps : List (Token × Bool)} {e : Ending} (h : Scans text ps e) :
    ∀ p ∈ ps, p.2 = true → ∃ w, p.1 = .word w := by
  induction h with
  | eof | error =>
    intro p hp
    cases hp
  | comment _ _ ih => exact ih
  | @token input t ps e ht _ ih =>
    intro p hp hmark
    rcases List.mem_cons.mp hp with rfl | hp
    · have hends : EndsLine (parseToken input) := of_decide_eq_true hmark
      rw [hends.1] at ht
      exact ⟨_, (Option.some.inj ht).symm⟩
    · exact ih p hp hmark

/-- The words among some tokens. -/
def wordsOf (ts : List Token) : List Bytes :=
  ts.filterMap fun t => match t with
    | .word w => some w
    | _ => none

theorem wordsOf_append (ts us : List Token) : wordsOf (ts ++ us) = wordsOf ts ++ wordsOf us :=
  List.filterMap_append

theorem wordsOf_cons (t : Token) (ts : List Token) : wordsOf (t :: ts) = wordsOf [t] ++ wordsOf ts :=
  wordsOf_append [t] ts

/-- No newline stands inside a quoted token. -/
def QuotesInLine (ts : List Token) : Prop := ∀ w ∈ wordsOf ts, IsQuoted w → byte '\n' ∉ w

instance : DecidablePred QuotesInLine := fun ts =>
  inferInstanceAs (Decidable (∀ w ∈ wordsOf ts, IsQuoted w → byte '\n' ∉ w))

theorem QuotesInLine.of_cons {t : Token} {ts : List Token} (h : QuotesInLine (t :: ts)) :
    (∀ w, t = .word w → IsQuoted w → byte '\n' ∉ w) ∧ QuotesInLine ts := by
  rw [QuotesInLine, wordsOf_cons, List.forall_mem_append] at h
  refine ⟨?_, h.2⟩
  intro w hw
  rw [hw] at h
  exact h.1 w List.mem_cons_self

theorem SameToken.type_eq {r r' : TokenType × Bytes × Bytes} (h : SameToken r r') : r'.1 = r.1 := by
  cases h <;> rfl

theorem delivers_newline_withCrlf {text : Bytes} {ts : List Token} {e : Ending}
    (h : Delivers (withCrlf text) ts e) : Delivers (byte '\n' :: withCrlf text) ts e :=
  h.of_parseToken_eq (parseToken_blank (by decide) _)

/-- **The tokens of the text with the other line endings.** -/
theorem delivers_withCrlf {text : Bytes} {ps : List (Token × Bool)} {e : Ending} (h : Scans text ps e)
    (hcr : byte '\r' ∉ text) (hquotes : QuotesInLine (ps.map Prod.fst)) :
    Delivers (withCrlf text) (ps.map crlfToken) e := by
  induction h with
  | @eof input h => exact .eof ((sameToken_parseToken hcr).type_eq.trans h)
  | @error input h => exact .error ((sameToken_parseToken hcr).type_eq.trans h)
  | @comment input ps e h _ ih =>
    have hsame := sameToken_parseToken hcr
    have hrest := ih (fun hmem => hcr ((parseTokenFrom_rest_suffix _ _ _).mem hmem)) hquotes
    refine .comment (hsame.type_eq.trans h) ?_
    generalize parseToken input = r at h hsame hrest
    generalize parseToken (withCrlf input) = r' at hsame
    cases hsame with
    | plain => exact hrest
    | comment => exact delivers_newline_withCrlf hrest
    | lineEnd | newline => cases h
    | stop hstop => rcases hstop with rfl | rfl <;> cases h
  | @token input t ps e ht _ ih =>
    have hsame := sameToken_parseToken hcr
    obtain ⟨hword, hquotes⟩ := hquotes.of_cons
    have hrest := ih (fun hmem => hcr ((parseTokenFrom_rest_suffix _ _ _).mem hmem)) hquotes
    rw [List.map_cons]
    suffices htoken : Token.ofType (parseToken (withCrlf input)).2.1 (parseToken (withCrlf input)).1 =
        some (crlfToken (t, decide (EndsLine (parseToken input)))) ∧
          Delivers (parseToken (withCrlf input)).2.2 (ps.map crlfToken) e from .token htoken.1 htoken.2
    generalize parseToken input = r at ht hsame hrest
    generalize parseToken (withCrlf input) = r' at hsame
    cases hsame with
    | plain hends =>
      rw [decide_eq_false hends, crlfToken_false]
      exact ⟨ht, hrest⟩
    | comment => cases ht
    | @lineEnd value rest hbare =>
      have hends : EndsLine (.normal, value, byte '\n' :: rest) := ⟨rfl, hbare, rfl⟩
      obtain rfl := Option.some.inj ht
      rw [decide_eq_true hends]
      refine ⟨rfl, hrest.of_parseToken_eq ?_⟩
      rw [withCrlf_newline]
      exact (parseToken_blank (by decide) _).symm
    | newline hquoted hmem =>
      obtain rfl := Option.some.inj ht
      exact absurd hmem (hword _ rfl hquoted)
    | stop hstop => rcases hstop with rfl | rfl <;> cases ht

/-! ### The result -/

/-- Two cursors that cannot be told apart by the types of the tokens to come. -/
structure Alike (z z' : Cursor) : Prop where
  words : z.words = [] ↔ z'.words = []
  done : z.done = [] ↔ z'.done = []
  frames : z.frames.length = z'.frames.length

theorem Alike.refl (z : Cursor) : Alike z z := ⟨Iff.rfl, Iff.rfl, rfl⟩

/-- **One step** of both. -/
theorem Alike.step {z z' : Cursor} (h : Alike z z') {t t' : Token} (ht : t.type = t'.type) :
    (z.step t = none ∧ z'.step t' = none) ∨
      ∃ y y', z.step t = some y ∧ z'.step t' = some y' ∧ Alike y y' := by
  obtain ⟨hwords, hdone, hframes⟩ := h
  cases t with
  | word w =>
    cases t' with
    | word w' => exact .inr ⟨_, _, rfl, rfl, ⟨by simp, hdone, hframes⟩⟩
    | semicolon | openBrace | closeBrace => cases ht
  | semicolon =>
    cases t' with
    | semicolon =>
      by_cases hw : z.words = []
      · exact .inl ⟨if_pos hw, if_pos (hwords.mp hw)⟩
      · refine .inr ⟨_, _, if_neg hw, if_neg (mt hwords.mpr hw), ⟨Iff.rfl, by simp, hframes⟩⟩
    | word | openBrace | closeBrace => cases ht
  | openBrace =>
    cases t' with
    | openBrace =>
      by_cases hw : z.words = []
      · exact .inl ⟨if_pos hw, if_pos (hwords.mp hw)⟩
      · refine .inr ⟨_, _, if_neg hw, if_neg (mt hwords.mpr hw), ⟨Iff.rfl, Iff.rfl, ?_⟩⟩
        rw [List.length_cons, List.length_cons, hframes]
    | word | semicolon | closeBrace => cases ht
  | closeBrace =>
    cases t' with
    | closeBrace =>
      obtain ⟨frames, done, words⟩ := z
      obtain ⟨frames', done', words'⟩ := z'
      by_cases hw : words = []
      · have hw' : words' = [] := hwords.mp hw
        cases frames with
        | nil =>
          obtain rfl := List.length_eq_zero_iff.mp (Eq.symm hframes)
          exact .inl ⟨by simp [Cursor.step], by simp [Cursor.step]⟩
        | cons f fs =>
          obtain ⟨f', fs', rfl⟩ := List.exists_cons_of_length_eq_add_one (Eq.symm hframes)
          refine .inr ⟨_, _, if_neg (not_not.mpr hw), if_neg (not_not.mpr hw'),
            ⟨Iff.rfl, by simp, Nat.succ.inj hframes⟩⟩
      · exact .inl ⟨if_pos hw, if_pos (mt hwords.mpr hw)⟩
    | word | semicolon | openBrace => cases ht

theorem Alike.accepting_iff {z z' : Cursor} (h : Alike z z') : z.Accepting ↔ z'.Accepting := by
  have hframes : z.frames = [] ↔ z'.frames = [] := by
    rw [← List.length_eq_zero_iff, h.frames, List.length_eq_zero_iff]
  exact and_congr hframes (and_congr h.words (not_congr h.done))

/-- **The result depends on the types of the tokens only.** -/
theorem outcome_fst_congr {κ : Type*} {f g : κ → Token} (hfg : ∀ p, (g p).type = (f p).type) (ps : List κ)
    (e : Ending) : ∀ {z z' : Cursor}, Alike z z' →
      (z'.outcome (ps.map g) e).1 = (z.outcome (ps.map f) e).1 := by
  induction ps with
  | nil =>
    intro z z' h
    cases e with
    | error => rfl
    | eof => exact decide_eq_decide.mpr h.accepting_iff.symm
  | cons p ps ih =>
    intro z z' h
    rw [List.map_cons, List.map_cons]
    rcases h.step (hfg p).symm with ⟨hstep, hstep'⟩ | ⟨y, y', hstep, hstep', halike⟩
    · rw [Cursor.outcome_cons_of_none hstep, Cursor.outcome_cons_of_none hstep']
    · rw [Cursor.outcome_cons_of_some hstep, Cursor.outcome_cons_of_some hstep']
      exact ih halike

/-! ### The tree -/

/-- The number of tokens that are taken before a bad transition. -/
def taken (z : Cursor) : List Token → ℕ
  | [] => 0
  | t :: ts =>
    match z.step t with
    | none => 0
    | some z' => taken z' ts + 1

theorem taken_cons_of_none {z : Cursor} {t : Token} (h : z.step t = none) (ts : List Token) :
    taken z (t :: ts) = 0 := by
  rw [taken, h]

theorem taken_cons_of_some {z z' : Cursor} {t : Token} (h : z.step t = some z') (ts : List Token) :
    taken z (t :: ts) = taken z' ts + 1 := by
  rw [taken, h]

theorem taken_congr {κ : Type*} {f g : κ → Token} (hfg : ∀ p, (g p).type = (f p).type) (ps : List κ) :
    ∀ {z z' : Cursor}, Alike z z' → taken z' (ps.map g) = taken z (ps.map f) := by
  induction ps with
  | nil => exact fun _ => rfl
  | cons p ps ih =>
    intro z z' h
    rw [List.map_cons, List.map_cons]
    rcases h.step (hfg p).symm with ⟨hstep, hstep'⟩ | ⟨y, y', hstep, hstep', halike⟩
    · rw [taken_cons_of_none hstep, taken_cons_of_none hstep']
    · rw [taken_cons_of_some hstep, taken_cons_of_some hstep', ih halike]

/-- The words of a tree that is being read. -/
theorem wordsOf_plug (fs : List Frame) (ss : List NginxConfigStatement) :
    wordsOf (spell (plug fs ss).statements) = wordsOf (Cursor.spellFrames fs) ++ wordsOf (spell ss) := by
  induction fs generalizing ss with
  | nil => rfl
  | cons f fs ih =>
    obtain ⟨d, w⟩ := f
    rw [plug, ih, spell_append]
    simp [Cursor.spellFrames, spell, wordsOf]

theorem wordsOf_config (z : Cursor) : wordsOf (spell z.config.statements) = wordsOf z.tokens := by
  have hopen : wordsOf (spell (openStatement z.words)) = wordsOf (z.words.map .word) := by
    rw [openStatement]
    split_ifs with hw
    · rw [hw, spell]
      rfl
    · simp [spell, wordsOf]
  rw [Cursor.config, wordsOf_plug, spell_append, wordsOf_append, hopen, Cursor.tokens, wordsOf_append,
    wordsOf_append, List.append_assoc]

/-- **The words of the tree** that `Parse` leaves are those of the tokens that it has taken. -/
theorem words_outcome (e : Ending) (ts : List Token) : ∀ {z : Cursor}, z.Ok →
    wordsOf (spell (z.outcome ts e).2.statements) = wordsOf z.tokens ++ wordsOf (ts.take (taken z ts)) := by
  induction ts with
  | nil =>
    intro z _
    have hconfig : (z.outcome [] e).2 = z.config := by cases e <;> rfl
    rw [hconfig, wordsOf_config]
    exact (List.append_nil _).symm
  | cons t ts ih =>
    intro z hz
    cases hstep : z.step t with
    | none =>
      rw [Cursor.outcome_cons_of_none hstep, taken_cons_of_none hstep, wordsOf_config]
      exact (List.append_nil _).symm
    | some z' =>
      obtain ⟨hok, htokens⟩ := Cursor.step_spec hz hstep
      rw [Cursor.outcome_cons_of_some hstep, taken_cons_of_some hstep, ih hok, htokens, List.take_succ_cons,
        wordsOf_append, List.append_assoc, ← wordsOf_append]
      rfl

/-- A marked word among some tokens shows in their words. -/
theorem wordsOf_crlfToken_iff {ps : List (Token × Bool)} (hmark : ∀ p ∈ ps, p.2 = true → ∃ w, p.1 = .word w) :
    wordsOf (ps.map crlfToken) = wordsOf (ps.map Prod.fst) ↔ ∀ p ∈ ps, p.2 = false := by
  induction ps with
  | nil => exact iff_of_true rfl (fun p hp => by cases hp)
  | cons p ps ih =>
    obtain ⟨hp, hps⟩ := List.forall_mem_cons.mp hmark
    rw [List.forall_mem_cons, ← ih hps]
    obtain ⟨t, mark⟩ := p
    cases mark with
    | false =>
      rw [List.map_cons, List.map_cons, crlfToken_false, and_iff_right rfl, wordsOf_cons,
        wordsOf_cons t (ps.map Prod.fst), List.append_cancel_left_eq]
    | true =>
      obtain ⟨w, rfl⟩ := hp rfl
      refine iff_of_false ?_ (fun h => by cases h.1)
      intro h
      have hlen := congrArg List.length (List.cons.inj h).1
      rw [List.length_append, List.length_singleton] at hlen
      omega

/-- Nothing changes as long as no marked token is taken. -/
theorem outcome_eq_of_unmarked (e : Ending) (ps : List (Token × Bool)) : ∀ {z : Cursor},
    (∀ p ∈ ps.take (taken z (ps.map Prod.fst)), p.2 = false) →
      z.outcome (ps.map crlfToken) e = z.outcome (ps.map Prod.fst) e := by
  induction ps with
  | nil => exact fun _ => rfl
  | cons p ps ih =>
    intro z h
    rw [List.map_cons, List.map_cons]
    rcases (Alike.refl z).step (type_crlfToken p).symm with ⟨hstep, hstep'⟩ | ⟨y, y', hstep, -, -⟩
    · rw [Cursor.outcome_cons_of_none hstep, Cursor.outcome_cons_of_none hstep']
    · rw [List.map_cons, taken_cons_of_some hstep, List.take_succ_cons, List.forall_mem_cons] at h
      obtain ⟨t, mark⟩ := p
      obtain rfl : mark = false := h.1
      rw [crlfToken_false, Cursor.outcome_cons_of_some hstep, Cursor.outcome_cons_of_some hstep, ih h.2]

/-- For a text with a given token sequence. -/
theorem parse_withCrlf_of_scans {text : Bytes} {ps : List (Token × Bool)} {e : Ending} (h : Scans text ps e)
    (hcr : byte '\r' ∉ text) (hquotes : QuotesInLine (ps.map Prod.fst)) :
    (∃ b c c', parse text = some (b, c) ∧ parse (withCrlf text) = some (b, c')) ∧
      (parse (withCrlf text) = parse text ↔
        ∀ p ∈ ps.take (taken Cursor.start (ps.map Prod.fst)), p.2 = false) := by
  rw [parse_eq_outcome (delivers_of_scans h), parse_eq_outcome (delivers_withCrlf h hcr hquotes)]
  constructor
  · refine ⟨_, _, (Cursor.start.outcome (ps.map crlfToken) e).2, rfl, ?_⟩
    rw [← outcome_fst_congr type_crlfToken ps e (Alike.refl Cursor.start)]
  · rw [Option.some.injEq]
    refine ⟨?_, outcome_eq_of_unmarked e ps⟩
    intro heq
    have hwords := words_outcome e (ps.map crlfToken) Cursor.ok_start
    rw [heq, words_outcome e (ps.map Prod.fst) Cursor.ok_start, taken_congr type_crlfToken ps (Alike.refl _),
      List.append_cancel_left_eq, ← List.map_take, ← List.map_take] at hwords
    refine (wordsOf_crlfToken_iff ?_).mp hwords.symm
    intro p hp
    exact word_of_mark h p (List.mem_of_mem_take hp)

/-- **When the line endings do not matter.**  Every text without a carriage return has one sequence of tokens with
marks on the bare words that a newline follows directly.  If there is no newline inside a quoted token, `Parse` returns
the same result on the text with the other line endings; and the same result with the same tree exactly when it takes
no marked word. -/
theorem parse_withCrlf_iff {text : Bytes} (hcr : byte '\r' ∉ text) :
    ∃ ps e, (∀ ps' e', Scans text ps' e' ↔ ps' = ps ∧ e' = e) ∧ (QuotesInLine (ps.map Prod.fst) →
      (∃ b c c', parse text = some (b, c) ∧ parse (withCrlf text) = some (b, c')) ∧
        (parse (withCrlf text) = parse text ↔
          ∀ p ∈ ps.take (taken Cursor.start (ps.map Prod.fst)), p.2 = false)) := by
  obtain ⟨ps, e, h⟩ := scans_total text
  refine ⟨ps, e, ?_, parse_withCrlf_of_scans h hcr⟩
  intro ps' e'
  refine ⟨h.unique, ?_⟩
  intro heq
  rwa [heq.1, heq.2]

/-- A line that ends behind a semicolon. -/
theorem parse_withCrlf_iff_semicolon :
    (∃ b c c', parse (bytes "a b;\n") = some (b, c) ∧ parse (withCrlf (bytes "a b;\n")) = some (b, c')) ∧
      (parse (withCrlf (bytes "a b;\n")) = parse (bytes "a b;\n") ↔
        ∀ p ∈ [(Token.word (bytes "a"), false), (.word (bytes "b"), false), (.semicolon, false)].take
          (taken Cursor.start [.word (bytes "a"), .word (bytes "b"), .semicolon]), p.2 = false) := by
  have h : Scans (bytes "a b;\n") [(.word (bytes "a"), false), (.word (bytes "b"), false), (.semicolon, false)]
      .eof := .token (by decide) (.token (by decide) (.token (by decide) (.eof (by decide))))
  obtain ⟨ps, e, hscans, hiff⟩ := @parse_withCrlf_iff (bytes "a b;\n") (by decide)
  obtain ⟨rfl, -⟩ := (hscans _ _).mp h
  exact hiff (by decide)

/-- A bare word in front of the end of a line. -/
theorem parse_withCrlf_ne :
    ∃ ps, Scans (bytes "a\nb;") ps .eof ∧ byte '\r' ∉ bytes "a\nb;" ∧ QuotesInLine (ps.map Prod.fst) ∧
      parse (bytes "a\nb;") = some (true, ⟨[⟨[bytes "a", bytes "b"], none⟩]⟩) ∧
        parse (withCrlf (bytes "a\nb;")) = some (true, ⟨[⟨[bytes "a\r", bytes "b"], none⟩]⟩) ∧
          parse (withCrlf (bytes "a\nb;")) ≠ parse (bytes "a\nb;") := by
  have h : parse (bytes "a\nb;") = some (true, ⟨[⟨[bytes "a", bytes "b"], none⟩]⟩) := rfl
  have h' : parse (withCrlf (bytes "a\nb;")) = some (true, ⟨[⟨[bytes "a\r", bytes "b"], none⟩]⟩) := rfl
  refine ⟨[(.word (bytes "a"), true), (.word (bytes "b"), false), (.semicolon, false)],
    .token (by decide) (.token (by decide) (.token (by decide) (.eof (by decide)))), by decide, by decide, h, h',
    ?_⟩
  rw [h, h']
  simp [bytes]

end Webserver.LineEndings
