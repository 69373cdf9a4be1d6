import Mathlib.Data.List.Induction
import Webserver.StaticFile.LuaScanner

/-!
# What a Lua template means

A template is a list of texts with tags between them.  The script for it puts every text into a `put`
call, with its square brackets escaped, and copies the code of every tag; `luaScript_template` is the
statement that the scanner builds this script.

* Text: the scanner has emitted everything up to a part of an opener it is still waiting on, `Pending`.
* Tags: the copies of the states inside a tag are one automaton, `insideCase`; which of its modes the
  scanner is in is a function of the code so far, `ModeAfter`.
-/

namespace Webserver.StaticFile

open ByteString

/-! ### Templates -/

/-- A tag that runs a chunk, or one that outputs an expression. -/
inductive TagKind where
  | chunk
  | expression
  deriving DecidableEq

/-- `<?lua ... ?>`, or the alternative form `<% ... %>`. -/
inductive TagForm where
  | question
  | percent
  deriving DecidableEq

/-- What follows the `<` of an opener, up to its white space. -/
def openerTail : TagKind → TagForm → Bytes
  | .chunk, .question => bytes "?lua"
  | .expression, .question => bytes "?lua="
  | .chunk, .percent => bytes "%"
  | .expression, .percent => bytes "%="

/-- The byte in front of the `>` that closes a tag. -/
def closeMark : TagForm → Byte
  | .question => byte '?'
  | .percent => byte '%'

/-- Whether a position in code is inside of quotes, and behind a backslash there. -/
inductive QuoteState where
  | outside
  | single
  | singleEscape
  | double
  | doubleEscape
  deriving DecidableEq

def quoteStep : QuoteState → Byte → QuoteState
  | .outside, c => if c = byte '\'' then .single else if c = byte '"' then .double else .outside
  | .single, c => if c = byte '\'' then .outside else if c = byte '\\' then .singleEscape else .single
  | .singleEscape, _ => .single
  | .double, c => if c = byte '"' then .outside else if c = byte '\\' then .doubleEscape else .double
  | .doubleEscape, _ => .double

/-- Where a string of code ends. -/
def quotes (code : Bytes) : QuoteState := code.foldl quoteStep .outside

/-- No white space followed by the end of a tag, of either form, outside of quotes. -/
def NoClose (code : Bytes) : Prop :=
  ∀ a b w form, code = a ++ [w, closeMark form, byte '>'] ++ b → isTagSpace w = true →
    quotes a ≠ .outside

/-- **A tag** with its code between two bytes of white space. -/
structure Tag where
  kind : TagKind
  form : TagForm
  opening : Byte
  code : Bytes
  closing : Byte
  opening_space : isTagSpace opening = true
  closing_space : isTagSpace closing = true
  quotes_closed : quotes code = .outside
  noClose : NoClose code

def Tag.render (tag : Tag) : Bytes :=
  byte '<' :: openerTail tag.kind tag.form ++ [tag.opening] ++ tag.code ++
    [tag.closing, closeMark tag.form, byte '>']

/-- The openers a text must not contain. -/
def completeOpeners : List Bytes :=
  [bytes "<?lua ", bytes "<?lua\n", bytes "<?lua= ", bytes "<?lua=\n",
    bytes "<% ", bytes "<%\n", bytes "<%= ", bytes "<%=\n"]

/-- No complete opener, and no `<?lua=`. -/
def PlainText (text : Bytes) : Prop := ∀ o ∈ bytes "<?lua=" :: completeOpeners, ¬ o <:+: text

instance (text : Bytes) : Decidable (PlainText text) := inferInstanceAs (Decidable (∀ o ∈ _, _))

/-- No part of an opener at the end. -/
def EndsClean (text : Bytes) : Prop :=
  ∀ o ∈ completeOpeners, ∀ p, p <+: o → p ≠ o → p ≠ [] → ¬ p <:+ text

/-- **A template.**  The text after each tag stands with it. -/
structure Template where
  first : Bytes
  rest : List (Tag × Bytes)
  first_plain : PlainText first
  rest_plain : ∀ p ∈ rest, PlainText p.2
  last_clean : EndsClean ((rest.map Prod.snd).getLastD first)

def Template.render (t : Template) : Bytes :=
  t.first ++ t.rest.flatMap fun p => p.1.render ++ p.2

/-- A text ends cleanly when its last byte stands in no opener but at its end. -/
theorem endsClean_snoc {c : Byte} (h : ∀ o ∈ completeOpeners, c ∉ o.dropLast) (text : Bytes) :
    EndsClean (text ++ [c]) := by
  intro o ho p hfront hpo hne hsuffix
  obtain ⟨rest, hrest⟩ := hfront
  have hrest' : rest ≠ [] := by
    rintro rfl
    exact hpo (by rw [← hrest, List.append_nil])
  have hlast : p.getLast? = some c := by
    obtain ⟨front, hfront⟩ := hsuffix
    rw [← List.getLast?_append_of_ne_nil front hne, hfront, List.getLast?_concat]
  refine h o ho ?_
  rw [← hrest, List.dropLast_append_of_ne_nil hrest']
  exact List.mem_append_left _ (List.mem_of_getLast? hlast)

theorem noClose_of_length_lt {code : Bytes} (h : code.length < 3) : NoClose code := by
  intro a b w form heq _ _
  have hlen := congrArg List.length heq
  simp only [List.length_append, List.length_cons, List.length_nil] at hlen
  omega

/-! ### Scripts -/

/-- A backslash before each square bracket. -/
def escape (text : Bytes) : Bytes :=
  text.flatMap fun c => if c = byte '[' ∨ c = byte ']' then [byte '\\', c] else [c]

/-- What a tag says, whichever way it is written. -/
structure TagContents where
  kind : TagKind
  opening : Byte
  code : Bytes
  closing : Byte

def Tag.contents (tag : Tag) : TagContents := ⟨tag.kind, tag.opening, tag.code, tag.closing⟩

/-- The script of a tag. -/
def TagContents.script (tag : TagContents) : Bytes :=
  match tag.kind with
  | .chunk => bytes "]])" ++ [tag.opening] ++ tag.code ++ [tag.closing] ++ bytes "put([["
  | .expression =>
    bytes "]])" ++ [tag.opening] ++ bytes "put(" ++ tag.code ++ bytes ")" ++ [tag.closing] ++
      bytes "put([["

/-- The texts and the contents of the tags of a template. -/
def Template.contents (t : Template) : Bytes × List (TagContents × Bytes) :=
  (t.first, t.rest.map fun p => (p.1.contents, p.2))

/-- **The script of a template.** -/
def templateScript (contents : Bytes × List (TagContents × Bytes)) : Bytes :=
  bytes "put([[" ++ escape contents.1 ++ (contents.2.flatMap fun p => p.1.script ++ escape p.2) ++
    bytes "]])"

@[simp] theorem escape_nil : escape [] = [] := rfl

theorem escape_append (s t : Bytes) : escape (s ++ t) = escape s ++ escape t := List.flatMap_append

/-! ### Text -/

/-- **The part of an opener the scanner waits on** in a state outside of tags.  The state behind `<?lua=`
is left out: no text gets there. -/
inductive Pending : LuaState → Bytes → Prop
  | ignoreNewline : Pending .startIgnoreImmediateNewline []
  | start : Pending .start []
  | questionMark : Pending .expectingQuestionMark (bytes "<")
  | l : Pending .expectingL (bytes "<?")
  | u : Pending .expectingU (bytes "<?l")
  | a : Pending .expectingA (bytes "<?lu")
  | space1 : Pending .expectingSpace1 (bytes "<?lua")
  | space12 : Pending .expectingSpace12 (bytes "<%")
  | space22 : Pending .expectingSpace22 (bytes "<%=")

theorem Pending.escape_eq {s : LuaState} {p : Bytes} (h : Pending s p) : escape p = p := by
  cases h <;> rfl

/-- A part of an opener that is not empty is what `EndsClean` excludes. -/
theorem Pending.exists_opener {s : LuaState} {p : Bytes} (h : Pending s p) (hne : p ≠ []) :
    ∃ o ∈ completeOpeners, p <+: o ∧ p ≠ o := by
  cases h with
  | ignoreNewline => exact absurd rfl hne
  | start => exact absurd rfl hne
  | questionMark => exact ⟨bytes "<?lua ", by decide, by decide, by decide⟩
  | l => exact ⟨bytes "<?lua ", by decide, by decide, by decide⟩
  | u => exact ⟨bytes "<?lua ", by decide, by decide, by decide⟩
  | a => exact ⟨bytes "<?lua ", by decide, by decide, by decide⟩
  | space1 => exact ⟨bytes "<?lua ", by decide, by decide, by decide⟩
  | space12 => exact ⟨bytes "<% ", by decide, by decide, by decide⟩
  | space22 => exact ⟨bytes "<%= ", by decide, by decide, by decide⟩

theorem caseStart_of_ne {c : Byte} (hc : c ≠ byte '<') (lua : Bytes) :
    caseStart c lua = some (.start, lua ++ escape [c], true) := by
  rw [caseStart, if_neg hc]
  by_cases hbracket : c = byte '[' ∨ c = byte ']'
  · rw [if_pos hbracket]
    simp only [escape, List.flatMap_cons, List.flatMap_nil, if_pos hbracket]
    simp
  · rw [if_neg hbracket]
    simp only [escape, List.flatMap_cons, List.flatMap_nil, if_neg hbracket]
    simp

/-- An opener that is broken off by a `<`. -/
theorem onChar_notAnOpener_lt {s : LuaState} {p lua : Bytes}
    (h : luaCase s (byte '<') lua = notAnOpener p lua) :
    onChar s lua (byte '<') = some (.expectingQuestionMark, lua ++ p) :=
  onChar_twice h rfl

/-- An opener that is broken off by another character. -/
theorem onChar_notAnOpener {s : LuaState} {p lua : Bytes} {c : Byte} (hc : c ≠ byte '<')
    (h : luaCase s c lua = notAnOpener p lua) :
    onChar s lua c = some (.start, lua ++ p ++ escape [c]) :=
  onChar_twice h (caseStart_of_ne hc _)

/-- A `<` starts a new opener in every state. -/
theorem Pending.onChar_lt {s : LuaState} {p : Bytes} (h : Pending s p) (lua : Bytes) :
    onChar s lua (byte '<') = some (.expectingQuestionMark, lua ++ p) := by
  cases h with
  | ignoreNewline => rw [List.append_nil]; exact onChar_once rfl
  | start => rw [List.append_nil]; exact onChar_once rfl
  | questionMark => exact onChar_notAnOpener_lt rfl
  | l => exact onChar_notAnOpener_lt rfl
  | u => exact onChar_notAnOpener_lt rfl
  | a => exact onChar_notAnOpener_lt rfl
  | space1 => exact onChar_notAnOpener_lt rfl
  | space12 => exact onChar_notAnOpener_lt rfl
  | space22 => exact onChar_notAnOpener_lt rfl

/-- What one character of a text does: the opener goes on, or everything so far is emitted. -/
def TextStep (s : LuaState) (p lua : Bytes) (c : Byte) : Prop :=
  (∃ s', onChar s lua c = some (s', lua) ∧ Pending s' (p ++ [c])) ∨
    onChar s lua c = some (.start, lua ++ p ++ escape [c])

theorem textStep_letter {s following : LuaState} {p lua : Bytes} {c letter : Byte} (hc : c ≠ byte '<')
    (hcase : luaCase s c lua = caseLetter letter following p c lua)
    (hnext : Pending following (p ++ [letter])) : TextStep s p lua c := by
  by_cases hl : c = letter
  · subst hl
    rw [caseLetter, if_pos rfl] at hcase
    exact .inl ⟨following, onChar_once hcase, hnext⟩
  · rw [caseLetter, if_neg hl] at hcase
    exact .inr (onChar_notAnOpener hc hcase)

theorem isTagSpace_iff {c : Byte} : isTagSpace c = true ↔ c = byte ' ' ∨ c = byte '\n' := by
  rw [isTagSpace, decide_eq_true_eq]

/-- **One character of a text** that completes no opener. -/
theorem Pending.textStep {s : LuaState} {p : Bytes} (h : Pending s p) {c : Byte} (hc : c ≠ byte '<')
    (hplain : p ++ [c] ∉ bytes "<?lua=" :: completeOpeners) (lua : Bytes) : TextStep s p lua c := by
  have hspace : ∀ q : Bytes, q ++ [byte ' '] ∈ completeOpeners → q ++ [byte '\n'] ∈ completeOpeners →
      p = q → isTagSpace c = false := by
    intro q hsp hnl hpq
    subst hpq
    rw [← Bool.not_eq_true, isTagSpace_iff]
    intro hcases
    rcases hcases with rfl | rfl
    · exact hplain (List.mem_cons_of_mem _ hsp)
    · exact hplain (List.mem_cons_of_mem _ hnl)
  cases h with
  | ignoreNewline =>
    right
    rw [List.append_nil]
    by_cases hnl : c = byte '\n'
    · subst hnl
      exact onChar_once rfl
    · refine onChar_once ?_
      rw [luaCase, if_neg hnl, caseStart_of_ne hc]
  | start =>
    right
    rw [List.append_nil]
    refine onChar_once ?_
    rw [luaCase, caseStart_of_ne hc]
  | questionMark =>
    by_cases hq : c = byte '?'
    · subst hq
      exact .inl ⟨.expectingL, onChar_once rfl, .l⟩
    · by_cases hp : c = byte '%'
      · subst hp
        exact .inl ⟨.expectingSpace12, onChar_once rfl, .space12⟩
      · refine .inr (onChar_notAnOpener hc ?_)
        rw [luaCase, if_neg hq, if_neg hp]
  | l => exact textStep_letter hc rfl .u
  | u => exact textStep_letter hc rfl .a
  | a => exact textStep_letter hc rfl .space1
  | space1 =>
    have hsp := hspace (bytes "<?lua") (by decide) (by decide) rfl
    have heq : c ≠ byte '=' := by
      rintro rfl
      exact hplain List.mem_cons_self
    refine .inr (onChar_notAnOpener hc ?_)
    rw [luaCase, caseSpace1, hsp, if_neg heq]
    rfl
  | space12 =>
    have hsp := hspace (bytes "<%") (by decide) (by decide) rfl
    by_cases heq : c = byte '='
    · subst heq
      exact .inl ⟨.expectingSpace22, onChar_once rfl, .space22⟩
    · refine .inr (onChar_notAnOpener hc ?_)
      rw [luaCase, caseSpace1, hsp, if_neg heq]
      rfl
  | space22 =>
    have hsp := hspace (bytes "<%=") (by decide) (by decide) rfl
    refine .inr (onChar_notAnOpener hc ?_)
    rw [luaCase, caseSpace2, hsp]
    rfl

theorem PlainText.of_append {s t : Bytes} (h : PlainText (s ++ t)) : PlainText s :=
  fun o ho hpiece => h o ho (hpiece.trans (List.prefix_append s t).isInfix)

/-- **A text**, from a state outside of tags: all of it is emitted but a part of an opener at its end.
Induction on the text from the right, as the openers end at the character that is read. -/
theorem scan_text {s₀ : LuaState} (h₀ : Pending s₀ []) (lua : Bytes) (text : Bytes)
    (hplain : PlainText text) :
    ∃ s t p, scan s₀ lua text = some (s, lua ++ escape t) ∧ text = t ++ p ∧ Pending s p := by
  induction text using List.reverseRecOn with
  | nil => exact ⟨s₀, [], [], by simp, rfl, h₀⟩
  | append_singleton text c ih =>
    obtain ⟨s, t, p, hscan, rfl, hp⟩ := ih hplain.of_append
    have hnext : scan s₀ lua ((t ++ p) ++ [c]) = onChar s (lua ++ escape t) c := by
      rw [scan_append, hscan]
      exact scan_singleton _ _ _
    rw [hnext]
    by_cases hc : c = byte '<'
    · subst hc
      refine ⟨.expectingQuestionMark, t ++ p, bytes "<", ?_, rfl, .questionMark⟩
      rw [hp.onChar_lt, escape_append, hp.escape_eq, List.append_assoc]
    · have hnot : p ++ [c] ∉ bytes "<?lua=" :: completeOpeners := by
        intro hmem
        refine hplain _ hmem ⟨t, [], ?_⟩
        simp
      rcases hp.textStep hc hnot (lua ++ escape t) with ⟨s', hs', hp'⟩ | hstart
      · exact ⟨s', t, p ++ [c], hs', by simp, hp'⟩
      · refine ⟨.start, t ++ p ++ [c], [], ?_, by simp, .start⟩
        rw [hstart, escape_append, escape_append, hp.escape_eq]
        simp

/-- A text in front of a tag. -/
theorem scan_text_lt {s₀ : LuaState} (h₀ : Pending s₀ []) (lua : Bytes) {text : Bytes}
    (hplain : PlainText text) :
    scan s₀ lua (text ++ [byte '<']) = some (.expectingQuestionMark, lua ++ escape text) := by
  obtain ⟨s, t, p, hscan, rfl, hp⟩ := scan_text h₀ lua text hplain
  rw [scan_append, hscan]
  show scan s (lua ++ escape t) [byte '<'] = _
  rw [scan_singleton, hp.onChar_lt, escape_append, hp.escape_eq, List.append_assoc]

/-- The last text. -/
theorem scan_text_last {s₀ : LuaState} (h₀ : Pending s₀ []) (lua : Bytes) {text : Bytes}
    (hplain : PlainText text) (hclean : EndsClean text) :
    ∃ s, scan s₀ lua text = some (s, lua ++ escape text) := by
  obtain ⟨s, t, p, hscan, rfl, hp⟩ := scan_text h₀ lua text hplain
  rcases eq_or_ne p [] with rfl | hne
  · exact ⟨s, by rw [List.append_nil] at *; exact hscan⟩
  · obtain ⟨o, ho, hfront, hpo⟩ := hp.exists_opener hne
    exact absurd (List.suffix_append t p) (hclean o ho p hfront hpo hne)

/-! ### Inside a tag -/

/-- What a state inside a tag stands for, in each of the four copies. -/
inductive Mode where
  | code
  | whitespace
  | single
  | singleEscape
  | double
  | doubleEscape
  | questionMark
  deriving DecidableEq

def inside : TagKind → TagForm → Mode → LuaState
  | .chunk, .question, .code => .chunk
  | .chunk, .question, .whitespace => .chunkWhitespace
  | .chunk, .question, .single => .chunkSingleQuote
  | .chunk, .question, .singleEscape => .chunkSingleQuoteEscape
  | .chunk, .question, .double => .chunkDoubleQuote
  | .chunk, .question, .doubleEscape => .chunkDoubleQuoteEscape
  | .chunk, .question, .questionMark => .chunkQuestionMark
  | .chunk, .percent, .code => .chunk2
  | .chunk, .percent, .whitespace => .chunkWhitespace2
  | .chunk, .percent, .single => .chunkSingleQuote2
  | .chunk, .percent, .singleEscape => .chunkSingleQuoteEscape2
  | .chunk, .percent, .double => .chunkDoubleQuote2
  | .chunk, .percent, .doubleEscape => .chunkDoubleQuoteEscape2
  | .chunk, .percent, .questionMark => .chunkQuestionMark2
  | .expression, .question, .code => .expression
  | .expression, .question, .whitespace => .expressionWhitespace
  | .expression, .question, .single => .expressionSingleQuote
  | .expression, .question, .singleEscape => .expressionSingleQuoteEscape
  | .expression, .question, .double => .expressionDoubleQuote
  | .expression, .question, .doubleEscape => .expressionDoubleQuoteEscape
  | .expression, .question, .questionMark => .expressionQuestionMark
  | .expression, .percent, .code => .expression2
  | .expression, .percent, .whitespace => .expressionWhitespace2
  | .expression, .percent, .single => .expressionSingleQuote2
  | .expression, .percent, .singleEscape => .expressionSingleQuoteEscape2
  | .expression, .percent, .double => .expressionDoubleQuote2
  | .expression, .percent, .doubleEscape => .expressionDoubleQuoteEscape2
  | .expression, .percent, .questionMark => .expressionQuestionMark2

/-- The end of a tag: an expression gets its closing parenthesis before the last white space. -/
def endTag : TagKind → Bytes → Option Bytes
  | .chunk, lua => some lua
  | .expression, lua => insertBeforeLast lua (byte ')')

/-- The switch inside a tag. -/
def insideCase (kind : TagKind) (form : TagForm) (m : Mode) (c : Byte) (lua : Bytes) : CaseResult :=
  match m with
  | .code => caseCode (inside kind form .code) (inside kind form .single) (inside kind form .double)
      (inside kind form .whitespace) c lua
  | .whitespace => caseWhitespace (closeMark form) (inside kind form .whitespace)
      (inside kind form .code) (inside kind form .questionMark) c lua
  | .single => caseQuote (byte '\'') (inside kind form .single) (inside kind form .code)
      (inside kind form .singleEscape) c lua
  | .singleEscape => caseEscape (inside kind form .single) c lua
  | .double => caseQuote (byte '"') (inside kind form .double) (inside kind form .code)
      (inside kind form .doubleEscape) c lua
  | .doubleEscape => caseEscape (inside kind form .double) c lua
  | .questionMark =>
    if c = byte '>' then
      (endTag kind lua).bind fun lua => some (.startIgnoreImmediateNewline, lua ++ bytes "put([[", true)
    else some (inside kind form .code, lua ++ [closeMark form], false)

/-- **The four copies of the states inside a tag agree.** -/
theorem luaCase_inside (kind : TagKind) (form : TagForm) (m : Mode) (c : Byte) (lua : Bytes) :
    luaCase (inside kind form m) c lua = insideCase kind form m c lua := by
  cases kind <;> cases form <;> cases m <;> rfl

def codeStep (c : Byte) : Mode :=
  if c = byte '\'' then .single
  else if c = byte '"' then .double
  else if isTagSpace c then .whitespace
  else .code

/-- The mode after one more character, where it does not close the tag. -/
def modeStep (form : TagForm) : Mode → Byte → Mode
  | .code, c => codeStep c
  | .whitespace, c =>
    if c = closeMark form then .questionMark else if isTagSpace c then .whitespace else codeStep c
  | .single, c => if c = byte '\'' then .code else if c = byte '\\' then .singleEscape else .single
  | .singleEscape, _ => .single
  | .double, c => if c = byte '"' then .code else if c = byte '\\' then .doubleEscape else .double
  | .doubleEscape, _ => .double
  | .questionMark, c => codeStep c

/-- The character that is held back in a mode. -/
def held (form : TagForm) : Mode → Bytes
  | .questionMark => [closeMark form]
  | _ => []

theorem held_codeStep (form : TagForm) (c : Byte) : held form (codeStep c) = [] := by
  rw [codeStep]
  split_ifs <;> rfl

theorem caseCode_inside (kind : TagKind) (form : TagForm) (c : Byte) (lua : Bytes) :
    insideCase kind form .code c lua = some (inside kind form (codeStep c), lua ++ [c], true) := by
  rw [insideCase, caseCode, codeStep]
  split_ifs <;> rfl

/-- **One character inside a tag**: what it emits, together with what is held back, is the code. -/
theorem onChar_inside (kind : TagKind) (form : TagForm) {m : Mode} {c : Byte} (lua : Bytes)
    (h : ¬ (m = .questionMark ∧ c = byte '>')) :
    ∃ e, onChar (inside kind form m) lua c = some (inside kind form (modeStep form m c), lua ++ e) ∧
      held form m ++ [c] = e ++ held form (modeStep form m c) := by
  have hcode : ∀ lua, luaCase (inside kind form .code) c lua =
      some (inside kind form (codeStep c), lua ++ [c], true) := by
    intro lua
    rw [luaCase_inside, caseCode_inside]
  cases m with
  | code => exact ⟨[c], onChar_once (hcode lua), by rw [modeStep, held_codeStep]; rfl⟩
  | whitespace =>
    have hcase := luaCase_inside kind form .whitespace c lua
    rw [insideCase, caseWhitespace] at hcase
    rw [modeStep]
    by_cases hmark : c = closeMark form
    · rw [if_pos hmark] at hcase ⊢
      exact ⟨[], by rw [onChar_once hcase, List.append_nil], by rw [hmark]; rfl⟩
    · rw [if_neg hmark] at hcase ⊢
      by_cases hspace : isTagSpace c = true
      · rw [if_pos hspace] at hcase ⊢
        exact ⟨[c], onChar_once hcase, rfl⟩
      · rw [if_neg hspace] at hcase ⊢
        exact ⟨[c], onChar_twice hcase (hcode lua), by rw [held_codeStep]; rfl⟩
  | single =>
    have hcase := luaCase_inside kind form .single c lua
    rw [insideCase, caseQuote] at hcase
    refine ⟨[c], onChar_once ?_, ?_⟩
    · rw [hcase, modeStep]
      split_ifs <;> rfl
    · rw [modeStep]
      split_ifs <;> rfl
  | singleEscape => exact ⟨[c], onChar_once (luaCase_inside kind form .singleEscape c lua), rfl⟩
  | double =>
    have hcase := luaCase_inside kind form .double c lua
    rw [insideCase, caseQuote] at hcase
    refine ⟨[c], onChar_once ?_, ?_⟩
    · rw [hcase, modeStep]
      split_ifs <;> rfl
    · rw [modeStep]
      split_ifs <;> rfl
  | doubleEscape => exact ⟨[c], onChar_once (luaCase_inside kind form .doubleEscape c lua), rfl⟩
  | questionMark =>
    have hne : c ≠ byte '>' := fun hc => h ⟨rfl, hc⟩
    have hcase := luaCase_inside kind form .questionMark c lua
    rw [insideCase, if_neg hne] at hcase
    refine ⟨[closeMark form, c], ?_, by rw [modeStep, held_codeStep]; rfl⟩
    rw [onChar_twice hcase (hcode _), List.append_assoc]
    rfl

/-! ### Code -/

/-- **What the mode says about the code so far.** -/
def ModeAfter (form : TagForm) (code : Bytes) : Mode → Prop
  | .code => quotes code = .outside
  | .whitespace => ∃ a w, code = a ++ [w] ∧ isTagSpace w = true ∧ quotes a = .outside
  | .single => quotes code = .single
  | .singleEscape => quotes code = .singleEscape
  | .double => quotes code = .double
  | .doubleEscape => quotes code = .doubleEscape
  | .questionMark =>
    ∃ a w, code = a ++ [w, closeMark form] ∧ isTagSpace w = true ∧ quotes a = .outside

theorem quotes_snoc (code : Bytes) (c : Byte) : quotes (code ++ [c]) = quoteStep (quotes code) c := by
  rw [quotes, List.foldl_append]
  rfl

theorem quoteStep_space {c : Byte} (h : isTagSpace c = true) : quoteStep .outside c = .outside := by
  rcases isTagSpace_iff.mp h with rfl | rfl
  · rfl
  · rfl

theorem quoteStep_closeMark (form : TagForm) : quoteStep .outside (closeMark form) = .outside := by
  cases form <;> rfl

/-- The quotes that a mode is in. -/
def modeQuotes : Mode → QuoteState
  | .single => .single
  | .singleEscape => .singleEscape
  | .double => .double
  | .doubleEscape => .doubleEscape
  | _ => .outside

theorem ModeAfter.quotes_eq {form : TagForm} {code : Bytes} {m : Mode} (h : ModeAfter form code m) :
    quotes code = modeQuotes m := by
  cases m with
  | whitespace =>
    obtain ⟨a, w, rfl, hw, ha⟩ := h
    rw [quotes_snoc, ha, quoteStep_space hw]
    rfl
  | questionMark =>
    obtain ⟨a, w, rfl, hw, ha⟩ := h
    rw [List.append_cons, quotes_snoc, quotes_snoc, ha, quoteStep_space hw, quoteStep_closeMark]
    rfl
  | _ => exact h

theorem modeAfter_codeStep {form : TagForm} {code : Bytes} (h : quotes code = .outside) (c : Byte) :
    ModeAfter form (code ++ [c]) (codeStep c) := by
  have hq : quotes (code ++ [c]) = quoteStep .outside c := by rw [quotes_snoc, h]
  rw [quoteStep] at hq
  rw [codeStep]
  split_ifs at hq ⊢ with hsingle hdouble hspace
  · exact hq
  · exact hq
  · exact ⟨code, c, rfl, hspace, h⟩
  · exact hq

theorem ModeAfter.step {form : TagForm} {code : Bytes} {m : Mode} (h : ModeAfter form code m) (c : Byte) :
    ModeAfter form (code ++ [c]) (modeStep form m c) := by
  have hq := h.quotes_eq
  cases m with
  | code => exact modeAfter_codeStep hq c
  | whitespace =>
    rw [modeStep]
    split_ifs with hmark hspace
    · obtain ⟨a, w, rfl, hw, ha⟩ := h
      exact ⟨a, w, by rw [hmark, List.append_assoc]; rfl, hw, ha⟩
    · exact ⟨code, c, rfl, hspace, hq⟩
    · exact modeAfter_codeStep hq c
  | questionMark => exact modeAfter_codeStep hq c
  | single =>
    have hnext : quotes (code ++ [c]) = quoteStep .single c := by rw [quotes_snoc, hq]; rfl
    rw [quoteStep] at hnext
    rw [modeStep]
    split_ifs at hnext ⊢ <;> exact hnext
  | double =>
    have hnext : quotes (code ++ [c]) = quoteStep .double c := by rw [quotes_snoc, hq]; rfl
    rw [quoteStep] at hnext
    rw [modeStep]
    split_ifs at hnext ⊢ <;> exact hnext
  | singleEscape =>
    show quotes (code ++ [c]) = .single
    rw [quotes_snoc, hq]
    rfl
  | doubleEscape =>
    show quotes (code ++ [c]) = .double
    rw [quotes_snoc, hq]
    rfl

theorem NoClose.of_append {code code' : Bytes} (h : NoClose (code ++ code')) : NoClose code := by
  intro a b w form heq hw
  refine h a (b ++ code') w form ?_ hw
  rw [heq, List.append_assoc]

/-- **The code of a tag** that nothing in it closes. -/
theorem scan_code (kind : TagKind) (form : TagForm) (lua code : Bytes) (hcode : NoClose code) :
    ∃ m e, scan (inside kind form .code) lua code = some (inside kind form m, lua ++ e) ∧
      code = e ++ held form m ∧ ModeAfter form code m := by
  induction code using List.reverseRecOn with
  | nil => exact ⟨.code, [], by simp, rfl, rfl⟩
  | append_singleton code c ih =>
    obtain ⟨m, e, hscan, hsplit, hm⟩ := ih hcode.of_append
    have hopen : ¬ (m = .questionMark ∧ c = byte '>') := by
      intro hclose
      obtain ⟨rfl, rfl⟩ := hclose
      obtain ⟨a, w, rfl, hw, ha⟩ := hm
      exact hcode a [] w form (by simp) hw ha
    obtain ⟨e', hchar, hheld⟩ := onChar_inside kind form (lua ++ e) hopen
    refine ⟨modeStep form m c, e ++ e', ?_, ?_, hm.step c⟩
    · rw [scan_append, hscan]
      show scan _ _ [c] = _
      rw [scan_singleton, hchar, List.append_assoc]
    · rw [List.append_assoc, ← hheld, ← List.append_assoc, ← hsplit]

/-! ### Tags -/

/-- What the opener of a tag adds to the script. -/
def openScript (kind : TagKind) (opening : Byte) : Bytes :=
  match kind with
  | .chunk => bytes "]])" ++ [opening]
  | .expression => bytes "]])" ++ [opening] ++ bytes "put("

/-- The state in front of the white space of an opener. -/
def expectingSpace : TagKind → TagForm → LuaState
  | .chunk, .question => .expectingSpace1
  | .expression, .question => .expectingSpace2
  | .chunk, .percent => .expectingSpace12
  | .expression, .percent => .expectingSpace22

theorem scan_openerTail (kind : TagKind) (form : TagForm) (lua : Bytes) :
    scan .expectingQuestionMark lua (openerTail kind form) = some (expectingSpace kind form, lua) := by
  cases kind with
  | chunk =>
    cases form with
    | question => rfl
    | percent => rfl
  | expression =>
    cases form with
    | question => rfl
    | percent => rfl

/-- The white space opens the tag. -/
theorem luaCase_expectingSpace (kind : TagKind) (form : TagForm) {opening : Byte}
    (h : isTagSpace opening = true) (lua : Bytes) :
    luaCase (expectingSpace kind form) opening lua =
      some (inside kind form .code, lua ++ openScript kind opening, true) := by
  cases kind with
  | chunk =>
    have hspace (inChunk equals : LuaState) (text : Bytes) :
        caseSpace1 inChunk equals text opening lua =
          some (inChunk, lua ++ openScript .chunk opening, true) := by
      rw [caseSpace1, if_pos h, openScript, List.append_assoc]
    cases form with
    | question => exact hspace _ _ _
    | percent => exact hspace _ _ _
  | expression =>
    have hspace (inExpression : LuaState) (text : Bytes) :
        caseSpace2 inExpression text opening lua =
          some (inExpression, lua ++ openScript .expression opening, true) := by
      rw [caseSpace2, if_pos h, openScript, List.append_assoc, List.append_assoc, List.append_assoc]
    cases form with
    | question => exact hspace _ _
    | percent => exact hspace _ _

theorem scan_opener (kind : TagKind) (form : TagForm) {opening : Byte} (h : isTagSpace opening = true)
    (lua : Bytes) :
    scan .expectingQuestionMark lua (openerTail kind form ++ [opening]) =
      some (inside kind form .code, lua ++ openScript kind opening) := by
  rw [scan_append, scan_openerTail, Option.bind_some, scan_singleton]
  exact onChar_once (luaCase_expectingSpace kind form h lua)

/-- The closing white space follows the code whatever the scanner held back. -/
theorem onChar_closing (kind : TagKind) (form : TagForm) {m : Mode} {closing : Byte}
    (h : isTagSpace closing = true) (hm : modeQuotes m = .outside) (lua : Bytes) :
    onChar (inside kind form m) lua closing =
      some (inside kind form .whitespace, lua ++ held form m ++ [closing]) := by
  have hgt : closing ≠ byte '>' := by
    rintro rfl
    exact absurd h (by decide)
  have hmark : closing ≠ closeMark form := by
    rintro rfl
    cases form <;> exact absurd h (by decide)
  have hcode : codeStep closing = .whitespace := by
    rcases isTagSpace_iff.mp h with rfl | rfl
    · rfl
    · rfl
  have hstep : modeStep form m closing = .whitespace := by
    cases m with
    | code => exact hcode
    | whitespace => rw [modeStep, if_neg hmark, if_pos h]
    | questionMark => exact hcode
    | single | singleEscape | double | doubleEscape => cases hm
  obtain ⟨e, hchar, hheld⟩ := onChar_inside kind form lua fun hclose => hgt hclose.2
  rw [hstep] at hchar hheld
  have he : held form m ++ [closing] = e := by
    rw [hheld]
    exact List.append_nil e
  rw [hchar, List.append_assoc, he]

theorem insertBeforeLast_snoc (lua : Bytes) (last c : Byte) :
    insertBeforeLast (lua ++ [last]) c = some (lua ++ [c, last]) := by
  rw [insertBeforeLast, List.getLast?_concat, List.dropLast_concat]
  rfl

/-- The script of a tag, from what its opener, its code and its end add. -/
theorem endTag_script (tag : Tag) (lua : Bytes) :
    ∃ lua', endTag tag.kind (lua ++ openScript tag.kind tag.opening ++ tag.code ++ [tag.closing]) =
        some lua' ∧ lua' ++ bytes "put([[" = lua ++ tag.contents.script := by
  cases hkind : tag.kind with
  | chunk =>
    refine ⟨_, rfl, ?_⟩
    simp [TagContents.script, Tag.contents, hkind, openScript]
  | expression =>
    refine ⟨_, insertBeforeLast_snoc _ _ _, ?_⟩
    simp [TagContents.script, Tag.contents, hkind, openScript, bytes]

theorem scan_close (kind : TagKind) (form : TagForm) {lua lua' : Bytes} (h : endTag kind lua = some lua') :
    scan (inside kind form .whitespace) lua [closeMark form, byte '>'] =
      some (.startIgnoreImmediateNewline, lua' ++ bytes "put([[") := by
  have hmark : onChar (inside kind form .whitespace) lua (closeMark form) =
      some (inside kind form .questionMark, lua) := by
    refine onChar_once ?_
    rw [luaCase_inside, insideCase, caseWhitespace, if_pos rfl]
  have hgt : onChar (inside kind form .questionMark) lua (byte '>') =
      some (.startIgnoreImmediateNewline, lua' ++ bytes "put([[") := by
    refine onChar_once ?_
    rw [luaCase_inside, insideCase, if_pos rfl, h]
    rfl
  rw [scan_cons, hmark]
  show scan (inside kind form .questionMark) lua [byte '>'] = _
  rw [scan_singleton, hgt]

/-- **A tag**, after the `<` of its opener. -/
theorem scan_tag (tag : Tag) (lua : Bytes) :
    scan .expectingQuestionMark lua (openerTail tag.kind tag.form ++ [tag.opening] ++ tag.code ++
        [tag.closing, closeMark tag.form, byte '>']) =
      some (.startIgnoreImmediateNewline, lua ++ tag.contents.script) := by
  obtain ⟨m, e, hscan, hsplit, hm⟩ := scan_code tag.kind tag.form
    (lua ++ openScript tag.kind tag.opening) tag.code tag.noClose
  have hquotes : modeQuotes m = .outside := by rw [← hm.quotes_eq, tag.quotes_closed]
  obtain ⟨lua', hend, hscript⟩ := endTag_script tag lua
  rw [scan_append, scan_append, scan_opener _ _ tag.opening_space, Option.bind_some, hscan,
    Option.bind_some, scan_cons, onChar_closing _ _ tag.closing_space hquotes]
  show scan (inside tag.kind tag.form .whitespace) _ _ = _
  have hlua : lua ++ openScript tag.kind tag.opening ++ e ++ held tag.form m ++ [tag.closing] =
      lua ++ openScript tag.kind tag.opening ++ tag.code ++ [tag.closing] := by
    rw [List.append_assoc _ e, ← hsplit]
  rw [hlua, scan_close _ _ hend, hscript]

/-! ### The whole template -/

/-- The rest of a template after a text: tags with the texts that follow them. -/
theorem scan_segments (rest : List (Tag × Bytes)) : ∀ {s₀ : LuaState} (lua text : Bytes),
    Pending s₀ [] → PlainText text → (∀ p ∈ rest, PlainText p.2) →
    EndsClean ((rest.map Prod.snd).getLastD text) →
    ∃ s, scan s₀ lua (text ++ rest.flatMap fun p => p.1.render ++ p.2) =
      some (s, lua ++ escape text ++ rest.flatMap fun p => p.1.contents.script ++ escape p.2) := by
  induction rest with
  | nil =>
    intro s₀ lua text h₀ hplain _ hclean
    simpa using scan_text_last h₀ lua hplain hclean
  | cons p rest ih =>
    intro s₀ lua text h₀ hplain hrest hclean
    obtain ⟨tag, next⟩ := p
    have hsplit : text ++ ((tag, next) :: rest).flatMap (fun p => p.1.render ++ p.2) =
        (text ++ [byte '<']) ++ ((openerTail tag.kind tag.form ++ [tag.opening] ++ tag.code ++
          [tag.closing, closeMark tag.form, byte '>']) ++
            (next ++ rest.flatMap fun p => p.1.render ++ p.2)) := by
      simp [Tag.render]
    have hclean' : EndsClean ((rest.map Prod.snd).getLastD next) := by
      rw [List.map_cons, List.getLastD_cons] at hclean
      exact hclean
    obtain ⟨s, hs⟩ := ih (lua ++ escape text ++ tag.contents.script) next .ignoreNewline
      (hrest _ List.mem_cons_self) (fun p hp => hrest p (List.mem_cons_of_mem _ hp)) hclean'
    refine ⟨s, ?_⟩
    rw [hsplit, scan_append, scan_text_lt h₀ lua hplain, Option.bind_some, scan_append, scan_tag,
      Option.bind_some, hs]
    simp

theorem luaScript_render (t : Template) : luaScript t.render = some (some (templateScript t.contents)) := by
  obtain ⟨s, hs⟩ := scan_segments t.rest (bytes "put([[") t.first .start t.first_plain t.rest_plain
    t.last_clean
  rw [Template.render, luaScript_of_scan hs, templateScript, Template.contents]
  simp only [List.flatMap_map]

/-- **The meaning of a Lua template.**  The script for a template is the escaped texts and the scripts of
its tags, in order, inside the first and the last `put`; so it is the same for two templates that only
differ in the forms their tags are written in. -/
theorem luaScript_template :
    (∀ t : Template, luaScript t.render = some (some (templateScript t.contents))) ∧
      ∀ t t' : Template, t.contents = t'.contents → luaScript t.render = luaScript t'.render := by
  refine ⟨luaScript_render, ?_⟩
  intro t t' h
  rw [luaScript_render, luaScript_render, h]

/-- An expression in both forms. -/
theorem luaScript_template_forms :
    ∃ t t' : Template, t.render = bytes "a[<?lua= x ?>b" ∧ t'.render = bytes "a[<%= x %>b" ∧
      luaScript t.render = luaScript t'.render := by
  have hcode : NoClose (bytes "x") := noClose_of_length_lt (by decide)
  have hclean : EndsClean (bytes "b") := endsClean_snoc (by decide) []
  have hfirst : PlainText (bytes "a[") := by decide
  have hlast : PlainText (bytes "b") := by decide
  refine ⟨⟨bytes "a[", [(⟨.expression, .question, byte ' ', bytes "x", byte ' ', rfl, rfl, rfl, hcode⟩,
    bytes "b")], hfirst, by simpa using hlast, hclean⟩, ⟨bytes "a[", [(⟨.expression, .percent, byte ' ',
    bytes "x", byte ' ', rfl, rfl, rfl, hcode⟩, bytes "b")], hfirst, by simpa using hlast, hclean⟩,
    rfl, rfl, ?_⟩
  exact luaScript_template.2 _ _ rfl

end Webserver.StaticFile
