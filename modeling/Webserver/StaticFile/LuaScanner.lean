import Webserver.Support.BoundedLoop
import Webserver.Support.ByteString

/-!
# The Lua template scanner

The loop of `do_lua` that turns a file into a Lua script: the states, the `switch`, and the `next` flag
that makes the loop look at a character a second time.

The states inside a tag come in four copies, for chunks and for expressions and for the two ways to write
a tag.  Each `case` of the source is one of the functions `caseCode`, `caseWhitespace`, `caseQuote`,
`caseEscape`, `caseMark`, applied to the states of its copy; `insideCase` says that the copies agree.
`lua.insert(lua.end() - 1, ')')` on an empty script is undefined, which is `none`.
-/

namespace Webserver.StaticFile

open ByteString BoundedLoop

/-- State used when parsing HTML files for Lua scripts. -/
inductive LuaState where
  | startIgnoreImmediateNewline
  | start
  | expectingQuestionMark
  | expectingL
  | expectingU
  | expectingA
  | expectingSpace1
  | expectingSpace12
  | expectingSpace2
  | expectingSpace22
  | chunk
  | chunk2
  | chunkWhitespace
  | chunkWhitespace2
  | chunkSingleQuote
  | chunkSingleQuote2
  | chunkSingleQuoteEscape
  | chunkSingleQuoteEscape2
  | chunkDoubleQuote
  | chunkDoubleQuote2
  | chunkDoubleQuoteEscape
  | chunkDoubleQuoteEscape2
  | chunkQuestionMark
  | chunkQuestionMark2
  | expression
  | expression2
  | expressionWhitespace
  | expressionWhitespace2
  | expressionSingleQuote
  | expressionSingleQuote2
  | expressionSingleQuoteEscape
  | expressionSingleQuoteEscape2
  | expressionDoubleQuote
  | expressionDoubleQuote2
  | expressionDoubleQuoteEscape
  | expressionDoubleQuoteEscape2
  | expressionQuestionMark
  | expressionQuestionMark2
  deriving DecidableEq, Repr

/-- What a `case` leaves behind: the state, the script, and the `next` flag. -/
abbrev CaseResult := Option (LuaState × Bytes × Bool)

/-- The white space that may surround the code of a tag. -/
def isTagSpace (c : Byte) : Bool := c = byte ' ' ∨ c = byte '\n'

/-! ### The cases of the switch -/

/-- `_start`. -/
def caseStart (c : Byte) (lua : Bytes) : CaseResult :=
  if c = byte '<' then some (.expectingQuestionMark, lua, true)
  else if c = byte '[' ∨ c = byte ']' then some (.start, lua ++ [byte '\\'] ++ [c], true)
  else some (.start, lua ++ [c], true)

/-- The end of an opener that turned out not to be one: the text read so far is emitted and the character
is looked at again. -/
def notAnOpener (text : Bytes) (lua : Bytes) : CaseResult := some (.start, lua ++ text, false)

/-- A state that waits for one letter of an opener. -/
def caseLetter (letter : Byte) (following : LuaState) (text : Bytes) (c : Byte) (lua : Bytes) :
    CaseResult :=
  if c = letter then some (following, lua, true) else notAnOpener text lua

/-- `_expecting_space_1`, `_expecting_space_1_2`: a chunk or the sign of an expression. -/
def caseSpace1 (inChunk equals : LuaState) (text : Bytes) (c : Byte) (lua : Bytes) : CaseResult :=
  if isTagSpace c then some (inChunk, lua ++ bytes "]])" ++ [c], true)
  else if c = byte '=' then some (equals, lua, true)
  else notAnOpener text lua

/-- `_expecting_space_2`, `_expecting_space_2_2`. -/
def caseSpace2 (inExpression : LuaState) (text : Bytes) (c : Byte) (lua : Bytes) : CaseResult :=
  if isTagSpace c then some (inExpression, lua ++ bytes "]])" ++ [c] ++ bytes "put(", true)
  else notAnOpener text lua

/-- Code outside of quotes. -/
def caseCode (self singleQuote doubleQuote whitespace : LuaState) (c : Byte) (lua : Bytes) : CaseResult :=
  if c = byte '\'' then some (singleQuote, lua ++ [c], true)
  else if c = byte '"' then some (doubleQuote, lua ++ [c], true)
  else if isTagSpace c then some (whitespace, lua ++ [c], true)
  else some (self, lua ++ [c], true)

/-- White space in code, after which `mark` may close the tag. -/
def caseWhitespace (mark : Byte) (self code questionMark : LuaState) (c : Byte) (lua : Bytes) :
    CaseResult :=
  if c = mark then some (questionMark, lua, true)
  else if isTagSpace c then some (self, lua ++ [c], true)
  else some (code, lua, false)

/-- Inside a quoted string. -/
def caseQuote (quote : Byte) (self code escape : LuaState) (c : Byte) (lua : Bytes) : CaseResult :=
  if c = quote then some (code, lua ++ [c], true)
  else if c = byte '\\' then some (escape, lua ++ [c], true)
  else some (self, lua ++ [c], true)

/-- After a backslash inside a quoted string. -/
def caseEscape (quoted : LuaState) (c : Byte) (lua : Bytes) : CaseResult :=
  some (quoted, lua ++ [c], true)

/-- `lua.insert(lua.end() - 1, c)`. -/
def insertBeforeLast (lua : Bytes) (c : Byte) : Option Bytes := do
  let last ← lua.getLast?
  some (lua.dropLast ++ [c, last])

/-- `_chunk_question_mark`, `_chunk_question_mark_2`. -/
def caseChunkMark (mark : Byte) (code : LuaState) (c : Byte) (lua : Bytes) : CaseResult :=
  if c = byte '>' then some (.startIgnoreImmediateNewline, lua ++ bytes "put([[", true)
  else some (code, lua ++ [mark], false)

/-- `_expression_question_mark`, `_expression_question_mark_2`. -/
def caseExpressionMark (mark : Byte) (code : LuaState) (c : Byte) (lua : Bytes) : CaseResult :=
  if c = byte '>' then do
    let lua ← insertBeforeLast lua (byte ')')
    some (.startIgnoreImmediateNewline, lua ++ bytes "put([[", true)
  else some (code, lua ++ [mark], false)

/-- The `switch` of `do_lua`. -/
def luaCase (s : LuaState) (c : Byte) (lua : Bytes) : CaseResult :=
  match s with
  | .startIgnoreImmediateNewline =>
    if c = byte '\n' then some (.start, lua ++ [c], true) else caseStart c lua
  | .start => caseStart c lua
  | .expectingQuestionMark =>
    if c = byte '?' then some (.expectingL, lua, true)
    else if c = byte '%' then some (.expectingSpace12, lua, true)
    else notAnOpener (bytes "<") lua
  | .expectingL => caseLetter (byte 'l') .expectingU (bytes "<?") c lua
  | .expectingU => caseLetter (byte 'u') .expectingA (bytes "<?l") c lua
  | .expectingA => caseLetter (byte 'a') .expectingSpace1 (bytes "<?lu") c lua
  | .expectingSpace1 => caseSpace1 .chunk .expectingSpace2 (bytes "<?lua") c lua
  | .expectingSpace12 => caseSpace1 .chunk2 .expectingSpace22 (bytes "<%") c lua
  | .expectingSpace2 => caseSpace2 .expression (bytes "<lua=") c lua
  | .expectingSpace22 => caseSpace2 .expression2 (bytes "<%=") c lua
  | .chunk => caseCode .chunk .chunkSingleQuote .chunkDoubleQuote .chunkWhitespace c lua
  | .chunk2 => caseCode .chunk2 .chunkSingleQuote2 .chunkDoubleQuote2 .chunkWhitespace2 c lua
  | .chunkWhitespace => caseWhitespace (byte '?') .chunkWhitespace .chunk .chunkQuestionMark c lua
  | .chunkWhitespace2 => caseWhitespace (byte '%') .chunkWhitespace2 .chunk2 .chunkQuestionMark2 c lua
  | .chunkSingleQuote => caseQuote (byte '\'') .chunkSingleQuote .chunk .chunkSingleQuoteEscape c lua
  | .chunkSingleQuote2 =>
    caseQuote (byte '\'') .chunkSingleQuote2 .chunk2 .chunkSingleQuoteEscape2 c lua
  | .chunkSingleQuoteEscape => caseEscape .chunkSingleQuote c lua
  | .chunkSingleQuoteEscape2 => caseEscape .chunkSingleQuote2 c lua
  | .chunkDoubleQuote => caseQuote (byte '"') .chunkDoubleQuote .chunk .chunkDoubleQuoteEscape c lua
  | .chunkDoubleQuote2 =>
    caseQuote (byte '"') .chunkDoubleQuote2 .chunk2 .chunkDoubleQuoteEscape2 c lua
  | .chunkDoubleQuoteEscape => caseEscape .chunkDoubleQuote c lua
  | .chunkDoubleQuoteEscape2 => caseEscape .chunkDoubleQuote2 c lua
  | .chunkQuestionMark => caseChunkMark (byte '?') .chunk c lua
  | .chunkQuestionMark2 => caseChunkMark (byte '%') .chunk2 c lua
  | .expression =>
    caseCode .expression .expressionSingleQuote .expressionDoubleQuote .expressionWhitespace c lua
  | .expression2 =>
    caseCode .expression2 .expressionSingleQuote2 .expressionDoubleQuote2 .expressionWhitespace2 c lua
  | .expressionWhitespace =>
    caseWhitespace (byte '?') .expressionWhitespace .expression .expressionQuestionMark c lua
  | .expressionWhitespace2 =>
    caseWhitespace (byte '%') .expressionWhitespace2 .expression2 .expressionQuestionMark2 c lua
  | .expressionSingleQuote =>
    caseQuote (byte '\'') .expressionSingleQuote .expression .expressionSingleQuoteEscape c lua
  | .expressionSingleQuote2 =>
    caseQuote (byte '\'') .expressionSingleQuote2 .expression2 .expressionSingleQuoteEscape2 c lua
  | .expressionSingleQuoteEscape => caseEscape .expressionSingleQuote c lua
  | .expressionSingleQuoteEscape2 => caseEscape .expressionSingleQuote2 c lua
  | .expressionDoubleQuote =>
    caseQuote (byte '"') .expressionDoubleQuote .expression .expressionDoubleQuoteEscape c lua
  | .expressionDoubleQuote2 =>
    caseQuote (byte '"') .expressionDoubleQuote2 .expression2 .expressionDoubleQuoteEscape2 c lua
  | .expressionDoubleQuoteEscape => caseEscape .expressionDoubleQuote c lua
  | .expressionDoubleQuoteEscape2 => caseEscape .expressionDoubleQuote2 c lua
  | .expressionQuestionMark => caseExpressionMark (byte '?') .expression c lua
  | .expressionQuestionMark2 => caseExpressionMark (byte '%') .expression2 c lua

/-! ### The loop -/

/-- The variables of the loop.  `again` is the character to look at a second time, when `next` is
false. -/
structure Scanner where
  state : LuaState
  lua : Bytes
  again : Option Byte
  file : Bytes
  deriving DecidableEq

/-- The `switch` for the character `c`, with `file` left to read. -/
def luaTurn (s : LuaState) (lua : Bytes) (c : Byte) (file : Bytes) : Scanner ⊕ Option Bytes :=
  match luaCase s c lua with
  | none => .inr none
  | some (s', lua', next) => .inl ⟨s', lua', if next then none else some c, file⟩

/-- One turn of the `while (true)` loop; it is left at the end of the file. -/
def luaBody (m : Scanner) : Scanner ⊕ Option Bytes :=
  match m.again, m.file with
  | some c, file => luaTurn m.state m.lua c file
  | none, c :: file => luaTurn m.state m.lua c file
  | none, [] => .inr (some (m.lua ++ bytes "]])"))

/-- What the loop is entered with. -/
def luaStart (file : Bytes) : Scanner := ⟨.start, bytes "put([[", none, file⟩

/-- The script for a file, with a bound on the turns: two for each character. -/
def luaScript (file : Bytes) : Option (Option Bytes) :=
  runLoop luaBody (2 * file.length + 1) (luaStart file)

example : luaScript (bytes "a<%= x %>b]") = some (some (bytes "put([[a]]) put(x) put([[b\\]]])")) := by
  decide

/-! ### One character at a time -/

/-- What the loop does with one character, whether it looks at it once or twice. -/
def onChar (s : LuaState) (lua : Bytes) (c : Byte) : Option (LuaState × Bytes) := do
  let (s', lua', next) ← luaCase s c lua
  if next then some (s', lua')
  else do
    let (s'', lua'', _) ← luaCase s' c lua'
    some (s'', lua'')

theorem onChar_once {s s' : LuaState} {lua lua' : Bytes} {c : Byte}
    (h : luaCase s c lua = some (s', lua', true)) : onChar s lua c = some (s', lua') := by
  rw [onChar, h]
  rfl

theorem onChar_twice {s s' s'' : LuaState} {lua lua' lua'' : Bytes} {c : Byte} {next : Bool}
    (h : luaCase s c lua = some (s', lua', false)) (h' : luaCase s' c lua' = some (s'', lua'', next)) :
    onChar s lua c = some (s'', lua'') := by
  rw [onChar, h]
  show (luaCase s' c lua').bind _ = _
  rw [h']
  rfl

/-- A string of characters. -/
def scan (s : LuaState) (lua : Bytes) : Bytes → Option (LuaState × Bytes)
  | [] => some (s, lua)
  | c :: cs => (onChar s lua c).bind fun p => scan p.1 p.2 cs

@[simp] theorem scan_nil (s : LuaState) (lua : Bytes) : scan s lua [] = some (s, lua) := rfl

theorem scan_cons (s : LuaState) (lua : Bytes) (c : Byte) (cs : Bytes) :
    scan s lua (c :: cs) = (onChar s lua c).bind fun p => scan p.1 p.2 cs := rfl

theorem scan_append (s : LuaState) (lua : Bytes) (cs ds : Bytes) :
    scan s lua (cs ++ ds) = (scan s lua cs).bind fun p => scan p.1 p.2 ds := by
  induction cs generalizing s lua with
  | nil => rfl
  | cons c cs ih =>
    rw [List.cons_append, scan_cons, scan_cons, Option.bind_assoc]
    simp only [ih]

theorem scan_singleton (s : LuaState) (lua : Bytes) (c : Byte) : scan s lua [c] = onChar s lua c := by
  rw [scan_cons]
  cases onChar s lua c with
  | none => rfl
  | some p => rfl

/-! ### The second look -/

/-- A `case` that always moves on. -/
def MovesOn (r : CaseResult) : Prop := ∃ s lua, r = some (s, lua, true)

theorem movesOn_caseStart (c : Byte) (lua : Bytes) : MovesOn (caseStart c lua) := by
  rw [caseStart]
  split_ifs
  · exact ⟨_, _, rfl⟩
  · exact ⟨_, _, rfl⟩
  · exact ⟨_, _, rfl⟩

theorem movesOn_caseCode (self sq dq ws : LuaState) (c : Byte) (lua : Bytes) :
    MovesOn (caseCode self sq dq ws c lua) := by
  rw [caseCode]
  split_ifs
  · exact ⟨_, _, rfl⟩
  · exact ⟨_, _, rfl⟩
  · exact ⟨_, _, rfl⟩
  · exact ⟨_, _, rfl⟩

/-- **A character is looked at twice at most**: the state that a `case` without `next` leaves moves on,
whatever the character. -/
theorem movesOn_of_again {s s' : LuaState} {c : Byte} {lua lua' : Bytes}
    (h : luaCase s c lua = some (s', lua', false)) : MovesOn (luaCase s' c lua') := by
  have hs' : s' = .start ∨ s' = .chunk ∨ s' = .chunk2 ∨ s' = .expression ∨ s' = .expression2 := by
    cases s with
    | startIgnoreImmediateNewline | start =>
      simp only [luaCase, caseStart] at h
      split_ifs at h <;> simp at h
    | expectingQuestionMark | expectingL | expectingU | expectingA | expectingSpace1 | expectingSpace12
    | expectingSpace2 | expectingSpace22 =>
      simp only [luaCase, caseLetter, caseSpace1, caseSpace2, notAnOpener] at h
      split_ifs at h <;> simp_all
    | chunk | chunk2 | expression | expression2 =>
      simp only [luaCase, caseCode] at h
      split_ifs at h <;> simp at h
    | chunkWhitespace | chunkWhitespace2 | expressionWhitespace | expressionWhitespace2 =>
      simp only [luaCase, caseWhitespace] at h
      split_ifs at h <;> simp_all
    | chunkSingleQuote | chunkSingleQuote2 | chunkDoubleQuote | chunkDoubleQuote2 | expressionSingleQuote
    | expressionSingleQuote2 | expressionDoubleQuote | expressionDoubleQuote2 =>
      simp only [luaCase, caseQuote] at h
      split_ifs at h <;> simp at h
    | chunkSingleQuoteEscape | chunkSingleQuoteEscape2 | chunkDoubleQuoteEscape | chunkDoubleQuoteEscape2
    | expressionSingleQuoteEscape | expressionSingleQuoteEscape2 | expressionDoubleQuoteEscape
    | expressionDoubleQuoteEscape2 =>
      simp [luaCase, caseEscape] at h
    | chunkQuestionMark | chunkQuestionMark2 =>
      simp only [luaCase, caseChunkMark] at h
      split_ifs at h <;> simp_all
    | expressionQuestionMark | expressionQuestionMark2 =>
      simp only [luaCase, caseExpressionMark] at h
      split_ifs at h
      · obtain ⟨lua₁, -, h⟩ := Option.bind_eq_some_iff.mp h
        simp at h
      · simp_all
  rcases hs' with rfl | rfl | rfl | rfl | rfl
  · exact movesOn_caseStart c lua'
  · exact movesOn_caseCode _ _ _ _ c lua'
  · exact movesOn_caseCode _ _ _ _ c lua'
  · exact movesOn_caseCode _ _ _ _ c lua'
  · exact movesOn_caseCode _ _ _ _ c lua'

/-- The invariant of the loop: a character is only looked at again where that moves on. -/
def AgainMovesOn (m : Scanner) : Prop :=
  ∀ c, m.again = some c → MovesOn (luaCase m.state c m.lua)

/-- Twice what is left to read, and one more while a character waits for its second look. -/
def scannerMeasure (m : Scanner) : ℕ := 2 * m.file.length + if m.again.isSome then 1 else 0

theorem luaTurn_inl {s : LuaState} {lua : Bytes} {c : Byte} {file : Bytes} {m' : Scanner}
    (h : luaTurn s lua c file = .inl m') :
    ∃ next, luaCase s c lua = some (m'.state, m'.lua, next) ∧ m'.file = file ∧
      m'.again = if next then none else some c := by
  rw [luaTurn] at h
  cases hcase : luaCase s c lua with
  | none => rw [hcase] at h; cases h
  | some p =>
    obtain ⟨s', lua', next⟩ := p
    rw [hcase] at h
    obtain rfl := Sum.inl.inj h
    exact ⟨next, rfl, rfl, rfl⟩

/-- **The scanner makes progress.** -/
theorem luaBody_progress {m m' : Scanner} (hm : AgainMovesOn m) (h : luaBody m = .inl m') :
    AgainMovesOn m' ∧ scannerMeasure m' < scannerMeasure m := by
  obtain ⟨s, lua, again, file⟩ := m
  rcases again with _ | c
  · rcases file with _ | ⟨c, file⟩
    · cases h
    · obtain ⟨next, hcase, hfile, hagain⟩ := luaTurn_inl h
      constructor
      · intro d hd
        cases next with
        | true => rw [hagain] at hd; cases hd
        | false =>
          rw [hagain] at hd
          obtain rfl := Option.some.inj hd
          exact movesOn_of_again hcase
      · rw [scannerMeasure, scannerMeasure, hfile]
        show 2 * file.length + _ < 2 * (c :: file).length + 0
        rw [List.length_cons]
        split_ifs <;> omega
  · obtain ⟨next, hcase, hfile, hagain⟩ := luaTurn_inl h
    obtain ⟨s', lua', hmoves⟩ := hm c rfl
    simp only at hmoves
    rw [hmoves] at hcase
    obtain rfl : true = next := (Prod.mk.inj (Prod.mk.inj (Option.some.inj hcase)).2).2
    rw [if_pos rfl] at hagain
    constructor
    · intro d hd
      rw [hagain] at hd
      cases hd
    · rw [scannerMeasure, scannerMeasure, hfile, hagain]
      show 2 * file.length + 0 < 2 * file.length + 1
      omega

theorem againMovesOn_start (file : Bytes) : AgainMovesOn (luaStart file) := by
  intro c hc
  cases hc

/-- The bound on the turns in `luaScript` is enough. -/
theorem runLoop_luaBody (file : Bytes) :
    ∃ r, runLoop luaBody (2 * file.length + 1) (luaStart file) = some r :=
  runLoop_of_variant AgainMovesOn scannerMeasure (fun _ _ hm hb => luaBody_progress hm hb)
    (2 * file.length + 1) (luaStart file) (againMovesOn_start file) (Nat.lt_succ_self _)

theorem luaScript_eq_of_returns {file : Bytes} {r : Option Bytes}
    (h : Returns luaBody (luaStart file) r) : luaScript file = some r := by
  obtain ⟨r', hr'⟩ := runLoop_luaBody file
  have hreturns : Returns luaBody (luaStart file) r' := ⟨_, hr'⟩
  rw [luaScript, hr', hreturns.unique h]

/-- One character of the file. -/
theorem returns_onChar {s s' : LuaState} {lua lua' : Bytes} {c : Byte} {file : Bytes}
    (h : onChar s lua c = some (s', lua')) (r : Option Bytes) :
    Returns luaBody ⟨s, lua, none, c :: file⟩ r ↔ Returns luaBody ⟨s', lua', none, file⟩ r := by
  cases hcase : luaCase s c lua with
  | none =>
    rw [onChar, hcase] at h
    cases h
  | some p =>
    obtain ⟨s₁, lua₁, next⟩ := p
    have hfirst : luaBody ⟨s, lua, none, c :: file⟩ =
        .inl ⟨s₁, lua₁, if next then none else some c, file⟩ := by
      show luaTurn s lua c file = _
      rw [luaTurn, hcase]
    rw [returns_iff_of_inl hfirst]
    cases next with
    | true =>
      rw [onChar_once hcase] at h
      obtain ⟨rfl, rfl⟩ := Prod.mk.inj (Option.some.inj h)
      exact Iff.rfl
    | false =>
      obtain ⟨s₂, lua₂, hmoves⟩ := movesOn_of_again hcase
      have hsecond : luaBody ⟨s₁, lua₁, some c, file⟩ = .inl ⟨s₂, lua₂, none, file⟩ := by
        show luaTurn s₁ lua₁ c file = _
        rw [luaTurn, hmoves]
        rfl
      rw [onChar_twice hcase hmoves] at h
      obtain ⟨rfl, rfl⟩ := Prod.mk.inj (Option.some.inj h)
      exact returns_iff_of_inl hsecond

/-- **The loop scans the file character by character.** -/
theorem returns_of_scan (file : Bytes) : ∀ {s s' : LuaState} {lua lua' : Bytes},
    scan s lua file = some (s', lua') →
      Returns luaBody ⟨s, lua, none, file⟩ (some (lua' ++ bytes "]])")) := by
  induction file with
  | nil =>
    intro s s' lua lua' h
    obtain ⟨rfl, rfl⟩ := Prod.mk.inj (Option.some.inj h)
    exact returns_of_inr rfl
  | cons c file ih =>
    intro s s' lua lua' h
    rw [scan_cons] at h
    obtain ⟨⟨s₁, lua₁⟩, hchar, hrest⟩ := Option.bind_eq_some_iff.mp h
    rw [returns_onChar hchar]
    exact ih hrest

theorem luaScript_of_scan {file : Bytes} {s' : LuaState} {lua' : Bytes}
    (h : scan .start (bytes "put([[") file = some (s', lua')) :
    luaScript file = some (some (lua' ++ bytes "]])")) :=
  luaScript_eq_of_returns (returns_of_scan file h)

end Webserver.StaticFile
