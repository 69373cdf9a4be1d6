import Webserver.StaticFile.LuaTemplate

/-!
# The template scanner makes progress

A turn of the loop of `do_lua` that leaves the current character unconsumed goes to a state that consumes it
(`movesOn_of_again`), so there are at most two turns for each character.

The parenthesis at the end of an expression is inserted in front of the last byte of the script.  Only white
space leads to the two states in front of that end, and nothing is emitted between them, so the last byte is
that white space (`luaCase_closing`).
-/

namespace Webserver.StaticFile

open ByteString BoundedLoop

/-- The character that the turn looks at; none at the end of the file. -/
def Scanner.current (m : Scanner) : Option Byte := m.again.or m.file.head?

/-- The turn executes `lua.insert(lua.end() - 1, ')')`. -/
def Scanner.Inserts (m : Scanner) : Prop :=
  (m.state = .expressionQuestionMark ∨ m.state = .expressionQuestionMark2) ∧ m.current = some (byte '>')

/-- The states in which the end of an expression may come. -/
def isClosing : LuaState → Bool
  | .expressionWhitespace | .expressionWhitespace2 => true
  | .expressionQuestionMark | .expressionQuestionMark2 => true
  | _ => false

/-- A script whose last byte is white space. -/
def EndsInSpace (lua : Bytes) : Prop := ∃ before w, lua = before ++ [w] ∧ isTagSpace w = true

/-- **Only white space leads to the end of an expression**, and nothing is emitted on the way. -/
theorem luaCase_closing {s s' : LuaState} {c : Byte} {lua lua' : Bytes} {next : Bool}
    (h : luaCase s c lua = some (s', lua', next)) (hs' : isClosing s' = true) :
    EndsInSpace lua' ∨ lua' = lua ∧ isClosing s = true := by
  cases s with
  | expression | expression2 =>
    simp only [luaCase, caseCode] at h
    split_ifs at h with hsingle hdouble hspace
    all_goals obtain ⟨rfl, rfl, -⟩ := by simpa using h
    · exact absurd hs' (by decide)
    · exact absurd hs' (by decide)
    · exact .inl ⟨lua, c, rfl, hspace⟩
    · exact absurd hs' (by decide)
  | expressionWhitespace | expressionWhitespace2 =>
    simp only [luaCase, caseWhitespace] at h
    split_ifs at h with hmark hspace
    all_goals obtain ⟨rfl, rfl, -⟩ := by simpa using h
    · exact .inr ⟨rfl, rfl⟩
    · exact .inl ⟨lua, c, rfl, hspace⟩
    · exact absurd hs' (by decide)
  | expressionQuestionMark | expressionQuestionMark2 =>
    simp only [luaCase, caseExpressionMark] at h
    split_ifs at h
    · obtain ⟨lua₁, -, h⟩ := Option.bind_eq_some_iff.mp h
      obtain ⟨rfl, -⟩ := Prod.mk.inj (Option.some.inj h)
      exact absurd hs' (by decide)
    · obtain ⟨rfl, -⟩ := Prod.mk.inj (Option.some.inj h)
      exact absurd hs' (by decide)
  | chunkSingleQuoteEscape | chunkSingleQuoteEscape2 | chunkDoubleQuoteEscape | chunkDoubleQuoteEscape2
  | expressionSingleQuoteEscape | expressionSingleQuoteEscape2 | expressionDoubleQuoteEscape
  | expressionDoubleQuoteEscape2 =>
    obtain ⟨rfl, -⟩ := Prod.mk.inj (Option.some.inj h)
    exact absurd hs' (by decide)
  | _ =>
    -- no other state has a way to the end of an expression
    simp only [luaCase, caseStart, caseLetter, caseSpace1, caseSpace2, notAnOpener, caseCode, caseWhitespace,
      caseQuote, caseChunkMark] at h
    split_ifs at h
    all_goals
      obtain ⟨rfl, -⟩ := Prod.mk.inj (Option.some.inj h)
      exact absurd hs' (by decide)

/-- A turn is defined when the end of an expression has something to insert the parenthesis in front of. -/
theorem luaCase_isSome {s : LuaState} {lua : Bytes} (h : isClosing s = true → EndsInSpace lua) (c : Byte) :
    (luaCase s c lua).isSome := by
  cases s with
  | expressionQuestionMark | expressionQuestionMark2 =>
    obtain ⟨before, w, rfl, -⟩ := h rfl
    rw [luaCase, caseExpressionMark, insertBeforeLast_snoc]
    split_ifs <;> rfl
  | chunkSingleQuoteEscape | chunkSingleQuoteEscape2 | chunkDoubleQuoteEscape | chunkDoubleQuoteEscape2
  | expressionSingleQuoteEscape | expressionSingleQuoteEscape2 | expressionDoubleQuoteEscape
  | expressionDoubleQuoteEscape2 => rfl
  | _ =>
    simp only [luaCase, caseStart, caseLetter, caseSpace1, caseSpace2, notAnOpener, caseCode, caseWhitespace,
      caseQuote, caseChunkMark]
    split_ifs <;> rfl

/-! ### The turns of a run -/

/-- What a turn that stays in the loop does. -/
theorem luaBody_inl {m m' : Scanner} (h : luaBody m = .inl m') :
    ∃ c next, m.current = some c ∧ luaCase m.state c m.lua = some (m'.state, m'.lua, next) ∧
      m'.again = if next then none else some c := by
  obtain ⟨s, lua, again, file⟩ := m
  cases again with
  | some c =>
    obtain ⟨next, hcase, -, hagain⟩ := luaTurn_inl h
    exact ⟨c, next, rfl, hcase, hagain⟩
  | none =>
    cases file with
    | nil => cases h
    | cons c file =>
      obtain ⟨next, hcase, -, hagain⟩ := luaTurn_inl h
      exact ⟨c, next, rfl, hcase, hagain⟩

/-- The invariant of the loop: in front of the end of an expression, the script ends in white space. -/
def ClosingSpace (m : Scanner) : Prop := isClosing m.state = true → EndsInSpace m.lua

theorem closingSpace_luaBody {m m' : Scanner} (hm : ClosingSpace m) (h : luaBody m = .inl m') :
    ClosingSpace m' := by
  obtain ⟨c, next, -, hcase, -⟩ := luaBody_inl h
  intro hclosing
  rcases luaCase_closing hcase hclosing with hspace | ⟨hlua, hs⟩
  · exact hspace
  · rw [hlua]
    exact hm hs

theorem closingSpace_start (file : Bytes) : ClosingSpace (luaStart file) :=
  fun h => absurd h Bool.false_ne_true

/-- A turn that leaves the loop has a script. -/
theorem luaBody_inr {m : Scanner} (hm : ClosingSpace m) {r : Option Bytes} (h : luaBody m = .inr r) :
    ∃ script, r = some script := by
  have hturn {c : Byte} {file : Bytes} (h : luaTurn m.state m.lua c file = .inr r) : False := by
    obtain ⟨p, hp⟩ := Option.isSome_iff_exists.mp (luaCase_isSome hm c)
    rw [luaTurn, hp] at h
    cases h
  obtain ⟨s, lua, again, file⟩ := m
  cases again with
  | some c => exact (hturn h).elim
  | none =>
    cases file with
    | nil => exact ⟨_, (Sum.inr.inj h).symm⟩
    | cons c file => exact (hturn h).elim

/-- **The template scanner always makes progress.**  For every file the loop is left with a script after at
most two turns for each character; no two turns in a row leave the current character unconsumed; and whenever
the parenthesis at the end of an expression is inserted, the script is not empty and its last byte is white
space. -/
theorem scanner_progress (file : Bytes) :
    (∃ script, runLoop luaBody (2 * file.length + 1) (luaStart file) = some (some script)) ∧
    (∀ m m' m'', Reaches luaBody (luaStart file) m → luaBody m = .inl m' → luaBody m' = .inl m'' →
      m'.again.isSome → m''.again = none) ∧
    ∀ m, Reaches luaBody (luaStart file) m → m.Inserts →
      ∃ before w, m.lua = before ++ [w] ∧ (w = byte ' ' ∨ w = byte '\n') := by
  refine ⟨?_, ?_, ?_⟩
  · obtain ⟨r, hr⟩ := runLoop_luaBody file
    have hreturns : Returns luaBody (luaStart file) r := ⟨_, hr⟩
    obtain ⟨m, hm, hleft⟩ := hreturns.invariant ClosingSpace (closingSpace_start file)
      fun _ _ hm hb => closingSpace_luaBody hm hb
    obtain ⟨script, rfl⟩ := luaBody_inr hm hleft
    exact ⟨script, hr⟩
  · intro m m' m'' hm hm' hm'' hagain
    have hmoves : AgainMovesOn m' := (hm.turn hm').invariant AgainMovesOn (againMovesOn_start file)
      fun _ _ hm hb => (luaBody_progress hm hb).1
    obtain ⟨c, next, hc, hcase, hnext⟩ := luaBody_inl hm''
    obtain ⟨d, hd⟩ := Option.isSome_iff_exists.mp hagain
    have hcd : c = d := by
      rw [Scanner.current, hd] at hc
      exact (Option.some.inj hc).symm
    obtain ⟨s, lua, hmoves⟩ := hmoves d hd
    rw [hcd, hmoves] at hcase
    obtain ⟨-, -, rfl⟩ := by simpa using hcase
    exact hnext
  · intro m hm hinserts
    obtain ⟨before, w, hlua, hw⟩ := hm.invariant ClosingSpace (closingSpace_start file)
      (fun _ _ hm hb => closingSpace_luaBody hm hb) (by rcases hinserts.1 with h | h <;> rw [h] <;> rfl)
    exact ⟨before, w, hlua, isTagSpace_iff.mp hw⟩

end Webserver.StaticFile
