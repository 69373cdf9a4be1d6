import Webserver.Config.ConfigLanguage

/-!
# The tree at every exit of the parser

The server goes on with the tree that `Parse` leaves behind, also when it has failed.  The variables of the
parser are those of a cursor in every turn of the loop (`reaches_cursor`), so what a cursor guarantees holds of
the stack, of the block on top of it, and of the tree at every exit.

* `stackUses` — what a turn takes from the stack and from the last statement without a check.
* `parse_leaves_wellFormed` — every such use is defined, and every statement of the tree has words.
-/

namespace Webserver.ConfigLanguage

open ByteString BoundedLoop ConfigTree ConfigLexer ConfigParser ConfigGrammar ConfigCursor

/-! ### The stack and the last statement -/

/-- A place where the parser takes something from the stack or from the end of a vector without a check. -/
inductive StackUse where
  | top (stack : List ConfigPtr)
  | pop (stack : List ConfigPtr)
  /-- `statements.back()`; no vector at all for a pointer that dangles. -/
  | back (statements : Option (List NginxConfigStatement))

/-- There is something to take. -/
def StackUse.Defined : StackUse → Prop
  | .top stack => stack ≠ []
  | .pop stack => stack ≠ []
  | .back statements => ∃ ss, statements = some ss ∧ ss ≠ []

/-- The statements of the block on top of the stack. -/
def topStatements (stack : List ConfigPtr) (config : Option NginxConfig) :
    Option (List NginxConfigStatement) := do
  let top ← stack.head?
  statementsAt top (← config)

/-- The tree after `config_stack.top()->statements.emplace_back(new NginxConfigStatement)`. -/
def emplaced (st : ParserState) : Option NginxConfig := do
  let top ← st.configStack.head?
  updateAt emplaceStatement top st.config

/-- What one turn of the loop takes, in the order of the source. -/
def stackUses (st : ParserState) (tokenType : TokenType) : List StackUse :=
  match tokenType with
  | .normal =>
    if st.lastTokenType = .start ∨ st.lastTokenType = .statementEnd ∨
        st.lastTokenType = .startBlock ∨ st.lastTokenType = .endBlock then
      [.top st.configStack, .top st.configStack, .back (topStatements st.configStack (emplaced st))]
    else if st.lastTokenType = .normal then
      [.top st.configStack, .back (topStatements st.configStack (some st.config))]
    else []
  | .startBlock =>
    if st.lastTokenType = .normal then
      [.top st.configStack, .back (topStatements st.configStack (some st.config))]
    else []
  | .endBlock =>
    if st.lastTokenType ≠ .statementEnd ∧ st.lastTokenType ≠ .endBlock ∧
        st.lastTokenType ≠ .startBlock then []
    else if st.configStack.length ≤ 1 then []
    else [.pop st.configStack]
  | _ => []

/-- A change through a pointer fails where the pointer dangles, or the change does. -/
theorem updateAt_isSome_iff (f : List NginxConfigStatement → Option (List NginxConfigStatement)) (p : ConfigPtr)
    (c : NginxConfig) : (updateAt f p c).isSome ↔ ∃ ss, statementsAt p c = some ss ∧ (f ss).isSome := by
  induction p generalizing c with
  | nil => simp [updateAt, statementsAt]
  | cons i p ih =>
    cases hs : c.statements[i]? with
    | none => simp [updateAt, statementsAt, hs]
    | some s =>
      cases hb : s.childBlock with
      | none => simp [updateAt, statementsAt, hs, hb]
      | some b =>
        have hset : (updateAt f (i :: p) c).isSome = (updateAt f p b).isSome := by
          cases hu : updateAt f p b with
          | none => simp [updateAt, hs, hb, hu]
          | some b' => simp [updateAt, hs, hb, hu]
        rw [hset, ih b]
        simp [statementsAt, hs, hb]

theorem modifyBack_isSome_iff (f : NginxConfigStatement → NginxConfigStatement)
    (ss : List NginxConfigStatement) : (modifyBack f ss).isSome ↔ ss ≠ [] := by
  rcases List.eq_nil_or_concat' ss with rfl | ⟨init, s, rfl⟩
  · simp [modifyBack]
  · simp [modifyBack]

/-- A change of the last statement of the block on top of the stack. -/
theorem back_defined_iff (f : NginxConfigStatement → NginxConfigStatement) (stack : List ConfigPtr)
    (top : ConfigPtr) (c : NginxConfig) :
    (StackUse.back (topStatements (top :: stack) (some c))).Defined ↔
      (updateAt (modifyBack f) top c).isSome := by
  rw [updateAt_isSome_iff]
  exact exists_congr fun ss => and_congr_right fun _ => (modifyBack_isSome_iff f ss).symm

/-- **A turn is undefined exactly where one of its uses is.** -/
theorem handleToken_isSome_iff (st : ParserState) (tokenType : TokenType) (token : Bytes) :
    (handleToken st tokenType token).isSome ↔ ∀ u ∈ stackUses st tokenType, u.Defined := by
  have hnone : ∀ u ∈ ([] : List StackUse), u.Defined := fun _ hu => (List.not_mem_nil hu).elim
  obtain ⟨config, stack, last⟩ := st
  cases tokenType with
  | error | comment | start => exact iff_of_true rfl hnone
  | statementEnd =>
    refine iff_of_true ?_ hnone
    simp only [handleToken, badTransition, goOn]
    split_ifs <;> rfl
  | eof =>
    refine iff_of_true ?_ hnone
    simp only [handleToken, badTransition]
    split_ifs <;> rfl
  | endBlock =>
    simp only [handleToken, stackUses, badTransition, goOn]
    split_ifs with hlast hlength
    · exact iff_of_true rfl hnone
    · exact iff_of_true rfl hnone
    · refine iff_of_true rfl ?_
      rw [List.forall_mem_singleton]
      rintro rfl
      exact hlength (Nat.zero_le _)
  | startBlock =>
    by_cases hlast : last = .normal
    · cases stack with
      | nil => simp [handleToken, stackUses, hlast, StackUse.Defined]
      | cons top stack =>
        have hback := back_defined_iff resetChildBlock stack top config
        have hturn : (handleToken ⟨config, top :: stack, last⟩ .startBlock token).isSome =
            (updateAt (modifyBack resetChildBlock) top config).isSome := by
          cases hu : updateAt (modifyBack resetChildBlock) top config with
          | none =>
            cases hss : statementsAt top config with
            | none => simp [handleToken, hlast, hss]
            | some ss => simp [handleToken, hlast, hss, hu]
          | some config' =>
            obtain ⟨ss, hss, -⟩ := (updateAt_isSome_iff _ top config).mp (by rw [hu]; rfl)
            simp [handleToken, hlast, hss, hu, goOn]
        rw [hturn, ← hback]
        simp [stackUses, hlast, StackUse.Defined]
    · simp [handleToken, stackUses, hlast, badTransition]
  | normal =>
    by_cases hnormal : last = .normal
    · cases stack with
      | nil => simp [handleToken, stackUses, hnormal, StackUse.Defined]
      | cons top stack =>
        have hback := back_defined_iff (pushToken token) stack top config
        have hturn : (handleToken ⟨config, top :: stack, last⟩ .normal token).isSome =
            (updateAt (modifyBack (pushToken token)) top config).isSome := by
          cases hu : updateAt (modifyBack (pushToken token)) top config with
          | none => simp [handleToken, hnormal, hu]
          | some config' => simp [handleToken, hnormal, hu, goOn]
        rw [hturn, ← hback]
        simp [stackUses, hnormal, StackUse.Defined]
    by_cases hnew : last = .start ∨ last = .statementEnd ∨ last = .startBlock ∨ last = .endBlock
    · cases stack with
      | nil => simp [handleToken, stackUses, hnormal, hnew, StackUse.Defined]
      | cons top stack =>
        cases hemplace : updateAt emplaceStatement top config with
        | none => simp [handleToken, stackUses, hnormal, hnew, StackUse.Defined, emplaced, topStatements, hemplace]
        | some config' =>
          have hback := back_defined_iff (pushToken token) stack top config'
          have hturn : (handleToken ⟨config, top :: stack, last⟩ .normal token).isSome =
              (updateAt (modifyBack (pushToken token)) top config').isSome := by
            cases hu : updateAt (modifyBack (pushToken token)) top config' with
            | none => simp [handleToken, hnormal, hnew, hemplace, hu]
            | some config' => simp [handleToken, hnormal, hnew, hemplace, hu, goOn]
          rw [hturn, ← hback]
          simp [stackUses, hnew, StackUse.Defined, emplaced, hemplace]
    · simp [handleToken, stackUses, hnormal, hnew, badTransition]

/-! ### The turns of a run -/

/-- **One turn** on the variables of a cursor is defined, and leaves the variables of a cursor. -/
theorem handleToken_cursor {z : Cursor} {last : TokenType} (h : LastOk z last) (input : Bytes) :
    ∃ turn, handleToken (z.state last) (parseToken input).1 (parseToken input).2.1 = some turn ∧
      ∀ st, turn = .inl st → ∃ z' last', st = z'.state last' ∧ LastOk z' last' := by
  cases htype : Token.ofType (parseToken input).2.1 (parseToken input).1 with
  | some t =>
    refine ⟨_, handleToken_refines h htype, ?_⟩
    intro st hst
    rw [turnOf] at hst
    cases hs : z.step t with
    | none => rw [hs] at hst; cases hst
    | some z' =>
      rw [hs] at hst
      exact ⟨z', t.type, (Sum.inl.inj hst).symm, lastOk_step hs⟩
  | none =>
    cases hty : (parseToken input).1 with
    | comment => exact ⟨_, rfl, fun st hst => ⟨z, last, (Sum.inl.inj hst).symm, h⟩⟩
    | eof => exact ⟨_, handleToken_eof_state h _, fun st hst => by cases hst⟩
    | start | error => exact ⟨_, rfl, fun st hst => by cases hst⟩
    | normal | startBlock | endBlock | statementEnd =>
      rw [hty] at htype
      cases htype

/-- **The variables of the parser are those of a cursor** whenever a turn starts. -/
theorem reaches_cursor {input rest : Bytes} {st : ParserState}
    (h : Reaches parseBody (input, initialState NginxConfig.empty) (rest, st)) :
    ∃ z last, st = Cursor.state z last ∧ LastOk z last := by
  refine h.invariant (fun s => ∃ z last, s.2 = Cursor.state z last ∧ LastOk z last) ?_ ?_
  · exact ⟨Cursor.start, .start, rfl, rfl⟩
  · intro s s' hs hbody
    obtain ⟨z, last, hstate, hlast⟩ := hs
    obtain ⟨turn, hturn, hnext⟩ := handleToken_cursor hlast s.1
    simp only [parseBody, hstate, hturn] at hbody
    cases turn with
    | inl st =>
      rw [← Sum.inl.inj hbody]
      exact hnext st rfl
    | inr r => cases hbody

/-- **Whatever the outcome, the parser leaves a well-formed tree.**  On every text it returns, and every
statement of the tree, at every depth, has a token, and no token is empty.  In every turn of the loop the stack
is not empty where its top is used or popped, and the vector is not where its last statement is used. -/
theorem parse_leaves_wellFormed (input : Bytes) :
    (∃ ok c, parse input = some (ok, c) ∧
      AllStatements (fun tokens => tokens ≠ [] ∧ ∀ token ∈ tokens, token ≠ []) c.statements) ∧
    ∀ rest st, Reaches parseBody (input, initialState NginxConfig.empty) (rest, st) →
      ∀ u ∈ stackUses st (parseToken rest).1, u.Defined := by
  constructor
  · obtain ⟨ts, e, hd⟩ := delivers_total input
    have hparse := parse_eq_outcome hd
    refine ⟨_, _, hparse, ?_⟩
    exact (allStatements_of_parse hparse).mono fun tokens h => ⟨h.1, fun token ht => (h.2 token ht).ne_nil⟩
  · intro rest st hreach
    obtain ⟨z, last, rfl, hlast⟩ := reaches_cursor hreach
    obtain ⟨turn, hturn, -⟩ := handleToken_cursor hlast rest
    exact (handleToken_isSome_iff _ _ _).mp (by rw [hturn]; rfl)

/-- A text that ends inside of a block and inside of a statement. -/
example : parse (bytes "a \x7bb c \x7b\"d\"; e ") = some (false, ⟨[⟨[bytes "a"],
    some ⟨[⟨[bytes "b", bytes "c"], some ⟨[⟨[bytes "\"d\""], none⟩, ⟨[bytes "e"], none⟩]⟩⟩]⟩⟩]⟩) := by rfl

end Webserver.ConfigLanguage
