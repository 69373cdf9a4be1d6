import Webserver.Config.ConfigTree
import Webserver.Config.ConfigLexer
import Webserver.Support.BoundedLoop

/-!
# `NginxConfigParser::Parse`

The parser builds the tree through a stack of raw `NginxConfig*`.  A pointer is modelled by the way to
the object it points at: the indices of the statements whose child blocks are entered from the root.
Statements are only ever added at the end of a block, so a way keeps denoting the same object.

`statements.back()` of an empty vector, `top()` and `pop()` of an empty stack and a dangling pointer are
undefined behaviour and make the result `none`.  A bad transition leaves the loop with `false` and the
tree as it is.
-/

namespace Webserver.ConfigParser

open ByteString BoundedLoop ConfigTree ConfigLexer

/-- A `NginxConfig*` into the tree that is being built. -/
abbrev ConfigPtr := List ℕ

/-- The statements of the object a pointer points at. -/
def statementsAt : ConfigPtr → NginxConfig → Option (List NginxConfigStatement)
  | [], c => some c.statements
  | i :: p, c => do
    let s ← c.statements[i]?
    let b ← s.childBlock
    statementsAt p b

/-- Change the statements of the object a pointer points at. -/
def updateAt (f : List NginxConfigStatement → Option (List NginxConfigStatement)) :
    ConfigPtr → NginxConfig → Option NginxConfig
  | [], c => (f c.statements).map NginxConfig.mk
  | i :: p, c => do
    let s ← c.statements[i]?
    let b ← s.childBlock
    let b' ← updateAt f p b
    some ⟨c.statements.set i ⟨s.tokens, some b'⟩⟩

/-- `statements.emplace_back(new NginxConfigStatement)`. -/
def emplaceStatement (ss : List NginxConfigStatement) : Option (List NginxConfigStatement) :=
  some (ss ++ [⟨[], none⟩])

/-- Change `statements.back()`, which must exist. -/
def modifyBack (f : NginxConfigStatement → NginxConfigStatement) (ss : List NginxConfigStatement) :
    Option (List NginxConfigStatement) := do
  let s ← ss.getLast?
  some (ss.dropLast ++ [f s])

/-- `tokens.push_back(token)`. -/
def pushToken (token : Bytes) (s : NginxConfigStatement) : NginxConfigStatement :=
  ⟨s.tokens ++ [token], s.childBlock⟩

/-- `child_block.reset(new NginxConfig)`. -/
def resetChildBlock (s : NginxConfigStatement) : NginxConfigStatement :=
  ⟨s.tokens, some NginxConfig.empty⟩

/-- The variables of `Parse`, apart from the stream. -/
structure ParserState where
  config : NginxConfig
  configStack : List ConfigPtr
  lastTokenType : TokenType

/-- The end of one turn: stay in the loop, or return. -/
abbrev Turn := ParserState ⊕ Bool × NginxConfig

/-- Leave the loop over a bad transition. -/
def badTransition (st : ParserState) : Option Turn := some (.inr (false, st.config))

/-- Assign `last_token_type` and go on. -/
def goOn (st : ParserState) (tokenType : TokenType) : Option Turn :=
  some (.inl { st with lastTokenType := tokenType })

/-- One turn of the `while (true)` loop, after `ParseToken` has returned. -/
def handleToken (st : ParserState) (tokenType : TokenType) (token : Bytes) : Option Turn :=
  match tokenType with
  | .error => badTransition st
  | .comment => some (.inl st)
  | .start => badTransition st
  | .normal =>
    if st.lastTokenType = .start ∨ st.lastTokenType = .statementEnd ∨
        st.lastTokenType = .startBlock ∨ st.lastTokenType = .endBlock ∨
        st.lastTokenType = .normal then do
      let top ← st.configStack.head?
      let config ←
        if st.lastTokenType ≠ .normal then updateAt emplaceStatement top st.config
        else some st.config
      let config ← updateAt (modifyBack (pushToken token)) top config
      goOn { st with config := config } .normal
    else badTransition st
  | .statementEnd =>
    if st.lastTokenType ≠ .normal then badTransition st
    else goOn st .statementEnd
  | .startBlock =>
    if st.lastTokenType ≠ .normal then badTransition st
    else do
      let top ← st.configStack.head?
      let ss ← statementsAt top st.config
      let config ← updateAt (modifyBack resetChildBlock) top st.config
      let newConfig := top ++ [ss.length - 1]
      goOn { st with config := config, configStack := newConfig :: st.configStack } .startBlock
  | .endBlock =>
    if st.lastTokenType ≠ .statementEnd ∧ st.lastTokenType ≠ .endBlock ∧
        st.lastTokenType ≠ .startBlock then badTransition st
    else if st.configStack.length ≤ 1 then some (.inr (false, st.config))
    else goOn { st with configStack := st.configStack.tail } .endBlock
  | .eof =>
    if st.lastTokenType ≠ .statementEnd ∧ st.lastTokenType ≠ .endBlock then badTransition st
    else if st.configStack.length ≠ 1 then some (.inr (false, st.config))
    else some (.inr (true, st.config))

/-- The loop body: call `ParseToken`, then handle the token. -/
def parseBody (s : Bytes × ParserState) :
    (Bytes × ParserState) ⊕ Option (Bool × NginxConfig) :=
  let (tokenType, token, rest) := parseToken s.1
  match handleToken s.2 tokenType token with
  | none => .inr none
  | some (.inl st) => .inl (rest, st)
  | some (.inr r) => .inr (some r)

/-- The variables of `Parse` before the loop, for the config the caller passed in. -/
def initialState (config : NginxConfig) : ParserState := ⟨config, [[]], .start⟩

/-- `NginxConfigParser::Parse` into a fresh config: the return value and the tree; `none` for undefined
behaviour.  One turn for each byte, and one for the end of the stream, are enough turns. -/
def parse (input : Bytes) : Option (Bool × NginxConfig) :=
  (runLoop parseBody (input.length + 1) (input, initialState NginxConfig.empty)).join

/-! ### The loop ends -/

theorem handleToken_eof (st : ParserState) (token : Bytes) :
    ∃ r, handleToken st .eof token = some (.inr r) := by
  simp only [handleToken, badTransition]
  split_ifs <;> exact ⟨_, rfl⟩

/-- A turn that stays in the loop has taken a byte of the stream. -/
theorem parseBody_decreases {s s' : Bytes × ParserState} (h : parseBody s = .inl s') :
    s'.1.length < s.1.length := by
  obtain ⟨input, st⟩ := s
  cases input with
  | nil =>
    obtain ⟨r, hr⟩ := handleToken_eof st []
    simp [parseBody, parseToken_nil, hr] at h
  | cons c input =>
    have hle := parseToken_rest_le c input
    simp only [parseBody] at h
    split at h
    · cases h
    · rw [← Sum.inl.inj h]
      exact Nat.lt_succ_of_le hle
    · cases h

/-- **`parse` is what the loop returns**: the turns allowed are always enough. -/
theorem parse_eq_of_returns {input : Bytes} {r : Option (Bool × NginxConfig)}
    (h : Returns parseBody (input, initialState NginxConfig.empty) r) : parse input = r := by
  obtain ⟨r', hr'⟩ := runLoop_of_variant (fun _ => True) (fun s : Bytes × ParserState => s.1.length)
    (fun _ _ _ hb => ⟨trivial, parseBody_decreases hb⟩) (input.length + 1)
    (input, initialState NginxConfig.empty) trivial (Nat.lt_succ_self _)
  rw [parse, hr', h.unique ⟨_, hr'⟩]
  rfl

/-- The tree of the unit test `EmptyChildBlock`. -/
example : parse (bytes "foo bar {} ") =
    some (true, ⟨[⟨[bytes "foo", bytes "bar"], some ⟨[]⟩⟩]⟩) := by rfl

end Webserver.ConfigParser
