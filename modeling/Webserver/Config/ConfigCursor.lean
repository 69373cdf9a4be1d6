import Webserver.Config.ConfigGrammar

/-!
# The parser as an automaton on trees with a cursor

A `Cursor` is a tree that is being read: the blocks still open, from the innermost outwards, each with the
statements before the open one and the words of the open one; the statements already complete in the
current block; and the words of the statement being read.  It knows no pointers and no previous token.

`Cursor.step` reads one token.  `run_eq_iff` says that the automaton accepts the block grammar, and
`handleToken_refines` that the pointer-based parser is this automaton: its stack holds the ways to the
open blocks and its previous token type is determined by the cursor.  So what `Parse` returns is the outcome
of the token sequence (`parse_eq_outcome`), also when it fails.
-/

namespace Webserver.ConfigCursor

open ByteString BoundedLoop ConfigTree ConfigLexer ConfigParser ConfigGrammar

/-- A block that is still open: the statements before, and the words in front of its brace. -/
abbrev Frame := List NginxConfigStatement × List Bytes

structure Cursor where
  frames : List Frame
  done : List NginxConfigStatement
  words : List Bytes

namespace Cursor

def start : Cursor := ⟨[], [], []⟩

/-- Read one token; `none` when no text can start like that. -/
def step (z : Cursor) : Token → Option Cursor
  | .word w => some { z with words := z.words ++ [w] }
  | .semicolon =>
    if z.words = [] then none else some ⟨z.frames, z.done ++ [⟨z.words, none⟩], []⟩
  | .openBrace =>
    if z.words = [] then none else some ⟨(z.done, z.words) :: z.frames, [], []⟩
  | .closeBrace =>
    if z.words ≠ [] then none
    else
      match z.frames with
      | [] => none
      | (d, w) :: fs => some ⟨fs, d ++ [⟨w, some ⟨z.done⟩⟩], []⟩

/-- Read a token sequence. -/
def run (z : Cursor) : List Token → Option Cursor
  | [] => some z
  | t :: ts => (z.step t).bind fun z' => z'.run ts

/-- A complete configuration: nothing open, nothing unfinished, at least one statement. -/
def Accepting (z : Cursor) : Prop := z.frames = [] ∧ z.words = [] ∧ z.done ≠ []

/-! ### The tokens behind a cursor -/

def spellFrames : List Frame → List Token
  | [] => []
  | (d, w) :: fs => spellFrames fs ++ spell d ++ w.map .word ++ [.openBrace]

/-- The tokens a cursor has read. -/
def tokens (z : Cursor) : List Token := spellFrames z.frames ++ spell z.done ++ z.words.map .word

/-- Every statement of the cursor, complete or open, has words. -/
structure Ok (z : Cursor) : Prop where
  frames : ∀ f ∈ z.frames, f.2 ≠ [] ∧ AllStatements (· ≠ []) f.1
  done : AllStatements (· ≠ []) z.done

theorem ok_start : start.Ok := ⟨by simp [start], .nil⟩

theorem tokens_start : start.tokens = [] := by simp [tokens, start, spellFrames, spell]

/-- What one step can do. -/
inductive Transition : Cursor → Token → Cursor → Prop
  | word {z : Cursor} {w : Bytes} : Transition z (.word w) { z with words := z.words ++ [w] }
  | semicolon {z : Cursor} (hw : z.words ≠ []) :
      Transition z .semicolon ⟨z.frames, z.done ++ [⟨z.words, none⟩], []⟩
  | openBrace {z : Cursor} (hw : z.words ≠ []) : Transition z .openBrace ⟨(z.done, z.words) :: z.frames, [], []⟩
  | closeBrace {d done : List NginxConfigStatement} {w : List Bytes} {fs : List Frame} :
      Transition ⟨(d, w) :: fs, done, []⟩ .closeBrace ⟨fs, d ++ [⟨w, some ⟨done⟩⟩], []⟩

theorem step_transition {z z' : Cursor} {t : Token} (h : z.step t = some z') : Transition z t z' := by
  cases t with
  | word w =>
    obtain rfl := Option.some.inj h
    exact .word
  | semicolon =>
    simp only [step] at h
    split_ifs at h with hw
    obtain rfl := Option.some.inj h
    exact .semicolon hw
  | openBrace =>
    simp only [step] at h
    split_ifs at h with hw
    obtain rfl := Option.some.inj h
    exact .openBrace hw
  | closeBrace =>
    obtain ⟨frames, done, words⟩ := z
    simp only [step] at h
    split_ifs at h with hw
    obtain rfl := not_not.mp hw
    cases frames with
    | nil => cases h
    | cons f fs =>
      obtain rfl := Option.some.inj h
      exact .closeBrace

/-- **One step** reads exactly its token and keeps the statements non-empty. -/
theorem step_spec {z z' : Cursor} {t : Token} (hz : z.Ok) (h : z.step t = some z') :
    z'.Ok ∧ z'.tokens = z.tokens ++ [t] := by
  cases step_transition h with
  | word => exact ⟨⟨hz.frames, hz.done⟩, by simp [tokens]⟩
  | semicolon hw =>
    refine ⟨⟨hz.frames, hz.done.append (.simple hw .nil)⟩, ?_⟩
    simp [tokens, spell_append, spell]
  | openBrace hw =>
    refine ⟨⟨?_, .nil⟩, by simp [tokens, spellFrames, spell]⟩
    exact List.forall_mem_cons.mpr ⟨⟨hw, hz.done⟩, hz.frames⟩
  | closeBrace =>
    obtain ⟨hf, hframes⟩ := List.forall_mem_cons.mp hz.frames
    refine ⟨⟨hframes, hf.2.append (.block hf.1 hz.done .nil)⟩, ?_⟩
    simp [tokens, spellFrames, spell_append, spell]

/-- **A run** reads exactly its tokens. -/
theorem run_spec {ts : List Token} {z z' : Cursor} (hz : z.Ok) (h : z.run ts = some z') :
    z'.Ok ∧ z'.tokens = z.tokens ++ ts := by
  induction ts generalizing z with
  | nil =>
    obtain rfl := Option.some.inj h
    exact ⟨hz, by rw [List.append_nil]⟩
  | cons t ts ih =>
    rw [run, Option.bind_eq_some_iff] at h
    obtain ⟨y, hy, hrun⟩ := h
    obtain ⟨hyok, hytok⟩ := step_spec hz hy
    obtain ⟨hok, htok⟩ := ih hyok hrun
    exact ⟨hok, by rw [htok, hytok, List.append_assoc, List.singleton_append]⟩

theorem run_append (z : Cursor) (ts us : List Token) :
    z.run (ts ++ us) = (z.run ts).bind fun z' => z'.run us := by
  induction ts generalizing z with
  | nil => rfl
  | cons t ts ih =>
    rw [List.cons_append, run, run]
    cases z.step t with
    | none => rfl
    | some y => exact ih y

theorem run_words (z : Cursor) (ws : List Bytes) :
    z.run (ws.map .word) = some { z with words := z.words ++ ws } := by
  induction ws generalizing z with
  | nil => simp [run]
  | cons w ws ih =>
    show Cursor.run ⟨z.frames, z.done, z.words ++ [w]⟩ (ws.map .word) = _
    rw [ih, List.append_assoc, List.singleton_append]

/-- Reading the tokens of complete statements appends them to the current block. -/
theorem run_spell {ss : List NginxConfigStatement} (h : AllStatements (· ≠ []) ss)
    (frames : List Frame) (done : List NginxConfigStatement) :
    run ⟨frames, done, []⟩ (spell ss) = some ⟨frames, done ++ ss, []⟩ := by
  induction h generalizing frames done with
  | nil => simp [spell, run]
  | @simple ws ss hws _ ih =>
    rw [spell, run_append, run_append, run_words]
    simp [run, step, hws, ih]
  | @block ws bs ss hws _ _ ihb ih =>
    rw [spell, run_append, run_append, run_append, run_append, run_words]
    simp [run, step, hws, ihb, ih]

/-- **The automaton accepts exactly the block grammar**, with the derivation tree. -/
theorem run_eq_iff {ts : List Token} {c : NginxConfig} :
    (∃ z, start.run ts = some z ∧ z.Accepting ∧ c = ⟨z.done⟩) ↔ DerivesConfig ts c := by
  rw [derivesConfig_iff]
  constructor
  · rintro ⟨z, hrun, ⟨hframes, hwords, hdone⟩, rfl⟩
    obtain ⟨hok, htok⟩ := run_spec ok_start hrun
    refine ⟨hdone, hok.done, ?_⟩
    rw [tokens_start, List.nil_append] at htok
    rw [← htok, tokens, hframes, hwords]
    simp [spellFrames]
  · rintro ⟨hne, hall, rfl⟩
    refine ⟨⟨[], c.statements, []⟩, ?_, ⟨rfl, rfl, hne⟩, c.mk_statements.symm⟩
    simpa [start] using run_spell hall [] []

end Cursor

/-! ### The pointer-based parser -/

/-- The statement being read, as the parser has already put it into the tree. -/
def openStatement (words : List Bytes) : List NginxConfigStatement :=
  if words = [] then [] else [⟨words, none⟩]

/-- The whole tree: the current block inside its open blocks. -/
def plug : List Frame → List NginxConfigStatement → NginxConfig
  | [], ss => ⟨ss⟩
  | (d, w) :: fs, ss => plug fs (d ++ [⟨w, some ⟨ss⟩⟩])

/-- The way to the innermost open block. -/
def pointer : List Frame → ConfigPtr
  | [] => []
  | (d, _) :: fs => pointer fs ++ [d.length]

/-- The parser's stack: the ways to all open blocks. -/
def stackOf : List Frame → List ConfigPtr
  | [] => [[]]
  | f :: fs => pointer (f :: fs) :: stackOf fs

theorem stackOf_head (fs : List Frame) : (stackOf fs).head? = some (pointer fs) := by
  cases fs <;> rfl

theorem stackOf_length (fs : List Frame) : (stackOf fs).length = fs.length + 1 := by
  induction fs with
  | nil => rfl
  | cons f fs ih => rw [stackOf, List.length_cons, ih, List.length_cons]

theorem statementsAt_plug (fs : List Frame) (ss : List NginxConfigStatement) (p : ConfigPtr) :
    statementsAt (pointer fs ++ p) (plug fs ss) = statementsAt p ⟨ss⟩ := by
  induction fs generalizing ss p with
  | nil => rfl
  | cons f fs ih =>
    obtain ⟨d, w⟩ := f
    rw [pointer, plug, List.append_assoc, ih]
    simp [statementsAt]

theorem updateAt_plug (f : List NginxConfigStatement → Option (List NginxConfigStatement))
    (fs : List Frame) (ss : List NginxConfigStatement) (p : ConfigPtr) :
    updateAt f (pointer fs ++ p) (plug fs ss) =
      (updateAt f p ⟨ss⟩).map fun c => plug fs c.statements := by
  induction fs generalizing ss p with
  | nil =>
    show updateAt f p ⟨ss⟩ = (updateAt f p ⟨ss⟩).map fun c => ⟨c.statements⟩
    simp only [NginxConfig.mk_statements]
    exact Option.map_id'.symm
  | cons g fs ih =>
    obtain ⟨d, w⟩ := g
    rw [pointer, plug, List.append_assoc, ih]
    cases h : updateAt f p ⟨ss⟩ with
    | none => simp [updateAt, h]
    | some c => simp [updateAt, h, plug, NginxConfig.mk_statements]

/-- Statements of the innermost open block are read and changed in place. -/
theorem statementsAt_pointer (fs : List Frame) (ss : List NginxConfigStatement) :
    statementsAt (pointer fs) (plug fs ss) = some ss := by
  simpa [statementsAt] using statementsAt_plug fs ss []

theorem updateAt_pointer (f : List NginxConfigStatement → Option (List NginxConfigStatement))
    (fs : List Frame) (ss : List NginxConfigStatement) :
    updateAt f (pointer fs) (plug fs ss) = (f ss).map (plug fs) := by
  have h := updateAt_plug f fs ss []
  rw [List.append_nil] at h
  rw [h]
  simp [updateAt, Function.comp_def]

theorem modifyBack_append (f : NginxConfigStatement → NginxConfigStatement)
    (ss : List NginxConfigStatement) (s : NginxConfigStatement) :
    modifyBack f (ss ++ [s]) = some (ss ++ [f s]) := by
  simp [modifyBack]

/-- The parser's variables when its tree is the cursor's. -/
def Cursor.state (z : Cursor) (last : TokenType) : ParserState :=
  ⟨plug z.frames (z.done ++ openStatement z.words), stackOf z.frames, last⟩

/-- What the previous token type says about the cursor. -/
def LastOk (z : Cursor) : TokenType → Prop
  | .start => z = Cursor.start
  | .normal => z.words ≠ []
  | .startBlock => z.words = [] ∧ z.frames ≠ [] ∧ z.done = []
  | .statementEnd | .endBlock => z.words = [] ∧ z.done ≠ []
  | _ => False

theorem words_eq_nil_iff {z : Cursor} {last : TokenType} (h : LastOk z last) :
    z.words = [] ↔ last ≠ .normal := by
  cases last with
  | start =>
    obtain rfl : z = Cursor.start := h
    simp [Cursor.start]
  | normal =>
    have hw : z.words ≠ [] := h
    simpa using hw
  | startBlock => simpa using h.1
  | statementEnd => simpa using h.1
  | endBlock => simpa using h.1
  | comment => exact h.elim
  | eof => exact h.elim
  | error => exact h.elim

theorem complete_iff {z : Cursor} {last : TokenType} (h : LastOk z last) :
    z.words = [] ∧ z.done ≠ [] ↔ last = .statementEnd ∨ last = .endBlock := by
  cases last with
  | start =>
    obtain rfl : z = Cursor.start := h
    simp [Cursor.start]
  | normal =>
    have hw : z.words ≠ [] := h
    simp [hw]
  | startBlock => simp [h.2.2]
  | statementEnd => exact ⟨fun _ => .inl rfl, fun _ => h⟩
  | endBlock => exact ⟨fun _ => .inr rfl, fun _ => h⟩
  | comment => exact h.elim
  | eof => exact h.elim
  | error => exact h.elim

theorem lastOk_step {z z' : Cursor} {t : Token} (h : z.step t = some z') : LastOk z' t.type := by
  cases Cursor.step_transition h with
  | word =>
    show z.words ++ [_] ≠ []
    simp
  | semicolon => exact ⟨rfl, by simp⟩
  | openBrace => exact ⟨rfl, by simp, rfl⟩
  | closeBrace => exact ⟨rfl, by simp⟩

/-- What a turn of the parser does, in terms of the automaton. -/
def turnOf (z : Cursor) (last : TokenType) (t : Token) : Turn :=
  match z.step t with
  | some z' => .inl (z'.state t.type)
  | none => .inr (false, (z.state last).config)

theorem handleToken_word {z : Cursor} {last : TokenType} (h : LastOk z last) (w : Bytes) :
    handleToken (z.state last) .normal w = some (turnOf z last (.word w)) := by
  have hlast : last = .start ∨ last = .statementEnd ∨ last = .startBlock ∨ last = .endBlock ∨
      last = .normal := by
    cases last <;> first | exact h.elim | simp
  have hne : z.words ++ [w] ≠ [] := by simp
  have hstate : (z.state last).lastTokenType = last := rfl
  simp only [handleToken, hstate, if_pos hlast]
  by_cases hn : last = .normal
  · have hw : z.words ≠ [] := fun hnil => (words_eq_nil_iff h).mp hnil hn
    simp [Cursor.state, stackOf_head, hn, openStatement, hw, updateAt_pointer, modifyBack_append,
      pushToken, goOn, turnOf, Cursor.step, Token.type]
  · have hw : z.words = [] := (words_eq_nil_iff h).mpr hn
    simp [Cursor.state, stackOf_head, hn, openStatement, hw, updateAt_pointer, emplaceStatement,
      modifyBack_append, pushToken, goOn, turnOf, Cursor.step, Token.type]

theorem handleToken_semicolon {z : Cursor} {last : TokenType} (h : LastOk z last) (v : Bytes) :
    handleToken (z.state last) .statementEnd v = some (turnOf z last .semicolon) := by
  have hstate : (z.state last).lastTokenType = last := rfl
  simp only [handleToken, hstate, turnOf, Cursor.step]
  by_cases hn : last = .normal
  · have hw : z.words ≠ [] := fun hnil => (words_eq_nil_iff h).mp hnil hn
    simp [hn, hw, goOn, Cursor.state, openStatement, Token.type]
  · have hw : z.words = [] := (words_eq_nil_iff h).mpr hn
    simp [hn, hw, badTransition]

theorem handleToken_openBrace {z : Cursor} {last : TokenType} (h : LastOk z last) (v : Bytes) :
    handleToken (z.state last) .startBlock v = some (turnOf z last .openBrace) := by
  have hstate : (z.state last).lastTokenType = last := rfl
  simp only [handleToken, hstate, turnOf, Cursor.step]
  by_cases hn : last = .normal
  · have hw : z.words ≠ [] := fun hnil => (words_eq_nil_iff h).mp hnil hn
    simp [hn, hw, goOn, Cursor.state, openStatement, Token.type, stackOf_head, statementsAt_pointer,
      updateAt_pointer, modifyBack_append, resetChildBlock, plug, stackOf, pointer,
      NginxConfig.empty]
  · have hw : z.words = [] := (words_eq_nil_iff h).mpr hn
    simp [hn, hw, badTransition]

theorem handleToken_closeBrace {z : Cursor} {last : TokenType} (h : LastOk z last) (v : Bytes) :
    handleToken (z.state last) .endBlock v = some (turnOf z last .closeBrace) := by
  have hstate : (z.state last).lastTokenType = last := rfl
  obtain ⟨frames, done, words⟩ := z
  simp only [handleToken, hstate, turnOf, Cursor.step]
  cases last with
  | start =>
    obtain ⟨rfl, rfl, rfl⟩ : frames = [] ∧ done = [] ∧ words = [] := by
      simpa [Cursor.start] using (show Cursor.mk frames done words = Cursor.start from h)
    simp [badTransition]
  | normal =>
    have hw : words ≠ [] := h
    simp [badTransition, hw]
  | startBlock | statementEnd | endBlock =>
    obtain rfl : words = [] := h.1
    cases frames with
    | nil => simp [Cursor.state, stackOf]
    | cons f fs =>
      simp [Cursor.state, stackOf, stackOf_length, goOn, plug, openStatement, Token.type]
  | comment => exact h.elim
  | eof => exact h.elim
  | error => exact h.elim

/-- **Refinement.**  On every token the pointer-based parser does what the automaton does, and it never
meets undefined behaviour. -/
theorem handleToken_refines {z : Cursor} {last tokenType : TokenType} {v : Bytes} {t : Token}
    (h : LastOk z last) (ht : Token.ofType v tokenType = some t) :
    handleToken (z.state last) tokenType v = some (turnOf z last t) := by
  cases tokenType with
  | normal =>
    obtain rfl := Option.some.inj ht
    exact handleToken_word h v
  | statementEnd =>
    obtain rfl := Option.some.inj ht
    exact handleToken_semicolon h v
  | startBlock =>
    obtain rfl := Option.some.inj ht
    exact handleToken_openBrace h v
  | endBlock =>
    obtain rfl := Option.some.inj ht
    exact handleToken_closeBrace h v
  | start | comment | eof | error => cases ht

theorem type_of_ofType {v : Bytes} {tokenType : TokenType} {t : Token}
    (h : Token.ofType v tokenType = some t) : t.type = tokenType := by
  cases tokenType <;> first | (cases h; rfl) | cases h

/-! ### The outcome of a token sequence -/

instance : DecidablePred Cursor.Accepting := fun z =>
  inferInstanceAs (Decidable (z.frames = [] ∧ z.words = [] ∧ z.done ≠ []))

namespace Cursor

/-- The tree as far as it has been read. -/
def config (z : Cursor) : NginxConfig := plug z.frames (z.done ++ openStatement z.words)

theorem state_config (z : Cursor) (last : TokenType) : (z.state last).config = z.config := rfl

/-- The result and the tree when these tokens come, and then the end of the file or an error. -/
def outcome (z : Cursor) : List Token → Ending → Bool × NginxConfig
  | [], .error => (false, z.config)
  | [], .eof => (decide z.Accepting, z.config)
  | t :: ts, e =>
    match z.step t with
    | none => (false, z.config)
    | some z' => z'.outcome ts e

theorem outcome_cons_of_none {z : Cursor} {t : Token} (h : z.step t = none) (ts : List Token) (e : Ending) :
    z.outcome (t :: ts) e = (false, z.config) := by
  rw [outcome, h]

theorem outcome_cons_of_some {z z' : Cursor} {t : Token} (h : z.step t = some z') (ts : List Token)
    (e : Ending) : z.outcome (t :: ts) e = z'.outcome ts e := by
  rw [outcome, h]

theorem config_of_accepting {z : Cursor} (h : z.Accepting) : z.config = ⟨z.done⟩ := by
  rw [config, h.1, h.2.1]
  show (⟨z.done ++ []⟩ : NginxConfig) = _
  rw [List.append_nil]

/-- The outcome is good exactly when the run ends in a complete configuration. -/
theorem outcome_eq_true_iff {z : Cursor} {ts : List Token} {e : Ending} {c : NginxConfig} :
    z.outcome ts e = (true, c) ↔
      e = .eof ∧ ∃ z', z.run ts = some z' ∧ z'.Accepting ∧ c = ⟨z'.done⟩ := by
  induction ts generalizing z with
  | nil =>
    cases e with
    | error => exact iff_of_false (fun h => by cases h) (fun h => by cases h.1)
    | eof =>
      rw [outcome, Prod.mk.injEq, decide_eq_true_iff, run]
      constructor
      · intro h
        exact ⟨rfl, z, rfl, h.1, h.2.symm.trans (config_of_accepting h.1)⟩
      · intro h
        obtain ⟨-, z', hz', hacc, rfl⟩ := h
        obtain rfl := Option.some.inj hz'
        exact ⟨hacc, config_of_accepting hacc⟩
  | cons t ts ih =>
    cases hs : z.step t with
    | none =>
      rw [outcome_cons_of_none hs, run, hs]
      refine iff_of_false (fun h => by cases h) ?_
      intro h
      obtain ⟨-, z', hz', -⟩ := h
      cases hz'
    | some z₁ =>
      rw [outcome_cons_of_some hs, ih, run, hs]
      exact Iff.rfl

end Cursor

/-- At the end of the file the parser accepts exactly a complete configuration. -/
theorem handleToken_eof_state {z : Cursor} {last : TokenType} (h : LastOk z last) (v : Bytes) :
    handleToken (z.state last) .eof v = some (.inr (z.outcome [] .eof)) := by
  have hstate : (z.state last).lastTokenType = last := rfl
  have hstack : (z.state last).configStack.length = z.frames.length + 1 := stackOf_length _
  have hconfig : (z.state last).config = z.config := rfl
  simp only [handleToken, hstate, hstack, badTransition, hconfig, Cursor.outcome]
  by_cases hl : last = .statementEnd ∨ last = .endBlock
  · obtain ⟨hw, hd⟩ := (complete_iff h).mpr hl
    rw [if_neg (by tauto)]
    by_cases hf : z.frames = []
    · rw [if_neg (by simp [hf]), decide_eq_true ⟨hf, hw, hd⟩]
    · rw [if_pos (by simpa using hf), decide_eq_false fun hz => hf hz.1]
  · rw [if_pos (by tauto), decide_eq_false fun hz => hl ((complete_iff h).mp hz.2)]

/-- **The run of the parser** on a text is the run of the automaton on its token sequence. -/
theorem returns_outcome {input : Bytes} {ts : List Token} {e : Ending} (hd : Delivers input ts e)
    {z : Cursor} {last : TokenType} (h : LastOk z last) :
    Returns parseBody (input, z.state last) (some (z.outcome ts e)) := by
  induction hd generalizing z last with
  | @eof input ht =>
    apply returns_of_inr
    simp [parseBody, ht, handleToken_eof_state h]
  | @error input ht =>
    apply returns_of_inr
    simp [parseBody, ht, handleToken, badTransition, Cursor.state_config, Cursor.outcome]
  | @comment input ts e ht _ ih =>
    refine (returns_iff_of_inl ?_).mpr (ih h)
    simp [parseBody, ht, handleToken]
  | @token input t ts e ht _ ih =>
    have hturn := handleToken_refines h ht
    cases hs : z.step t with
    | none =>
      rw [Cursor.outcome_cons_of_none hs]
      apply returns_of_inr
      simp [parseBody, hturn, turnOf, hs, Cursor.state_config]
    | some z' =>
      rw [Cursor.outcome_cons_of_some hs]
      refine (returns_iff_of_inl ?_).mpr (ih (lastOk_step hs))
      simp [parseBody, hturn, turnOf, hs]

/-- `Parse` returns the outcome of the token sequence of its text. -/
theorem parse_eq_outcome {input : Bytes} {ts : List Token} {e : Ending} (hd : Delivers input ts e) :
    parse input = some (Cursor.start.outcome ts e) :=
  parse_eq_of_returns (returns_outcome hd (show LastOk Cursor.start .start from rfl))

end Webserver.ConfigCursor
