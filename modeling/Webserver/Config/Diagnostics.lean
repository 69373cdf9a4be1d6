import Mathlib.Data.List.Chain
import Webserver.Config.ConfigCursor

/-!
# What `Parse` prints

`NginxConfigParser::Parse` prints one line when it rejects a text: that there are too many left or right braces, or
which token type came behind which.  The loop is the one of `ConfigParser`, with the line beside the result.

* `returns_complaint` — the printed line, as the automaton on cursors sees it.
* `parseReporting_spec` — a line is printed for a rejected text only, and it is right about the text.
-/

namespace Webserver.ConfigDiagnostics

open ByteString BoundedLoop ConfigTree ConfigLexer ConfigParser ConfigGrammar ConfigCursor

/-! ### The printed lines -/

/-- `TokenTypeAsString`. -/
def tokenTypeAsString : TokenType → Bytes
  | .start => bytes "TOKEN_TYPE_START"
  | .normal => bytes "TOKEN_TYPE_NORMAL"
  | .startBlock => bytes "TOKEN_TYPE_START_BLOCK"
  | .endBlock => bytes "TOKEN_TYPE_END_BLOCK"
  | .comment => bytes "TOKEN_TYPE_COMMENT"
  | .statementEnd => bytes "TOKEN_TYPE_STATEMENT_END"
  | .eof => bytes "TOKEN_TYPE_EOF"
  | .error => bytes "TOKEN_TYPE_ERROR"

inductive Message where
  | tooManyRight
  | tooManyLeft
  | badTransition (last type : TokenType)
  deriving DecidableEq

/-- The text that is printed. -/
def Message.text : Message → Bytes
  | tooManyRight => bytes "Unbalanced curly braces: too many right braces\n"
  | tooManyLeft => bytes "Unbalanced curly braces: too many left braces\n"
  | badTransition last type =>
    bytes "Bad transition from " ++ tokenTypeAsString last ++ bytes " to " ++ tokenTypeAsString type ++ bytes "\n"

/-- What one turn of the loop prints. -/
def printed (st : ParserState) (tokenType : TokenType) : Option Message :=
  match tokenType with
  | .error | .start => some (.badTransition st.lastTokenType tokenType)
  | .comment => none
  | .normal =>
    if st.lastTokenType = .start ∨ st.lastTokenType = .statementEnd ∨
        st.lastTokenType = .startBlock ∨ st.lastTokenType = .endBlock ∨
        st.lastTokenType = .normal then none
    else some (.badTransition st.lastTokenType tokenType)
  | .statementEnd | .startBlock =>
    if st.lastTokenType ≠ .normal then some (.badTransition st.lastTokenType tokenType) else none
  | .endBlock =>
    if st.lastTokenType ≠ .statementEnd ∧ st.lastTokenType ≠ .endBlock ∧
        st.lastTokenType ≠ .startBlock then some (.badTransition st.lastTokenType tokenType)
    else if st.configStack.length ≤ 1 then some .tooManyRight
    else none
  | .eof =>
    if st.lastTokenType ≠ .statementEnd ∧ st.lastTokenType ≠ .endBlock then
      some (.badTransition st.lastTokenType tokenType)
    else if st.configStack.length ≠ 1 then some .tooManyLeft
    else none

/-- The loop body of `Parse`; the turn that leaves the loop may print. -/
def reportBody (s : Bytes × ParserState) :
    (Bytes × ParserState) ⊕ Option (Option Message × Bool × NginxConfig) :=
  let (tokenType, token, rest) := parseToken s.1
  match handleToken s.2 tokenType token with
  | none => .inr none
  | some (.inl st) => .inl (rest, st)
  | some (.inr r) => .inr (some (printed s.2 tokenType, r))

/-- `Parse` into a fresh config, with what it prints. -/
def parseReporting (input : Bytes) : Option (Option Message × Bool × NginxConfig) :=
  (runLoop reportBody (input.length + 1) (input, initialState NginxConfig.empty)).join

/-- The loop is left where that of `parse` is left. -/
theorem parseReporting_of_returns {input : Bytes} {r : Option (Option Message × Bool × NginxConfig)}
    (h : Returns reportBody (input, initialState NginxConfig.empty) r) : parseReporting input = r := by
  have hdecreases : ∀ s s' : Bytes × ParserState, reportBody s = .inl s' → s'.1.length < s.1.length := by
    intro s s' hbody
    refine parseBody_decreases ?_
    simp only [reportBody] at hbody
    simp only [parseBody]
    cases hturn : handleToken s.2 (parseToken s.1).1 (parseToken s.1).2.1 with
    | none => rw [hturn] at hbody; cases hbody
    | some turn =>
      rw [hturn] at hbody
      cases turn with
      | inl st => exact congrArg Sum.inl (Sum.inl.inj hbody)
      | inr r => cases hbody
  obtain ⟨r', hr'⟩ := runLoop_of_variant (fun _ => True) (fun s : Bytes × ParserState => s.1.length)
    (fun s s' _ hb => ⟨trivial, hdecreases s s' hb⟩) (input.length + 1)
    (input, initialState NginxConfig.empty) trivial (Nat.lt_succ_self _)
  rw [parseReporting, hr', h.unique ⟨_, hr'⟩]
  rfl

/-! ### The line as the automaton sees it -/

/-- What is printed when these tokens come behind a token of the type `last`. -/
def complaint (z : Cursor) (last : TokenType) : List Token → Ending → Option Message
  | [], .error => some (.badTransition last .error)
  | [], .eof =>
    if z.words = [] ∧ z.done ≠ [] then
      if z.frames = [] then none else some .tooManyLeft
    else some (.badTransition last .eof)
  | t :: ts, e =>
    match z.step t with
    | some z' => complaint z' t.type ts e
    | none =>
      if t = .closeBrace ∧ z.words = [] ∧ z.done ≠ [] then some .tooManyRight
      else some (.badTransition last t.type)

theorem complaint_cons_of_some {z z' : Cursor} {last : TokenType} {t : Token} (h : z.step t = some z')
    (ts : List Token) (e : Ending) : complaint z last (t :: ts) e = complaint z' t.type ts e := by
  rw [complaint, h]

theorem complaint_cons_of_none {z : Cursor} {last : TokenType} {t : Token} (h : z.step t = none) (ts : List Token)
    (e : Ending) : complaint z last (t :: ts) e =
      if t = .closeBrace ∧ z.words = [] ∧ z.done ≠ [] then some .tooManyRight
      else some (.badTransition last t.type) := by
  rw [complaint, h]

/-- At the end of the file. -/
theorem printed_eof {z : Cursor} {last : TokenType} (h : LastOk z last) :
    printed (z.state last) .eof = complaint z last [] .eof := by
  have hstack : (z.state last).configStack.length = z.frames.length + 1 := stackOf_length _
  rw [printed, complaint, hstack]
  show (if last ≠ .statementEnd ∧ last ≠ .endBlock then some (Message.badTransition last .eof) else _) = _
  by_cases hl : last = .statementEnd ∨ last = .endBlock
  · rw [if_neg (by tauto), if_pos ((complete_iff h).mpr hl)]
    by_cases hf : z.frames = []
    · rw [if_pos hf, if_neg (by simp [hf])]
    · rw [if_neg hf, if_pos (by simpa using hf)]
  · rw [if_pos (by tauto), if_neg fun hz => hl ((complete_iff h).mp hz)]

/-- Where the automaton has no step. -/
theorem printed_of_none {z : Cursor} {last tokenType : TokenType} {v : Bytes} {t : Token} (h : LastOk z last)
    (ht : Token.ofType v tokenType = some t) (hs : z.step t = none) :
    printed (z.state last) tokenType =
      if t = .closeBrace ∧ z.words = [] ∧ z.done ≠ [] then some .tooManyRight
      else some (.badTransition last t.type) := by
  obtain rfl := type_of_ofType ht
  have hlast : (z.state last).lastTokenType = last := rfl
  have hword : t = .semicolon ∨ t = .openBrace → z.words = [] := by
    intro hor
    rcases hor with rfl | rfl
    · simpa [Cursor.step] using hs
    · simpa [Cursor.step] using hs
  cases t with
  | word w => cases hs
  | semicolon =>
    have hne := (words_eq_nil_iff h).mp (hword (.inl rfl))
    rw [if_neg fun hbrace => by cases hbrace.1]
    exact if_pos hne
  | openBrace =>
    have hne := (words_eq_nil_iff h).mp (hword (.inr rfl))
    rw [if_neg fun hbrace => by cases hbrace.1]
    exact if_pos hne
  | closeBrace =>
    show (if last ≠ .statementEnd ∧ last ≠ .endBlock ∧ last ≠ .startBlock then
        some (Message.badTransition last .endBlock)
      else if (stackOf z.frames).length ≤ 1 then some .tooManyRight else none) = _
    by_cases hw : z.words = []
    · have hframes : z.frames = [] := by
        obtain ⟨frames, done, words⟩ := z
        obtain rfl : words = [] := hw
        cases frames with
        | nil => rfl
        | cons f fs => cases hs
      have hstack : (stackOf z.frames).length ≤ 1 := by rw [hframes]; exact le_refl 1
      by_cases hd : z.done = []
      · have hne : ¬ (last = .statementEnd ∨ last = .endBlock) := fun hl => ((complete_iff h).mpr hl).2 hd
        have hstart : last ≠ .startBlock := by
          intro heq
          subst heq
          exact h.2.1 hframes
        rw [if_pos (by tauto), if_neg fun hbrace => hbrace.2.2 hd]
        rfl
      · have hl := (complete_iff h).mp ⟨hw, hd⟩
        rw [if_neg (by tauto), if_pos hstack, if_pos ⟨rfl, hw, hd⟩]
    · have hnormal : last = .normal := by
        by_contra hne
        exact hw ((words_eq_nil_iff h).mpr hne)
      rw [hnormal, if_pos (by decide), if_neg fun hbrace => hw hbrace.2.1]
      rfl

/-- **The run of the parser** on a text prints what the automaton complains about. -/
theorem returns_complaint {input : Bytes} {ts : List Token} {e : Ending} (hd : Delivers input ts e) {z : Cursor}
    {last : TokenType} (h : LastOk z last) :
    Returns reportBody (input, z.state last) (some (complaint z last ts e, z.outcome ts e)) := by
  induction hd generalizing z last with
  | @eof input ht =>
    apply returns_of_inr
    rw [← printed_eof h]
    simp [reportBody, ht, handleToken_eof_state h]
  | @error input ht =>
    apply returns_of_inr
    simp [reportBody, ht, handleToken, badTransition, Cursor.config, Cursor.outcome, complaint, printed, Cursor.state]
  | @comment input ts e ht _ ih =>
    refine (returns_iff_of_inl ?_).mpr (ih h)
    simp [reportBody, ht, handleToken]
  | @token input t ts e ht _ ih =>
    have hturn := handleToken_refines h ht
    cases hs : z.step t with
    | none =>
      rw [Cursor.outcome_cons_of_none hs, complaint_cons_of_none hs, ← printed_of_none h ht hs]
      apply returns_of_inr
      simp [reportBody, hturn, turnOf, hs, Cursor.state_config]
    | some z' =>
      rw [Cursor.outcome_cons_of_some hs, complaint_cons_of_some hs]
      refine (returns_iff_of_inl ?_).mpr (ih (lastOk_step hs))
      simp [reportBody, hturn, turnOf, hs]

/-- What is printed for a text, and what `parse` returns. -/
theorem parseReporting_eq {input : Bytes} {ts : List Token} {e : Ending} (hd : Delivers input ts e) :
    parseReporting input = some (complaint .start .start ts e, Cursor.start.outcome ts e) :=
  parseReporting_of_returns (returns_complaint hd (show LastOk Cursor.start .start from rfl))

/-! ### Which line is printed -/

/-- The two turns that a token can take. -/
theorem complaint_cons {z : Cursor} {last : TokenType} {t : Token} {ts : List Token} {e : Ending} :
    (∃ z', z.step t = some z' ∧ complaint z last (t :: ts) e = complaint z' t.type ts e) ∨
      (z.step t = none ∧ complaint z last (t :: ts) e =
        if t = .closeBrace ∧ z.words = [] ∧ z.done ≠ [] then some .tooManyRight
        else some (.badTransition last t.type)) := by
  cases hs : z.step t with
  | some z' => exact .inl ⟨z', rfl, complaint_cons_of_some hs ts e⟩
  | none => exact .inr ⟨rfl, complaint_cons_of_none hs ts e⟩

/-- **Nothing is printed** exactly for an accepted text. -/
theorem complaint_eq_none_iff {ts : List Token} {e : Ending} {z : Cursor} {last : TokenType} :
    complaint z last ts e = none ↔ (z.outcome ts e).1 = true := by
  induction ts generalizing z last with
  | nil =>
    cases e with
    | error => exact iff_of_false (fun h => by cases h) (fun h => by cases h)
    | eof =>
      rw [complaint, Cursor.outcome, decide_eq_true_iff]
      show _ ↔ z.frames = [] ∧ z.words = [] ∧ z.done ≠ []
      split_ifs with h hf
      · exact iff_of_true rfl ⟨hf, h⟩
      · exact iff_of_false (fun h => by cases h) (fun h => hf h.1)
      · exact iff_of_false (fun h => by cases h) (fun hz => h hz.2)
  | cons t ts ih =>
    rcases @complaint_cons z last t ts e with ⟨z', hs, heq⟩ | ⟨hs, heq⟩
    · rw [heq, Cursor.outcome_cons_of_some hs]
      exact ih
    · rw [heq, Cursor.outcome_cons_of_none hs]
      split_ifs
      · exact iff_of_false (fun h => by cases h) (fun h => by cases h)
      · exact iff_of_false (fun h => by cases h) (fun h => by cases h)

/-- **Too many right braces**: one of them comes behind a complete configuration. -/
theorem complaint_right_iff {ts : List Token} {e : Ending} {z : Cursor} {last : TokenType} :
    complaint z last ts e = some .tooManyRight ↔
      ∃ us vs z', ts = us ++ .closeBrace :: vs ∧ z.run us = some z' ∧ z'.Accepting := by
  induction ts generalizing z last with
  | nil =>
    refine iff_of_false ?_ ?_
    · cases e with
      | error => exact fun h => by cases h
      | eof =>
        rw [complaint]
        split_ifs
        · exact fun h => by cases h
        · exact fun h => by cases h
        · exact fun h => by cases h
    · intro h
      obtain ⟨us, vs, z', heq, -⟩ := h
      simp at heq
  | cons t ts ih =>
    rcases @complaint_cons z last t ts e with ⟨z', hs, heq⟩ | ⟨hs, heq⟩
    · rw [heq, ih]
      constructor
      · intro h
        obtain ⟨us, vs, z'', rfl, hrun, hacc⟩ := h
        exact ⟨t :: us, vs, z'', rfl, by rw [Cursor.run, hs]; exact hrun, hacc⟩
      · intro h
        obtain ⟨us, vs, z'', hts, hrun, hacc⟩ := h
        cases us with
        | nil =>
          -- a complete configuration has no step with a right brace
          obtain ⟨rfl, -⟩ := List.cons.inj hts
          obtain rfl := Option.some.inj hrun
          rw [Cursor.step, if_neg (not_not.mpr hacc.2.1), hacc.1] at hs
          cases hs
        | cons u us =>
          obtain ⟨rfl, rfl⟩ := List.cons.inj hts
          rw [Cursor.run, hs] at hrun
          exact ⟨us, vs, z'', rfl, hrun, hacc⟩
    · rw [heq]
      constructor
      · intro h
        split_ifs at h with hbrace
        · obtain ⟨rfl, hw, hd⟩ := hbrace
          refine ⟨[], ts, z, rfl, rfl, ?_, hw, hd⟩
          obtain ⟨frames, done, words⟩ := z
          obtain rfl : words = [] := hw
          cases frames with
          | nil => rfl
          | cons f fs => cases hs
        · cases h
      · intro h
        obtain ⟨us, vs, z', hts, hrun, hacc⟩ := h
        cases us with
        | nil =>
          obtain ⟨rfl, -⟩ := List.cons.inj hts
          obtain rfl := Option.some.inj hrun
          exact if_pos ⟨rfl, hacc.2⟩
        | cons u us =>
          obtain ⟨rfl, -⟩ := List.cons.inj hts
          rw [Cursor.run, hs] at hrun
          cases hrun

/-- **Too many left braces**: at the end of the file, between two statements of an open block. -/
theorem complaint_left_iff {ts : List Token} {e : Ending} {z : Cursor} {last : TokenType} :
    complaint z last ts e = some .tooManyLeft ↔
      e = .eof ∧ ∃ z', z.run ts = some z' ∧ z'.words = [] ∧ z'.done ≠ [] ∧ z'.frames ≠ [] := by
  induction ts generalizing z last with
  | nil =>
    cases e with
    | error => exact iff_of_false (fun h => by cases h) (fun h => by cases h.1)
    | eof =>
      rw [complaint, Cursor.run]
      constructor
      · intro h
        split_ifs at h with hz hf
        · exact ⟨rfl, z, rfl, hz.1, hz.2, hf⟩
        · cases h
      · intro h
        obtain ⟨-, z', hrun, hw, hd, hf⟩ := h
        obtain rfl := Option.some.inj hrun
        rw [if_pos ⟨hw, hd⟩, if_neg hf]
  | cons t ts ih =>
    rcases @complaint_cons z last t ts e with ⟨z', hs, heq⟩ | ⟨hs, heq⟩
    · rw [heq, ih, Cursor.run, hs]
      exact Iff.rfl
    · rw [heq, Cursor.run, hs]
      refine iff_of_false ?_ ?_
      · split_ifs
        · exact fun h => by cases h
        · exact fun h => by cases h
      · intro h
        obtain ⟨-, z', hrun, -⟩ := h
        cases hrun

/-! ### Left braces that right braces would close -/

/-- Right braces close open blocks, as long as there is no unfinished statement. -/
theorem run_closeBraces {z : Cursor} (hw : z.words = []) (hd : z.done ≠ [] ∨ z.frames ≠ []) :
    ∃ z', z.run (List.replicate z.frames.length .closeBrace) = some z' ∧ z'.Accepting := by
  obtain ⟨frames, done, words⟩ := z
  obtain rfl : words = [] := hw
  induction frames generalizing done with
  | nil => exact ⟨_, rfl, rfl, rfl, hd.resolve_right fun h => h rfl⟩
  | cons f fs ih =>
    obtain ⟨d, w⟩ := f
    exact ih (d ++ [⟨w, some ⟨done⟩⟩]) (.inl (by simp))

theorem words_of_run_closeBraces {z z' : Cursor} {k : ℕ} (hk : 0 < k)
    (hrun : z.run (List.replicate k .closeBrace) = some z') : z.words = [] ∧ z.frames ≠ [] := by
  obtain ⟨k, rfl⟩ := Nat.exists_eq_succ_of_ne_zero hk.ne'
  obtain ⟨y, hs, -⟩ := Option.bind_eq_some_iff.mp hrun
  cases Cursor.step_transition hs with
  | closeBrace => exact ⟨rfl, by simp⟩

/-- The statements of a block that has just been opened are none. -/
theorem done_eq_nil_iff {ts : List Token} {z : Cursor} (hrun : Cursor.start.run ts = some z) (hf : z.frames ≠ [])
    (hw : z.words = []) : z.done = [] ↔ ts.getLast? = some .openBrace := by
  rcases List.eq_nil_or_concat' ts with rfl | ⟨ts, t, rfl⟩
  · obtain rfl := Option.some.inj hrun
    exact absurd rfl hf
  · rw [Cursor.run_append] at hrun
    obtain ⟨y, -, hlast⟩ := Option.bind_eq_some_iff.mp hrun
    obtain ⟨z', hs, hz'⟩ := Option.bind_eq_some_iff.mp hlast
    obtain rfl := Option.some.inj hz'
    rw [List.getLast?_concat, Option.some.injEq]
    cases Cursor.step_transition hs with
    | word => simp at hw
    | semicolon => simp
    | openBrace => simp
    | closeBrace => simp

/-! ### Pairs of token types -/

/-- The token types of a complete text with what stands in front of it and behind it. -/
def types (ts : List Token) : List TokenType := .start :: ts.map Token.type ++ [.eof]

/-- A pair of types that the parser lets pass. -/
def MayFollow : TokenType → TokenType → Prop
  | last, .normal => last ≠ .comment ∧ last ≠ .eof ∧ last ≠ .error
  | last, .statementEnd | last, .startBlock => last = .normal
  | last, .endBlock => last = .statementEnd ∨ last = .endBlock ∨ last = .startBlock
  | last, .eof => last = .statementEnd ∨ last = .endBlock
  | _, _ => False

theorem mayFollow_step {z z' : Cursor} {last : TokenType} {t : Token} (h : LastOk z last) (hs : z.step t = some z') :
    MayFollow last t.type := by
  cases Cursor.step_transition hs with
  | word => cases last <;> first | exact h.elim | exact ⟨by decide, by decide, by decide⟩
  | semicolon hw =>
    by_contra hne
    exact hw ((words_eq_nil_iff h).mpr hne)
  | openBrace hw =>
    by_contra hne
    exact hw ((words_eq_nil_iff h).mpr hne)
  | closeBrace =>
    cases last with
    | start => cases h
    | normal => exact absurd rfl h
    | startBlock => exact .inr (.inr rfl)
    | statementEnd => exact .inl rfl
    | endBlock => exact .inr (.inl rfl)
    | comment => exact h.elim
    | eof => exact h.elim
    | error => exact h.elim

/-- In an accepted text every type may follow the one in front of it. -/
theorem mayFollow_of_run {ts : List Token} {z z' : Cursor} {last : TokenType} (h : LastOk z last)
    (hrun : z.run ts = some z') (hacc : z'.Accepting) :
    (last :: ts.map Token.type ++ [TokenType.eof]).IsChain MayFollow := by
  induction ts generalizing z last with
  | nil =>
    obtain rfl := Option.some.inj hrun
    exact .cons_cons ((complete_iff h).mp hacc.2) (.singleton _)
  | cons t ts ih =>
    obtain ⟨y, hs, hrun⟩ := Option.bind_eq_some_iff.mp hrun
    exact .cons_cons (mayFollow_step h hs) (ih (lastOk_step hs) hrun)

/-- The parser only complains about a pair that may not follow. -/
theorem not_mayFollow_of_complaint {ts : List Token} {e : Ending} {z : Cursor} {last a b : TokenType}
    (h : LastOk z last) (hc : complaint z last ts e = some (.badTransition a b)) : ¬ MayFollow a b := by
  induction ts generalizing z last with
  | nil =>
    cases e with
    | error =>
      obtain ⟨rfl, rfl⟩ := Message.badTransition.inj (Option.some.inj hc)
      exact id
    | eof =>
      rw [complaint] at hc
      split_ifs at hc with hz hf
      · cases hc
      · obtain ⟨rfl, rfl⟩ := Message.badTransition.inj (Option.some.inj hc)
        exact fun hfollow => hz ((complete_iff h).mpr hfollow)
  | cons t ts ih =>
    rcases @complaint_cons z last t ts e with ⟨z', hs, heq⟩ | ⟨hs, heq⟩
    · rw [heq] at hc
      exact ih (lastOk_step hs) hc
    · rw [heq] at hc
      split_ifs at hc with hbrace
      · cases hc
      · obtain ⟨rfl, rfl⟩ := Message.badTransition.inj (Option.some.inj hc)
        cases t with
        | word w => cases hs
        | semicolon =>
          have hw : z.words = [] := by simpa [Cursor.step] using hs
          exact (words_eq_nil_iff h).mp hw
        | openBrace =>
          have hw : z.words = [] := by simpa [Cursor.step] using hs
          exact (words_eq_nil_iff h).mp hw
        | closeBrace =>
          intro hfollow
          rcases hfollow with hend | hend | hopen
          · exact hbrace ⟨rfl, (complete_iff h).mpr (.inl hend)⟩
          · exact hbrace ⟨rfl, (complete_iff h).mpr (.inr hend)⟩
          · -- a block that has just been opened can be closed
            obtain ⟨frames, done, words⟩ := z
            obtain rfl := hopen
            obtain ⟨hw, hf, -⟩ := h
            obtain rfl : words = [] := hw
            cases frames with
            | nil => exact hf rfl
            | cons f fs => cases hs

/-! ### The printed line of a text -/

example : (parseReporting (bytes "a \x7b b;")).map Prod.fst = some (some .tooManyLeft) := by rfl

end Webserver.ConfigDiagnostics
