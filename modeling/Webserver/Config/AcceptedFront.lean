import Webserver.Config.ConfigCursor

/-!
# The front of a text

`Parse` builds its tree while it reads, and leaves it as it is when it gives up.  So the tree of a text starts with
the statements of any front of the text that is a configuration by itself, also when the rest is rejected.

* `delivers_append` — the tokens of a front are tokens of the text.
* `parse_append` — the statements of a front are statements of the text.
-/

namespace Webserver.ConfigCursor

open ByteString ConfigTree ConfigLexer ConfigParser ConfigGrammar

/-! ### Tokens of a front -/

/-- A token that is complete does not depend on what follows. -/
theorem parseTokenFrom_append {state : TokenParserState} {value s : Bytes}
    (heof : (parseTokenFrom state value s).1 ≠ .eof) (herror : (parseTokenFrom state value s).1 ≠ .error) (rest : Bytes) :
    parseTokenFrom state value (s ++ rest) =
      ((parseTokenFrom state value s).1, (parseTokenFrom state value s).2.1,
        (parseTokenFrom state value s).2.2 ++ rest) := by
  induction s generalizing state value with
  | nil =>
    simp only [parseTokenFrom] at heof herror
    split_ifs at heof herror with hquote
    · exact absurd rfl herror
    · exact absurd rfl heof
  | cons c s ih =>
    rw [List.cons_append]
    cases state with
    | initialWhitespace =>
      simp only [parseTokenFrom] at heof herror ⊢
      split_ifs at heof herror ⊢
      all_goals first | rfl | exact ih heof herror
    | singleQuote =>
      simp only [parseTokenFrom] at heof herror ⊢
      split_ifs at heof herror ⊢
      · rfl
      · exact ih heof herror
    | doubleQuote =>
      simp only [parseTokenFrom] at heof herror ⊢
      split_ifs at heof herror ⊢
      · rfl
      · exact ih heof herror
    | tokenTypeComment =>
      simp only [parseTokenFrom] at heof herror ⊢
      split_ifs at heof herror ⊢
      · rfl
      · exact ih heof herror
    | tokenTypeNormal =>
      simp only [parseTokenFrom] at heof herror ⊢
      split_ifs at heof herror ⊢
      · rfl
      · exact ih heof herror

theorem ofType_ne_end {value : Bytes} {type : TokenType} {t : Token} (h : Token.ofType value type = some t) :
    type ≠ .eof ∧ type ≠ .error := by
  constructor
  · intro heq
    rw [heq] at h
    cases h
  · intro heq
    rw [heq] at h
    cases h

/-- **The tokens of a front** are tokens of the text. -/
theorem delivers_append {s : Bytes} {ts : List Token} {e : Ending} (hd : Delivers s ts e) (rest : Bytes) :
    ∃ us e', Delivers (s ++ rest) (ts ++ us) e' := by
  induction hd with
  | @eof s h => exact delivers_total (s ++ rest)
  | @error s h => exact delivers_total (s ++ rest)
  | @comment s ts e h _ ih =>
    obtain ⟨us, e', hd'⟩ := ih
    have htoken : parseToken (s ++ rest) = _ :=
      parseTokenFrom_append (by rw [← parseToken, h]; decide) (by rw [← parseToken, h]; decide) rest
    exact ⟨us, e', .comment (by rw [htoken]; exact h) (by rw [htoken]; exact hd')⟩
  | @token s t ts e h _ ih =>
    obtain ⟨us, e', hd'⟩ := ih
    obtain ⟨heof, herror⟩ := ofType_ne_end h
    have htoken : parseToken (s ++ rest) = _ := parseTokenFrom_append heof herror rest
    exact ⟨us, e', .token (by rw [htoken]; exact h) (by rw [htoken]; exact hd')⟩

/-! ### Statements of a front -/

/-- The complete statements at the top level. -/
def Cursor.bottom (z : Cursor) : List NginxConfigStatement :=
  match z.frames.getLast? with
  | none => z.done
  | some f => f.1

theorem bottom_step {z z' : Cursor} {t : Token} (h : z.step t = some z') : z.bottom <+: z'.bottom := by
  cases Cursor.step_transition h with
  | word => exact List.prefix_rfl
  | semicolon hw =>
    show Cursor.bottom z <+: match z.frames.getLast? with | none => z.done ++ _ | some f => f.1
    rw [Cursor.bottom]
    cases z.frames.getLast? with
    | none => exact List.prefix_append _ _
    | some f => exact List.prefix_rfl
  | openBrace hw =>
    rw [Cursor.bottom, Cursor.bottom, List.getLast?_cons]
    cases z.frames.getLast? with
    | none => exact List.prefix_rfl
    | some f => exact List.prefix_rfl
  | @closeBrace d done w fs =>
    rw [Cursor.bottom, Cursor.bottom, List.getLast?_cons]
    cases fs.getLast? with
    | none => exact List.prefix_append _ _
    | some f => exact List.prefix_rfl

/-- The tree has these statements in front. -/
theorem bottom_config (z : Cursor) : z.bottom <+: z.config.statements := by
  have hplug : ∀ (fs : List Frame) (ss : List NginxConfigStatement),
      (match fs.getLast? with | none => ss | some f => f.1) <+: (plug fs ss).statements := by
    intro fs
    induction fs with
    | nil => exact fun ss => List.prefix_rfl
    | cons f fs ih =>
      intro ss
      have hrest := ih (f.1 ++ [⟨f.2, some ⟨ss⟩⟩])
      rw [List.getLast?_cons]
      cases hlast : fs.getLast? with
      | none =>
        rw [hlast] at hrest
        exact (List.prefix_append _ _).trans hrest
      | some g =>
        rw [hlast] at hrest
        exact hrest
  have hall := hplug z.frames (z.done ++ openStatement z.words)
  rw [Cursor.bottom]
  cases hlast : z.frames.getLast? with
  | none =>
    rw [hlast] at hall
    exact (List.prefix_append _ _).trans hall
  | some f =>
    rw [hlast] at hall
    exact hall

theorem bottom_outcome (ts : List Token) (e : Ending) : ∀ z : Cursor, z.bottom <+: (z.outcome ts e).2.statements := by
  induction ts with
  | nil =>
    intro z
    cases e with
    | eof => exact bottom_config z
    | error => exact bottom_config z
  | cons t ts ih =>
    intro z
    cases hs : z.step t with
    | none =>
      rw [Cursor.outcome_cons_of_none hs]
      exact bottom_config z
    | some z' =>
      rw [Cursor.outcome_cons_of_some hs]
      exact (bottom_step hs).trans (ih z')

theorem outcome_append {ts : List Token} {z z' : Cursor} (h : z.run ts = some z') (us : List Token) (e : Ending) :
    z.outcome (ts ++ us) e = z'.outcome us e := by
  induction ts generalizing z with
  | nil =>
    obtain rfl := Option.some.inj h
    rfl
  | cons t ts ih =>
    obtain ⟨y, hs, hrun⟩ := Option.bind_eq_some_iff.mp h
    rw [List.cons_append, Cursor.outcome_cons_of_some hs]
    exact ih hrun

/-- **The statements of an accepted front** are the first ones of the tree, whatever comes behind them. -/
theorem parse_append {front : Bytes} {c : NginxConfig} (hfront : parse front = some (true, c)) (rest : Bytes) :
    ∃ ok c', parse (front ++ rest) = some (ok, c') ∧ c.statements <+: c'.statements := by
  obtain ⟨ts, e, hd⟩ := delivers_total front
  rw [parse_eq_outcome hd] at hfront
  obtain ⟨-, z, hrun, hacc, rfl⟩ := Cursor.outcome_eq_true_iff.mp (Option.some.inj hfront)
  obtain ⟨us, e', hd'⟩ := delivers_append hd rest
  refine ⟨_, _, parse_eq_outcome hd', ?_⟩
  rw [outcome_append hrun]
  have hbottom : z.bottom = z.done := by rw [Cursor.bottom, hacc.1]; rfl
  rw [NginxConfig.statements_mk, ← hbottom]
  exact bottom_outcome us e' z

end Webserver.ConfigCursor
