import Webserver.Config.ConfigParser

/-!
# The block grammar

    config := stmt+        stmt := word+ ( ';' | '{' stmt* '}' )

The grammar is a pair of mutually inductive relations between token sequences and trees.  `spell` is the
only token sequence of a tree, so a derivation says no more than `ts = spell ss` together with
non-empty statements.

`Delivers` is the token sequence that repeated calls of `ParseToken` produce from a text, comments
dropped, up to the end of the file or to an error.
-/

namespace Webserver.ConfigGrammar

open ByteString ConfigTree ConfigLexer

/-- A token without its spelling where the spelling is fixed. -/
inductive Token where
  | word (w : Bytes)
  | semicolon
  | openBrace
  | closeBrace
  deriving DecidableEq

namespace Token

def type : Token → TokenType
  | word _ => .normal
  | semicolon => .statementEnd
  | openBrace => .startBlock
  | closeBrace => .endBlock

def ofType (value : Bytes) : TokenType → Option Token
  | .normal => some (word value)
  | .statementEnd => some semicolon
  | .startBlock => some openBrace
  | .endBlock => some closeBrace
  | _ => none

end Token

/-! ### Token sequences of a text -/

/-- How the token sequence of a text ends. -/
inductive Ending where
  | eof
  | error
  deriving DecidableEq

/-- `Delivers input ts e`: the calls of `ParseToken` on `input` return the tokens `ts` and then `e`. -/
inductive Delivers : Bytes → List Token → Ending → Prop
  | eof {input : Bytes} (h : (parseToken input).1 = .eof) : Delivers input [] .eof
  | error {input : Bytes} (h : (parseToken input).1 = .error) : Delivers input [] .error
  | comment {input : Bytes} {ts : List Token} {e : Ending} (h : (parseToken input).1 = .comment)
      (hrest : Delivers (parseToken input).2.2 ts e) : Delivers input ts e
  | token {input : Bytes} {t : Token} {ts : List Token} {e : Ending}
      (h : Token.ofType (parseToken input).2.1 (parseToken input).1 = some t)
      (hrest : Delivers (parseToken input).2.2 ts e) : Delivers input (t :: ts) e

/-- Every text has a token sequence. -/
theorem delivers_total (input : Bytes) : ∃ ts e, Delivers input ts e := by
  induction hn : input.length using Nat.strong_induction_on generalizing input with
  | _ n ih =>
    cases input with
    | nil => exact ⟨[], .eof, .eof (by rw [parseToken_nil])⟩
    | cons c input =>
      have hlt : (parseToken (c :: input)).2.2.length < n := by
        rw [← hn]
        exact Nat.lt_succ_of_le (parseToken_rest_le c input)
      obtain ⟨ts, e, hd⟩ := ih _ hlt _ rfl
      cases ht : (parseToken (c :: input)).1 with
      | start => exact absurd ht (parseTokenFrom_ne_start _ _ _)
      | normal => exact ⟨_, e, .token (by rw [ht]; rfl) hd⟩
      | startBlock => exact ⟨_, e, .token (by rw [ht]; rfl) hd⟩
      | endBlock => exact ⟨_, e, .token (by rw [ht]; rfl) hd⟩
      | statementEnd => exact ⟨_, e, .token (by rw [ht]; rfl) hd⟩
      | comment => exact ⟨ts, e, .comment ht hd⟩
      | eof => exact ⟨[], .eof, .eof ht⟩
      | error => exact ⟨[], .error, .error ht⟩

/-- Texts with the same first token have the same token sequence. -/
theorem Delivers.of_parseToken_eq {input rest : Bytes} {ts : List Token} {e : Ending}
    (hd : Delivers rest ts e) (h : parseToken input = parseToken rest) : Delivers input ts e := by
  cases hd with
  | eof ht => exact .eof (by rw [h, ht])
  | error ht => exact .error (by rw [h, ht])
  | comment ht hrest => exact .comment (by rw [h, ht]) (by rw [h]; exact hrest)
  | token ht hrest => exact .token (by rw [h, ht]) (by rw [h]; exact hrest)

/-! ### Derivations -/

mutual

/-- `stmt := word+ ( ';' | '{' stmt* '}' )`. -/
inductive DerivesStatement : List Token → NginxConfigStatement → Prop
  | simple {ws : List Bytes} (hws : ws ≠ []) :
      DerivesStatement (ws.map .word ++ [.semicolon]) ⟨ws, none⟩
  | block {ws : List Bytes} {ts : List Token} {bs : List NginxConfigStatement} (hws : ws ≠ [])
      (hb : DerivesStatements ts bs) :
      DerivesStatement (ws.map .word ++ [.openBrace] ++ ts ++ [.closeBrace]) ⟨ws, some ⟨bs⟩⟩

/-- `stmt*`. -/
inductive DerivesStatements : List Token → List NginxConfigStatement → Prop
  | nil : DerivesStatements [] []
  | cons {ts us : List Token} {s : NginxConfigStatement} {ss : List NginxConfigStatement}
      (hs : DerivesStatement ts s) (hss : DerivesStatements us ss) :
      DerivesStatements (ts ++ us) (s :: ss)

end

/-- `config := stmt+`. -/
def DerivesConfig (ts : List Token) (c : NginxConfig) : Prop :=
  c.statements ≠ [] ∧ DerivesStatements ts c.statements

/-- Every statement, at every depth, has tokens with the property `P`. -/
inductive AllStatements (P : List Bytes → Prop) : List NginxConfigStatement → Prop
  | nil : AllStatements P []
  | simple {ws : List Bytes} {ss : List NginxConfigStatement} (hws : P ws)
      (hss : AllStatements P ss) : AllStatements P (⟨ws, none⟩ :: ss)
  | block {ws : List Bytes} {bs ss : List NginxConfigStatement} (hws : P ws)
      (hbs : AllStatements P bs) (hss : AllStatements P ss) :
      AllStatements P (⟨ws, some ⟨bs⟩⟩ :: ss)

theorem AllStatements.append {P : List Bytes → Prop} {ss rs : List NginxConfigStatement}
    (hs : AllStatements P ss) (hr : AllStatements P rs) : AllStatements P (ss ++ rs) := by
  induction hs with
  | nil => exact hr
  | simple hws _ ih => exact .simple hws ih
  | block hws hbs _ _ ih => exact .block hws hbs ih

theorem AllStatements.mono {P Q : List Bytes → Prop} (hPQ : ∀ ws, P ws → Q ws)
    {ss : List NginxConfigStatement} (h : AllStatements P ss) : AllStatements Q ss := by
  induction h with
  | nil => exact .nil
  | simple hws _ ih => exact .simple (hPQ _ hws) ih
  | block hws _ _ ihb ih => exact .block (hPQ _ hws) ihb ih

theorem AllStatements.of_mem {P : List Bytes → Prop} {ss : List NginxConfigStatement} (h : AllStatements P ss)
    {s : NginxConfigStatement} (hs : s ∈ ss) : P s.tokens := by
  induction h with
  | nil => cases hs
  | simple hws _ ih | block hws _ _ _ ih =>
    rcases List.mem_cons.mp hs with rfl | hs
    · exact hws
    · exact ih hs

/-- The token sequence of a list of statements. -/
def spell : List NginxConfigStatement → List Token
  | [] => []
  | ⟨ws, none⟩ :: ss => ws.map .word ++ [.semicolon] ++ spell ss
  | ⟨ws, some ⟨bs⟩⟩ :: ss => ws.map .word ++ [.openBrace] ++ spell bs ++ [.closeBrace] ++ spell ss

theorem spell_append (ss rs : List NginxConfigStatement) :
    spell (ss ++ rs) = spell ss ++ spell rs := by
  induction ss using statementsInduction with
  | nil => rw [List.nil_append, spell, List.nil_append]
  | simple ws ss ih => simp only [List.cons_append, spell, ih, List.append_assoc]
  | block ws bs ss _ ih => simp only [List.cons_append, spell, ih, List.append_assoc]

mutual

theorem DerivesStatement.spell_eq {ts : List Token} {s : NginxConfigStatement} :
    DerivesStatement ts s → AllStatements (· ≠ []) [s] ∧ ts = spell [s]
  | .simple hws => ⟨.simple hws .nil, by simp [spell]⟩
  | .block hws hb => by
    obtain ⟨hall, rfl⟩ := hb.spell_eq
    exact ⟨.block hws hall .nil, by simp [spell]⟩

theorem DerivesStatements.spell_eq {ts : List Token} {ss : List NginxConfigStatement} :
    DerivesStatements ts ss → AllStatements (· ≠ []) ss ∧ ts = spell ss
  | .nil => ⟨.nil, by rw [spell]⟩
  | .cons hs hss => by
    obtain ⟨hall, rfl⟩ := hs.spell_eq
    obtain ⟨halls, rfl⟩ := hss.spell_eq
    exact ⟨hall.append halls, (spell_append _ _).symm⟩

end

theorem derivesStatements_spell {ss : List NginxConfigStatement}
    (h : AllStatements (· ≠ []) ss) : DerivesStatements (spell ss) ss := by
  induction h with
  | nil =>
    rw [spell]
    exact .nil
  | simple hws _ ih =>
    rw [spell]
    exact .cons (.simple hws) ih
  | block hws _ _ ihb ih =>
    rw [spell]
    exact .cons (.block hws ihb) ih

/-- **The grammar is unambiguous**: a tree has one token sequence. -/
theorem derivesStatements_iff {ts : List Token} {ss : List NginxConfigStatement} :
    DerivesStatements ts ss ↔ AllStatements (· ≠ []) ss ∧ ts = spell ss := by
  constructor
  · exact DerivesStatements.spell_eq
  · rintro ⟨h, rfl⟩
    exact derivesStatements_spell h

theorem derivesConfig_iff {ts : List Token} {c : NginxConfig} :
    DerivesConfig ts c ↔
      c.statements ≠ [] ∧ AllStatements (· ≠ []) c.statements ∧ ts = spell c.statements := by
  rw [DerivesConfig, derivesStatements_iff]

end Webserver.ConfigGrammar
