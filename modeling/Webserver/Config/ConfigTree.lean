import Mathlib.Data.Int.Notation
import Webserver.Support.ByteString

/-!
# Configuration trees

`NginxConfig` and `NginxConfigStatement` of `config_parser.h`, and the two mutually recursive `ToString`
methods that print them.  A statement without a child block has `childBlock = none`, the null
`unique_ptr`.

The printer descends through lists and optional blocks, so everything about trees is proved by the one
induction principle `statementsInduction`, whose cases are the two shapes a statement can have.
-/

namespace Webserver.ConfigTree

open ByteString

mutual

/-- The parsed representation of the entire config (or of one block). -/
inductive NginxConfig where
  | mk (statements : List NginxConfigStatement)

/-- The parsed representation of a single config statement. -/
inductive NginxConfigStatement where
  | mk (tokens : List Bytes) (childBlock : Option NginxConfig)

end

namespace NginxConfig

def statements : NginxConfig → List NginxConfigStatement
  | ⟨statements⟩ => statements

/-- A default-constructed config. -/
def empty : NginxConfig := ⟨[]⟩

@[simp] theorem statements_mk (ss : List NginxConfigStatement) : statements ⟨ss⟩ = ss := rfl

theorem mk_statements (c : NginxConfig) : ⟨c.statements⟩ = c := by
  cases c
  rfl

end NginxConfig

namespace NginxConfigStatement

def tokens : NginxConfigStatement → List Bytes
  | ⟨tokens, _⟩ => tokens

def childBlock : NginxConfigStatement → Option NginxConfig
  | ⟨_, childBlock⟩ => childBlock

@[simp] theorem tokens_mk (ws : List Bytes) (b : Option NginxConfig) : tokens ⟨ws, b⟩ = ws := rfl

@[simp] theorem childBlock_mk (ws : List Bytes) (b : Option NginxConfig) :
    childBlock ⟨ws, b⟩ = b := rfl

end NginxConfigStatement

/-- **Induction on statement lists.**  A list is empty, or starts with a plain statement, or starts
with a block. -/
@[elab_as_elim]
theorem statementsInduction {motive : List NginxConfigStatement → Prop}
    (nil : motive [])
    (simple : ∀ ws ss, motive ss → motive (⟨ws, none⟩ :: ss))
    (block : ∀ ws bs ss, motive bs → motive ss → motive (⟨ws, some ⟨bs⟩⟩ :: ss))
    (ss : List NginxConfigStatement) : motive ss :=
  @NginxConfig.rec_1
    (fun c => motive c.statements)
    (fun s => ∀ ss, motive ss → motive (s :: ss))
    motive
    (fun b => ∀ ws ss, motive ss → motive (⟨ws, b⟩ :: ss))
    (fun _ h => h)
    (fun ws _ hb ss h => hb ws ss h)
    nil
    (fun _ ss hs hss => hs ss hss)
    simple
    (fun ⟨bs⟩ hbs ws ss h => block ws bs ss hbs h)
    ss

/-! ### The printer -/

/-- The two-space indentation that `ToString(depth)` starts a line with. -/
def indent (depth : ℤ) : Bytes := (List.replicate depth.toNat (bytes "  ")).flatten

/-- The tokens of a statement, separated by single spaces. -/
def joinTokens : List Bytes → Bytes
  | [] => []
  | [w] => w
  | w :: ws => w ++ bytes " " ++ joinTokens ws

mutual

/-- `NginxConfig::ToString`. -/
def NginxConfig.toString : NginxConfig → ℤ → Bytes
  | ⟨statements⟩, depth => statementsToString statements depth

/-- `NginxConfigStatement::ToString`. -/
def NginxConfigStatement.toString : NginxConfigStatement → ℤ → Bytes
  | ⟨tokens, childBlock⟩, depth =>
    indent depth ++ joinTokens tokens ++ childBlockToString childBlock depth ++ bytes "\n"

/-- The loop of `NginxConfig::ToString` over its statements. -/
def statementsToString : List NginxConfigStatement → ℤ → Bytes
  | [], _ => []
  | s :: ss, depth => s.toString depth ++ statementsToString ss depth

/-- The end of a statement: its child block in braces, or a semicolon. -/
def childBlockToString : Option NginxConfig → ℤ → Bytes
  | none, _ => bytes ";"
  | some c, depth => bytes " \x7b\n" ++ c.toString (depth + 1) ++ indent depth ++ bytes "\x7d"

end

theorem toString_mk (ss : List NginxConfigStatement) (depth : ℤ) :
    NginxConfig.toString ⟨ss⟩ depth = statementsToString ss depth := by
  rw [NginxConfig.toString]

theorem statementsToString_simple (ws : List Bytes) (ss : List NginxConfigStatement) (depth : ℤ) :
    statementsToString (⟨ws, none⟩ :: ss) depth =
      indent depth ++ joinTokens ws ++ bytes ";\n" ++ statementsToString ss depth := by
  simp only [statementsToString, NginxConfigStatement.toString, childBlockToString, List.append_assoc]
  rfl

theorem statementsToString_block (ws : List Bytes) (bs ss : List NginxConfigStatement) (depth : ℤ) :
    statementsToString (⟨ws, some ⟨bs⟩⟩ :: ss) depth =
      indent depth ++ joinTokens ws ++ bytes " \x7b\n" ++ statementsToString bs (depth + 1) ++
        indent depth ++ bytes "\x7d\n" ++ statementsToString ss depth := by
  simp only [statementsToString, NginxConfigStatement.toString, childBlockToString,
    NginxConfig.toString, List.append_assoc]
  rfl

/-- A nested block is printed one level deeper. -/
example : NginxConfig.toString
    ⟨[⟨[bytes "foo", bytes "bar"], some ⟨[⟨[bytes "foo"], none⟩]⟩⟩]⟩ 0 =
    bytes "foo bar \x7b\n  foo;\n\x7d\n" := by decide

end Webserver.ConfigTree
