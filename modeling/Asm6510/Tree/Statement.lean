import Asm6510.Tree.Expr

/-!
# Statements and programs

A directive with a block is a constructor of its own, so that the statements of a block are always
a direct part of a statement.
-/

namespace Asm6510

/-- A directive without its block. -/
structure Directive where
  token : Token
  /-- The name that it defines. -/
  name : Option Token
  /-- Parameters of a callable, or members of an enumeration. -/
  parameters : List Token
  value : Expr
deriving Repr

/-- The directive in lower case. -/
def Directive.word (d : Directive) : String :=
  Text.lower d.token.literal

/-- A statement. -/
inductive Statement
  | label (token : Token)
  | instruction (token : Token) (operand : Expr)
  | directive (d : Directive)
  /-- A directive with its block; `closing` is the end of the text for an open block. -/
  | directiveBlock (d : Directive) (opening : Token) (body : List Statement) (closing : Token)
  | block (opening : Token) (body : List Statement) (closing : Token)
  /-- A call of a macro or pseudocommand. -/
  | expression (token : Token) (e : Expr)
deriving Repr

/-- The statements between braces. -/
structure Braces where
  opening : Token
  body : List Statement
  closing : Token
deriving Repr

namespace Statement

/-- The name of a label, without its colon. -/
def labelName (t : Token) : String :=
  String.ofList t.literal.toList.dropLast

/-- A mnemonic in upper case. -/
def mnemonicName (t : Token) : String :=
  Text.upper t.literal

/-- A directive with the block that it may have. -/
def ofDirective (d : Directive) : Option Braces → Statement
  | none => directive d
  | some b => directiveBlock d b.opening b.body b.closing

/-- The token of a statement. -/
def token : Statement → Token
  | label t => t
  | instruction t _ => t
  | directive d => d.token
  | directiveBlock d _ _ _ => d.token
  | block t _ _ => t
  | expression t _ => t

end Statement

/-- A program; `start` is its first token. -/
structure Program where
  start : Token
  statements : List Statement
deriving Repr

end Asm6510
