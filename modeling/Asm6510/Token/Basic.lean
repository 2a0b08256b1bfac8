import Asm6510.Reference.Record
import Asm6510.Text.Quoted
import Asm6510.Token.Kind
import Asm6510.Token.Nesting

/-!
# Tokens

A `Token` is a stretch of source text with its kind, its place, and the lexical context that it
was read in. `Token.spelling` is the stretch itself; it differs from the literal for character
literals, whose literal is the code of the character.
-/

namespace Asm6510

/-- The part that a token plays in an operand. -/
inductive OperandRole
  | immediate
  | indirect
  | indexSeparator
  | address
  | label
  | indexRegister
deriving DecidableEq, Repr

/-- The name in listings. -/
def OperandRole.name : OperandRole → String
  | immediate => "immediate"
  | indirect => "indirect"
  | indexSeparator => "indexed_separator"
  | address => "address"
  | label => "label"
  | indexRegister => "index_register"

/-- What the lexer knows about a token beside its kind. -/
structure Note where
  /-- The part in an operand. -/
  role : Option OperandRole
  mnemonic : Option Mnemonic
  function : Option FunctionInfo
  constant : Option ConstantInfo
  /-- The directive in lower case, empty for other tokens. -/
  directive : String
  /-- The source text where the literal differs from it, otherwise empty. -/
  text : String
deriving DecidableEq, Repr

/-- Nothing known. -/
def Note.none : Note := ⟨Option.none, Option.none, Option.none, Option.none, "", ""⟩

/-- A token. -/
structure Token where
  kind : TokenKind
  literal : String
  place : Place
  context : Context
  note : Note
deriving DecidableEq, Repr

namespace Token

/-- The source text of the token. -/
def spelling (t : Token) : String :=
  if t.note.text = "" then t.literal else t.note.text

/-- Whether the token has a part in an operand. -/
def isOperand (t : Token) : Bool :=
  t.note.role.isSome

/-- Kind, quoted literal and place, for messages. -/
def describe (t : Token) : String :=
  "Token(" ++ t.kind.name ++ ", " ++ Text.quoted t.literal ++ ", " ++
    Text.decimal t.place.line ++ ":" ++ Text.decimal t.place.column ++ ")"

/-- The token's line in a listing: place, kind, quoted literal, context, and the part in an
operand. -/
def listing (t : Token) : String :=
  let role := match t.note.role with
    | some r => " (" ++ r.name ++ ")"
    | Option.none => ""
  Text.padLeft 4 (Text.decimal t.place.line) ++ ":" ++
    Text.padRight 4 (Text.decimal t.place.column) ++ " " ++ Text.padRight 20 t.kind.name ++ " " ++
    Text.quoted t.literal ++ "  [" ++ t.context.mode.name ++ "@" ++
    Text.decimal t.context.depth ++ "]" ++ role

end Token

end Asm6510
