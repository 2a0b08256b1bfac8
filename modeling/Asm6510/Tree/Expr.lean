import Asm6510.Text.Case
import Asm6510.Token.Basic

/-!
# Expressions

* `Expr`: the expressions of the language. What was not written, or could not be read, is
  `Expr.missing`.
* `Expr.render`: the expression as source text; numbers keep their written form.
* `OperandShape`: how the operand of an instruction addresses memory, by its form.
-/

namespace Asm6510

/-- An expression. -/
inductive Expr
  /-- Nothing. -/
  | missing
  /-- A name, which may be qualified. -/
  | identifier (token : Token) (value : String)
  | integer (token : Token) (value : Nat)
  /-- A string; `value` is without the quotes. -/
  | string (token : Token) (value : String)
  /-- An operator before its operand. -/
  | unary (operator : Token) (operand : Expr)
  /-- An operator between its operands. -/
  | binary (operator : Token) (left right : Expr)
  /-- An operand indexed by a register. -/
  | indexed (comma : Token) (base : Expr) (register : Token)
  /-- An expression in parentheses or brackets. -/
  | group (opening : Token) (inner : Expr)
  | call (token : Token) (function : Expr) (arguments : List Expr)
  /-- The values of a directive. -/
  | array (token : Token) (elements : List Expr)
  /-- The current address. -/
  | programCounter (token : Token)
deriving Repr

namespace Expr

/-- Whether there is no expression. -/
def isMissing : Expr → Bool
  | missing => true
  | _ => false

/-- The expression as a list of at most one. -/
def toList (e : Expr) : List Expr :=
  if e.isMissing then [] else [e]

/-- The token of an expression. -/
def token? : Expr → Option Token
  | missing => none
  | identifier t _ => some t
  | integer t _ => some t
  | string t _ => some t
  | unary t _ => some t
  | binary t _ _ => some t
  | indexed t _ _ => some t
  | group t _ => some t
  | call t _ _ => some t
  | array t _ => some t
  | programCounter t => some t

/-- A token as a name. -/
def ofName (t : Token) : Expr :=
  identifier t t.literal

/-- The name of an index register. -/
def registerName (t : Token) : String :=
  Text.upper t.literal

/-- Whether an operator is written without blanks around it. -/
def isTight (operator : String) : Bool :=
  operator == "," || operator == "."

mutual

/-- The expression as source text. Operators between operands have blanks around them. -/
def render : Expr → String
  | missing => ""
  | identifier _ value => value
  | integer t _ => t.literal
  | string _ value => "\"" ++ value ++ "\""
  | unary op e => op.literal ++ render e
  | binary op l r =>
    if isTight op.literal then render l ++ op.literal ++ render r
    else render l ++ " " ++ op.literal ++ " " ++ render r
  | indexed _ e register => render e ++ "," ++ registerName register
  | group opening e =>
    if opening.literal == "[" then "[" ++ render e ++ "]" else "(" ++ render e ++ ")"
  | call _ f args => render f ++ "(" ++ Text.join ", " (renderAll args) ++ ")"
  | array _ es => Text.join ", " (renderAll es)
  | programCounter _ => "*"

/-- Several expressions as source text. -/
def renderAll : List Expr → List String
  | [] => []
  | e :: es => render e :: renderAll es

end

end Expr

/-- How an operand addresses memory. -/
inductive OperandShape
  | implied
  | accumulator
  | immediate
  | plain
  | indexed (register : String)
  | indirect
  | indexedIndirect (register : String)
  | indirectIndexed (register : String)
deriving DecidableEq, Repr

namespace OperandShape

/-- The shape of an operand. Brackets group like parentheses but never mean indirection. -/
def ofOperand : Expr → OperandShape
  | .missing => implied
  | .unary op _ => if op.literal == "#" then immediate else plain
  | .indexed _ (.group opening _) register =>
    if opening.kind = .leftParen then indirectIndexed (Expr.registerName register)
    else indexed (Expr.registerName register)
  | .indexed _ _ register => indexed (Expr.registerName register)
  | .group opening inner =>
    if opening.kind = .leftParen then
      match inner with
      | .indexed _ _ register => indexedIndirect (Expr.registerName register)
      | _ => indirect
    else
      plain
  | .identifier _ value => if Text.upper value == "A" then accumulator else plain
  | _ => plain

/-- The name of the mode in messages. -/
def modeName : OperandShape → String
  | implied => "Implied"
  | accumulator => "Accumulator"
  | immediate => "Immediate"
  | plain => "Absolute"
  | indexed r => "Absolute," ++ r
  | indirect => "Indirect"
  | indexedIndirect r => "(Indirect," ++ r ++ ")"
  | indirectIndexed r => "(Indirect)," ++ r

/-- The modes that an operand of this shape may have. Zero page and absolute operands look
alike. -/
def acceptedModes : OperandShape → List String
  | implied => ["Implied", "Accumulator"]
  | accumulator => ["Accumulator", "Absolute", "Zeropage"]
  | immediate => ["Immediate"]
  | plain => ["Absolute", "Zeropage", "Relative"]
  | indexed r => ["Absolute," ++ r, "Zeropage," ++ r]
  | indirect => ["Indirect"]
  | indexedIndirect r => ["(Indirect," ++ r ++ ")"]
  | indirectIndexed r => ["(Indirect)," ++ r]

end OperandShape

end Asm6510
