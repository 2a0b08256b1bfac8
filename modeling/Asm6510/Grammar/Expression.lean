import Asm6510.Grammar.Literal
import Asm6510.Grammar.Parser

/-!
# The grammar of expressions

Operators bind by level: comparison for equality lowest, then order, bit operations, shifts, sums,
products, operators before their operand, membership, and calls. The parsers of the parts take
the parser of nested expressions as `sub`; `expression` ties the knot by recursion on the room that
the nesting bound leaves.

A parser of an expression starts at its first token and ends at its last one. What cannot be read
is reported and becomes `Expr.missing`.
-/

namespace Asm6510.Grammar

/-- The level that every operator binds stronger than. -/
def lowest : Nat := 1

/-- The level of an operator before its operand. -/
def prefixLevel : Nat := 8

/-- The level of an operator between its operands; other tokens have the lowest one. -/
def level : TokenKind → Nat
  | .equal => 2
  | .equalEqual => 2
  | .notEqual => 2
  | .less => 3
  | .greater => 3
  | .lessEqual => 3
  | .greaterEqual => 3
  | .ampersand => 4
  | .pipe => 4
  | .caret => 4
  | .leftShift => 5
  | .rightShift => 5
  | .plus => 6
  | .minus => 6
  | .asterisk => 7
  | .slash => 7
  | .modulo => 7
  | .dot => 9
  | .leftParen => 10
  | _ => lowest

/-- Operators that stand before an operand. -/
def isPrefixOperator : TokenKind → Bool
  | .hash => true
  | .minus => true
  | .plus => true
  | .less => true
  | .greater => true
  | .dot => true
  | .atSign => true
  | _ => false

/-- Whether a token names an index register. -/
def isIndexRegister (t : Token) : Bool :=
  t.kind == .identifier && (Expr.registerName t == "X" || Expr.registerName t == "Y")

/-- Reports the nesting bound and skips the rest of the line. -/
def depthExceeded (rules : Rules) : Parser Expr := do
  let t ← current
  reportDepth rules t.place
  setUnwinding true
  skipLine t.place.line
  return .missing

/-- The number at the current token. -/
def integerLiteral (radix : Radix) (t : Token) : Parser Expr :=
  match numberValue radix t.literal with
  | .value n => return .integer t n
  | .refused => do
    reportHere ("Could not parse " ++ t.literal ++ " as integer")
    return .missing
  | .unbounded => do
    noteUnbounded
    return .missing

/-- The arguments of a call; starts at the opening parenthesis and ends at the closing one if it is
there. A comma may stand behind the last argument. -/
def arguments (sub : Parser Expr) : Parser (List Expr) := do
  if ← nextIs .rightParen then
    let _ ← advance
    return []
  else
    let _ ← advance
    let first ← sub
    let (rest, closed) ← whileNext .comma do
      let t ← advance
      if t.kind = .rightParen then return none
      else
        let e ← sub
        return some e.toList
    if closed then
      return first.toList ++ rest
    else
      if ← nextIs .rightParen then
        let _ ← advance
        return first.toList ++ rest
      else
        return first.toList ++ rest

/-- An expression in parentheses. An index register may stand behind it and a comma. -/
def grouped (sub : Parser Expr) (opening : Token) : Parser Expr := do
  let _ ← advance
  let inner ← sub
  if ← nextIs .comma then
    let comma ← advance
    let next ← peek
    if isIndexRegister next then
      let register ← advance
      if ← nextIs .rightParen then
        let _ ← advance
        return .group opening (.indexed comma inner register)
      else
        reportHere "Expected ')' after indexed indirect addressing"
        return .missing
    else
      let got ← if next.kind = .endOfText then pure comma else advance
      reportHere
        ("Expected 'X' or 'Y' after ',' in indirect addressing, got '" ++ got.literal ++ "'")
      return .missing
  else
    if ← nextIs .rightParen then
      let _ ← advance
      return .group opening inner
    else
      reportHere "Expected ')' after expression"
      return .missing

/-- An expression in brackets. -/
def bracketed (sub : Parser Expr) (opening : Token) : Parser Expr := do
  let _ ← advance
  let inner ← sub
  if ← nextIs .rightBracket then
    let _ ← advance
    return .group opening inner
  else
    reportHere "Expected ']' after expression"
    return .missing

/-- The call of a built-in function, which needs its parentheses. -/
def builtinCall (sub : Parser Expr) (name : Token) : Parser Expr := do
  if ← nextIs .leftParen then
    let _ ← advance
    let args ← arguments sub
    return .call name (.ofName name) args
  else
    reportHere ("Expected '(' after function '" ++ name.literal ++ "'")
    return .missing

/-- The words for a token that cannot be read at all. -/
def illegalMessage (literal : String) : String :=
  if Text.startsWith literal "$" || Text.startsWith literal "#$" then
    "Invalid hex value '" ++ literal ++
      "' - hex values must only contain digits 0-9 and letters A-F"
  else
    "Illegal character sequence '" ++ literal ++ "'"

/-- An operand: everything that an expression can start with. -/
def operand (sub : Nat → Parser Expr) : Parser Expr := do
  let t ← current
  match t.kind with
  | .identifier => return .ofName t
  | .constant _ => return .ofName t
  | .number radix => integerLiteral radix t
  | .string => return stringLiteral t
  | .asterisk => return .programCounter t
  | .leftParen => grouped (sub lowest) t
  | .leftBracket => bracketed (sub lowest) t
  | .function _ => builtinCall (sub lowest) t
  | .illegal =>
    reportHere (illegalMessage t.literal)
    return .missing
  | kind =>
    if isPrefixOperator kind then
      let _ ← advance
      let e ← sub prefixLevel
      return .unary t e
    else
      reportHere ("Unexpected token '" ++ t.literal ++ "' in expression")
      return .missing

/-- The operator at the current token and what is behind it, with the operand before it. -/
def operatorTail (sub : Nat → Parser Expr) (left : Expr) : Parser Expr := do
  let op ← current
  if op.kind = .leftParen then
    let args ← arguments (sub lowest)
    return .call op left args
  else
    let _ ← advance
    let right ← sub (level op.kind)
    return .binary op left right

/-- The operators behind an operand that bind stronger than `least`. -/
def operatorsRun (sub : Nat → Parser Expr) (least : Nat) (left : Expr) (s : State) :
    { r : Expr × State // r.2.left ≤ s.left } :=
  match h : s.ahead with
  | [] => ⟨(left, s), Nat.le_refl _⟩
  | t :: _ =>
    if !left.isMissing ∧ t.kind ≠ .endOfText ∧ least < level t.kind then
      let r := (operatorTail sub left).run s.advance
      have hr : r.2.left < s.left :=
        Nat.lt_of_le_of_lt ((operatorTail sub left).left_le s.advance) (State.left_advance_lt h)
      let rest := operatorsRun sub least r.1 r.2
      ⟨rest.1, Nat.le_trans rest.2 (Nat.le_of_lt hr)⟩
    else
      ⟨(left, s), Nat.le_refl _⟩
termination_by s.left

/-- The operators behind an operand that bind stronger than `least`. -/
def operators (sub : Nat → Parser Expr) (least : Nat) (left : Expr) : Parser Expr :=
  ⟨fun s => (operatorsRun sub least left s).1, fun s => (operatorsRun sub least left s).2⟩

/-- An expression whose operators bind stronger than `least`, nested at most `room` deep. -/
def expression (rules : Rules) : (room least : Nat) → Parser Expr
  | 0, _ => depthExceeded rules
  | room + 1, least => do
    let left ← operand (expression rules room)
    operators (expression rules room) least left

end Asm6510.Grammar
