import Asm6510.Number.Binary64
import Asm6510.Tree.Expr

/-!
# Literals

The values of number and string tokens. A number with a fraction goes through double precision and
loses its fraction.
-/

namespace Asm6510.Grammar

/-- The value of a number. -/
inductive NumberValue
  | value (n : Nat)
  /-- The digits are not those of a number, or too many. -/
  | refused
  /-- The number is beyond the range of double precision. -/
  | unbounded
deriving DecidableEq, Repr

/-- The value of digits of a base; there has to be one. -/
def digitsValue? (base : Nat) (cs : List Char) : Option Nat :=
  if cs.isEmpty then none
  else (cs.mapM (Number.digit? base)).map (Number.ofDigits base)

/-- The value of digits behind a mark. -/
def markedValue (base : Nat) (cs : List Char) : NumberValue :=
  match digitsValue? base (cs.drop 1) with
  | some n => .value n
  | none => .refused

/-- The value of decimal digits with a fraction. -/
def fractionValue (whole fraction : List Char) : NumberValue :=
  match digitsValue? 10 (whole ++ fraction) with
  | none => .refused
  | some digits =>
    match (Number.Binary64.ofDecimal false digits (-(fraction.length : Int))).wholePart? with
    | some n => .value n
    | none => .unbounded

/-- The value of decimal digits, which may have a fraction. -/
def decimalValue (cs : List Char) : NumberValue :=
  let whole := cs.takeWhile (· != '.')
  match cs.dropWhile (· != '.') with
  | _ :: fraction => fractionValue whole fraction
  | [] =>
    if Number.decimalLimit < cs.length then .refused
    else
      match digitsValue? 10 cs with
      | some n => .value n
      | none => .refused

/-- The value of a number as it is written, a number sign before it apart. -/
def numberValue (radix : Radix) (literal : String) : NumberValue :=
  let cs := literal.toList.dropWhile (· == '#')
  match radix with
  | .hex => markedValue 16 cs
  | .binary => markedValue 2 cs
  | .octal => markedValue 8 cs
  | .decimal => decimalValue cs

/-- A string without its quotes; the closing one may be missing. -/
def stringValue (literal : String) : String :=
  match literal.toList with
  | '"' :: rest =>
    if rest.getLast? = some '"' then String.ofList rest.dropLast else String.ofList rest
  | cs => String.ofList cs

/-- A string token as an expression. -/
def stringLiteral (t : Token) : Expr :=
  .string t (stringValue t.literal)

end Asm6510.Grammar
