import Asm6510.Json.Value

/-!
# Reading JSON

`Json.read` reads a whole text. Beside the standard grammar it knows `NaN`, `Infinity` and
`-Infinity`; of members with one name the last value counts. The recursion is bounded by the
length of the text, which every nested value makes shorter.
-/

namespace Asm6510.Json

/-- Why a text is not read. -/
inductive Fault
  | malformed
  | longInteger (digits : Nat)
deriving DecidableEq, Repr

/-- The white space between JSON tokens. -/
def isGap (c : Char) : Bool :=
  c == ' ' || c == '\t' || c == '\n' || c == '\r'

/-- Drops white space. -/
def skipGap (cs : List Char) : List Char :=
  cs.dropWhile isGap

/-- Reads four hexadecimal digits. -/
def fourHex? : List Char → Option (Nat × List Char)
  | a :: b :: c :: d :: rest => do
    let a ← Text.hexDigit? a
    let b ← Text.hexDigit? b
    let c ← Text.hexDigit? c
    let d ← Text.hexDigit? d
    return (((a * 16 + b) * 16 + c) * 16 + d, rest)
  | _ => none

/-- The character of an escape letter. -/
def escapeChar? : Char → Option Char
  | '"' => some '"'
  | '\\' => some '\\'
  | '/' => some '/'
  | 'b' => some (Char.ofNat 8)
  | 'f' => some (Char.ofNat 12)
  | 'n' => some '\n'
  | 'r' => some '\r'
  | 't' => some '\t'
  | _ => none

/-- The character of a unit, which may need the unit that follows it. A half that stands alone
becomes U+FFFD. -/
def unitChar (unit : Nat) (rest : List Char) : Char × List Char :=
  if 0xd800 ≤ unit ∧ unit ≤ 0xdbff then
    match rest with
    | '\\' :: 'u' :: more =>
      match fourHex? more with
      | some (low, after) =>
        if 0xdc00 ≤ low ∧ low ≤ 0xdfff then
          (Char.ofNat (0x10000 + (unit - 0xd800) * 1024 + (low - 0xdc00)), after)
        else
          (Char.ofNat 0xfffd, rest)
      | none => (Char.ofNat 0xfffd, rest)
    | _ => (Char.ofNat 0xfffd, rest)
  else if 0xdc00 ≤ unit ∧ unit ≤ 0xdfff then
    (Char.ofNat 0xfffd, rest)
  else
    (Char.ofNat unit, rest)

/-- Reads a string behind its opening quote; `done` holds what was read, the last first. -/
def readString (fuel : Nat) (done : List Char) (cs : List Char) :
    Except Fault (String × List Char) :=
  match fuel, cs with
  | 0, _ => .error .malformed
  | _ + 1, [] => .error .malformed
  | _ + 1, '"' :: rest => .ok (String.ofList done.reverse, rest)
  | fuel + 1, '\\' :: 'u' :: rest =>
    match fourHex? rest with
    | some (unit, rest) =>
      let (c, rest) := unitChar unit rest
      readString fuel (c :: done) rest
    | none => .error .malformed
  | fuel + 1, '\\' :: e :: rest =>
    match escapeChar? e with
    | some c => readString fuel (c :: done) rest
    | none => .error .malformed
  | fuel + 1, c :: rest =>
    if c.toNat < 0x20 ∨ c = '\\' then .error .malformed else readString fuel (c :: done) rest

/-- The digits at the start, and the rest. -/
def spanDigits (cs : List Char) : List Char × List Char :=
  (cs.takeWhile Char.isDigit, cs.dropWhile Char.isDigit)

/-- The value of ASCII digits. -/
def digitsValue (digits : List Char) : Nat :=
  Number.ofDigits 10 (digits.map fun c => c.toNat - '0'.toNat)

/-- A fraction: a point and at least one digit. -/
def readFraction (cs : List Char) : List Char × List Char :=
  match cs with
  | '.' :: rest =>
    match spanDigits rest with
    | ([], _) => ([], cs)
    | found => found
  | _ => ([], cs)

/-- A power of ten: a letter, a sign that may be missing, and at least one digit. -/
def readPower (cs : List Char) : Option Int × List Char :=
  match cs with
  | e :: rest =>
    if e = 'e' ∨ e = 'E' then
      let (negative, rest) := Number.splitSign rest
      match spanDigits rest with
      | ([], _) => (none, cs)
      | (digits, rest) =>
        let value : Int := digitsValue digits
        (some (if negative then -value else value), rest)
    else
      (none, cs)
  | [] => (none, cs)

/-- Reads a number behind its sign. -/
def readNumber (negative : Bool) (cs : List Char) : Except Fault (Json × List Char) :=
  let (whole, rest) := match cs with
    | '0' :: rest => (['0'], rest)
    | _ => spanDigits cs
  if whole.isEmpty then
    .error .malformed
  else
    let (fraction, rest) := readFraction rest
    let (power, rest) := readPower rest
    if fraction.isEmpty ∧ power.isNone then
      if Number.decimalLimit < whole.length then
        .error (.longInteger whole.length)
      else
        let value : Int := digitsValue whole
        .ok (.int (if negative then -value else value), rest)
    else
      let exponent := power.getD 0 - fraction.length
      .ok (.real (.ofDecimal negative (digitsValue (whole ++ fraction)) exponent), rest)

/-- The words that are values, and the value of each. -/
def words : List (List Char × Json) := [
  ("null".toList, .null),
  ("true".toList, .bool true),
  ("false".toList, .bool false),
  ("NaN".toList, .real .undefined),
  ("Infinity".toList, .real (.infinite false)),
  ("-Infinity".toList, .real (.infinite true))]

/-- The word at the start that is a value. -/
def readWord? (cs : List Char) : Option (Json × List Char) :=
  (words.find? fun w => w.1.isPrefixOf cs).map fun w => (w.2, cs.drop w.1.length)

mutual

/-- Reads a value behind white space. -/
def readValue (fuel : Nat) (cs : List Char) : Except Fault (Json × List Char) :=
  match fuel with
  | 0 => .error .malformed
  | fuel + 1 =>
    match readWord? cs with
    | some found => .ok found
    | none =>
      match cs with
      | '"' :: rest => do
        let (s, rest) ← readString (rest.length + 1) [] rest
        return (.string s, rest)
      | '[' :: rest =>
        match skipGap rest with
        | ']' :: rest => .ok (.array [], rest)
        | rest => do
          let (items, rest) ← readItems fuel rest
          return (.array items, rest)
      | '{' :: rest =>
        match skipGap rest with
        | '}' :: rest => .ok (.object [], rest)
        | rest => readMembers fuel [] rest
      | '-' :: rest => readNumber true rest
      | _ => readNumber false cs

/-- Reads the items of an array up to its closing bracket. -/
def readItems (fuel : Nat) (cs : List Char) : Except Fault (List Json × List Char) :=
  match fuel with
  | 0 => .error .malformed
  | fuel + 1 => do
    let (item, rest) ← readValue fuel cs
    match skipGap rest with
    | ',' :: rest =>
      let (items, rest) ← readItems fuel (skipGap rest)
      return (item :: items, rest)
    | ']' :: rest => return ([item], rest)
    | _ => throw .malformed

/-- Reads the members of an object up to its closing brace. -/
def readMembers (fuel : Nat) (done : List (String × Json)) (cs : List Char) :
    Except Fault (Json × List Char) :=
  match fuel with
  | 0 => .error .malformed
  | fuel + 1 =>
    match cs with
    | '"' :: rest => do
      let (name, rest) ← readString (rest.length + 1) [] rest
      match skipGap rest with
      | ':' :: rest =>
        let (value, rest) ← readValue fuel (skipGap rest)
        let done := putMember name value done
        match skipGap rest with
        | ',' :: rest => readMembers fuel done (skipGap rest)
        | '}' :: rest => return (.object done, rest)
        | _ => throw .malformed
      | _ => throw .malformed
    | _ => .error .malformed

end

/-- Reads a whole text as one value. -/
def read (s : String) : Except Fault Json := do
  let cs := s.toList
  let (value, rest) ← readValue (cs.length + 1) (skipGap cs)
  match skipGap rest with
  | [] => return value
  | _ => throw .malformed

end Asm6510.Json
