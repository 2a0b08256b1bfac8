import Asm6510.Reference.Basic
import Asm6510.Token.Basic

/-!
# Lexemes

What the characters ahead mean in a mode, decided without reading them.

* `Lexeme`: a token to be read, and what it does to the nesting.
* `numberAt?`, `wordAt?`, `labelAt?`, `mnemonicAt?`, …: the lexeme of each form at `c :: cs`.
* `Action`, `actionAt`: a lexeme, or a change of mode that reads no token.

Every form is given by the character `c` that it starts with and the characters `cs` behind it, so a
lexeme has at least one character.
-/

namespace Asm6510

/-- A token that starts at the current character. -/
structure Lexeme where
  kind : TokenKind
  /-- The characters of the lexeme behind its first one. -/
  more : Nat
  note : Note
  /-- The code that is the literal of a character literal. -/
  code : Option Nat
  /-- Changes of the nesting before the lexeme is read. -/
  opening : List Nesting.Edit
  /-- Changes after it is read; the token has the context that they leave. -/
  closing : List Nesting.Edit
  /-- Changes once the token is made. -/
  following : List Nesting.Edit
  /-- Blanks that are read along behind the lexeme. -/
  gap : Nat

namespace Lexeme

/-- A lexeme that leaves the nesting as it is. -/
def plain (kind : TokenKind) (more : Nat) : Lexeme :=
  { kind, more, note := Note.none, code := none, opening := [], closing := [], following := [],
    gap := 0 }

/-- The lexeme with a part in an operand. -/
def withRole (x : Lexeme) (role : OperandRole) : Lexeme :=
  { x with note := { x.note with role := some role } }

/-- The lexeme with a change of the nesting before it. -/
def after (x : Lexeme) (edit : Nesting.Edit) : Lexeme :=
  { x with opening := [edit] }

end Lexeme

namespace Lexing

open Text

/-- The number of characters at the start that satisfy `p`. -/
def run (p : Char → Bool) (cs : List Char) : Nat :=
  (cs.takeWhile p).length

/-- Whether the next character is there and satisfies `p`. -/
def nextIs (p : Char → Bool) : List Char → Bool
  | [] => false
  | c :: _ => p c

/-- Characters that a qualified name goes on with. -/
def isDotted (c : Char) : Bool :=
  isNamePart c || c == '.'

/-- Blanks within a line. -/
def isLineBlank (c : Char) : Bool :=
  c == ' ' || c == '\t' || c == '\r'

/-- The characters that are skipped in a mode: blanks, and line feeds where they end nothing. -/
def isSkipped (mode : Mode) (c : Char) : Bool :=
  isLineBlank c || (c == '\n' && !mode.endsAtLine)

/-- A comment up to the end of the line; it ends what the end of the line ends. -/
def lineComment (cs : List Char) : Lexeme :=
  (Lexeme.plain .lineComment (run (· != '\n') cs)).after .endLine

/-- Characters up to and with the end of a block comment. -/
def blockCommentSize : List Char → Nat
  | [] => 0
  | '*' :: '/' :: _ => 2
  | _ :: cs => blockCommentSize cs + 1

/-- A block comment; `cs` are the characters behind its two opening ones. -/
def blockComment (cs : List Char) : Lexeme :=
  Lexeme.plain .blockComment (blockCommentSize cs + 1)

/-- Characters of a string behind its opening quote: up to and with the closing quote, or up to
the end of the line. A backslash takes the next character along. -/
def stringSize : List Char → Nat
  | [] => 0
  | '"' :: _ => 1
  | '\n' :: _ => 0
  | ['\\'] => 1
  | '\\' :: '\n' :: _ => 1
  | '\\' :: _ :: cs => stringSize cs + 2
  | _ :: cs => stringSize cs + 1

/-- A string; `cs` are the characters behind its opening quote. -/
def string (cs : List Char) : Lexeme :=
  { Lexeme.plain .string (stringSize cs) with
    opening := [.push .stringLiteral ""], closing := [.pop] }

/-- An operator or punctuation mark, or an illegal character. -/
def operator (c : Char) (cs : List Char) : Lexeme :=
  let pair := match cs with
    | d :: _ => TokenKind.ofPair? c d
    | [] => none
  match pair with
  | some kind => Lexeme.plain kind 1
  | none =>
    let kind := TokenKind.ofChar c
    let closing := match kind with
      | .leftBrace => [Nesting.Edit.push .block ""]
      | .rightBrace => [Nesting.Edit.closeBlock]
      | _ => []
    { Lexeme.plain kind 0 with closing }

/-- Digits of a base. -/
def isHexDigit (c : Char) : Bool :=
  (hexDigit? c).isSome

/-- Binary digits. -/
def isBinaryDigit (c : Char) : Bool :=
  c == '0' || c == '1'

/-- Octal digits. -/
def isOctalDigit (c : Char) : Bool :=
  '0' ≤ c && c ≤ '7'

/-- Letters and digits. -/
def isAlphanumeric (c : Char) : Bool :=
  c.isAlpha || c.isDigit

/-- Digits behind a mark; without digits there is no number. -/
def digitsBehind? (radix : Radix) (p : Char → Bool) (cs : List Char) : Option Lexeme :=
  let digits := run p cs
  if digits = 0 then none else some (Lexeme.plain (.number radix) digits)

/-- A hexadecimal number behind its mark. A run that goes on with other letters is illegal as a
whole. -/
def hexBehind? (cs : List Char) : Option Lexeme :=
  let digits := run isHexDigit cs
  let rest := cs.drop digits
  if nextIs isLetter rest then
    some (Lexeme.plain .illegal (digits + run isAlphanumeric rest))
  else
    digitsBehind? .hex isHexDigit cs

/-- Characters of a fraction: a point and at least one digit. -/
def fractionSize : List Char → Nat
  | '.' :: cs => if nextIs Char.isDigit cs then run Char.isDigit cs + 1 else 0
  | _ => 0

/-- A number that starts with `c`: by a mark for its base, a character between apostrophes, or
decimal digits with a fraction. -/
def unmarkedNumberAt? (c : Char) (cs : List Char) : Option Lexeme :=
  if c = '$' then hexBehind? cs
  else if c = '%' then digitsBehind? .binary isBinaryDigit cs
  else if c = '&' then digitsBehind? .octal isOctalDigit cs
  else if c = '\'' then
    match cs with
    | value :: '\'' :: _ =>
      if value = '\n' then none
      else some { Lexeme.plain (.number .decimal) 2 with code := some value.toNat }
    | _ => none
  else if c.isDigit then
    let whole := run Char.isDigit cs
    some (Lexeme.plain (.number .decimal) (whole + fractionSize (cs.drop whole)))
  else
    none

/-- A number, which may have a number sign before it. -/
def numberAt? (c : Char) (cs : List Char) : Option Lexeme :=
  if c = '#' then
    match cs with
    | d :: rest => (unmarkedNumberAt? d rest).map fun x => { x with more := x.more + 1 }
    | [] => none
  else
    unmarkedNumberAt? c cs

/-- The characters of a name behind its first one: a qualified name, or a reference to a
multi-label such as `!loop+`. -/
def nameSize? (c : Char) (cs : List Char) : Option Nat :=
  if isNameStart c then
    some (run isDotted cs)
  else if c = '!' ∧ nextIs (fun d => isNameStart d || d == '+' || d == '-') cs then
    let name := run isDotted cs
    some (name + run (fun d => d == '+' || d == '-') (cs.drop name))
  else
    none

/-- A name, classified by the built-in functions and constants; a constant wins. -/
def wordAt? (ref : Option Reference) (c : Char) (cs : List Char) : Option Lexeme :=
  (nameSize? c cs).map fun more =>
    let word := String.ofList (c :: cs.take more)
    if word = "else" then
      Lexeme.plain .otherwise more
    else
      match if c = '!' then none else ref with
      | none => Lexeme.plain .identifier more
      | some ref =>
        let function := ref.function? word
        let constant := ref.constant? word
        let kind := match constant, function with
          | some k, _ => TokenKind.constant (.ofCategory k.category)
          | none, some f => TokenKind.function (.ofCategory f.category)
          | none, none => TokenKind.identifier
        { Lexeme.plain kind more with note := { Note.none with function, constant } }

/-- A label: a name, or an exclamation mark that may have a name behind it, and one colon. -/
def labelAt? (c : Char) (cs : List Char) : Option Lexeme :=
  if c = '!' ∨ isNameStart c then
    let name := run isNamePart cs
    match cs.drop name with
    | ':' :: rest => if nextIs (· == ':') rest then none else some (Lexeme.plain .label (name + 1))
    | _ => none
  else
    none

/-- The class of a known mnemonic. -/
def mnemonicClass (ref : Reference) (word : String) : MnemonicClass :=
  if ref.isUndocumented word then .undocumented
  else if ref.isControl word then .control
  else .standard

/-- A known mnemonic: three letters that no name goes on from. -/
def mnemonicAt? (ref : Option Reference) (c : Char) (cs : List Char) : Option Lexeme :=
  match ref, cs with
  | some ref, d :: e :: rest =>
    if isLetter c && isLetter d && isLetter e && !nextIs isNamePart rest then
      let word := String.ofList [c, d, e]
      (ref.mnemonic? word).map fun info =>
        { Lexeme.plain (.mnemonic (mnemonicClass ref word)) 2 with
          note := { Note.none with mnemonic := some info }
          following := [.push .instruction ""] }
    else
      none
  | _, _ => none

/-- A directive of a kind, named by the characters from `c` on. -/
def directive (kind : TokenKind) (name : String) (more : Nat) : Lexeme :=
  { Lexeme.plain kind more with
    note := { Note.none with directive := name }
    closing := [.push .directive name] }

/-- A preprocessor statement: a number sign and letters that the reference knows. -/
def preprocessorAt? (ref : Option Reference) (c : Char) (cs : List Char) : Option Lexeme :=
  if c = '#' then
    match ref with
    | some ref =>
      let more := run isLetter cs
      let name := lower (String.ofList (c :: cs.take more))
      if ref.isPreprocessor name then some (directive (.directive .preprocessor) name more) else none
    | none => none
  else
    none

/-- The class of a directive by the reference. -/
def directiveClass (ref : Option Reference) (name : String) : DirectiveClass :=
  match ref with
  | some ref =>
    if (ref.directive? name).isSome then .ofCategory (ref.directiveCategory name) else .preprocessor
  | none => .preprocessor

/-- A directive: a point and a name that starts with a letter. -/
def directiveAt? (ref : Option Reference) (c : Char) (cs : List Char) : Option Lexeme :=
  if c = '.' ∧ nextIs isLetter cs then
    let more := run isNamePart cs
    let name := lower (String.ofList (c :: cs.take more))
    some (directive (.directive (directiveClass ref name)) name more)
  else
    none

/-- The setting of the program counter. -/
def programCounterAt? (c : Char) (cs : List Char) : Option Lexeme :=
  if c = '*' ∧ nextIs (· == '=') cs then some (Lexeme.plain .programCounter 1) else none

/-- A string that starts with `c`. -/
def stringAt? (c : Char) (cs : List Char) : Option Lexeme :=
  if c = '"' then some (string cs) else none

/-- Whether an index register stands alone at the start. -/
def isLoneRegister : List Char → Bool
  | c :: cs => (c == 'x' || c == 'X' || c == 'y' || c == 'Y') && !nextIs isDotted cs
  | [] => false

/-- A value: a number, a string, a name, or else an operator. -/
def value (ref : Option Reference) (c : Char) (cs : List Char) : Lexeme :=
  ((numberAt? c cs).orElse fun _ => (stringAt? c cs).orElse fun _ => wordAt? ref c cs).getD
    (operator c cs)

/-- The start of a statement. -/
def statement (ref : Option Reference) (c : Char) (cs : List Char) : Lexeme :=
  ((preprocessorAt? ref c cs).orElse fun _ => (directiveAt? ref c cs).orElse fun _ =>
    (programCounterAt? c cs).orElse fun _ => (labelAt? c cs).orElse fun _ =>
    mnemonicAt? ref c cs).getD (value ref c cs)

/-- The comma of an operand. The blanks behind it are read along; an index register behind them
makes it an index separator. -/
def operandComma (c : Char) (cs : List Char) : Lexeme :=
  let gap := run isLineBlank cs
  let comma := { operator c cs with gap }
  if isLoneRegister (cs.drop gap) then comma.withRole .indexSeparator else comma

/-- The index register of an operand, which it ends. -/
def indexRegister : Lexeme :=
  { (Lexeme.plain .identifier 0).withRole .indexRegister with following := [.pop] }

/-- A part of an operand, with its role. -/
def operand (ref : Option Reference) (c : Char) (cs : List Char) : Lexeme :=
  if c = '#' then (operator c cs).withRole .immediate
  else if c = '(' then ((operator c cs).withRole .indirect).after (.push .addressing "")
  else if c = ',' then operandComma c cs
  else if c = '"' then string cs
  else
    match numberAt? c cs with
    | some x => x.withRole .address
    | none =>
      if isLoneRegister (c :: cs) then indexRegister
      else
        match wordAt? ref c cs with
        | some x => x.withRole .label
        | none => operator c cs

end Lexing

/-- What to do at a character. -/
inductive Action
  /-- Read a token. -/
  | emit (x : Lexeme)
  /-- Read the line feed and leave the mode that it ends. -/
  | newline
  /-- Leave the mode and look again. -/
  | leave
  /-- A mnemonic is followed by something: its operand begins. -/
  | operand

namespace Lexing

/-- What to do after a directive. -/
def directiveAction (ref : Option Reference) (c : Char) (cs : List Char) : Action :=
  if c = '\n' then .newline
  else if c = '{' then .emit ((operator c cs).after .pop)
  else if c = '}' then .leave
  else if c = '(' then .emit ((operator c cs).after (.push .expression ""))
  else .emit (value ref c cs)

/-- What to do inside the parentheses of a directive. -/
def expressionAction (ref : Option Reference) (c : Char) (cs : List Char) : Action :=
  if c = ')' then .emit ((operator c cs).after .pop)
  else if c = '(' then .emit ((operator c cs).after (.push .expression ""))
  else .emit (value ref c cs)

/-- What to do inside the parentheses of an operand. -/
def addressingAction (ref : Option Reference) (c : Char) (cs : List Char) : Action :=
  if c = ')' then .emit ((operator c cs).after .pop) else .emit (value ref c cs)

/-- What to do right after a mnemonic. -/
def instructionAction (c : Char) : Action :=
  if c = '\n' then .newline else .operand

/-- What to do in an operand. -/
def operandAction (ref : Option Reference) (c : Char) (cs : List Char) : Action :=
  if c = '\n' then .newline
  else if c = '}' then .leave
  else .emit (operand ref c cs)

/-- What to do in a mode, comments apart. -/
def modeAction (ref : Option Reference) (mode : Mode) (c : Char) (cs : List Char) : Action :=
  match mode with
  | .stringLiteral => .emit (string cs)
  | .directive => directiveAction ref c cs
  | .expression => expressionAction ref c cs
  | .addressing => addressingAction ref c cs
  | .instruction => instructionAction c
  | .operand => operandAction ref c cs
  | _ => .emit (statement ref c cs)

/-- What to do at `c :: cs`. Comments come first; a semicolon starts one outside parentheses. -/
def actionAt (ref : Option Reference) (mode : Mode) (parens : Nat) (c : Char) (cs : List Char) :
    Action :=
  match c, cs with
  | '/', '/' :: _ => .emit (lineComment cs)
  | '/', '*' :: rest => .emit (blockComment rest)
  | _, _ =>
    if c = ';' ∧ parens = 0 then .emit (lineComment cs) else modeAction ref mode c cs

end Lexing

end Asm6510
