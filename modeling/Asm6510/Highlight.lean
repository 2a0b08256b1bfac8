import Asm6510.Scope.Lookup
import Asm6510.Text.Utf16
import Asm6510.Token.Basic

/-!
# Highlighting

* `Highlight.classify`: the class in which a token is shown.
* `Highlight.Mark`: where a shown token stands, in UTF-16 units.
* `Highlight.encode`: the marks as five numbers each, lines and starts relative to the mark before.
-/

namespace Asm6510.Highlight

/-- Classes of shown tokens. -/
inductive Class
  | keyword
  | variableName
  | functionName
  | macroName
  | pseudocommand
  | number
  | comment
  | string
  | operator
deriving DecidableEq, Repr

namespace Class

/-- All classes in the order of their codes. -/
def all : List Class :=
  [keyword, variableName, functionName, macroName, pseudocommand, number, comment, string, operator]

/-- The name of a class. -/
def name : Class → String
  | keyword => "keyword"
  | variableName => "variable"
  | functionName => "function"
  | macroName => "macro"
  | pseudocommand => "pseudocommand"
  | number => "number"
  | comment => "comment"
  | string => "string"
  | operator => "operator"

/-- The code of a class. -/
def code : Class → Nat
  | keyword => 0
  | variableName => 1
  | functionName => 2
  | macroName => 3
  | pseudocommand => 4
  | number => 5
  | comment => 6
  | string => 7
  | operator => 8

/-- The class of a name by the kind of its symbol. -/
def ofSymbol : SymbolKind → Class
  | .constant => variableName
  | .var => variableName
  | .parameter => variableName
  | .label => functionName
  | .function => functionName
  | .macroBody => macroName
  | .pseudocommand => pseudocommand
  | .scope => keyword

end Class

/-- What is said about a shown token beside its class. -/
inductive Modifier
  | plain
  | declaration
  | readonly
deriving DecidableEq, Repr

/-- The bits of a modifier. -/
def Modifier.code : Modifier → Nat
  | plain => 0
  | declaration => 1
  | readonly => 2

/-- The names of the modifiers in the order of their bits. -/
def modifierNames : List String :=
  ["declaration", "readonly"]

/-- The class of a name at a line. Names without a symbol are shown as variables. -/
def nameClass (scope : Option Scope) (t : Token) : Class :=
  match scope with
  | none => .variableName
  | some root =>
    match ((Cursor.ofRoot root).innermost ((t.place.line : Int) - 1)).find? t.literal with
    | some r => .ofSymbol r.symbol.kind
    | none => .variableName

/-- The class in which a token is shown; some tokens are not. -/
def classify (scope : Option Scope) (t : Token) : Option (Class × Modifier) :=
  match t.kind with
  | .mnemonic _ => some (.keyword, .plain)
  | .otherwise => some (.keyword, .plain)
  | .directive .preprocessor =>
    if Text.startsWith t.literal "#" then some (.macroName, .plain)
    else some (.keyword, .declaration)
  | .directive _ => some (.keyword, .declaration)
  | .programCounter => some (.keyword, .declaration)
  | .number _ => some (.number, .plain)
  | .lineComment => some (.comment, .plain)
  | .blockComment => some (.comment, .plain)
  | .string => some (.string, .plain)
  | .label => some (.functionName, .plain)
  | .identifier => some (nameClass scope t, .plain)
  | .function _ => some (.functionName, .readonly)
  | .constant _ => some (.variableName, .readonly)
  | .hash => some (.operator, .plain)
  | .less => some (.operator, .plain)
  | .greater => some (.operator, .plain)
  | .plus => some (.operator, .plain)
  | .minus => some (.operator, .plain)
  | .asterisk => some (.operator, .plain)
  | .slash => some (.operator, .plain)
  | .equal => some (.operator, .plain)
  | .equalEqual => some (.operator, .plain)
  | .notEqual => some (.operator, .plain)
  | .lessEqual => some (.operator, .plain)
  | .greaterEqual => some (.operator, .plain)
  | _ => none

/-- Where a shown token stands: its line from zero, its start and length in UTF-16 units. -/
structure Mark where
  line : Nat
  start : Nat
  length : Nat
  cls : Class
  modifier : Modifier
deriving DecidableEq, Repr

/-- The start of a token in its line. -/
def startOf (lines : Array String) (place : Place) : Nat :=
  match place.line with
  | 0 => 0
  | i + 1 => Text.units (((lines[i]?).getD "").toList.take (place.column - 1))

/-- The mark of a token; only its first line is shown, and only if that is not empty. -/
def mark? (lines : Array String) (scope : Option Scope) (t : Token) : Option Mark :=
  match classify scope t with
  | none => none
  | some (cls, modifier) =>
    let length := Text.units (t.spelling.toList.takeWhile (· != '\n'))
    if length = 0 then none
    else some ⟨t.place.line - 1, startOf lines t.place, length, cls, modifier⟩

/-- The marks of the tokens before the end of the text. -/
def marks (lines : Array String) (scope : Option Scope) (tokens : List Token) : List Mark :=
  (tokens.takeWhile fun t => t.kind != .endOfText).filterMap (mark? lines scope)

/-- The five numbers of a mark behind another one. -/
def relative (line start : Nat) (m : Mark) : List Int :=
  [(m.line : Int) - line,
    if m.line = line then (m.start : Int) - start else m.start,
    m.length, m.cls.code, m.modifier.code]

/-- The numbers of marks behind a mark at a line and a start. -/
def encodeFrom (line start : Nat) : List Mark → List Int
  | [] => []
  | m :: rest => relative line start m ++ encodeFrom m.line m.start rest

/-- The tokens of a text as numbers for an editor. -/
def encode (scope : Option Scope) (text : String) (tokens : List Token) : List Int :=
  encodeFrom 0 0 (marks (Text.lines text).toArray scope tokens)

end Asm6510.Highlight
