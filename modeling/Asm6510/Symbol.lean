import Asm6510.Position
import Asm6510.Text.Case

/-!
# Symbols

* `nameKey`: the form of a name under which it is stored and looked up.
* `Symbol`: a name that the program defines.
-/

namespace Asm6510

/-- What a symbol names. -/
inductive SymbolKind
  | constant
  | var
  | label
  | function
  | macroBody
  | pseudocommand
  | scope
  | parameter
deriving DecidableEq, Repr

namespace SymbolKind

/-- All kinds. -/
def all : List SymbolKind :=
  [constant, var, label, function, macroBody, pseudocommand, scope, parameter]

/-- The name of a kind. -/
def name : SymbolKind → String
  | constant => "Constant"
  | var => "Variable"
  | label => "Label"
  | function => "Function"
  | macroBody => "Macro"
  | pseudocommand => "PseudoCommand"
  | scope => "Namespace"
  | parameter => "Parameter"

/-- The kind with a name. -/
def ofName? (s : String) : Option SymbolKind :=
  all.find? fun k => k.name == s

end SymbolKind

/-- Drops one exclamation mark at the start. -/
def withoutBang : List Char → List Char
  | '!' :: cs => cs
  | cs => cs

/-- Drops one colon at the end. -/
def withoutColon (cs : List Char) : List Char :=
  if cs.getLast? = some ':' then cs.dropLast else cs

/-- The directions of a reference to a multi-label. -/
def isDirection (c : Char) : Bool :=
  c == '+' || c == '-'

/-- The form of a name under which it is stored and looked up: without white space around it, the
mark of a multi-label, a colon and directions, in upper case. -/
def nameKey (name : String) : String :=
  let bare := withoutColon (withoutBang (Text.trim name).toList)
  Text.upper (Text.trimRight isDirection (String.ofList bare))

/-- A name that the program defines. -/
structure Symbol where
  /-- The name as it is written. -/
  name : String
  kind : SymbolKind
  position : Position
  /-- The value as source text. -/
  value : Option String
  /-- How often the name is referred to. -/
  uses : Int
  params : List String
  /-- Name and parameters of a callable. -/
  signature : String
deriving DecidableEq, Repr

namespace Symbol

/-- The key of a symbol. -/
def key (s : Symbol) : String :=
  nameKey s.name

/-- The range of the defining name. -/
def nameRange (s : Symbol) : Range :=
  Range.span s.position s.name.length

end Symbol

end Asm6510
