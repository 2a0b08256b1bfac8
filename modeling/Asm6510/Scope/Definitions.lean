import Asm6510.Diagnostic
import Asm6510.Scope.Basic
import Asm6510.Tree.Statement

/-!
# The definitions of a program

`Scope.ofProgram` builds the scope of a document from its program: labels, constants, variables and
callables become symbols; namespaces, enumerations and callables open scopes. The blocks of other
directives belong to the scope around them. A second definition of a name is reported and the first
one stays.
-/

namespace Asm6510

/-- What a directive with a name defines. -/
inductive DefinitionForm
  /-- A constant or variable, which needs a value. -/
  | value (kind : SymbolKind)
  /-- A label, which may have a value. -/
  | label
  /-- A constant without a value. -/
  | define
  /-- A callable with parameters and a scope. -/
  | callable (kind : SymbolKind)
  | scope
  | enumeration
  | nothing
deriving DecidableEq, Repr

/-- The form of a directive by its word. -/
def DefinitionForm.ofWord (word : String) : DefinitionForm :=
  match word with
  | ".const" => .value .constant
  | ".var" => .value .var
  | ".label" => .label
  | ".define" => .define
  | "#define" => .define
  | ".function" => .callable .function
  | ".macro" => .callable .macroBody
  | ".pseudocommand" => .callable .pseudocommand
  | ".namespace" => .scope
  | ".enum" => .enumeration
  | _ => .nothing

namespace Symbol

/-- A symbol of a name that is not yet referred to. -/
def plain (kind : SymbolKind) (name : String) (place : Place) (value : Option String) : Symbol :=
  ⟨name, kind, place.toPosition, value, 0, [], ""⟩

/-- The symbol that a token names. -/
def ofToken (kind : SymbolKind) (t : Token) (value : Option String) : Symbol :=
  plain kind t.literal t.place value

/-- The symbol of a callable. -/
def ofCallable (kind : SymbolKind) (t : Token) (parameters : List Token) : Symbol :=
  let params := parameters.map Token.literal
  { ofToken kind t none with
    params
    signature := t.literal ++ "(" ++ Text.join ", " params ++ ")" }

end Symbol

/-- A value as source text, if there is one. -/
def Expr.text? (e : Expr) : Option String :=
  if e.isMissing then none else some e.render

namespace Enumeration

/-- The index of the last member that is written before a place. -/
def owner? (members : List Token) (place : Place) : Option Nat :=
  ((members.zipIdx.filter fun m => m.1.place.before place).getLast?).map (·.2)

/-- The values of the members: each belongs to the last member before it, and the first one
counts. -/
def valueOf? (members : List Token) (elements : List Expr) (i : Nat) : Option String :=
  (elements.find? fun e => (e.token?.bind fun t => owner? members t.place) == some i).map Expr.render

/-- The values of an enumeration. -/
def elements : Expr → List Expr
  | .array _ es => es
  | _ => []

/-- The symbols of the members. -/
def symbols (d : Directive) : List Symbol :=
  d.parameters.zipIdx.map fun m =>
    Symbol.ofToken .constant m.1 (valueOf? d.parameters (elements d.value) m.2)

end Enumeration

/-- A scope that is being built, with what was reported so far. -/
structure Draft where
  scope : Scope
  diagnostics : List Diagnostic

namespace Draft

/-- The report of a second definition. -/
def duplicateDiagnostic (symbol : Symbol) (d : DuplicateSymbol) : Diagnostic where
  severity := .error
  range := symbol.nameRange
  message := d.reason
  source := Stage.definitions.label

/-- Adds a symbol or reports that it is there already. -/
def define (d : Draft) (symbol : Symbol) : Draft :=
  match d.scope.declare symbol with
  | .ok scope => { d with scope }
  | .error e => { d with diagnostics := d.diagnostics ++ [duplicateDiagnostic symbol e] }

/-- The scope that a named block opens. An open block ends where it starts. -/
def childScope (uri : String) (name closing : Token) : Scope :=
  let start := name.place.toPosition
  let stop : Position :=
    if closing.kind = .endOfText then start
    else ⟨(closing.place.line : Int) - 1, closing.place.column⟩
  Scope.leaf name.literal ⟨start, stop⟩ uri

/-- The definition of a directive that opens no scope. -/
def plainDirective (d : Draft) (dir : Directive) : Draft :=
  match dir.name with
  | none => d
  | some name =>
    match DefinitionForm.ofWord dir.word with
    | .value kind =>
      if dir.value.isMissing then d
      else d.define (Symbol.ofToken kind name dir.value.text?)
    | .label => d.define (Symbol.ofToken .label name dir.value.text?)
    | .define => d.define (Symbol.ofToken .constant name none)
    | _ => d

/-- Adds the draft of a child. -/
def attach (d child : Draft) : Draft :=
  ⟨d.scope.attach child.scope, child.diagnostics⟩

/-- The draft of a child that has these symbols first. -/
def openChild (d : Draft) (name closing : Token) (symbols : List Symbol) : Draft :=
  symbols.foldl define ⟨childScope d.scope.uri name closing, d.diagnostics⟩

mutual

/-- The definitions of a statement. -/
def statement (d : Draft) : Statement → Draft
  | .label t =>
    if Text.startsWith (Statement.labelName t) "!" then d
    else d.define (Symbol.plain .label (Statement.labelName t) t.place none)
  | .instruction _ _ => d
  | .expression _ _ => d
  | .block _ body _ => d.statements body
  | .directive dir => d.plainDirective dir
  | .directiveBlock dir _ body closing =>
    match dir.name, DefinitionForm.ofWord dir.word with
    | none, _ => d.statements body
    | some name, .callable kind =>
      let d := d.define (Symbol.ofCallable kind name dir.parameters)
      let child := d.openChild name closing
        (dir.parameters.map fun t => Symbol.ofToken .parameter t none)
      d.attach (child.statements body)
    | some name, .scope =>
      let d := d.define (Symbol.ofToken .scope name none)
      d.attach ((d.openChild name closing []).statements body)
    | some name, .enumeration =>
      let d := d.define (Symbol.ofToken .scope name none)
      d.attach (d.openChild name closing (Enumeration.symbols dir))
    | some _, .nothing => d.statements body
    | some _, _ => d.plainDirective dir

/-- The definitions of several statements. -/
def statements (d : Draft) : List Statement → Draft
  | [] => d
  | s :: rest => (d.statement s).statements rest

end

end Draft

/-- The scope of a program, and its second definitions. -/
def Scope.ofProgram (uri : String) (lineCount : Int) (p : Program) : Scope × List Diagnostic :=
  let d := Draft.statements ⟨Scope.root uri lineCount, []⟩ p.statements
  (d.scope, d.diagnostics)

end Asm6510
