import Asm6510.Comment
import Asm6510.Diagnostic
import Asm6510.Scope.Lookup
import Asm6510.Settings
import Asm6510.Tree.Statement

/-!
# References to symbols

* `Expr.names`: the names that an expression refers to.
* `references`: the symbols that a program refers to, in source order, each by its address.
* `Scope.count`: the scope with the number of references to each symbol.
* `checkUsage`: counts the references and gives the warnings.
-/

namespace Asm6510

namespace Expr

mutual

/-- The names in an expression in source order. What stands behind a comma is an index register. -/
def names : Expr → List (Token × String)
  | missing => []
  | identifier t value => [(t, value)]
  | integer _ _ => []
  | string _ _ => []
  | unary _ e => names e
  | binary op l r => if op.literal == "," then names l else names l ++ names r
  | indexed _ e _ => names e
  | group _ e => names e
  | call _ f args => names f ++ allNames args
  | array _ es => allNames es
  | programCounter _ => []

/-- The names in several expressions. -/
def allNames : List Expr → List (Token × String)
  | [] => []
  | e :: es => names e ++ allNames es

end

end Expr

/-- A symbol in a tree of scopes: the address of its scope, last index first, and its key. -/
structure SymbolRef where
  steps : List Nat
  key : String
deriving DecidableEq, Repr

/-- Whether a place of a text, given by its lines, lies in a comment. -/
def placeInComment (lines : Array String) (place : Place) : Bool :=
  match place.line with
  | 0 => false
  | i + 1 =>
    match lines[i]? with
    | some line => inComment line ((place.column : Int) - 1)
    | none => false

/-- Whether a name refers to a symbol that is looked up: not a multi-label, and not in a
comment. -/
def isReference (lines : Array String) (name : Token × String) : Bool :=
  !name.2.isEmpty && !Text.startsWith name.2 "!" && !placeInComment lines name.1.place

namespace Cursor

/-- The symbol that a name means. -/
def refer? (c : Cursor) (name : String) : Option SymbolRef :=
  (c.find? name).map fun r => ⟨r.steps, r.symbol.key⟩

/-- The symbols that an expression refers to. -/
def references (lines : Array String) (c : Cursor) (e : Expr) : List SymbolRef :=
  (e.names.filter (isReference lines)).filterMap fun name => c.refer? name.2

/-- The directives whose block is a scope of its own. -/
def scopeWords : List String :=
  [".namespace", ".enum", ".function", ".macro", ".pseudocommand"]

/-- The scope of the block of a directive. -/
def body (c : Cursor) (d : Directive) : Cursor :=
  match d.name with
  | none => c
  | some name =>
    if scopeWords.contains d.word then
      match c.scope.childAt? name.literal name.place.toPosition with
      | some i => c.enter i
      | none => c
    else
      c

end Cursor

mutual

/-- The symbols that a statement refers to. The value of a directive belongs to the scope around
it. -/
def statementReferences (lines : Array String) (c : Cursor) : Statement → List SymbolRef
  | .label _ => []
  | .instruction _ operand => c.references lines operand
  | .expression _ e => c.references lines e
  | .directive d => c.references lines d.value
  | .directiveBlock d _ block _ =>
    c.references lines d.value ++ statementsReferences lines (c.body d) block
  | .block _ block _ => statementsReferences lines c block

/-- The symbols that several statements refer to. -/
def statementsReferences (lines : Array String) (c : Cursor) : List Statement → List SymbolRef
  | [] => []
  | s :: rest => statementReferences lines c s ++ statementsReferences lines c rest

end

/-- The symbols that a program refers to, seen from the root of a tree of scopes. -/
def references (p : Program) (scope : Scope) (text : String) : List SymbolRef :=
  statementsReferences (Text.lines text).toArray (Cursor.ofRoot scope) p.statements

namespace Table

/-- Changes the entry under a key. -/
def adjust {α : Type} (t : Table α) (key : String) (f : α → α) : Table α :=
  match t.get? key with
  | some entry => t.put key (f entry)
  | none => t

end Table

namespace Scope

mutual

/-- The scope with no references counted. -/
def reset : Scope → Scope
  | ⟨name, range, uri, symbols, children⟩ =>
    ⟨name, range, uri, ⟨symbols.entries.map fun e => (e.1, { e.2 with uses := 0 })⟩,
      resets children⟩

/-- Several scopes with no references counted. -/
def resets : List Scope → List Scope
  | [] => []
  | s :: rest => reset s :: resets rest

end

/-- Counts one reference to a symbol of the scope at an address. -/
def countAt : (address : List Nat) → (key : String) → Scope → Scope
  | [], key, s => { s with symbols := s.symbols.adjust key fun e => { e with uses := e.uses + 1 } }
  | i :: rest, key, s => { s with children := s.children.modify i (countAt rest key) }

/-- The scope with the number of references to each symbol. -/
def count (s : Scope) (refs : List SymbolRef) : Scope :=
  refs.foldl (fun s r => countAt r.steps.reverse r.key s) s.reset

end Scope

/-- The kinds of symbols whose use is checked, with their words. -/
def checkedKind? : SymbolKind → Option String
  | .label => some "label"
  | .constant => some "constant"
  | .var => some "variable"
  | _ => none

/-- The warning about a symbol without references. -/
def unusedWarning? (s : Symbol) : Option Diagnostic :=
  match checkedKind? s.kind with
  | none => none
  | some word =>
    if s.uses = 0 then
      some
        { severity := .warning
          range := s.nameRange
          message := "Unused " ++ word ++ " '" ++ s.name ++ "'"
          source := Stage.usage.label }
    else none

/-- The warnings about symbols without references. -/
def unusedWarnings (scope : Scope) : List Diagnostic :=
  scope.allSymbols.filterMap unusedWarning?

mutual

/-- The warnings about undocumented instructions in a statement. -/
def statementIllegal : Statement → List Diagnostic
  | .label _ => []
  | .instruction t _ =>
    if t.kind = .mnemonic .undocumented then
      [.atPlace .warning ("Illegal opcode '" ++ Statement.mnemonicName t ++ "'") t.place .usage
        t.literal.length]
    else []
  | .expression _ _ => []
  | .directive _ => []
  | .directiveBlock _ _ block _ => statementsIllegal block
  | .block _ block _ => statementsIllegal block

/-- The warnings about undocumented instructions in several statements. -/
def statementsIllegal : List Statement → List Diagnostic
  | [] => []
  | s :: rest => statementIllegal s ++ statementsIllegal rest

end

/-- Counts the references of a program in a tree of scopes and gives the warnings that the settings
ask for. The lines of the text tell which places lie in comments. -/
def checkUsage (settings : Settings) (p : Program) (scope : Scope) (text : String) :
    Scope × List Diagnostic :=
  let counted := scope.count (references p scope text)
  (counted,
    (if settings.warnIllegal then statementsIllegal p.statements else []) ++
      (if settings.warnUnused then unusedWarnings counted else []))

end Asm6510
