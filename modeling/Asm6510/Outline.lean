import Asm6510.Scope.Basic

/-!
# The outline of a document

`Scope.outline` lists the symbols of a scope, each with the outline of the scope that its definition
opened, and then the scopes that belong to no symbol.
-/

namespace Asm6510

/-- An entry of an outline. -/
structure OutlineEntry where
  name : String
  /-- The number that editors use for the kind. -/
  kind : Nat
  range : Range
  /-- The range of the name. -/
  selection : Range
  detail : String
  children : List OutlineEntry
deriving Repr

namespace SymbolKind

/-- The number that editors use for a kind of symbol. -/
def outlineCode : SymbolKind → Nat
  | constant => 14
  | var => 13
  | label => 13
  | parameter => 13
  | function => 12
  | macroBody => 12
  | pseudocommand => 12
  | scope => 3

end SymbolKind

namespace Outline

/-- A child of a scope with its outline. The same scope may be a child more than once; its number
tells. -/
structure Part where
  id : Nat
  scope : Scope
  entries : List OutlineEntry
deriving Repr

/-- Whether the definition of a symbol opened a scope. -/
def owns (symbol : Symbol) (child : Scope) : Bool :=
  child.name == symbol.name && child.range.start == symbol.position

/-- The value of a symbol, or else its signature. -/
def detail (symbol : Symbol) : String :=
  match symbol.value with
  | some v => if v.isEmpty then symbol.signature else v
  | none => symbol.signature

/-- The later of two positions. -/
def later (p q : Position) : Position :=
  if p.before q then q else p

/-- The entry of a symbol, with the scope that it opened and the outline of that. -/
def symbolEntry (symbol : Symbol) (child : Option Part) : OutlineEntry where
  name := symbol.name
  kind := symbol.kind.outlineCode
  range := match child with
    | some c => ⟨c.scope.range.start, later c.scope.range.stop symbol.nameRange.stop⟩
    | none => symbol.nameRange
  selection := symbol.nameRange
  detail := detail symbol
  children := match child with
    | some c => c.entries
    | none => []

/-- The entry of a scope that belongs to no symbol. -/
def scopeEntry (child : Part) : OutlineEntry where
  name := child.scope.name
  kind := SymbolKind.scope.outlineCode
  range := child.scope.range
  selection := Range.span child.scope.range.start child.scope.name.length
  detail := ""
  children := child.entries

/-- The entries of symbols, of which each takes the first scope that it opened, and then those of
the scopes that are left. -/
def assemble : List Symbol → List Part → List OutlineEntry
  | [], children => children.map scopeEntry
  | symbol :: rest, children =>
    match children.find? fun c => owns symbol c.scope with
    | none => symbolEntry symbol none :: assemble rest children
    | some c => symbolEntry symbol (some c) :: assemble rest (children.filter fun o => o.id != c.id)

end Outline

namespace Scope

mutual

/-- The outline of a scope. -/
def outline : Scope → List OutlineEntry
  | ⟨_, _, _, symbols, children⟩ =>
    Outline.assemble (symbols.entries.map (·.2)) (outlines 0 children)

/-- Several scopes with their outlines, numbered from `i` on. -/
def outlines (i : Nat) : List Scope → List Outline.Part
  | [] => []
  | s :: rest => ⟨i, s, outline s⟩ :: outlines (i + 1) rest

end

end Scope

end Asm6510
