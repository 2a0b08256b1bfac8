import Asm6510.Outline
import Asm6510.Scope.Lookup
import Asm6510.Usage

/-!
# Scopes by number

A `ScopeStore` holds scopes that are put together step by step. Each has a number, and links to its
parent and its children. Nothing keeps a scope from being a child twice, or of itself, so the links
need not form a tree. Questions about a scope look at its children alone (`ScopeStore.near`) or
follow links; where the links do not run in a circle, as many steps as there are scopes are enough.
-/

namespace Asm6510

/-- A scope with its links. -/
structure StoredScope where
  /-- The scope by itself, without the scopes in it. -/
  own : Scope
  parent : Option Nat
  children : List Nat
deriving Repr

/-- Scopes by number. -/
structure ScopeStore where
  scopes : List StoredScope

namespace ScopeStore

/-- No scopes. -/
def empty : ScopeStore :=
  ⟨[]⟩

/-- The scope with a number. -/
def get? (s : ScopeStore) (id : Nat) : Option StoredScope :=
  s.scopes[id]?

/-- The scope with a number by itself. -/
def own (s : ScopeStore) (id : Nat) : Scope :=
  ((s.get? id).map StoredScope.own).getD default

/-- The numbers of the children of a scope. -/
def childIds (s : ScopeStore) (id : Nat) : List Nat :=
  ((s.get? id).map StoredScope.children).getD []

/-- The number of the parent of a scope. -/
def parentId? (s : ScopeStore) (id : Nat) : Option Nat :=
  (s.get? id).bind StoredScope.parent

/-- A scope with its children, without the scopes in these. -/
def near (s : ScopeStore) (id : Nat) : Scope :=
  { s.own id with children := (s.childIds id).map s.own }

/-- Changes the scope with a number. -/
def modify (s : ScopeStore) (id : Nat) (f : StoredScope → StoredScope) : ScopeStore :=
  ⟨s.scopes.modify id f⟩

/-- Adds a scope without links; gives its number. -/
def create (s : ScopeStore) (scope : Scope) : Nat × ScopeStore :=
  (s.scopes.length, ⟨s.scopes ++ [⟨{ scope with children := [] }, none, []⟩]⟩)

/-- Makes a scope a child of another one. One without a document gets that of its parent. -/
def attach (s : ScopeStore) (id child : Nat) : ScopeStore :=
  let uri := (s.own id).uri
  let linked := s.modify child fun c =>
    { c with
      own := if c.own.uri.isEmpty then { c.own with uri } else c.own
      parent := some id }
  linked.modify id fun c => { c with children := c.children ++ [child] }

/-- Adds a symbol to a scope. -/
def declare (s : ScopeStore) (id : Nat) (symbol : Symbol) : Except DuplicateSymbol ScopeStore :=
  match (s.own id).declare symbol with
  | .error e => .error e
  | .ok scope => .ok (s.modify id fun c => { c with own := scope })

/-- The numbers of a scope and of those above it, as many as `fuel` allows. -/
def climb (s : ScopeStore) : (fuel : Nat) → (id : Nat) → List Nat
  | 0, _ => []
  | fuel + 1, id =>
    match s.parentId? id with
    | none => [id]
    | some parent => id :: climb s fuel parent

/-- A scope and those above it. -/
def chain (s : ScopeStore) (id : Nat) : List Scope :=
  (s.climb s.scopes.length id).map s.near

/-- A scope with those above it. -/
def cursor (s : ScopeStore) (id : Nat) : Cursor :=
  ⟨s.near id, (s.chain id).tail, []⟩

/-- The first child with a name. -/
def childNamed? (s : ScopeStore) (id : Nat) (name : String) : Option Nat :=
  ((s.near id).childNamed? name).bind fun i => (s.childIds id)[i]?

/-- The child that the definition of a name at a position opened. -/
def childAt? (s : ScopeStore) (id : Nat) (name : String) (start : Position) : Option Nat :=
  ((s.near id).childAt? name start).bind fun i => (s.childIds id)[i]?

/-- Enters the first child that holds a line, as long as there is one and `fuel` allows. -/
def descend (s : ScopeStore) (line : Int) : (fuel : Nat) → (id : Nat) → Nat
  | 0, id => id
  | fuel + 1, id =>
    match (s.childIds id).find? fun c => (s.own c).range.containsLine line with
    | some c => descend s line fuel c
    | none => id

/-- The deepest scope at or below a scope that holds a line. -/
def innermost (s : ScopeStore) (id : Nat) (line : Int) : Nat :=
  s.descend line s.scopes.length id

/-- The symbols that can be seen at a line. -/
def visible (s : ScopeStore) (id : Nat) (line : Int) : List (Scope × Symbol) :=
  Cursor.visibleFrom (s.chain (s.innermost id line))

/-- The numbers of a scope and of those below it, as deep as `fuel` allows. -/
def below (s : ScopeStore) : (fuel : Nat) → (id : Nat) → List Nat
  | 0, _ => []
  | fuel + 1, id => id :: (s.childIds id).flatMap (below s fuel)

/-- The numbers of a scope and of those below it. -/
def ids (s : ScopeStore) (id : Nat) : List Nat :=
  s.below s.scopes.length id

/-- The symbols of a scope and of those below it. -/
def symbols (s : ScopeStore) (id : Nat) : List Symbol :=
  (s.ids id).flatMap fun i => (s.own i).symbols.entries.map (·.2)

/-- Forgets the counted references of a scope and of those below it. -/
def reset (s : ScopeStore) (id : Nat) : ScopeStore :=
  (s.ids id).foldl (fun s i => s.modify i fun c => { c with own := c.own.reset }) s

/-- The tree below a scope, as deep as `fuel` allows. -/
def unfold (s : ScopeStore) : (fuel : Nat) → (id : Nat) → Scope
  | 0, id => s.own id
  | fuel + 1, id => { s.own id with children := (s.childIds id).map (unfold s fuel) }

/-- The tree below a scope. -/
def tree (s : ScopeStore) (id : Nat) : Scope :=
  s.unfold s.scopes.length id

/-- The outline of a scope, as deep as `fuel` allows. -/
def outlineWithin (s : ScopeStore) : (fuel : Nat) → (id : Nat) → List OutlineEntry
  | 0, _ => []
  | fuel + 1, id =>
    Outline.assemble ((s.own id).symbols.entries.map (·.2))
      ((s.childIds id).map fun c => ⟨c, s.own c, outlineWithin s fuel c⟩)

/-- The outline of a scope. A symbol that takes a scope takes it wherever it is a child. -/
def outline (s : ScopeStore) (id : Nat) : List OutlineEntry :=
  s.outlineWithin s.scopes.length id

end ScopeStore

end Asm6510
