import Asm6510.Scope.Basic

/-!
# Looking up names

* `Cursor`: a scope together with the scopes around it.
* `Cursor.find?`: resolves a name. A plain name is looked up in the scope and then outwards; a
  qualified one is looked up in a child of the scope and nowhere else.
* `Cursor.innermost`: the deepest scope that holds a line.
* `Cursor.visible`: all symbols that can be seen from a scope.
-/

namespace Asm6510

/-- A scope in its tree. -/
structure Cursor where
  scope : Scope
  /-- The scopes around it, the nearest first. -/
  outer : List Scope
  /-- The address of the scope, last index first. -/
  steps : List Nat
deriving Repr

/-- A resolved name: the symbol, its scope, and the address of that scope, last index first. -/
structure Resolved where
  scope : Scope
  symbol : Symbol
  steps : List Nat
deriving Repr

/-- Whether a dot stands between other characters. -/
def isQualified (bare : String) : Bool :=
  (Text.trimRight (· == '.') (Text.trimLeft (· == '.') bare)).toList.contains '.'

/-- The parts before and after the first dot. -/
def splitQualified (bare : String) : String × String :=
  (String.ofList (bare.toList.takeWhile (· != '.')),
    String.ofList ((bare.toList.dropWhile (· != '.')).drop 1))

namespace Cursor

/-- The root of a tree. -/
def ofRoot (s : Scope) : Cursor :=
  ⟨s, [], []⟩

/-- The scope and those around it. -/
def chain (c : Cursor) : List Scope :=
  c.scope :: c.outer

/-- Enters a child; stays if there is none. -/
def enter (c : Cursor) (i : Nat) : Cursor :=
  match c.scope.children[i]? with
  | some child => ⟨child, c.chain, i :: c.steps⟩
  | none => c

/-- Enters one child after the other. -/
def follow (c : Cursor) (address : List Nat) : Cursor :=
  address.foldl enter c

/-- The nearest scope of a chain with a symbol under a key. -/
def findKey? (key : String) : List Scope → List Nat → Option Resolved
  | [], _ => none
  | s :: rest, steps =>
    match s.symbols.get? key with
    | some symbol => some ⟨s, symbol, steps⟩
    | none => findKey? key rest steps.tail

/-- The member of a child of the scope. -/
def findMember? (c : Cursor) (qualifier member : String) : Option Resolved := do
  let i ← c.scope.childNamed? qualifier
  let child ← c.scope.children[i]?
  let symbol ← child.own? member
  return ⟨child, symbol, i :: c.steps⟩

/-- The symbol that a name means in a scope. -/
def find? (c : Cursor) (name : String) : Option Resolved :=
  let bare := Text.trim name
  if isQualified bare then
    let (qualifier, member) := splitQualified bare
    c.findMember? qualifier member
  else
    findKey? (nameKey bare) c.chain c.steps

end Cursor

namespace Scope

mutual

/-- The address of the deepest scope that holds a line: the first child that holds it is entered,
as long as there is one. -/
def innermostSteps (line : Int) : Scope → List Nat
  | ⟨_, _, _, _, children⟩ => innermostAmong line 0 children

/-- The same among the children from an index on. -/
def innermostAmong (line : Int) (i : Nat) : List Scope → List Nat
  | [] => []
  | c :: rest =>
    if c.range.containsLine line then i :: innermostSteps line c
    else innermostAmong line (i + 1) rest

end

end Scope

namespace Cursor

/-- The deepest scope at or below this one that holds a line. -/
def innermost (c : Cursor) (line : Int) : Cursor :=
  c.follow (c.scope.innermostSteps line)

/-- The symbols that can be seen from a chain of scopes, the nearest first. -/
def visibleFrom (chain : List Scope) : List (Scope × Symbol) :=
  chain.flatMap fun s => s.symbols.entries.map fun e => (s, e.2)

/-- The symbols that can be seen at a line. -/
def visible (c : Cursor) (line : Int) : List (Scope × Symbol) :=
  visibleFrom (c.innermost line).chain

end Cursor

end Asm6510
