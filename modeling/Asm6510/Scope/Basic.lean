import Asm6510.Failure
import Asm6510.Symbol
import Asm6510.Table
import Asm6510.Text.Quoted

/-!
# Scopes

A scope has its symbols, by key and in the order of their definition, and the scopes in it.

* `Scope.declare`: adds a symbol unless its key is taken.
* `Scope.attach`: adds a scope behind the others.
* `Scope.at?`: the scope at an address, which is a list of child indices from the root.
* `Scope.preorder`, `Scope.walk`: a scope and all scopes in it, by recursion and by a list of
  scopes still to be visited.
-/

namespace Asm6510

/-- A named region of a document with the symbols that are defined in it. -/
structure Scope where
  name : String
  range : Range
  /-- The document. -/
  uri : String
  symbols : Table Symbol
  children : List Scope
deriving Repr

namespace Scope

/-- A scope without symbols and children. -/
def leaf (name : String) (range : Range) (uri : String) : Scope :=
  ⟨name, range, uri, .empty, []⟩

/-- The scope of a document of some lines. -/
def root (uri : String) (lineCount : Int) : Scope :=
  leaf "root" ⟨⟨0, 0⟩, ⟨max (lineCount - 1) 0, 0⟩⟩ uri

instance : Inhabited Scope := ⟨root "" 0⟩

/-- The document in messages. -/
def fileName (s : Scope) : String :=
  if s.uri.isEmpty then "<input>" else s.uri

/-- The symbol with a name in the scope itself. -/
def own? (s : Scope) (name : String) : Option Symbol :=
  s.symbols.get? (nameKey name)

/-- The failure of a second definition. -/
def duplicate (s : Scope) (symbol first : Symbol) : DuplicateSymbol where
  name := symbol.name
  location := some (symbol.position.location s.fileName)
  first := some (first.position.location s.fileName)

/-- Adds a symbol; the first definition of a key stays. -/
def declare (s : Scope) (symbol : Symbol) : Except DuplicateSymbol Scope :=
  match s.symbols.get? symbol.key with
  | some first => .error (s.duplicate symbol first)
  | none => .ok { s with symbols := s.symbols.put symbol.key symbol }

/-- Adds a scope behind the other children. One without a document gets that of its parent. -/
def attach (s child : Scope) : Scope :=
  let child := if child.uri.isEmpty then { child with uri := s.uri } else child
  { s with children := s.children ++ [child] }

/-- The index of the first child with a name. -/
def childNamed? (s : Scope) (name : String) : Option Nat :=
  s.children.findIdx? fun c => nameKey c.name == nameKey name

/-- The index of the child that the definition of a name at a position opened. -/
def childAt? (s : Scope) (name : String) (start : Position) : Option Nat :=
  s.children.findIdx? fun c => c.range.start == start && nameKey c.name == nameKey name

/-- The scope at an address. -/
def at? : Scope → List Nat → Option Scope
  | s, [] => some s
  | s, i :: rest => s.children[i]?.bind fun c => c.at? rest

mutual

/-- A scope, then the scopes in it one after the other. -/
def preorder : Scope → List Scope
  | ⟨name, range, uri, symbols, children⟩ =>
    ⟨name, range, uri, symbols, children⟩ :: preorders children

/-- Several scopes with the scopes in them. -/
def preorders : List Scope → List Scope
  | [] => []
  | s :: rest => preorder s ++ preorders rest

end

theorem preorder_eq (s : Scope) : s.preorder = s :: preorders s.children := by
  cases s
  rw [preorder]

theorem preorders_eq (ss : List Scope) : preorders ss = ss.flatMap preorder := by
  induction ss with
  | nil => rw [preorders, List.flatMap_nil]
  | cons s ss ih => rw [preorders, ih, List.flatMap_cons]

mutual

/-- The number of scopes in a tree. -/
def weight : Scope → Nat
  | ⟨_, _, _, _, children⟩ => weights children + 1

/-- The number of scopes in several trees. -/
def weights : List Scope → Nat
  | [] => 0
  | s :: rest => weight s + weights rest

end

theorem weights_append (xs ys : List Scope) : weights (xs ++ ys) = weights xs + weights ys := by
  induction xs with
  | nil => simp [weights]
  | cons x xs ih => simp [weights, ih, Nat.add_assoc]

theorem weight_eq (s : Scope) : s.weight = weights s.children + 1 := by
  cases s; simp [weight]

/-- Visits the scopes of a list; the children of a scope come before the scopes behind it. -/
def walk : List Scope → List Scope
  | [] => []
  | s :: rest => s :: walk (s.children ++ rest)
termination_by ss => weights ss
decreasing_by
  rw [weights_append]
  simp only [weights, weight_eq]
  omega

/-- The symbols of a scope and of all scopes in it. -/
def allSymbols (s : Scope) : List Symbol :=
  (walk [s]).flatMap fun c => c.symbols.entries.map (·.2)

/-- A short description. -/
def describe (s : Scope) : String :=
  "Scope(" ++ Text.quoted s.name ++ ", symbols=" ++ Text.decimal s.symbols.entries.length ++
    ", children=" ++ Text.decimal s.children.length ++ ")"

end Scope

end Asm6510
