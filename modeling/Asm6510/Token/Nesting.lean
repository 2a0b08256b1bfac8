import Asm6510.Position

/-!
# Lexical nesting

The same characters mean different things in different contexts, so the lexer keeps a stack of
them. Its size is bounded: a push beyond the bound is refused and counted, and the pop that belongs
to it takes the count back.

* `Mode`, `Context`: what is being read, and how deep.
* `depthBound`: the bound that a chosen depth stands for.
* `Nesting`: the stack above the bottom entry, which is always the normal mode.
* `Nesting.Edit`: one change of the stack; `Nesting.apply` carries out several.
-/

namespace Asm6510

/-- What is being read. -/
inductive Mode
  /-- Between statements. -/
  | normal
  /-- After a directive, up to the end of the line or a block. -/
  | directive
  /-- Inside the parentheses of a directive. -/
  | expression
  /-- Inside a string. -/
  | stringLiteral
  | forLoop
  /-- Inside braces. -/
  | block
  | conditional
  /-- Right after a mnemonic. -/
  | instruction
  /-- Inside the parentheses of an operand. -/
  | addressing
  /-- In the operand of an instruction. -/
  | operand
deriving DecidableEq, Repr

namespace Mode

/-- The name in listings. -/
def name : Mode → String
  | normal => "NORMAL"
  | directive => "DIRECTIVE"
  | expression => "EXPRESSION"
  | stringLiteral => "STRING_LITERAL"
  | forLoop => "FOR_LOOP"
  | block => "BLOCK"
  | conditional => "CONDITIONAL"
  | instruction => "INSTRUCTION"
  | addressing => "ADDRESSING_MODE"
  | operand => "OPERAND"

/-- All modes. -/
def all : List Mode :=
  [normal, directive, expression, stringLiteral, forLoop, block, conditional, instruction,
    addressing, operand]

/-- The mode with a name. -/
def ofName? (s : String) : Option Mode :=
  all.find? fun m => m.name == s

/-- Modes that the end of a line ends. -/
def endsAtLine : Mode → Bool
  | directive => true
  | instruction => true
  | operand => true
  | _ => false

end Mode

/-- An entry of the stack: the mode, the directive that opened it, and its place on the stack. -/
structure Context where
  mode : Mode
  directive : String
  depth : Nat
deriving DecidableEq, Repr

/-- The context at the bottom. -/
def Context.normal : Context := ⟨.normal, "", 0⟩

/-- An entry above the bottom; its depth is the number of entries below it. -/
structure Frame where
  mode : Mode
  directive : String
deriving DecidableEq, Repr

/-- The bound that a chosen depth stands for: there is always room for one. -/
def depthBound (depth : Int) : Nat :=
  (max depth 1).toNat

/-- The stack of contexts. -/
structure Nesting where
  /-- The entries that the stack may have, the bottom one among them. -/
  limit : Nat
  /-- The entries above the bottom, the top first. -/
  frames : List Frame
  /-- Refused pushes whose pops are still to come. -/
  refused : Nat
  /-- The place of the first refused push. -/
  overflow : Option Place
deriving DecidableEq, Repr

namespace Nesting

/-- The stack with its bottom entry only. -/
def ofLimit (limit : Int) : Nesting := ⟨depthBound limit, [], 0, none⟩

/-- The number of entries. -/
def depth (n : Nesting) : Nat :=
  n.frames.length + 1

/-- The context of a frame above some others. -/
def contextOf (f : Frame) (below : List Frame) : Context :=
  ⟨f.mode, f.directive, below.length + 1⟩

/-- The contexts of frames, the bottom first. -/
def contextsOf : List Frame → List Context
  | [] => [Context.normal]
  | f :: below => contextsOf below ++ [contextOf f below]

/-- All contexts, the bottom first. -/
def contexts (n : Nesting) : List Context :=
  contextsOf n.frames

/-- The context on top. -/
def top (n : Nesting) : Context :=
  match n.frames with
  | [] => Context.normal
  | f :: below => contextOf f below

/-- Whether the stack is full. -/
def isFull (n : Nesting) : Bool :=
  n.limit ≤ n.depth

/-- Enters a context, or counts the push as refused where the stack is full. -/
def push (n : Nesting) (place : Place) (mode : Mode) (directive : String) : Nesting :=
  if n.isFull then
    { n with refused := n.refused + 1, overflow := some (n.overflow.getD place) }
  else
    { n with frames := ⟨mode, directive⟩ :: n.frames }

/-- Leaves a context: takes back a refused push, or removes the top. The bottom stays. -/
def pop (n : Nesting) : Nesting :=
  if n.refused = 0 then { n with frames := n.frames.tail } else { n with refused := n.refused - 1 }

/-- Leaves a context that the end of a line ends, unless a refused push is open. -/
def endLine (n : Nesting) : Nesting :=
  if n.refused = 0 ∧ n.top.mode.endsAtLine then n.pop else n

/-- Leaves the block that a brace closes: a refused one, or the one on top. -/
def closeBlock (n : Nesting) : Nesting :=
  if n.refused ≠ 0 ∨ n.top.mode = .block then n.pop else n

/-- One change of the stack. -/
inductive Edit
  | push (mode : Mode) (directive : String)
  | pop
  | endLine
  | closeBlock
deriving DecidableEq, Repr

/-- Carries out one change at a place. -/
def edit (n : Nesting) (place : Place) : Edit → Nesting
  | .push mode directive => n.push place mode directive
  | .pop => n.pop
  | .endLine => n.endLine
  | .closeBlock => n.closeBlock

/-- Carries out changes at a place. -/
def apply (n : Nesting) (place : Place) (edits : List Edit) : Nesting :=
  edits.foldl (fun n e => n.edit place e) n

/-- What is left to undo before reading must go on: refused pushes and entries, an entry that
waits for an operand counting twice. -/
def pending (n : Nesting) : Nat :=
  n.refused + n.frames.foldr (fun f rest => (if f.mode = .instruction then 2 else 1) + rest) 0

end Nesting

end Asm6510
