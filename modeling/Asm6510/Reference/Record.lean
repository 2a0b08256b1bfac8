import Asm6510.Json.Value

/-!
# Reference records

What is known about the processor, the assembler language and the memory of the machine:

* `Mnemonic` with its `AddressingMode`s,
* `DirectiveInfo`, `FunctionInfo`, `ConstantInfo`,
* `MemoryRegion` with the addresses it covers.
-/

namespace Asm6510

/-- One addressing mode of a mnemonic. -/
structure AddressingMode where
  opcode : String
  name : String
  format : String
  length : Json.Count
  cycles : String
deriving DecidableEq, Repr

/-- An instruction of the processor; `category` is the tag of the data, such as `Load`. -/
structure Mnemonic where
  name : String
  description : String
  category : String
  modes : List AddressingMode
deriving DecidableEq, Repr

/-- A directive such as `.byte`, or a preprocessor statement such as `#import`. -/
structure DirectiveInfo where
  name : String
  signature : String
  description : String
  examples : List String
  category : String
  isPreprocessor : Bool
deriving DecidableEq, Repr

/-- A built-in function. -/
structure FunctionInfo where
  name : String
  signature : String
  description : String
  examples : List String
  returnType : String
  category : String
deriving DecidableEq, Repr

/-- A built-in constant. -/
structure ConstantInfo where
  name : String
  value : String
  type : String
  description : String
  category : String
deriving DecidableEq, Repr

/-- The tables of the assembler language. -/
structure Language where
  directives : List DirectiveInfo
  preprocessor : List DirectiveInfo
  functions : List FunctionInfo
  constants : List ConstantInfo
deriving DecidableEq, Repr

/-- A language without words. -/
def Language.empty : Language := ⟨[], [], [], []⟩

/-- A region of the memory: `size` addresses from `address` on. -/
structure MemoryRegion where
  address : Nat
  name : String
  category : String
  type : String
  size : Json.Count
  description : String
  access : String
  bitFields : List (String × Json)
  examples : List String
  tips : List String
deriving Repr

namespace MemoryRegion

/-- The last address of the region; a region covers at least one address. -/
def lastAddress (r : MemoryRegion) : Int :=
  r.address + max r.size.value 1 - 1

/-- Whether the region covers an address. -/
def contains (r : MemoryRegion) (address : Int) : Bool :=
  r.address ≤ address && address ≤ r.lastAddress

end MemoryRegion

end Asm6510
