import Std.Data.HashMap
import Asm6510.Reference.Naming
import Asm6510.Reference.Record
import Asm6510.Table

/-!
# The reference

A `Reference` holds the tables that tell what a word of a source text means. It is built once by
`Reference.ofRecords` and only looked up after that. A failed lookup is no error: the word is then
an ordinary name.
-/

namespace Asm6510

/-- Lookup tables for mnemonics, directives, built-ins and memory. -/
structure Reference where
  mnemonics : Table Mnemonic
  directives : Table DirectiveInfo
  preprocessor : Table DirectiveInfo
  functions : Table FunctionInfo
  constants : Table ConstantInfo
  regions : List MemoryRegion
  memory : Std.HashMap Nat MemoryRegion

namespace Reference

/-- The last address of the machine. -/
def lastAddress : Nat := 0xffff

/-- The addresses that a region covers within the machine. -/
def coveredAddresses (r : MemoryRegion) : List Nat :=
  (List.range ((min r.lastAddress lastAddress + 1) - r.address).toNat).map (r.address + ·)

/-- The region at every address; a later region takes over from an earlier one. -/
def memoryTable (regions : List MemoryRegion) : Std.HashMap Nat MemoryRegion :=
  regions.foldl (fun table r => (coveredAddresses r).foldl (fun t a => t.insert a r) table) ∅

/-- The reference of some records. -/
def ofRecords (mnemonics : List Mnemonic) (language : Language) (regions : List MemoryRegion) :
    Reference where
  mnemonics := Table.ofList (fun m => Text.upper m.name) mnemonics
  directives := Table.ofList (fun d => directiveKey d.name) language.directives
  preprocessor := Table.ofList (fun d => preprocessorKey d.name) language.preprocessor
  functions := Table.ofList (fun f => Text.lower f.name) language.functions
  constants := Table.ofList (fun c => Text.upper c.name) language.constants
  regions := regions
  memory := memoryTable regions

/-- The mnemonic of a name in any case. -/
def mnemonic? (ref : Reference) (name : String) : Option Mnemonic :=
  ref.mnemonics.get? (Text.upper name)

/-- Whether a mnemonic is undocumented, by its name or by the tag in the data. -/
def isUndocumented (ref : Reference) (name : String) : Bool :=
  undocumentedNames.contains (Text.upper name) ||
    match ref.mnemonic? name with
    | some m => Text.lower m.category == "illegal"
    | none => false

/-- Whether a documented mnemonic is a branch, jump or return. -/
def isControl (ref : Reference) (name : String) : Bool :=
  let name := Text.upper name
  !ref.isUndocumented name &&
    (controlNames.contains name ||
      match ref.mnemonics.get? name with
      | some m => m.category == "Jump"
      | none => false)

/-- Whether a mnemonic is known and neither undocumented nor a branch, jump or return. -/
def isStandard (ref : Reference) (name : String) : Bool :=
  (ref.mnemonic? name).isSome && !ref.isUndocumented name && !ref.isControl name

/-- The addressing modes of a mnemonic, none for an unknown one. -/
def modesOf (ref : Reference) (name : String) : List AddressingMode :=
  match ref.mnemonic? name with
  | some m => m.modes
  | none => []

/-- Whether a mnemonic has an addressing mode; modes are compared by `modeKey`. -/
def supportsMode (ref : Reference) (name mode : String) : Bool :=
  (ref.modesOf name).any fun m => modeKey m.name == modeKey mode

/-- The directive or preprocessor statement of a name. A name with a number sign is looked for
among the preprocessor statements first. -/
def directive? (ref : Reference) (name : String) : Option DirectiveInfo :=
  let key := Text.lower (Text.trim name)
  let statement := if Text.startsWith key "#" then ref.preprocessor.get? key else none
  match statement with
  | some info => some info
  | none => ref.directives.get? (directiveKey key)

/-- Whether a name is a preprocessor statement. -/
def isPreprocessor (ref : Reference) (name : String) : Bool :=
  ref.preprocessor.contains (Text.lower name)

/-- The category of a directive: the one of the data, or else the one that its name gives.
Unknown directives and preprocessor statements have the category `pre`. -/
def directiveCategory (ref : Reference) (name : String) : String :=
  match ref.directive? name with
  | none => "pre"
  | some info =>
    if info.isPreprocessor then "pre"
    else if directiveCategories.contains info.category then info.category
    else derivedCategory (directiveKey info.name)

/-- The built-in function of a name in any case. -/
def function? (ref : Reference) (name : String) : Option FunctionInfo :=
  ref.functions.get? (Text.lower name)

/-- The built-in constant of a name in any case. -/
def constant? (ref : Reference) (name : String) : Option ConstantInfo :=
  ref.constants.get? (Text.upper name)

/-- The region that an address belongs to. -/
def regionAt? (ref : Reference) (address : Int) : Option MemoryRegion :=
  if 0 ≤ address then ref.memory[address.toNat]? else none

end Reference

end Asm6510
