import Asm6510.Json.Reader
import Asm6510.Reference.Basic
import Asm6510.Text.Utf8

/-!
# Reference documents

Three JSON documents feed a reference: a list of mnemonics, an object with the tables of the
assembler language, and a memory map. A record without a name, or one that is not an object, is
left out and the others are read.

* `readMnemonics`, `readLanguage`, `readRegions`: the records of a document.
* `Reference.ofDocuments`: the reference of documents, any of which may be missing.
* `LoadError`: everything that can go wrong, with its wording.
-/

namespace Asm6510

/-- What is wrong with a document. -/
inductive DocumentFault
  | notMnemonicList
  | notLanguageObject
  | noRegions
  | invalidJson
  | missing
  | isDirectory
  | notDirectory
  | nameTooLong
  | noAccess
  | other (reason : String)
deriving DecidableEq, Repr

/-- The words for a fault. -/
def DocumentFault.message : DocumentFault → String
  | .notMnemonicList => "expected a list of mnemonic records"
  | .notLanguageObject => "expected an object with directive/function/constant tables"
  | .noRegions => "expected memoryMap.regions object"
  | .invalidJson => "invalid JSON"
  | .missing => "No such file or directory"
  | .isDirectory => "Is a directory"
  | .notDirectory => "Not a directory"
  | .nameTooLong => "File name too long"
  | .noAccess => "Permission denied"
  | .other reason => reason

/-- Why reference data is not read. -/
inductive LoadError
  /-- The document itself is at fault. -/
  | document (source : String) (fault : DocumentFault)
  /-- A number or truth value stands where items are expected. -/
  | noItems (kind : String)
  /-- The file is not UTF-8. -/
  | undecodable (fault : Text.Utf8Fault)
  /-- A number has too many digits. -/
  | longInteger (digits : Nat)
  /-- Whether there is a file cannot be told, because its path is too long. -/
  | longPath (path : String)
  /-- A path has a null character. -/
  | nullInPath
deriving DecidableEq, Repr

/-- The words for an error. -/
def LoadError.message : LoadError → String
  | .document source fault => "cannot load reference data '" ++ source ++ "': " ++ fault.message
  | .noItems kind => "'" ++ kind ++ "' object is not iterable"
  | .undecodable fault => fault.message
  | .longInteger digits =>
    "Exceeds the limit (" ++ Text.decimal Number.decimalLimit ++
      " digits) for integer string conversion: value has " ++ Text.decimal digits ++
      " digits; use sys.set_int_max_str_digits() to increase the limit"
  | .longPath path => "[Errno 36] File name too long: " ++ Text.quoted path
  | .nullInPath => "embedded null byte"

namespace Reference

/-- The items of a value that is read as a list: a text gives its characters, an object its names.
What is empty, zero, false or null has none. -/
def items : Json → Except LoadError (List Json)
  | .array xs => .ok xs
  | .string s => .ok (s.toList.map fun c => .string (String.singleton c))
  | .object members => .ok (members.map fun m => .string m.1)
  | .null => .ok []
  | .bool b => if b then .error (.noItems "bool") else .ok []
  | .int n => if n = 0 then .ok [] else .error (.noItems "int")
  | .real x => if (Json.real x).isGiven then .error (.noItems "float") else .ok []

/-- The texts of the items of an array; anything else has none. -/
def textItems : Json → List String
  | .array xs => xs.map Json.display
  | _ => []

/-- A text member, empty where it is missing. -/
def textMember (name : String) (record : Json) : String :=
  (record.member name).displayOrEmpty

/-- The name of a record, where the record is an object that gives one. -/
def recordName? (name : String) (record : Json) : Option String :=
  match record.member? name with
  | some value => if value.isGiven then some value.display else none
  | none => none

/-- An addressing mode. -/
def readMode? (record : Json) : Option AddressingMode :=
  match record with
  | .object _ =>
    some
      { opcode := textMember "opcode" record
        name := textMember "addressing_mode" record
        format := textMember "assembler_format" record
        length := ((record.member? "length").bind Json.count?).getD (.number 0)
        cycles := textMember "cycles" record }
  | _ => none

/-- The mnemonics of one record: one, or none if the record has no name. -/
def readMnemonic (record : Json) : Except LoadError (List Mnemonic) :=
  match recordName? "mnemonic" record with
  | none => .ok []
  | some name => do
    let modes ← items (record.member "addressing_modes")
    return [
      { name := Text.upper name
        description := textMember "description" record
        category := textMember "type" record
        modes := modes.filterMap readMode? }]

/-- The mnemonics of a document. -/
def readMnemonics (source : String) (data : Json) : Except LoadError (List Mnemonic) :=
  match data with
  | .array records => do return (← records.mapM readMnemonic).flatten
  | _ => .error (.document source .notMnemonicList)

/-- A directive or preprocessor statement. -/
def readDirective? (isPreprocessor : Bool) (record : Json) : Option DirectiveInfo :=
  (recordName? "directive" record).map fun name =>
    let name := Text.lower (Text.trim name)
    { name := if isPreprocessor then name else directiveKey name
      signature := textMember "signature" record
      description := textMember "description" record
      examples := textItems (record.member "examples")
      category := Text.lower (textMember "category" record)
      isPreprocessor := isPreprocessor }

/-- A built-in function. -/
def readFunction? (record : Json) : Option FunctionInfo :=
  (recordName? "function" record).map fun name =>
    { name := Text.lower name
      signature := textMember "signature" record
      description := textMember "description" record
      examples := textItems (record.member "examples")
      returnType := textMember "return_type" record
      category := Text.lower (textMember "category" record) }

/-- A built-in constant. -/
def readConstant? (record : Json) : Option ConstantInfo :=
  (recordName? "constant" record).map fun name =>
    { name := Text.upper name
      value := textMember "value" record
      type := textMember "type" record
      description := textMember "description" record
      category := Text.lower (textMember "category" record) }

/-- The tables of a language document. -/
def readLanguage (source : String) (data : Json) : Except LoadError Language :=
  match data with
  | .object _ => do
    let directives ← items (data.member "directives")
    let preprocessor ← items (data.member "preprocessorStatements")
    let functions ← items (data.member "functions")
    let constants ← items (data.member "constants")
    return {
      directives := directives.filterMap (readDirective? false)
      preprocessor := preprocessor.filterMap (readDirective? true)
      functions := functions.filterMap readFunction?
      constants := constants.filterMap readConstant? }
  | _ => .error (.document source .notLanguageObject)

/-- An address as it is written in a memory map: `$D020`, `0xD020` or `D020`, within sixteen
bits. -/
def readAddress? (text : String) : Option Nat :=
  let cs := (Text.trim text).toList
  let cs := match cs with
    | '0' :: 'x' :: rest => rest
    | '0' :: 'X' :: rest => rest
    | '$' :: rest => rest
    | cs => cs
  match Number.readInteger? 16 (String.ofList cs) with
  | some n => if 0 ≤ n ∧ n ≤ lastAddress then some n.toNat else none
  | none => none

/-- The region of an entry of a memory map. -/
def readRegion? (key : String) (record : Json) : Option MemoryRegion :=
  match readAddress? key, record with
  | some address, .object _ =>
    some
      { address := address
        name := textMember "name" record
        category := textMember "category" record
        type := textMember "type" record
        size := (((record.member? "size").bind Json.count?).filter (0 < ·.value)).getD (.number 1)
        description := textMember "description" record
        access := textMember "access" record
        bitFields := match record.member "bit_fields" with
          | .object members => members
          | _ => []
        examples := textItems (record.member "examples")
        tips := textItems (record.member "tips") }
  | _, _ => none

/-- The regions of a memory map. -/
def readRegions (source : String) (data : Json) : Except LoadError (List MemoryRegion) :=
  match (data.member "memoryMap").member "regions" with
  | .object entries => .ok (entries.filterMap fun (key, record) => readRegion? key record)
  | _ => .error (.document source .noRegions)

/-- The reference of documents that are there. A missing list of mnemonics is empty. -/
def ofDocuments (mnemonics language memory : Option Json) : Except LoadError Reference := do
  let mnemonics ← items (mnemonics.getD .null)
  let mnemonics ← readMnemonics "<mnemonics>" (.array mnemonics)
  let language ← match language with
    | some data => readLanguage "<kickass>" data
    | none => .ok .empty
  let regions ← match memory with
    | some data => readRegions "<memory>" data
    | none => .ok []
  return ofRecords mnemonics language regions

end Reference

end Asm6510
