import Asm6510.Files
import Asm6510.Reference.Document

/-!
# Reference files

Reads the reference from three JSON files. How a file is looked at is a parameter, so that the same
definitions serve a snapshot of files and the files of the machine.

* `loadMnemonics`, `loadLanguage`, `loadRegions`: the records of one file.
* `Sources`, `Reference.load`: the reference of the files.
-/

namespace Asm6510.Reference

/-- The name of the file of mnemonics. -/
def mnemonicFile : String := "mnemonic.json"

/-- The name of the file of the assembler language. -/
def languageFile : String := "kickass.json"

/-- The name of the memory map. -/
def memoryFile : String := "c64memory.json"

/-- The document in a file; `source` names the file in errors. -/
def documentOf (source : String) : FileStatus → Except LoadError Json
  | .missing => .error (.document source .missing)
  | .notDirectory => .error (.document source .notDirectory)
  | .nameTooLong => .error (.document source .nameTooLong)
  | .nullInName => .error .nullInPath
  | .noAccess => .error (.document source .noAccess)
  | .directory => .error (.document source .isDirectory)
  | .file bytes =>
    match Text.decode? bytes with
    | .error fault => .error (.undecodable fault)
    | .ok text =>
      match Json.read (Text.normalizeNewlines text) with
      | .ok data => .ok data
      | .error (.longInteger digits) => .error (.longInteger digits)
      | .error .malformed => .error (.document source .invalidJson)

variable {m : Type → Type} [Monad m]

/-- Reads a file and the records in it. Errors of the file name the path in its plain form, errors
of the records as it is written. -/
def loadRecords {α : Type} (look : String → m FileStatus)
    (records : String → Json → Except LoadError α) (path : String) : m (Except LoadError α) := do
  let plain := (Path.ofText path).text
  let status ← look plain
  return (documentOf plain status).bind (records path)

/-- The mnemonics of a file. -/
def loadMnemonics (look : String → m FileStatus) (path : String) :
    m (Except LoadError (List Mnemonic)) :=
  loadRecords look readMnemonics path

/-- The language of a file. -/
def loadLanguage (look : String → m FileStatus) (path : String) : m (Except LoadError Language) :=
  loadRecords look readLanguage path

/-- The regions of a file. -/
def loadRegions (look : String → m FileStatus) (path : String) :
    m (Except LoadError (List MemoryRegion)) :=
  loadRecords look readRegions path

/-- The files of a reference; there may be no memory map. -/
structure Sources where
  mnemonics : String
  language : String
  memory : Option String
deriving DecidableEq, Repr

/-- The reference of some files. The first error counts. -/
def load (look : String → m FileStatus) (sources : Sources) : m (Except LoadError Reference) := do
  match ← loadMnemonics look sources.mnemonics with
  | .error e => return .error e
  | .ok mnemonics =>
    match ← loadLanguage look sources.language with
    | .error e => return .error e
    | .ok language =>
      match sources.memory with
      | none => return .ok (ofRecords mnemonics language [])
      | some path =>
        match ← loadRegions look path with
        | .error e => return .error e
        | .ok regions => return .ok (ofRecords mnemonics language regions)

/-- The path of the mnemonics in a directory. -/
def mnemonicsIn (directory : Path) : String :=
  (directory.child mnemonicFile).text

/-- The path of the language in a directory. -/
def languageIn (directory : Path) : String :=
  (directory.child languageFile).text

/-- The memory map in a directory, if there is one. -/
def memoryIn (look : String → m FileStatus) (directory : Path) :
    m (Except LoadError (Option String)) := do
  let path := (directory.child memoryFile).text
  match ← look path with
  | .nameTooLong => return .error (.longPath path)
  | status => return .ok (if status.exists then some path else none)

/-- The reference in a directory. -/
def loadDirectory (look : String → m FileStatus) (directory : Path) :
    m (Except LoadError Reference) := do
  match ← memoryIn look directory with
  | .error e => return .error e
  | .ok memory => load look ⟨mnemonicsIn directory, languageIn directory, memory⟩

end Asm6510.Reference
