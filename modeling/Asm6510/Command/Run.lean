import Asm6510.Analysis.Basic
import Asm6510.Command.Options
import Asm6510.Reference.Load
import Asm6510.Text.Terminal

/-!
# The checking command

`run` checks the files of a command line and gives what is printed and the exit code. How files are
looked at is a parameter.

* `Trouble`: why a run ends early, and how that is reported.
* `Report`: what the files that were checked gave.
* `Outcome`: what a run prints, and its exit code; `Outcome.plain` without terminal sequences.
-/

namespace Asm6510

namespace Scope

/-- The line of a symbol in a listing. -/
def symbolLine (pad : String) (s : Symbol) : String :=
  let detail :=
    if !s.signature.isEmpty then " " ++ s.signature
    else match s.value with
      | some v => if v.isEmpty then "" else " = " ++ v
      | none => ""
  pad ++ Text.decimal (s.position.line + 1) ++ ":" ++ Text.decimal (s.position.character + 1) ++
    " " ++ s.kind.name ++ " " ++ s.name ++ detail ++ " (used " ++ Text.decimal s.uses ++ "x)"

/-- The line of a scope in a listing. -/
def scopeLine (pad : String) (s : Scope) : String :=
  pad ++ "scope " ++ s.name ++ " (lines " ++ Text.decimal (s.range.start.line + 1) ++ "-" ++
    Text.decimal (s.range.stop.line + 1) ++ ")"

mutual

/-- The symbols of a scope, then the scopes in it, each level further to the right. -/
def listing (pad : String) : Scope → List String
  | ⟨_, _, _, symbols, children⟩ =>
    symbols.entries.map (fun e => symbolLine pad e.2) ++ listings pad children

/-- Several scopes with their listings. -/
def listings (pad : String) : List Scope → List String
  | [] => []
  | s :: rest => scopeLine pad s :: listing (pad ++ "  ") s ++ listings pad rest

end

end Scope

namespace Command

/-- The name of the command. -/
def commandName : String := "c64lsp-check"

/-- The version of the command. -/
def version : String := "1.0.0"

/-- Why a run ends early. -/
inductive Trouble
  /-- Files or reference data that cannot be used. -/
  | input (text : String)
  /-- A failure of the analysis. -/
  | failure (text : String)
  /-- Anything that was not foreseen. -/
  | internal (text : String)
deriving DecidableEq, Repr

namespace Trouble

/-- The exit code. -/
def exitCode : Trouble → Nat
  | input _ => 2
  | failure _ => 1
  | internal _ => 3

/-- What is printed; a verbose run says that there is no trace of an unforeseen failure. -/
def report (verbose : Bool) : Trouble → String
  | input text => "Error: " ++ text ++ "\n"
  | failure text => "Error: " ++ text ++ "\n"
  | internal text =>
    "Internal error: " ++ text ++ "\n" ++ (if verbose then "NoneType: None\n" else "")

/-- Reference data that cannot be loaded. -/
def ofLoadError : LoadError → Trouble
  | e@(.document _ _) => input e.message
  | e => internal e.message

/-- A text without a program. -/
def ofParseFault (f : ParseFault) : Trouble :=
  internal f.message

/-- No reference data is named. -/
def noReference : Trouble :=
  input ("no reference data: use --data-dir, set C64LSP_DATA_DIR, " ++
    "or pass both --mnemonics and --kickass")

/-- A source file that cannot be read. -/
def unreadable (path : String) : Trouble :=
  input ("[Errno 2] No such file or directory: " ++ Text.quoted path)

end Trouble

/-- What the files that were checked gave. -/
structure Report where
  lines : List String
  errors : Nat
  warnings : Nat
  trouble : Option Trouble
deriving DecidableEq, Repr

namespace Report

/-- No file was checked. -/
def empty : Report :=
  ⟨[], 0, 0, none⟩

/-- The run ended early. -/
def ofTrouble (t : Trouble) : Report :=
  ⟨[], 0, 0, some t⟩

/-- Two reports one after the other. -/
def append (r s : Report) : Report :=
  ⟨r.lines ++ s.lines, r.errors + s.errors, r.warnings + s.warnings, s.trouble⟩

end Report

/-- The settings of a run: those of the environment, changed by the options. -/
def settings (environment : Settings) (o : Options) : Settings :=
  { environment with
    warnUnused := !o.noWarnUnused && environment.warnUnused
    warnIllegal := o.warnIllegal || environment.warnIllegal
    maxDepth := o.maxDepth.getD environment.maxDepth
    debug := o.verbose || environment.debug }

/-- The order of diagnostics in a report. -/
def notAfter (a b : Diagnostic) : Bool :=
  !b.range.start.before a.range.start

/-- The lines about one file. -/
def fileLines (o : Options) (path : String) (a : Analysis) : List String :=
  (if o.showTokens then ("# Tokens: " ++ path) :: a.tokens.map Token.listing else []) ++
    (if o.showSymbols then ("# Symbols: " ++ path) :: a.scope.listing "" else []) ++
    (a.diagnostics.mergeSort notAfter).map fun d => path ++ ":" ++ d.text

/-- The report on the text of one file. -/
def checkText (o : Options) (s : Settings) (ref : Reference) (path text : String) : Report :=
  match analyze (some ref) s path text with
  | .error f => .ofTrouble (.ofParseFault f)
  | .ok a => ⟨fileLines o path a, a.errors.length, a.warnings.length, none⟩

variable {m : Type → Type} [Monad m]

/-- The report on one file. Bytes that are no text are replaced. -/
def checkFile (look : String → m FileStatus) (o : Options) (s : Settings) (ref : Reference)
    (path : Path) : m Report := do
  match ← look path.text with
  | .file bytes =>
    return checkText o s ref path.text (Text.normalizeNewlines (Text.decodeLossy bytes))
  | _ => return .ofTrouble (.unreadable path.text)

/-- The report on several files; trouble ends it. -/
def checkFiles (look : String → m FileStatus) (o : Options) (s : Settings) (ref : Reference) :
    List Path → m Report
  | [] => return .empty
  | path :: rest => do
    let r ← checkFile look o s ref path
    if r.trouble.isSome then return r
    else
      let others ← checkFiles look o s ref rest
      return r.append others

/-- The memory map that an option names, or else the one in a directory. -/
def memorySource? (look : String → m FileStatus) (o : Options) (directory : Option Path) :
    m (Except LoadError (Option String)) :=
  match o.memory, directory with
  | some path, _ => return .ok (some path.text)
  | none, some d => Reference.memoryIn look d
  | none, none => return .ok none

/-- The reference files that options and settings name. Single files take the place of those in the
directory. -/
def sources (look : String → m FileStatus) (o : Options) (s : Settings) :
    m (Except Trouble Reference.Sources) := do
  let directory := o.dataDir <|> s.dataDir
  let mnemonics := o.mnemonics.map Path.text <|> directory.map Reference.mnemonicsIn
  let language := o.language.map Path.text <|> directory.map Reference.languageIn
  match ← memorySource? look o directory with
  | .error e => return .error (.ofLoadError e)
  | .ok memory =>
    return match mnemonics, language with
      | some mnemonics, some language => .ok ⟨mnemonics, language, memory⟩
      | _, _ => .error .noReference

/-- Loads the reference and checks the files. -/
def check (look : String → m FileStatus) (o : Options) (s : Settings) : m Report := do
  match ← sources look o s with
  | .error t => return .ofTrouble t
  | .ok sources =>
    match ← Reference.load look sources with
    | .error e => return .ofTrouble (.ofLoadError e)
    | .ok ref => checkFiles look o s ref o.files

/-- What a run prints, and its exit code. -/
structure Outcome where
  exitCode : Nat
  stdout : String
  stderr : String
  /-- Whether the command line was wrong. -/
  isUsage : Bool
deriving DecidableEq, Repr

namespace Outcome

/-- Lines on the standard output. -/
def ofText (text : String) : Outcome :=
  ⟨0, text, "", false⟩

/-- A wrong command line. -/
def ofUsageError (e : UsageError) : Outcome :=
  ⟨2, "", "Error: " ++ e.message ++ "\n", true⟩

/-- The counts at the end of a verbose run. -/
def summary (files : Nat) (r : Report) : String :=
  Text.decimal files ++ " file(s): " ++ Text.decimal r.errors ++ " error(s), " ++
    Text.decimal r.warnings ++ " warning(s)\n"

/-- The outcome of a report. -/
def ofReport (o : Options) (r : Report) : Outcome :=
  let stdout := String.join (r.lines.map (· ++ "\n"))
  match r.trouble with
  | some t => ⟨t.exitCode, stdout, t.report o.verbose, false⟩
  | none =>
    ⟨if r.errors = 0 then 0 else 1, stdout,
      if o.verbose then summary o.files.length r else "", false⟩

/-- The outcome as it is printed where there is no terminal. -/
def plain (o : Outcome) : Outcome :=
  { o with stdout := Text.plain o.stdout, stderr := Text.plain o.stderr }

end Outcome

/-- The line of the version. -/
def versionText : String :=
  commandName ++ ", version " ++ version ++ "\n"

/-- What stands before a usage error. -/
def usageText : String :=
  "Usage: " ++ commandName ++ " [OPTIONS] FILES...\nTry '" ++ commandName ++
    " --help' for help.\n\n"

/-- The help of the command. -/
def helpText : String :=
  "Usage: " ++ commandName ++ " [OPTIONS] FILES...\n\n  Check Kick Assembler source files.\n\n" ++
  "Options:\n" ++
  "  -d, --data-dir DIRECTORY  Directory with the reference files\n" ++
  "  --mnemonics FILE          Mnemonic reference file\n" ++
  "  --kickass FILE            Kick Assembler reference file\n" ++
  "  --memory FILE             C64 memory map file\n" ++
  "  --no-warn-unused          Do not warn about unused symbols\n" ++
  "  --warn-illegal            Warn about undocumented opcodes\n" ++
  "  --max-depth INTEGER       Maximum nesting depth (default: 128)\n" ++
  "  --symbols                 Print the symbol table of each file\n" ++
  "  --tokens                  Print the token stream of each file\n" ++
  "  -v, --verbose             Verbose output\n" ++
  "  --version                 Show the version and exit.\n" ++
  "  --help                    Show this message and exit.\n"

/-- The text that an option asks for in place of a run; the first one counts. -/
def textInstead? (words : Words) : Option String :=
  words.flags.findSome? fun f =>
    match f with
    | .version => some versionText
    | .help => some helpText
    | _ => none

/-- Runs the command. -/
def run (look : String → m FileStatus) (environment : String → Option String)
    (args : List String) : m Outcome := do
  match readWords none args with
  | .error e => return .ofUsageError e
  | .ok words =>
    match textInstead? words with
    | some text => return .ofText text
    | none =>
      match ← valueError? look words with
      | some e => return .ofUsageError e
      | none =>
        let o := Options.ofWords words
        let r ← check look o (settings (.ofEnvironment environment) o)
        return .ofReport o r

end Command

end Asm6510
