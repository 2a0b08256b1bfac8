import Asm6510.Files
import Asm6510.Number.Integer
import Asm6510.Text.Quoted
import Asm6510.Text.Similarity

/-!
# The command line

* `readWords`: the options and files among the words of a command line.
* `UsageError`: everything that can be wrong with them, with its wording.
* `Options.read`: the options after their values have been checked.
-/

namespace Asm6510.Command

/-- Options without a value. -/
inductive Flag
  | noWarnUnused
  | warnIllegal
  | symbols
  | tokens
  | verbose
  | version
  | help
deriving DecidableEq, Repr

/-- Options with a value. -/
inductive Setting
  | dataDir
  | mnemonics
  | language
  | memory
  | maxDepth
deriving DecidableEq, Repr

/-- An option. -/
inductive Choice
  | flag (f : Flag)
  | setting (s : Setting)
deriving DecidableEq, Repr

/-- The long names of the options. -/
def longNames : List (String × Choice) :=
  [("--data-dir", .setting .dataDir), ("--mnemonics", .setting .mnemonics),
    ("--kickass", .setting .language), ("--memory", .setting .memory),
    ("--no-warn-unused", .flag .noWarnUnused), ("--warn-illegal", .flag .warnIllegal),
    ("--max-depth", .setting .maxDepth), ("--symbols", .flag .symbols),
    ("--tokens", .flag .tokens), ("--verbose", .flag .verbose), ("--version", .flag .version),
    ("--help", .flag .help)]

/-- The short names of the options. -/
def shortNames : List (Char × Choice) :=
  [('d', .setting .dataDir), ('v', .flag .verbose)]

/-- The name of an option with a value in messages about the value. -/
def Setting.label : Setting → String
  | dataDir => "'-d' / '--data-dir'"
  | mnemonics => "'--mnemonics'"
  | language => "'--kickass'"
  | memory => "'--memory'"
  | maxDepth => "'--max-depth'"

/-- The name of the files in messages. -/
def filesLabel : String := "'FILES...'"

/-- What a path has to be. -/
inductive PathKind
  | file
  | directory
deriving DecidableEq, Repr

/-- The word for a kind of path. -/
def PathKind.word : PathKind → String
  | file => "File"
  | directory => "Directory"

/-- What is wrong with a value. -/
inductive ValueFault
  | missing (kind : PathKind) (path : String)
  | isFile (path : String)
  | isDirectory (path : String)
  | noAccess (kind : PathKind) (path : String)
  | noInteger (text : String)
  | tooSmall (n : Int)
deriving DecidableEq, Repr

/-- The words for a fault. -/
def ValueFault.message : ValueFault → String
  | missing kind path => kind.word ++ " " ++ Text.quoted path ++ " does not exist."
  | isFile path => PathKind.directory.word ++ " " ++ Text.quoted path ++ " is a file."
  | isDirectory path => PathKind.file.word ++ " " ++ Text.quoted path ++ " is a directory."
  | noAccess kind path => kind.word ++ " " ++ Text.quoted path ++ " is not readable."
  | noInteger text => Text.quoted text ++ " is not a valid integer range."
  | tooSmall n => Text.decimal n ++ " is not in the range x>=1."

/-- What is wrong with a command line. -/
inductive UsageError
  | unknownOption (name : String) (meant : List String)
  | needsValue (name : String)
  | takesNoValue (name : String)
  | badValue (label : String) (fault : ValueFault)
  | noFiles
deriving DecidableEq, Repr

/-- The words for an error. -/
def UsageError.message : UsageError → String
  | unknownOption name [] => "No such option: " ++ name
  | unknownOption name [meant] => "No such option: " ++ name ++ " Did you mean " ++ meant ++ "?"
  | unknownOption name meant =>
    "No such option: " ++ name ++ " (Possible options: " ++ Text.join ", " meant ++ ")"
  | needsValue name => "Option " ++ Text.quoted name ++ " requires an argument."
  | takesNoValue name => "Option " ++ Text.quoted name ++ " does not take a value."
  | badValue label fault => "Invalid value for " ++ label ++ ": " ++ fault.message
  | noFiles => "Missing argument " ++ filesLabel ++ "."

/-- The options and files of a command line, each in its order. -/
structure Words where
  flags : List Flag
  settings : List (Setting × String)
  files : List String
deriving DecidableEq, Repr

namespace Words

/-- A command line of files. -/
def ofFiles (files : List String) : Words :=
  ⟨[], [], files⟩

/-- Two command lines one after the other. -/
def append (v w : Words) : Words :=
  ⟨v.flags ++ w.flags, v.settings ++ w.settings, v.files ++ w.files⟩

/-- The last value of an option. -/
def value? (w : Words) (s : Setting) : Option String :=
  ((w.settings.filter fun e => e.1 == s).getLast?).map (·.2)

end Words

/-- An option that waits for its value, with the name it was written by. -/
structure Waiting where
  setting : Setting
  name : String
deriving DecidableEq, Repr

/-- The options of a run of short names; the last one may take the rest of the run as its value, or
wait for one. -/
def readShort : List Char → Except UsageError (Words × Option Waiting)
  | [] => .ok (.ofFiles [], none)
  | c :: rest =>
    let name := String.ofList ['-', c]
    match shortNames.lookup c with
    | none => .error (.unknownOption name [])
    | some (.flag f) => do
      let (words, waiting) ← readShort rest
      return (Words.append ⟨[f], [], []⟩ words, waiting)
    | some (.setting s) =>
      if rest.isEmpty then .ok (.ofFiles [], some ⟨s, name⟩)
      else .ok (⟨[], [(s, String.ofList rest)], []⟩, none)

/-- The name of a written option, and the value behind an equals sign. -/
def splitValue (word : String) : String × Option String :=
  let name := word.toList.takeWhile (· != '=')
  match word.toList.drop name.length with
  | [] => (word, none)
  | _ :: value => (String.ofList name, some (String.ofList value))

/-- The options of a word that starts with a dash. -/
def readOption (word : String) : Except UsageError (Words × Option Waiting) :=
  let (name, value) := splitValue word
  match longNames.lookup name, value with
  | some (.setting s), some v => .ok (⟨[], [(s, v)], []⟩, none)
  | some (.setting s), none => .ok (.ofFiles [], some ⟨s, name⟩)
  | some (.flag _), some _ => .error (.takesNoValue name)
  | some (.flag f), none => .ok (⟨[f], [], []⟩, none)
  | none, _ =>
    if Text.startsWith word "--" then
      .error (.unknownOption name (Text.closeTexts name (longNames.map (·.1))))
    else readShort (word.toList.drop 1)

/-- Whether a word is an option. -/
def isOption (word : String) : Bool :=
  Text.startsWith word "-" && 1 < word.length

/-- The options and files among words. Two dashes end the options. -/
def readWords (waiting : Option Waiting) : List String → Except UsageError Words
  | [] =>
    match waiting with
    | none => .ok (.ofFiles [])
    | some w => .error (.needsValue w.name)
  | word :: rest =>
    match waiting with
    | some w => do
      let words ← readWords none rest
      return Words.append ⟨[], [(w.setting, word)], []⟩ words
    | none =>
      if word = "--" then .ok (.ofFiles rest)
      else if isOption word then
        match readOption word with
        | .error e => .error e
        | .ok (here, waiting) => do
          let words ← readWords waiting rest
          return here.append words
      else do
        let words ← readWords none rest
        return (Words.ofFiles [word]).append words

/-- The options of a run. -/
structure Options where
  files : List Path
  dataDir : Option Path
  mnemonics : Option Path
  language : Option Path
  memory : Option Path
  maxDepth : Option Int
  noWarnUnused : Bool
  warnIllegal : Bool
  showSymbols : Bool
  showTokens : Bool
  verbose : Bool
deriving DecidableEq, Repr

/-- What is wrong with a path, by what is found there. -/
def pathFault? (kind : PathKind) (path : String) : FileStatus → Option ValueFault
  | .missing => some (.missing kind path)
  | .notDirectory => some (.missing kind path)
  | .nameTooLong => some (.missing kind path)
  | .nullInName => some (.missing kind path)
  | .noAccess => some (.noAccess kind path)
  | .directory => if kind = .file then some (.isDirectory path) else none
  | .file _ => if kind = .directory then some (.isFile path) else none

/-- What is wrong with a depth. -/
def depthFault? (text : String) : Option ValueFault :=
  match Number.readInteger? 10 text with
  | none => some (.noInteger text)
  | some n => if n < 1 then some (.tooSmall n) else none

variable {m : Type → Type} [Monad m]

/-- What is wrong with the value of an option. -/
def settingFault? (look : String → m FileStatus) (s : Setting) (value : String) :
    m (Option ValueFault) :=
  match s with
  | .maxDepth => pure (depthFault? value)
  | .dataDir => do return pathFault? .directory value (← look value)
  | _ => do return pathFault? .file value (← look value)

/-- The first error among the values of options, in the order in which the options first came. -/
def settingsError? (look : String → m FileStatus) (words : Words) :
    List Setting → m (Option UsageError)
  | [] => pure none
  | s :: rest => do
    match ← settingFault? look s ((words.value? s).getD "") with
    | some fault => return some (.badValue s.label fault)
    | none => settingsError? look words rest

/-- The first error among the files. -/
def filesError? (look : String → m FileStatus) : List String → m (Option UsageError)
  | [] => pure none
  | path :: rest => do
    match pathFault? .file path (← look path) with
    | some fault => return some (.badValue filesLabel fault)
    | none => filesError? look rest

/-- The first error among the values of a command line. -/
def valueError? (look : String → m FileStatus) (words : Words) : m (Option UsageError) := do
  match ← settingsError? look words (words.settings.map (·.1)).eraseDups with
  | some e => return some e
  | none =>
    if words.files.isEmpty then return some .noFiles
    else filesError? look words.files

/-- The options of a command line whose values were checked. -/
def Options.ofWords (words : Words) : Options :=
  let path (s : Setting) : Option Path := (words.value? s).map Path.ofText
  { files := words.files.map Path.ofText
    dataDir := path .dataDir
    mnemonics := path .mnemonics
    language := path .language
    memory := path .memory
    maxDepth := (words.value? .maxDepth).bind (Number.readInteger? 10)
    noWarnUnused := words.flags.contains .noWarnUnused
    warnIllegal := words.flags.contains .warnIllegal
    showSymbols := words.flags.contains .symbols
    showTokens := words.flags.contains .tokens
    verbose := words.flags.contains .verbose }

end Asm6510.Command
