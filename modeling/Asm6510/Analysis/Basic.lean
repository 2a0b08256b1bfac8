import Asm6510.Grammar.Program
import Asm6510.Scope.Definitions
import Asm6510.Usage

/-!
# The analysis of a document

`analyze` runs all stages on one text: tokens and program, the definitions, and the references.
The diagnostics stand in the order of the stages.
-/

namespace Asm6510

/-- What is known about a document. -/
structure Analysis where
  uri : String
  /-- The program, unless the analysis could not start. -/
  program : Option Program
  scope : Scope
  tokens : List Token
  diagnostics : List Diagnostic

namespace Analysis

/-- The diagnostics that are errors. -/
def errors (a : Analysis) : List Diagnostic :=
  a.diagnostics.filter Diagnostic.isError

/-- The diagnostics that are warnings. -/
def warnings (a : Analysis) : List Diagnostic :=
  a.diagnostics.filter Diagnostic.isWarning

/-- The analysis of a document without a reference. -/
def withoutReference (uri : String) : Analysis where
  uri
  program := none
  scope := Scope.root uri 0
  tokens := []
  diagnostics :=
    [{ severity := .error
       range := .zero
       message := "Internal error: ProcessorContext not initialized"
       source := Stage.definitions.label }]

end Analysis

/-- The number of lines of a text. -/
def lineCount (text : String) : Nat :=
  text.toList.count '\n' + 1

/-- Analyzes a document. -/
def analyze (ref : Option Reference) (settings : Settings) (uri text : String) :
    Except ParseFault Analysis :=
  match ref with
  | none => .ok (.withoutReference uri)
  | some ref =>
    match parse (some ref) settings.maxDepth settings.maxDepth text with
    | .error e => .error e
    | .ok parsed =>
      let (scope, duplicates) := Scope.ofProgram uri (lineCount text) parsed.program
      let (counted, warnings) := checkUsage settings parsed.program scope text
      .ok
        { uri
          program := some parsed.program
          scope := counted
          tokens := parsed.tokens
          diagnostics := parsed.diagnostics ++ duplicates ++ warnings }

end Asm6510
