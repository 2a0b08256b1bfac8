import Asm6510.Position

/-!
# Diagnostics

A diagnostic is a message about a stretch of text. `Diagnostic.text` is its line in a report.
-/

namespace Asm6510

/-- How serious a problem is. -/
inductive Severity
  | error
  | warning
  | information
  | hint
deriving DecidableEq, Repr

namespace Severity

/-- The number that editors use. -/
def code : Severity → Nat
  | .error => 1
  | .warning => 2
  | .information => 3
  | .hint => 4

/-- The severity with a given number. -/
def ofCode? : Int → Option Severity
  | 1 => some .error
  | 2 => some .warning
  | 3 => some .information
  | 4 => some .hint
  | _ => none

/-- The word in a report. -/
def label : Severity → String
  | .error => "error"
  | .warning => "warning"
  | .information => "information"
  | .hint => "hint"

end Severity

/-- The stage that reports a problem. -/
inductive Stage
  | grammar
  | definitions
  | usage
deriving DecidableEq, Repr

/-- The name of a stage in reports. -/
def Stage.label : Stage → String
  | .grammar => "context-aware-parser"
  | .definitions => "parser"
  | .usage => "analyzer"

/-- One reported problem. -/
structure Diagnostic where
  severity : Severity
  range : Range
  message : String
  source : String
deriving DecidableEq, Repr

namespace Diagnostic

/-- The characters that a diagnostic covers when nothing else is known. -/
def defaultLength : Nat := 11

/-- A diagnostic over `length` characters from a line and a column that count from one. -/
def atLineColumn (severity : Severity) (message : String) (line column : Int) (source : String)
    (length : Int) : Diagnostic :=
  { severity, message, source, range := Range.span ⟨line - 1, column - 1⟩ length }

/-- A diagnostic of a stage over `length` characters from a place. -/
def atPlace (severity : Severity) (message : String) (place : Place) (stage : Stage)
    (length : Nat := defaultLength) : Diagnostic :=
  { severity, message, source := stage.label, range := Range.span place.toPosition length }

/-- Whether the problem is an error. -/
def isError (d : Diagnostic) : Bool :=
  d.severity == .error

/-- Whether the problem is a warning. -/
def isWarning (d : Diagnostic) : Bool :=
  d.severity == .warning

/-- The line of a report. -/
def text (d : Diagnostic) : String :=
  Text.decimal (d.range.start.line + 1) ++ ":" ++ Text.decimal (d.range.start.character + 1) ++
    ": " ++ d.severity.label ++ ": " ++ d.message ++ " [" ++ d.source ++ "]"

end Diagnostic

end Asm6510
