import Asm6510.Position

/-!
# Failures

A failure of the analysis has a message, and may have a location and a hint. `Failure.text` is the
form in which it is shown.
-/

namespace Asm6510

/-- What a failure says. -/
structure Failure where
  message : String
  location : Option Location
  hint : Option String
deriving DecidableEq, Repr

/-- The text of a failure; an empty hint is left out. -/
def Failure.text (f : Failure) : String :=
  let first := match f.location with
    | some l => l.text ++ ": error: " ++ f.message
    | none => "error: " ++ f.message
  match f.hint with
  | none => first
  | some h => if h.isEmpty then first else first ++ "\nhint: " ++ h

/-- A name that is defined twice in one scope. -/
structure DuplicateSymbol where
  name : String
  /-- Where the second definition is. -/
  location : Option Location
  /-- Where the first definition is. -/
  first : Option Location
deriving DecidableEq, Repr

namespace DuplicateSymbol

/-- The message alone, as diagnostics show it. -/
def reason (d : DuplicateSymbol) : String :=
  "symbol '" ++ d.name ++ "' already defined in this scope"

/-- The failure with its location and a hint at the first definition. -/
def toFailure (d : DuplicateSymbol) : Failure where
  message := d.reason
  location := d.location
  hint := d.first.map fun l => "'" ++ d.name ++ "' was first defined at " ++ l.text

end DuplicateSymbol

/-- The message when the shared reference is asked for before there is one. -/
def referenceMissing : String :=
  "reference context has not been loaded"

end Asm6510
