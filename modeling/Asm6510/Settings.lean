import Asm6510.Json.Value
import Asm6510.Number.Integer
import Asm6510.Path
import Asm6510.Text.Case

/-!
# Settings

What a user can choose about an analysis. Settings come from the environment
(`Settings.ofEnvironment`) or from an object that an editor sends (`Settings.update`); values that
cannot be read leave the setting as it is.
-/

namespace Asm6510

/-- The settings of an analysis. -/
structure Settings where
  warnUnused : Bool
  warnIllegal : Bool
  /-- The bound for nested contexts, blocks and expressions; one below one counts as one. -/
  maxDepth : Int
  debug : Bool
  /-- Where the reference files are. -/
  dataDir : Option Path
deriving DecidableEq, Repr

namespace Settings

/-- The settings of an editor that sends none. -/
def standard : Settings :=
  ⟨true, false, 128, false, none⟩

/-- Reads a switch. -/
def readSwitch? (s : String) : Option Bool :=
  let word := Text.lower (Text.trim s)
  if ["1", "true", "yes", "on"].contains word then some true
  else if ["0", "false", "no", "off"].contains word then some false
  else none

/-- A depth that is at least one. -/
def positive? (n : Int) : Option Int :=
  if 0 < n then some n else none

/-- The settings of environment variables, given by name. Empty variables count as unset. -/
def ofEnvironment (lookup : String → Option String) : Settings :=
  let given (name : String) : Option String := (lookup name).filter fun s => !s.isEmpty
  let switch (name : String) (otherwise : Bool) : Bool :=
    ((given name).bind readSwitch?).getD otherwise
  { warnUnused := switch "C64LSP_WARN_UNUSED" standard.warnUnused
    warnIllegal := switch "C64LSP_WARN_ILLEGAL" standard.warnIllegal
    maxDepth := (((given "C64LSP_MAX_DEPTH").bind (Number.readInteger? 10)).bind positive?).getD
      standard.maxDepth
    debug := switch "C64LSP_DEBUG" standard.debug
    dataDir := (given "C64LSP_DATA_DIR").map Path.ofText }

/-- A switch of a settings object. -/
def memberSwitch? (settings : Json) (name : String) : Option Bool :=
  match settings.member name with
  | .bool b => some b
  | _ => none

/-- A depth of a settings object. -/
def memberDepth? (settings : Json) (name : String) : Option Int :=
  match settings.member name with
  | .int n => positive? n
  | _ => none

/-- The settings after an editor's settings object. -/
def update (base : Settings) (settings : Json) : Settings :=
  { base with
    warnUnused := (memberSwitch? settings "warnUnusedLabels").getD base.warnUnused
    warnIllegal := (memberSwitch? settings "illegalOpcodeWarnings").getD base.warnIllegal
    debug := (memberSwitch? settings "debugMode").getD base.debug
    maxDepth := (memberDepth? settings "maxNestingDepth").getD base.maxDepth }

end Settings

end Asm6510
