import Asm6510.Text.Case
import Asm6510.Text.Trim

/-!
# Names in the reference data

How names of directives and addressing modes are compared, and the lists of names that are fixed
by the processor and the assembler.
-/

namespace Asm6510.Reference

/-- The key of a directive: lower case without blanks around it, and a leading point unless it
starts with a point or a number sign. -/
def directiveKey (name : String) : String :=
  let key := Text.lower (Text.trim name)
  if Text.startsWith key "." || Text.startsWith key "#" then key else "." ++ key

/-- The key of a preprocessor statement: lower case with a leading number sign. -/
def preprocessorKey (name : String) : String :=
  let key := Text.lower name
  if Text.startsWith key "#" then key else "#" ++ Text.trimLeft (· == '.') key

/-- The comparable form of an addressing mode: lower case without blanks and parentheses. -/
def modeKey (name : String) : String :=
  String.ofList <| (Text.lower name).toList.filter fun c => c != ' ' && c != '(' && c != ')'

/-- Undocumented mnemonics. -/
def undocumentedNames : List String :=
  ["AHX", "ALR", "ANC", "ARR", "AXS", "DCP", "ISC", "LAS", "LAX",
   "RLA", "RRA", "SAX", "SHX", "SHY", "SLO", "SRE", "TAS", "XAA"]

/-- Branches, jumps and returns. -/
def controlNames : List String :=
  ["BCC", "BCS", "BEQ", "BMI", "BNE", "BPL", "BVC", "BVS", "JMP", "JSR", "RTS", "RTI"]

/-- Directives that steer assembly. -/
def flowDirectives : List String :=
  [".if", ".else", ".for", ".while", ".return", ".break"]

/-- Directives that lay down data. -/
def dataDirectives : List String :=
  [".byte", ".by", ".word", ".wo", ".dword", ".dw", ".text", ".fill", ".fillword", ".align",
   ".lohifill"]

/-- Directives that print. -/
def textDirectives : List String :=
  [".print", ".printnow", ".error", ".errorif"]

/-- The categories that data may name. -/
def directiveCategories : List String :=
  ["flow", "data", "asm", "text", "pre"]

/-- The category of a directive by its key alone. -/
def derivedCategory (key : String) : String :=
  if flowDirectives.contains key then "flow"
  else if dataDirectives.contains key then "data"
  else if textDirectives.contains key then "text"
  else "asm"

end Asm6510.Reference
