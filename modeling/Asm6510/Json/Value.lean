import Asm6510.Number.Binary64
import Asm6510.Text.Quoted

/-!
# JSON values

* `Json`: a value; the members of an object keep the order they were written in.
* `Json.member?`: the member of an object with a given name.
* `Json.display`, `Json.inner`: the text of a value, on its own and inside another value.
* `Json.Count`: a whole number, where a truth value counts as zero or one and stays as written.
-/

namespace Asm6510

/-- A JSON value. -/
inductive Json
  | null
  | bool (b : Bool)
  | int (n : Int)
  | real (x : Number.Binary64)
  | string (s : String)
  | array (items : List Json)
  | object (members : List (String × Json))
deriving Repr

namespace Json

/-- Adds a member; a name that is there already keeps its place and gets the new value. -/
def putMember (name : String) (value : Json) : List (String × Json) → List (String × Json)
  | [] => [(name, value)]
  | (n, v) :: rest =>
    if n = name then (name, value) :: rest else (n, v) :: putMember name value rest

/-- The member of an object with the given name. -/
def member? (name : String) : Json → Option Json
  | .object members => members.lookup name
  | _ => none

/-- The member with the given name, null where there is none. -/
def member (name : String) (value : Json) : Json :=
  (value.member? name).getD .null

/-- Whether the value counts as given: everything but null, false, zero and what is empty. -/
def isGiven : Json → Bool
  | .null => false
  | .bool b => b
  | .int n => n != 0
  | .real (.finite _ mantissa _) => mantissa != 0
  | .real _ => true
  | .string s => !s.isEmpty
  | .array items => !items.isEmpty
  | .object members => !members.isEmpty

mutual

/-- The text of a value inside another one: texts are quoted. -/
def inner : Json → String
  | .null => "None"
  | .bool b => if b then "True" else "False"
  | .int n => Text.decimal n
  | .real x => x.text
  | .string s => Text.quoted s
  | .array items => "[" ++ Text.join ", " (innerAll items) ++ "]"
  | .object members => "\x7b" ++ Text.join ", " (innerMembers members) ++ "\x7d"

/-- The texts of several values. -/
def innerAll : List Json → List String
  | [] => []
  | v :: rest => inner v :: innerAll rest

/-- The texts of the members of an object. -/
def innerMembers : List (String × Json) → List String
  | [] => []
  | (name, v) :: rest => (Text.quoted name ++ ": " ++ inner v) :: innerMembers rest

end

/-- The text of a value on its own: a text stands for itself. -/
def display : Json → String
  | .string s => s
  | v => v.inner

/-- The text of a value, nothing for null. -/
def displayOrEmpty : Json → String
  | .null => ""
  | v => v.display

/-- A whole number, or a truth value that counts as one. -/
inductive Count
  | number (n : Int)
  | flag (b : Bool)
deriving DecidableEq, Repr

/-- The number that is meant. -/
def Count.value : Count → Int
  | .number n => n
  | .flag b => if b then 1 else 0

/-- The whole number that a value is. -/
def count? : Json → Option Count
  | .int n => some (.number n)
  | .bool b => some (.flag b)
  | _ => none

end Json

end Asm6510
