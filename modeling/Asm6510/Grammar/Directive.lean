import Asm6510.Grammar.Expression
import Asm6510.Reference.Naming

/-!
# The grammar of directives

Each form of directive has a parser that starts at the directive and ends at its last token. The
parsers take the parser `expr` of values and the parser `block` of blocks, which is given the
opening brace.
-/

namespace Asm6510.Grammar

/-- The word of a directive in lower case. -/
def directiveWord (t : Token) : String :=
  Text.lower t.literal

/-- A block, if the next token opens one. -/
def optionalBlock (block : Token → Parser Braces) : Parser (Option Braces) := do
  if ← nextIs .leftBrace then
    let opening ← advance
    let b ← block opening
    return some b
  else
    return none

/-- The block of a directive that needs one; its absence is reported. -/
def requiredBlock (block : Token → Parser Braces) (t : Token) : Parser (Option Braces) := do
  if ← nextIs .leftBrace then
    optionalBlock block
  else
    reportNext ("Expected '\x7b' after " ++ directiveWord t ++ " directive")
    return none

/-- A directive with a value that may follow an equals sign, and a block; both may be missing. -/
def genericDirective (expr : Parser Expr) (block : Token → Parser Braces) (t : Token) :
    Parser Statement := do
  let value ←
    if ← hasValueOnLine then do
      let first ← advance
      if first.kind = .equal then
        let _ ← advance
        expr
      else
        expr
    else
      pure .missing
  let body ← optionalBlock block
  return .ofDirective ⟨t, none, [], value⟩ body

/-- Values separated by commas. -/
def dataDirective (expr : Parser Expr) (t : Token) : Parser Statement := do
  if ← hasValueOnLine then
    let _ ← advance
    let first ← expr
    let (rest, _) ← whileNext .comma do
      let next ← advance
      if endsStatement next then return none
      else
        let e ← expr
        return some e.toList
    let values := first.toList ++ rest
    return .directive ⟨t, none, [], if values.isEmpty then .missing else .array t values⟩
  else
    return .directive ⟨t, none, [], .missing⟩

/-- A name with a value behind an equals sign, which may be missing. -/
def namedDirective (expr : Parser Expr) (t : Token) : Parser Statement := do
  let next ← peek
  if next.kind.isName then
    let name ← advance
    if ← nextIs .equal then
      let _ ← advance
      let first ← peek
      if endsStatement first then
        return .directive ⟨t, some name, [], .missing⟩
      else
        let _ ← advance
        let value ← expr
        return .directive ⟨t, some name, [], value⟩
    else
      return .directive ⟨t, some name, [], .missing⟩
  else
    reportAt next ("Expected identifier after " ++ directiveWord t ++ " directive")
    return .directive ⟨t, none, [], .missing⟩

/-- A name alone. -/
def defineDirective (t : Token) : Parser Statement := do
  let next ← peek
  if next.kind.isName then
    let name ← advance
    return .directive ⟨t, some name, [], .missing⟩
  else
    reportAt next ("Expected identifier after " ++ directiveWord t ++ " directive")
    return .directive ⟨t, none, [], .missing⟩

/-- A string alone. -/
def encodingDirective (t : Token) : Parser Statement := do
  if ← nextIs .string then
    let s ← advance
    return .directive ⟨t, none, [], stringLiteral s⟩
  else
    reportNext "Expected string literal after .encoding directive"
    return .directive ⟨t, none, [], .missing⟩

/-- The kinds of imported files. -/
def importKinds : List String :=
  ["source", "binary", "c64"]

/-- The kind of an imported file, if a name follows; an unknown kind is reported and kept. -/
def importKind : Parser (List Expr) := do
  if ← nextIs .identifier then
    let t ← advance
    let kind := Text.lower t.literal
    if importKinds.contains kind then
      return [.identifier t kind]
    else
      reportAt t ("Invalid import type '" ++ kind ++ "', expected 'source', 'binary', or 'c64'")
      return [.identifier t kind]
  else
    return []

/-- A file name, which may have a kind before it. -/
def importDirective (t : Token) : Parser Statement := do
  let kind ← importKind
  if ← nextIs .string then
    let s ← advance
    return .directive ⟨t, none, [], .array t (kind ++ [stringLiteral s])⟩
  else
    reportNext "Expected string literal (filename) in .import directive"
    return .directive ⟨t, none, [], .missing⟩

/-- The name in the header of a directive; its absence is reported. -/
def headerName (what : String) (t : Token) : Parser (Option Token) := do
  let next ← peek
  if next.kind.isName then
    let name ← advance
    return some name
  else
    reportAt next ("Expected " ++ what ++ " name after " ++ directiveWord t ++ " directive")
    return none

/-- The names behind a first one, each behind a separator. -/
def moreNames (separator : TokenKind) (mark : String) : Parser (List Token) := do
  let (names, _) ← whileNext separator do
    let next ← peek
    if next.kind.isName then
      let name ← advance
      return some [name]
    else
      reportAt next ("Expected parameter name after '" ++ mark ++ "'")
      return none
  return names

/-- Names separated by a mark, if the next token is a name. -/
def separatedNames (separator : TokenKind) (mark : String) : Parser (List Token) := do
  let next ← peek
  if next.kind.isName then
    let first ← advance
    let rest ← moreNames separator mark
    return first :: rest
  else
    return []

/-- Parameters in parentheses; starts at the opening one. -/
def parameterList : Parser (List Token) := do
  let names ← separatedNames .comma ","
  if ← nextIs .rightParen then
    let _ ← advance
    return names
  else
    reportNext "Expected ')' after parameter list"
    return names

/-- A function or macro with its parameters and its block. -/
def callableDirective (block : Token → Parser Braces) (what : String) (t : Token) :
    Parser Statement := do
  match ← headerName what t with
  | none => return .directive ⟨t, none, [], .missing⟩
  | some name =>
    let parameters ←
      if ← nextIs .leftParen then do
        let _ ← advance
        parameterList
      else
        pure []
    let body ← requiredBlock block t
    return .ofDirective ⟨t, some name, parameters, .missing⟩ body

/-- A pseudocommand with its parameters, separated by colons, and its block. -/
def pseudocommandDirective (block : Token → Parser Braces) (t : Token) : Parser Statement := do
  match ← headerName "pseudocommand" t with
  | none => return .directive ⟨t, none, [], .missing⟩
  | some name =>
    let parameters ← separatedNames .colon ":"
    if !parameters.isEmpty && !(← nextIs .leftBrace) then
      reportNext "Expected '\x7b' after parameter list"
      return .directive ⟨t, some name, parameters, .missing⟩
    else
      let body ← requiredBlock block t
      return .ofDirective ⟨t, some name, parameters, .missing⟩ body

/-- A namespace with its block. -/
def namespaceDirective (block : Token → Parser Braces) (t : Token) : Parser Statement := do
  match ← headerName "namespace" t with
  | none => return .directive ⟨t, none, [], .missing⟩
  | some name =>
    let body ← requiredBlock block t
    return .ofDirective ⟨t, some name, [], .missing⟩ body

/-- The end of a block. -/
def endsBlock (kind : TokenKind) : Bool :=
  kind == .rightBrace || kind == .endOfText

/-- A member of an enumeration with its value, or what stands between members. Gives members and
values; asks to end where a malformed value stopped on the end of the block. -/
def enumMember (expr : Parser Expr) : Parser (List (Token × Option Expr) × Bool) := do
  let t ← current
  if t.kind.isName then
    if ← nextIs .equal then
      let _ ← advance
      let _ ← advance
      let value ← expr
      let stop ← current
      return ([(t, some value)], endsBlock stop.kind)
    else
      return ([(t, none)], false)
  else if t.kind = .comma then
    return ([], false)
  else
    reportHere ("Unexpected token '" ++ t.literal ++ "' in expression")
    return ([], false)

/-- An enumeration: its members are parameters, and the values that are given stand in order. -/
def enumDirective (expr : Parser Expr) (t : Token) : Parser Statement := do
  match ← headerName "enum" t with
  | none => return .directive ⟨t, none, [], .missing⟩
  | some name =>
    if ← nextIs .leftBrace then
      let opening ← advance
      let _ ← advance
      let members ← untilKind endsBlock (enumMember expr)
      let closing ← current
      let values := members.flatMap fun m => (m.2.getD .missing).toList
      return .directiveBlock
        ⟨t, some name, members.map (·.1), if values.isEmpty then .missing else .array t values⟩
        opening [] closing
    else
      reportNext ("Expected '\x7b' after " ++ directiveWord t ++ " directive")
      return .directive ⟨t, some name, [], .missing⟩

/-- A loop; its header is skipped. -/
def forDirective (block : Token → Parser Braces) (t : Token) : Parser Statement := do
  if ← nextIs .leftParen then
    let _ ← advance
    let _ ← skipNested .leftParen .rightParen
    let body ← optionalBlock block
    return .ofDirective ⟨t, none, [], .missing⟩ body
  else
    let body ← optionalBlock block
    return .ofDirective ⟨t, none, [], .missing⟩ body

/-- A condition in parentheses and its block. -/
def ifDirective (expr : Parser Expr) (block : Token → Parser Braces) (t : Token) :
    Parser Statement := do
  let value ←
    if ← nextIs .leftParen then do
      let _ ← advance
      expr
    else
      pure .missing
  let body ← optionalBlock block
  return .ofDirective ⟨t, none, [], value⟩ body

/-- The forms of directives. -/
inductive DirectiveForm
  | encoding
  | define
  | importFile
  | callable (what : String)
  | pseudocommand
  | scope
  | enumeration
  | data
  | loop
  | condition
  | named
  | generic
deriving DecidableEq, Repr

/-- The form of a directive by its word. -/
def DirectiveForm.ofWord (word : String) : DirectiveForm :=
  if word = ".encoding" then encoding
  else if [".define", ".undef", "#define", "#undef"].contains word then define
  else if [".import", "#import"].contains word then importFile
  else if word = ".function" then callable "function"
  else if word = ".macro" then callable "macro"
  else if word = ".pseudocommand" then pseudocommand
  else if word = ".namespace" then scope
  else if word = ".enum" then enumeration
  else if Reference.dataDirectives.contains word then data
  else if word = ".for" then loop
  else if word = ".if" then condition
  else if [".const", ".var", ".label"].contains word then named
  else generic

/-- A directive. -/
def directive (expr : Parser Expr) (block : Token → Parser Braces) (t : Token) :
    Parser Statement :=
  match DirectiveForm.ofWord (directiveWord t) with
  | .encoding => encodingDirective t
  | .define => defineDirective t
  | .importFile => importDirective t
  | .callable what => callableDirective block what t
  | .pseudocommand => pseudocommandDirective block t
  | .scope => namespaceDirective block t
  | .enumeration => enumDirective expr t
  | .data => dataDirective expr t
  | .loop => forDirective block t
  | .condition => ifDirective expr block t
  | .named => namedDirective expr t
  | .generic => genericDirective expr block t

end Asm6510.Grammar
