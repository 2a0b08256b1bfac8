import Asm6510.Grammar.Directive
import Asm6510.Token.Lexer

/-!
# The grammar of statements and programs

* `statement`: what starts at the current token; tokens that start nothing are passed over.
* `block`: statements between braces, by recursion on the room that the nesting bound leaves.
* `parseTokens`, `parse`: the program of a token list and of a text.
-/

namespace Asm6510.Grammar

/-- Reports an operand whose shape the mnemonic has no addressing mode for. Unknown mnemonics and
those without modes are not checked. -/
def checkMode (rules : Rules) (t : Token) (operand : Expr) : Parser Unit :=
  match rules.ref with
  | none => pure ()
  | some ref =>
    let mnemonic := Statement.mnemonicName t
    let shape := OperandShape.ofOperand operand
    if (ref.modesOf mnemonic).isEmpty || shape.acceptedModes.any (ref.supportsMode mnemonic) then
      pure ()
    else
      addDiagnostic (.atPlace .error
        ("Invalid addressing mode '" ++ shape.modeName ++ "' for instruction '" ++ mnemonic ++ "'")
        t.place .grammar t.literal.length)

/-- The index register behind an operand and a comma, if there is one. -/
def indexedOperand (operand : Expr) : Parser Expr := do
  let s ← state
  if s.peek.kind = .comma && isIndexRegister s.peekSecond then
    let comma ← advance
    let register ← advance
    return .indexed comma operand register
  else
    return operand

/-- An instruction with its operand, if there is one on its line. An operand that was read without
an error is checked against the modes of the mnemonic. -/
def instruction (rules : Rules) (expr : Parser Expr) (t : Token) : Parser Statement := do
  if ← hasValueOnLine then
    let before ← state
    let _ ← advance
    let operand ← expr
    let operand ← indexedOperand operand
    let after ← state
    if !operand.isMissing && after.diagnostics.length == before.diagnostics.length &&
        !after.unwinding then
      checkMode rules t operand
      return .instruction t operand
    else
      return .instruction t operand
  else
    checkMode rules t .missing
    return .instruction t .missing

/-- The setting of the program counter by `t`; the current token is its equals sign. -/
def programCounter (expr : Parser Expr) (t : Token) : Parser Statement := do
  if ← hasValueOnLine then
    let _ ← advance
    let value ← expr
    return .directive ⟨t, none, [], value⟩
  else
    return .directive ⟨t, none, [], .missing⟩

/-- The call of a macro with arguments in parentheses. -/
def macroCall (expr : Parser Expr) (name : Token) : Parser Statement := do
  let _ ← advance
  let args ← arguments expr
  return .expression name (.call name (.ofName name) args)

/-- The call of a pseudocommand with arguments separated by colons. -/
def pseudocommandCall (expr : Parser Expr) (name : Token) : Parser Statement := do
  let _ ← advance
  let first ← expr
  let (rest, _) ← whileNext .colon do
    let next ← peek
    if endsStatement next then return none
    else
      let _ ← advance
      let e ← expr
      return some e.toList
  return .expression name (.call name (.ofName name) (first.toList ++ rest))

/-- The statement that starts at the current token. -/
def statement (rules : Rules) (expr : Parser Expr) (block : Token → Parser Braces) :
    Parser (Option Statement) := do
  let t ← current
  match t.kind with
  | .label => return some (.label t)
  | .mnemonic _ => return some (← instruction rules expr t)
  | .programCounter => return some (← programCounter expr t)
  | .asterisk =>
    if ← nextIs .equal then
      let _ ← advance
      return some (← programCounter expr t)
    else
      return none
  | .directive _ => return some (← directive expr block t)
  | .identifier =>
    if ← nextIs .leftParen then
      return some (← macroCall expr t)
    else if ← hasValueOnLine then
      return some (← pseudocommandCall expr t)
    else
      return none
  | .function _ =>
    let call ← builtinCall expr t
    return if call.isMissing then none else some (.expression t call)
  | .leftBrace =>
    let b ← block t
    return some (.block b.opening b.body b.closing)
  | .illegal =>
    let _ ← expr
    return none
  | _ => return none

/-- Statements up to a token of a kind that `stop` tells. Every statement is read with messages. -/
def statements (stop : TokenKind → Bool) (item : Parser (Option Statement)) :
    Parser (List Statement) :=
  untilKind stop do
    setUnwinding false
    let s ← item
    return (s.toList, false)

/-- A block that the nesting bound refuses: it is reported and skipped. -/
def refusedBlock (rules : Rules) (opening : Token) : Parser Braces := do
  reportDepth rules opening.place
  let depth ← skipNested .leftBrace .rightBrace
  if depth = 0 then
    let closing ← current
    return ⟨opening, [], closing⟩
  else
    let closing ← advance
    return ⟨opening, [], closing⟩

/-- A block, nested at most `room` deep. Starts at its opening brace and ends at its closing one, or
at the end of the text. -/
def block (rules : Rules) : (room : Nat) → (opening : Token) → Parser Braces
  | 0, opening => refusedBlock rules opening
  | room + 1, opening => do
    let _ ← advance
    let body ← statements endsBlock
      (statement rules (expression rules room lowest) (block rules room))
    let closing ← current
    return ⟨opening, body, closing⟩

/-- The statements of a whole text. The place is that of a nesting bound that the lexer met. -/
def program (rules : Rules) (overflow : Option Place) : Parser (List Statement) := do
  match overflow with
  | some place => reportDepth rules place
  | none => pure ()
  statements (· == .endOfText)
    (statement rules (expression rules rules.limit lowest) (block rules rules.limit))

end Grammar

open Grammar

/-- Why a text has no program. -/
inductive ParseFault
  /-- A number with a fraction is beyond the range of double precision. -/
  | infiniteNumber
deriving DecidableEq, Repr

/-- The words for a fault. -/
def ParseFault.message : ParseFault → String
  | .infiniteNumber => "cannot convert float infinity to integer"

/-- What a parse finds: all tokens, the program, and the errors of the grammar. -/
structure Parsed where
  tokens : List Token
  program : Program
  diagnostics : List Diagnostic

/-- The final state of parsing a token list, and its statements. -/
def parseRun (rules : Rules) (overflow : Option Place) (first : Token) (rest : List Token) :
    List Statement × State :=
  (program rules overflow).run
    { current := first, ahead := rest, diagnostics := [], depthReported := false
      unwinding := false, unbounded := false }

/-- The program of the tokens of a text; comments are no part of it. -/
def parseTokens (ref : Option Reference) (limit : Int) (overflow : Option Place)
    (tokens : List Token) : Except ParseFault Parsed :=
  match tokens.filter fun t => !t.kind.isComment with
  | [] => .ok ⟨tokens, ⟨⟨.endOfText, "", Place.start, Context.normal, Note.none⟩, []⟩, []⟩
  | first :: rest =>
    let (statements, final) := parseRun ⟨depthBound limit, ref⟩ overflow first rest
    if final.unbounded then .error .infiniteNumber
    else .ok ⟨tokens, ⟨first, statements⟩, final.diagnostics⟩

/-- The program of a text with bounds for the nesting of the lexer and of the grammar. -/
def parse (ref : Option Reference) (lexLimit limit : Int) (text : String) :
    Except ParseFault Parsed :=
  let (tokens, last) := tokenize ref lexLimit text
  parseTokens ref limit last.nesting.overflow tokens

end Asm6510
