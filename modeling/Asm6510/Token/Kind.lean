/-!
# Kinds of tokens

A `TokenKind` is closed: numbers, mnemonics, directives and built-ins carry their class. The names
of `TokenKind.name` are those of token listings.
-/

namespace Asm6510

/-- How a number is written. -/
inductive Radix
  | hex
  | binary
  | octal
  | decimal
deriving DecidableEq, Repr

/-- Classes of mnemonics. -/
inductive MnemonicClass
  | standard
  | control
  | undocumented
deriving DecidableEq, Repr

/-- Classes of directives. -/
inductive DirectiveClass
  | preprocessor
  | flow
  | assembly
  | data
  | text
deriving DecidableEq, Repr

/-- The class of a directive by its category. -/
def DirectiveClass.ofCategory (category : String) : DirectiveClass :=
  if category = "flow" then .flow
  else if category = "data" then .data
  else if category = "asm" then .assembly
  else if category = "text" then .text
  else .preprocessor

/-- Classes of built-in functions. -/
inductive FunctionClass
  | math
  | string
  | file
  | spatial
deriving DecidableEq, Repr

/-- The class of a function by its category. -/
def FunctionClass.ofCategory (category : String) : FunctionClass :=
  if category = "string" then .string
  else if category = "file" then .file
  else if category = "3d" then .spatial
  else .math

/-- Classes of built-in constants. -/
inductive ConstantClass
  | math
  | color
deriving DecidableEq, Repr

/-- The class of a constant by its category. -/
def ConstantClass.ofCategory (category : String) : ConstantClass :=
  if category = "color" then .color else .math

/-- Kinds of tokens. -/
inductive TokenKind
  | illegal
  | endOfText
  | lineComment
  | blockComment
  | identifier
  | label
  | otherwise
  | number (radix : Radix)
  | string
  | mnemonic (cls : MnemonicClass)
  | programCounter
  | directive (cls : DirectiveClass)
  | function (cls : FunctionClass)
  | constant (cls : ConstantClass)
  | plus
  | minus
  | asterisk
  | slash
  | modulo
  | equal
  | less
  | greater
  | ampersand
  | pipe
  | caret
  | leftShift
  | rightShift
  | equalEqual
  | notEqual
  | lessEqual
  | greaterEqual
  | hash
  | atSign
  | comma
  | colon
  | semicolon
  | dot
  | leftParen
  | rightParen
  | leftBrace
  | rightBrace
  | leftBracket
  | rightBracket
deriving DecidableEq, Repr

namespace TokenKind

/-- The name in token listings. -/
def name : TokenKind → String
  | illegal => "ILLEGAL"
  | endOfText => "EOF"
  | lineComment => "COMMENT"
  | blockComment => "COMMENT_BLOCK"
  | identifier => "IDENTIFIER"
  | label => "LABEL"
  | otherwise => "ELSE"
  | number .hex => "NUMBER_HEX"
  | number .binary => "NUMBER_BIN"
  | number .octal => "NUMBER_OCT"
  | number .decimal => "NUMBER_DEC"
  | string => "STRING"
  | mnemonic .standard => "MNEMONIC_STD"
  | mnemonic .control => "MNEMONIC_CTRL"
  | mnemonic .undocumented => "MNEMONIC_ILL"
  | programCounter => "DIRECTIVE_PC"
  | directive .preprocessor => "DIRECTIVE_PRE"
  | directive .flow => "DIRECTIVE_FLOW"
  | directive .assembly => "DIRECTIVE_ASM"
  | directive .data => "DIRECTIVE_DATA"
  | directive .text => "DIRECTIVE_TEXT"
  | function .math => "BUILTIN_MATH_FUNC"
  | function .string => "BUILTIN_STRING_FUNC"
  | function .file => "BUILTIN_FILE_FUNC"
  | function .spatial => "BUILTIN_3D_FUNC"
  | constant .math => "BUILTIN_MATH_CONST"
  | constant .color => "BUILTIN_COLOR_CONST"
  | plus => "PLUS"
  | minus => "MINUS"
  | asterisk => "ASTERISK"
  | slash => "SLASH"
  | modulo => "MODULO"
  | equal => "EQUAL"
  | less => "LESS"
  | greater => "GREATER"
  | ampersand => "AMPERSAND"
  | pipe => "PIPE"
  | caret => "CARET"
  | leftShift => "LEFT_SHIFT"
  | rightShift => "RIGHT_SHIFT"
  | equalEqual => "EQUAL_EQUAL"
  | notEqual => "NOT_EQUAL"
  | lessEqual => "LESS_EQUAL"
  | greaterEqual => "GREATER_EQUAL"
  | hash => "HASH"
  | atSign => "AT"
  | comma => "COMMA"
  | colon => "COLON"
  | semicolon => "SEMICOLON"
  | dot => "DOT"
  | leftParen => "LPAREN"
  | rightParen => "RPAREN"
  | leftBrace => "LBRACE"
  | rightBrace => "RBRACE"
  | leftBracket => "LBRACKET"
  | rightBracket => "RBRACKET"

/-- Any mnemonic. -/
def isMnemonic : TokenKind → Bool
  | mnemonic _ => true
  | _ => false

/-- Any directive but the program counter. -/
def isDirective : TokenKind → Bool
  | directive _ => true
  | _ => false

/-- Any number. -/
def isNumber : TokenKind → Bool
  | number _ => true
  | _ => false

/-- Any built-in function. -/
def isFunction : TokenKind → Bool
  | function _ => true
  | _ => false

/-- Any built-in constant. -/
def isConstant : TokenKind → Bool
  | constant _ => true
  | _ => false

/-- Any comment. -/
def isComment : TokenKind → Bool
  | lineComment => true
  | blockComment => true
  | _ => false

/-- Kinds that can name a definition or a parameter: identifiers and built-in words. -/
def isName : TokenKind → Bool
  | identifier => true
  | function _ => true
  | constant _ => true
  | _ => false

/-- The kind of an operator or punctuation mark of two characters. -/
def ofPair? : Char → Char → Option TokenKind
  | '<', '<' => some leftShift
  | '>', '>' => some rightShift
  | '=', '=' => some equalEqual
  | '!', '=' => some notEqual
  | '<', '=' => some lessEqual
  | '>', '=' => some greaterEqual
  | _, _ => none

/-- The kind of an operator or punctuation mark of one character; anything else is illegal. -/
def ofChar : Char → TokenKind
  | ':' => colon
  | '#' => hash
  | '.' => dot
  | ',' => comma
  | '+' => plus
  | '-' => minus
  | '*' => asterisk
  | '/' => slash
  | '(' => leftParen
  | ')' => rightParen
  | '[' => leftBracket
  | ']' => rightBracket
  | '{' => leftBrace
  | '}' => rightBrace
  | '=' => equal
  | '<' => less
  | '>' => greater
  | '@' => atSign
  | ';' => semicolon
  | '&' => ampersand
  | '|' => pipe
  | '^' => caret
  | '%' => modulo
  | _ => illegal

end TokenKind

end Asm6510
