import Parley.Text.Class

/-! # Tokens -/

namespace Parley

inductive TokenKind where
  | eof
  | colon | arrow | doubleColon | leftBracket | rightBracket | leftBrace | rightBrace
  | leftParen | rightParen | comma | hash
  | plus | minus | multiply | divide | modulo
  | equals | notEquals | greater | less | greaterEquals | lessEquals
  | and | or | not | assign
  | ifWord | elifWord | elseWord | endifWord | trueWord | falseWord
  | varWord | setWord | addWord | subWord | mulWord | divWord | modWord
  | jump | call | wait
  | identifier | reference | number | string | text
  | newline | indent | dedent
deriving DecidableEq, Repr, Inhabited

namespace TokenKind

/-- The name that messages use. -/
def label : TokenKind → String
  | eof => "EOF"
  | colon => "COLON"
  | arrow => "ARROW"
  | doubleColon => "DOUBLE_COLON"
  | leftBracket => "LEFT_BRACKET"
  | rightBracket => "RIGHT_BRACKET"
  | leftBrace => "LEFT_BRACE"
  | rightBrace => "RIGHT_BRACE"
  | leftParen => "LEFT_PAREN"
  | rightParen => "RIGHT_PAREN"
  | comma => "COMMA"
  | hash => "HASH"
  | plus => "PLUS"
  | minus => "MINUS"
  | multiply => "MULTIPLY"
  | divide => "DIVIDE"
  | modulo => "MODULO"
  | equals => "EQUALS"
  | notEquals => "NOT_EQUALS"
  | greater => "GREATER"
  | less => "LESS"
  | greaterEquals => "GREATER_EQUALS"
  | lessEquals => "LESS_EQUALS"
  | and => "AND"
  | or => "OR"
  | not => "NOT"
  | assign => "ASSIGN"
  | ifWord => "IF"
  | elifWord => "ELIF"
  | elseWord => "ELSE"
  | endifWord => "ENDIF"
  | trueWord => "TRUE"
  | falseWord => "FALSE"
  | varWord => "VAR"
  | setWord => "SET"
  | addWord => "ADD"
  | subWord => "SUB"
  | mulWord => "MUL"
  | divWord => "DIV"
  | modWord => "MOD"
  | jump => "JUMP"
  | call => "CALL"
  | wait => "WAIT"
  | identifier => "IDENTIFIER"
  | reference => "VARIABLE"
  | number => "NUMBER"
  | string => "STRING"
  | text => "TEXT"
  | newline => "NEWLINE"
  | indent => "INDENT"
  | dedent => "DEDENT"

def all : List TokenKind :=
  [eof, colon, arrow, doubleColon, leftBracket, rightBracket, leftBrace, rightBrace, leftParen,
    rightParen, comma, hash, plus, minus, multiply, divide, modulo, equals, notEquals, greater,
    less, greaterEquals, lessEquals, and, or, not, assign, ifWord, elifWord, elseWord, endifWord,
    trueWord, falseWord, varWord, setWord, addWord, subWord, mulWord, divWord, modWord, jump, call,
    wait, identifier, reference, number, string, text, newline, indent, dedent]

def ofLabel? (name : String) : Option TokenKind := all.find? fun kind => kind.label == name

/-- Kinds that only lay out a text; a message names them without their value. -/
def isLayout : TokenKind → Bool
  | newline | indent | dedent | eof => true
  | _ => false

/-- Kinds that start a command line. -/
def isCommand : TokenKind → Bool
  | varWord | setWord | addWord | subWord | mulWord | divWord | modWord | jump | call | wait => true
  | _ => false

end TokenKind

/-- The kind of a reserved word. -/
def keyword? : String → Option TokenKind
  | "if" => some .ifWord
  | "elif" => some .elifWord
  | "else" => some .elseWord
  | "endif" => some .endifWord
  | "true" => some .trueWord
  | "false" => some .falseWord
  | "var" => some .varWord
  | "set" => some .setWord
  | "add" => some .addWord
  | "sub" => some .subWord
  | "mul" => some .mulWord
  | "div" => some .divWord
  | "mod" => some .modWord
  | "jump" => some .jump
  | "call" => some .call
  | "wait" => some .wait
  | _ => none

/-- Words that make a whole line code when they open it. -/
def isStatementWord (word : String) : Bool :=
  match keyword? word with
  | none | some .trueWord | some .falseWord => false
  | some _ => true

/-- A token and the place of its first character, which the lexer counts from 1. -/
structure Token where
  kind : TokenKind
  value : String
  line : Int
  column : Int
deriving DecidableEq, Repr, Inhabited

namespace Token

def isEof (t : Token) : Bool := t.kind == .eof

/-- The short form that a message about the token uses. -/
def describe (t : Token) : String :=
  if t.kind.isLayout then t.kind.label else s!"{t.kind.label} '{t.value}'"

instance : ToString Token where
  toString t := s!"Token({t.kind.label}, '{t.value}', line={t.line}, col={t.column})"

end Token
end Parley
