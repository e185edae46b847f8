import Parley.Lexer.State

/-! # Scanners inside a line

Free text, tags and code each have a scanner. Text may yield no token: a run of white space before a
tag or the end of the line is dropped. -/

namespace Parley

/-- Free text up to a character that stops it: the text without its escapes, and what is left. -/
def textRun (stops : Char → Bool) : List Char → List Char × List Char
  | [] => ([], [])
  | [c] => if stops c then ([], [c]) else ([c], [])
  | c :: d :: tail =>
    if stops c then ([], c :: d :: tail)
    else if c = '\\' && isEscapable d then
      let (text, left) := textRun stops tail
      (d :: text, left)
    else
      let (text, left) := textRun stops (d :: tail)
      (c :: text, left)

/-- The body of a string after its opening quote, and what is left after the closing one; a string
that the line does not close has no body and leaves the end of the line. -/
def stringBody (quote : Char) : List Char → Option (List Char) × List Char
  | [] => (none, [])
  | [c] => if isLineEnd c then (none, [c]) else if c = quote then (some [], []) else (none, [])
  | c :: d :: tail =>
    if isLineEnd c then (none, c :: d :: tail)
    else if c = '\\' && d = quote then
      let (body, left) := stringBody quote tail
      (body.map (quote :: ·), left)
    else if c = quote then (some [], d :: tail)
    else
      let (body, left) := stringBody quote (d :: tail)
      (body.map (c :: ·), left)

/-- Digits, and a fraction if a digit follows the point. -/
def numeral (cs : List Char) : List Char :=
  let whole := cs.takeWhile Char.isDigit
  match cs.dropWhile Char.isDigit with
  | '.' :: tail =>
    let fraction := tail.takeWhile Char.isDigit
    if fraction.isEmpty then whole else whole ++ '.' :: fraction
  | _ => whole

/-- An operator or a punctuation mark of code. -/
inductive Punctuator where
  | token (kind : TokenKind) (value : String) (width : Nat)
  | broken

namespace Punctuator

/-- A mark of one character, which `second` after it makes one of two. -/
def oneOrTwo (double : Bool) (two : TokenKind × String) (one : TokenKind × String) : Punctuator :=
  if double then .token two.1 two.2 2 else .token one.1 one.2 1

/-- The mark that starts with `c`. A character that starts none stands for itself, as text. -/
def ofChars (c : Char) (second : Option Char) : Punctuator :=
  let equals := second == some '='
  if isColon c then oneOrTwo (second.any isColon) (.doubleColon, "::") (.colon, ":")
  else
    match c with
    | '-' => oneOrTwo (second.any isArrowHead) (.arrow, "->") (.minus, "-")
    | '=' =>
      if second.any isArrowHead then .token .jump "=>" 2
      else oneOrTwo equals (.equals, "==") (.assign, "=")
    | '!' => oneOrTwo equals (.notEquals, "!=") (.not, "!")
    | '>' => oneOrTwo equals (.greaterEquals, ">=") (.greater, ">")
    | '<' => oneOrTwo equals (.lessEquals, "<=") (.less, "<")
    | '&' => if second == some '&' then .token .and "&&" 2 else .broken
    | '|' => if second == some '|' then .token .or "||" 2 else .broken
    | '+' => .token .plus "+" 1
    | '*' => .token .multiply "*" 1
    | '/' => .token .divide "/" 1
    | '%' => .token .modulo "%" 1
    | '(' => .token .leftParen "(" 1
    | ')' => .token .rightParen ")" 1
    | '[' => .token .leftBracket "[" 1
    | ']' => .token .rightBracket "]" 1
    | '{' => .token .leftBrace "\x7b" 1
    | '}' => .token .rightBrace "\x7d" 1
    | ',' => .token .comma "," 1
    | '#' => .token .hash "#" 1
    | c => .token .text c.toString 1

end Punctuator

namespace Lexer

/-- A token of the given text, which comes next. -/
def take (s : Lexer) (kind : TokenKind) (text : List Char) : Token × Lexer :=
  (s.tokenHere kind (String.ofList text), s.advance text.length)

def scanText (s : Lexer) : Option Token × Lexer :=
  let s := if s.textStart then { s.skipBlanks with textStart := false } else s
  match s.rest with
  | [] => (some s.newline.1, s.newline.2)
  | c :: _ =>
    if isLineEnd c then (some s.newline.1, s.newline.2)
    else if c = '#' then (some (s.tokenHere .hash "#"), { s.advance 1 with mode := .tags })
    else if c = '{' then
      (some (s.tokenHere .leftBrace "\x7b"), { s.advance 1 with mode := .interpolation })
    else if c = '[' && s.inChoice then
      (some (s.tokenHere .leftBracket "["), { s.advance 1 with mode := .code })
    else
      let stops := fun c => isLineEnd c || c == '#' || c == '{' || (s.inChoice && c == '[')
      let (text, left) := textRun stops s.rest
      let value := if left.head? = some '{' then text else trimEnd text
      let token := s.tokenHere .text (String.ofList value)
      (if value.isEmpty then none else some token, s.moveTo left)

def scanTag (s : Lexer) : Token × Lexer :=
  let s := s.skipBlanks
  match s.rest with
  | [] => s.newline
  | c :: _ =>
    if isLineEnd c then s.newline
    else if c = ',' then s.take .comma [c]
    else if c = '#' then s.take .hash [c]
    else
      let value := s.rest.takeWhile fun c => !(isLineEnd c || isBlank c || c == ',' || c == '#')
      s.take (wordKind value) value

def scanWord (s : Lexer) : Token × Lexer :=
  let word := s.word
  s.take ((keyword? (String.ofList word)).getD .identifier) word

def scanString (s : Lexer) (quote : Char) : Except LexError Token × Lexer :=
  match stringBody quote s.rest.tail with
  | (some body, left) => (.ok (s.tokenHere .string (String.ofList body)), s.moveTo left)
  | (none, left) => (.error (s.errorHere .unclosedString), s.moveTo left)

def scanVariable (s : Lexer) : Except LexError Token × Lexer :=
  let named := s.advance 1
  match named.word with
  | [] => (.error (s.errorHere .missingName), named)
  | name => (.ok (s.tokenHere .reference (String.ofList name)), named.advance name.length)

/-- A closing brace ends the code of an interpolation and goes back to the text around it. -/
def scanMark (s : Lexer) (c : Char) (second : Option Char) : Except LexError Token × Lexer :=
  match Punctuator.ofChars c second with
  | .broken => (.error (s.errorHere (.loneOperator c)), s)
  | .token kind value width =>
    let next := s.advance width
    (.ok (s.tokenHere kind value),
      if c = '}' && s.mode = .interpolation then { next with mode := .text } else next)

def scanCode (s : Lexer) : Except LexError Token × Lexer :=
  let s := s.skipBlanks
  let ok := fun (r : Token × Lexer) => (Except.ok r.1, r.2)
  match s.rest with
  | [] => ok s.newline
  | c :: tail =>
    if isLineEnd c then ok s.newline
    else if c = '/' && tail.head? = some '/' then ok (s.advance (lineLength s.rest)).newline
    else if isWordStart c then ok s.scanWord
    else if c.isDigit then ok (s.take .number (numeral s.rest))
    else if c = '"' || c = '\'' then s.scanString c
    else if c = '$' then s.scanVariable
    else s.scanMark c tail.head?

end Lexer
end Parley
