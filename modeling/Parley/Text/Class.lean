/-! # Character classes

The classes that scripts are read by: word characters, blanks, line ends, and the white space that
is trimmed from names and texts. Only word characters and white space reach beyond ASCII. -/

namespace Parley

/-- Unified ideographs, with the extensions `A` and `B` and the compatibility block. -/
def isIdeograph (c : Char) : Bool :=
  let n := c.toNat
  (0x3400 ≤ n && n ≤ 0x4DBF) || (0x4E00 ≤ n && n ≤ 0x9FFF) || (0xF900 ≤ n && n ≤ 0xFAFF) ||
    (0x20000 ≤ n && n ≤ 0x2A6DF)

def isWordStart (c : Char) : Bool :=
  c == '_' || c.isAlpha || isIdeograph c

def isWordPart (c : Char) : Bool :=
  isWordStart c || c.isDigit

def isIdentifier : List Char → Bool
  | [] => false
  | c :: rest => isWordStart c && rest.all isWordPart

/-- What indents a line and separates words. -/
def isBlank (c : Char) : Bool := c == ' ' || c == '\t'

def isLineEnd (c : Char) : Bool := c == '\n' || c == '\r'

/-- White space in the wide sense: blanks, line and paragraph ends, control separators, and the
spaces of every width. -/
def isSpace (c : Char) : Bool :=
  let n := c.toNat
  (0x09 ≤ n && n ≤ 0x0D) || (0x1C ≤ n && n ≤ 0x20) || n == 0x85 || n == 0xA0 || n == 0x1680 ||
    (0x2000 ≤ n && n ≤ 0x200A) || n == 0x2028 || n == 0x2029 || n == 0x202F || n == 0x205F ||
    n == 0x3000

/-- Drops the characters of a class from both ends. -/
def strip (p : Char → Bool) (cs : List Char) : List Char :=
  ((cs.dropWhile p).reverse.dropWhile p).reverse

def trimStart (cs : List Char) : List Char := cs.dropWhile isSpace

def trimEnd (cs : List Char) : List Char := (cs.reverse.dropWhile isSpace).reverse

def trim (cs : List Char) : List Char := strip isSpace cs

end Parley
