/-!
# Places in YAML text

A place is what follows in a text together with its line and column, both counted from zero.
Line feeds, carriage returns and next-line characters end lines and words; the line and
paragraph separators end lines only.
-/
namespace ResourceVersions.Yaml

/-- A line feed, a carriage return or the next-line character. -/
def isLineEnd (c : Char) : Bool := c = '\n' || c = '\r' || c = '\u0085'

def isBreak (c : Char) : Bool := isLineEnd c || c = '\u2028' || c = '\u2029'

def isBlank (c : Char) : Bool := c = ' ' || c = '\t'

/-- Whether a word ends before this rest. -/
def atWordEnd : List Char → Bool
  | [] => true
  | c :: _ => isBlank c || isLineEnd c

/-- Whether a text may hold the character. -/
def isAllowed (c : Char) : Bool :=
  let n := c.toNat
  n = 0x09 || n = 0x0a || n = 0x0d || (0x20 ≤ n && n ≤ 0x7e) || n = 0x85 ||
    (0xa0 ≤ n && n ≤ 0xfffd) || 0x10000 ≤ n

def byteOrderMark : Char := '\ufeff'

structure Place where
  rest : List Char
  index : Nat
  line : Nat
  column : Nat

namespace Place

/-- The start of a text, behind a byte order mark. -/
def start : List Char → Place
  | c :: rest =>
    if c = byteOrderMark then ⟨rest, 1, 0, 0⟩ else ⟨c :: rest, 0, 0, 0⟩
  | [] => ⟨[], 0, 0, 0⟩

/-- The place behind the next character. A carriage return before a line feed breaks no line
of its own. -/
def next (p : Place) : Place :=
  match p.rest with
  | [] => p
  | c :: rest =>
    if isBreak c && !(c = '\r' && rest.head? = some '\n') then ⟨rest, p.index + 1, p.line + 1, 0⟩
    else if c = byteOrderMark then ⟨rest, p.index + 1, p.line, p.column⟩
    else ⟨rest, p.index + 1, p.line, p.column + 1⟩

def advance (p : Place) (count : Nat) : Place := count.repeat next p

/-- The place behind the characters that satisfy a test. -/
def skipWhile (p : Place) (test : Char → Bool) : Place :=
  p.advance (p.rest.takeWhile test).length

/-- The line break that comes next, every line end being a line feed, and the place behind. -/
def lineBreak? (p : Place) : Option (Char × Place) :=
  match p.rest with
  | '\r' :: '\n' :: _ => some ('\n', p.advance 2)
  | c :: _ => if isBreak c then some (if isLineEnd c then '\n' else c, p.next) else none
  | [] => none

/-- Whether three characters at the start of a line separate documents here. -/
def separatesDocuments (p : Place) : Bool :=
  (p.rest.take 3 = ['-', '-', '-'] || p.rest.take 3 = ['.', '.', '.']) && atWordEnd (p.rest.drop 3)

end Place

end ResourceVersions.Yaml
