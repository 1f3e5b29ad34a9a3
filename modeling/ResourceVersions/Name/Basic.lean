import ResourceVersions.Error
import ResourceVersions.Name.Words

/-!
# Names

Generated code needs a name in several spellings: with capitals for classes and field keys,
with a small first word for attributes, and with underscores for variables and functions. The
last two step aside with a trailing underscore where they meet a keyword.
-/
namespace ResourceVersions

open Text

namespace Name

/-- The keywords of the generated language. -/
def keywords : List String :=
  ["False", "None", "True", "and", "as", "assert", "async", "await", "break", "class",
   "continue", "def", "del", "elif", "else", "except", "finally", "for", "from", "global",
   "if", "import", "in", "is", "lambda", "nonlocal", "not", "or", "pass", "raise", "return",
   "try", "while", "with", "yield"]

/-- The name itself, or with a trailing underscore if it is a keyword. -/
def safe (name : String) : String := if keywords.contains name then name ++ "_" else name

def upperChar (c : Char) : Char := if isAsciiLower c then Char.ofNat (c.toNat - 32) else c
def lowerChar (c : Char) : Char := if isAsciiUpper c then Char.ofNat (c.toNat + 32) else c

def capitalize : List Char → List Char
  | [] => []
  | c :: rest => upperChar c :: rest

def lower (word : List Char) : List Char := word.map lowerChar

def camel (words : List (List Char)) : List Char := words.flatMap capitalize

def camelLower : List (List Char) → List Char
  | [] => []
  | w :: rest => lower w ++ camel rest

def snake (words : List (List Char)) : List Char := ['_'].intercalate (words.map lower)

/-- A value as an identifier: what is no ASCII letter or digit becomes an underscore, and an
underscore goes in front of a leading digit or of nothing. -/
def sanitize (value : String) : String :=
  let clean := value.toList.map fun c => if isAsciiAlnum c then c else '_'
  let clean := if clean.head?.all isAsciiDigit then '_' :: clean else clean
  safe (String.ofList clean)

end Name

/-- The spellings of one name. -/
structure Names where
  given : String
  camel : String
  camelLower : String
  snake : String
deriving DecidableEq, Repr, Inhabited

namespace Names

/-- The spellings made of given words. -/
def ofWords (given : String) (words : List (List Char)) : Names where
  given
  camel := String.ofList (Name.camel words)
  camelLower := Name.safe (String.ofList (Name.camelLower words))
  snake := Name.safe (String.ofList (Name.snake words))

/-- The spellings of a text that holds at least one word. -/
def of? (given : String) : Option Names :=
  match Name.wordsOf given.toList with
  | [] => none
  | w :: rest => some (ofWords given (w :: rest))

def of (given : String) : Except Error Names :=
  match of? given with
  | some names => .ok names
  | none => .error (.config (.noWords given))

end Names

end ResourceVersions
