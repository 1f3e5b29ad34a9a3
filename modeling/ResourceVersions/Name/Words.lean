import ResourceVersions.Text.Digit

/-!
# Words of a name

A name is a run of words in any of the usual spellings. ASCII letters and digits make words,
everything else separates them. Between two of them a word ends where letters meet digits,
where a small letter meets a capital, and before the last of several capitals if a small
letter follows it, so that an acronym is one word.
-/
namespace ResourceVersions.Name

open Text

/-- Whether a word ends between two neighbours, given the character behind them. -/
def endsBetween (a b : Char) (behind : Option Char) : Bool :=
  (isAsciiDigit a != isAsciiDigit b) ||
  (isAsciiLower a && isAsciiUpper b) ||
  (isAsciiUpper a && isAsciiUpper b && behind.any isAsciiLower)

/-- Whether a word ends behind a character that starts the given rest. -/
def endsBehind (c : Char) : List Char → Bool
  | [] => true
  | d :: rest => !isAsciiAlnum d || endsBetween c d rest.head?

/-- The words of a text; `word` holds the characters of a word begun before, last one first. -/
def wordsFrom (word : List Char) : List Char → List (List Char)
  | [] => []
  | c :: rest =>
    if !isAsciiAlnum c then wordsFrom [] rest
    else if endsBehind c rest then (c :: word).reverse :: wordsFrom [] rest
    else wordsFrom (c :: word) rest

def wordsOf (s : List Char) : List (List Char) := wordsFrom [] s

def splitWords (name : String) : List String := (wordsOf name.toList).map String.ofList

end ResourceVersions.Name
