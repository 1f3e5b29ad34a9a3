import ResourceVersions.Text.Ranges

/-!
# Blanks

Words are separated by the white space of Unicode and the four information separators.
Around numbers only the white space itself is skipped.
-/
namespace ResourceVersions.Text

/-- The Unicode property White_Space. -/
def whiteSpaceRanges : List (Nat × Nat) :=
  [(0x9, 0xd), (0x20, 0x20), (0x85, 0x85), (0xa0, 0xa0), (0x1680, 0x1680), (0x2000, 0x200a),
   (0x2028, 0x2029), (0x202f, 0x202f), (0x205f, 0x205f), (0x3000, 0x3000)]

def isWhiteSpace (c : Char) : Bool := inRanges whiteSpaceRanges c.toNat

/-- White space, or one of the information separators U+001C to U+001F. -/
def isBlank (c : Char) : Bool :=
  isWhiteSpace c || (decide (0x1c ≤ c.toNat) && decide (c.toNat ≤ 0x1f))

/-- The maximal runs of characters that are not blank; `word` holds a run begun before. -/
def wordsFrom (word : List Char) : List Char → List (List Char)
  | [] => if word.isEmpty then [] else [word.reverse]
  | c :: rest =>
    if isBlank c then
      if word.isEmpty then wordsFrom [] rest else word.reverse :: wordsFrom [] rest
    else wordsFrom (c :: word) rest

/-- The words of a text, in order. -/
def words (s : String) : List String := (wordsFrom [] s.toList).map String.ofList

/-- Drops the characters at both ends that satisfy a test. -/
def trimBy (drop : Char → Bool) (s : List Char) : List Char :=
  ((s.dropWhile drop).reverse.dropWhile drop).reverse

theorem isBlank_of_isWhitespace {c : Char} (h : c.isWhitespace = true) : isBlank c = true := by
  simp only [Char.isWhitespace, Bool.or_eq_true, decide_eq_true_eq] at h
  rcases h with ((h | h) | h) | h <;> subst h <;> decide

end ResourceVersions.Text
