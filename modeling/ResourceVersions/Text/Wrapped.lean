import ResourceVersions.Text.Blank

/-!
# Wrapped lines

Words are packed greedily: a line takes the next word as long as the margin, the words of the
line and the spaces between them fit. A word that is longer than a line stands alone.
-/
namespace ResourceVersions.Text

/-- Whether a word still fits behind the words of a line. -/
def fits (margin : Nat) (width : Int) (line : List String) (word : String) : Bool :=
  decide (((margin + (" ".intercalate line).length + word.length + 1 : Nat) : Int) ≤ width)

/-- Distributes words over lines; `line` holds the words of the line begun before. -/
def packFrom (margin : Nat) (width : Int) (line : List String) :
    List String → List (List String)
  | [] => if line.isEmpty then [] else [line]
  | w :: rest =>
    if line.isEmpty || fits margin width line w then packFrom margin width (line ++ [w]) rest
    else line :: packFrom margin width [w] rest

/-- The words of a text on lines of at most `width` characters, each behind the margin. -/
def wrap (margin : String) (width : Int) (text : String) : List String :=
  (packFrom margin.length width [] (words text)).map fun line => margin ++ " ".intercalate line

end ResourceVersions.Text
