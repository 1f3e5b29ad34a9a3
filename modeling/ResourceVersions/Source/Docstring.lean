import ResourceVersions.Text.Split
import ResourceVersions.Text.Wrapped

/-!
# Docstrings

Documentation of an API becomes the text of a docstring: markup goes, backslashes are doubled
and the quotes that would end the docstring are replaced.
-/
namespace ResourceVersions.Source

open Text

/-- One step of indentation. -/
def indent : String := "    "

/-- The most characters of a line of documentation. -/
def docWidth : Int := 84

/-- What follows a tag at the start of a text: `<`, something, and the next `>`. -/
def afterTag? : List Char → Option (List Char)
  | '<' :: c :: rest => if c = '>' then none else (cut? '>' rest).map Prod.snd
  | _ => none

theorem length_cut?_snd {sep : Char} {s : List Char} {p : List Char × List Char}
    (h : cut? sep s = some p) : p.2.length < s.length := by
  obtain ⟨before, behind⟩ := p
  rw [(cut?_eq_some_iff.mp h).1]
  simp
  omega

theorem length_afterTag? {s rest : List Char} (h : afterTag? s = some rest) :
    rest.length < s.length := by
  unfold afterTag? at h
  split at h
  · split at h
    · simp at h
    · obtain ⟨p, hp, rfl⟩ := Option.map_eq_some_iff.mp h
      have := length_cut?_snd hp
      simp
      omega
  · simp at h

/-- The text with a space in place of every tag. -/
def dropTags : List Char → List Char
  | [] => []
  | c :: rest =>
    match _h : afterTag? (c :: rest) with
    | some rest' => ' ' :: dropTags rest'
    | none => c :: dropTags rest
termination_by s => s.length
decreasing_by
  · exact length_afterTag? _h
  · simp

def doubleBackslashes (s : List Char) : List Char :=
  s.flatMap fun c => if c = '\\' then ['\\', '\\'] else [c]

/-- The text with three single quotes in place of three double quotes. -/
def replaceQuotes : List Char → List Char
  | '"' :: '"' :: '"' :: rest => '\'' :: '\'' :: '\'' :: replaceQuotes rest
  | c :: rest => c :: replaceQuotes rest
  | [] => []

/-- Documentation as it may stand between the quotes of a docstring. -/
def cleanDoc (doc : String) : String :=
  String.ofList (replaceQuotes (doubleBackslashes (dropTags doc.toList)))

def docLines (doc : String) : List String := wrap indent docWidth (cleanDoc doc)

/-- The lines of a docstring: a summary and, behind an empty line, the documentation. -/
def docstring (summary doc : String) : List String :=
  let quotes := indent ++ "\"\"\""
  let lines := docLines doc
  let body := if lines.isEmpty then [] else "" :: lines
  quotes :: (indent ++ summary) :: body ++ [quotes]

end ResourceVersions.Source
