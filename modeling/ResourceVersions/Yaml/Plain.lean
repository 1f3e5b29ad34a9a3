import ResourceVersions.Yaml.Quoted

/-!
# YAML texts without quotes

A text without quotes ends before a colon at the end of a word, before a comment and, inside
brackets or braces, before a bracket, a brace or a comma. It may go on in lines that are
indented further than the collection it stands in.
-/
namespace ResourceVersions.Yaml

def isFlowMark (c : Char) : Bool :=
  c = ',' || c = '[' || c = ']' || c = '\x7b' || c = '\x7d'

/-- The characters that no text without quotes starts with. -/
def indicators : List Char :=
  ['-', '?', ':', ',', '[', ']', '\x7b', '\x7d', '#', '&', '*', '!', '|', '>', '\'', '"', '%',
   '@', Char.ofNat 0x60]

/-- Whether a text without quotes starts here. Some of the marks start one if a word goes on
behind them. -/
def startsPlain (inFlow : Bool) : List Char → Bool
  | [] => false
  | c :: rest =>
    if !indicators.contains c then !atWordEnd [c] && !isBreak c
    else if c = ':' && inFlow then !(rest.head?.map isBlank).getD false
    else (c = '-' || (!inFlow && (c = ':' || c = '?'))) && !atWordEnd rest

/-- A word at the start of a text. -/
def plainWord (inFlow : Bool) : List Char → List Char
  | [] => []
  | c :: rest =>
    if atWordEnd (c :: rest) || (c = ':' && atWordEnd rest) || (inFlow && isFlowMark c) then []
    else c :: plainWord inFlow rest

/-- What stands between two words: the text it is read as, the place behind it, and whether it
ended a line. Blanks at the end of a text and before a document separator are not read. -/
def plainGap (fuel : Nat) (p : Place) : List Char × Place × Bool :=
  let blanks := p.rest.takeWhile (· == ' ')
  let p := p.advance blanks.length
  match p.lineBreak? with
  | none => (blanks, p, false)
  | some (first, p) => go fuel first [] p
where
  go : (fuel : Nat) → (first : Char) → (others : List Char) → Place →
      List Char × Place × Bool
    | 0, _, _, p => ([], p, true)
    | fuel + 1, first, others, p =>
      if p.column = 0 && p.separatesDocuments then ([], p, true)
      else
        let p := p.skipWhile (· == ' ')
        match p.lineBreak? with
        | some (c, p) => go fuel first (others ++ [c]) p
        | none => (folded first others, p, true)

/-- A text without quotes, the place behind it, and whether a line ended there. Its further
lines start at the given column or behind it. -/
def plainText (inFlow : Bool) (column : Nat) : (fuel : Nat) → (read : List Char) →
    (gap : List Char) → (ended : Bool) → Place → List Char × Place × Bool
  | 0, read, _, ended, p => (read, p, ended)
  | fuel + 1, read, gap, ended, p =>
    match plainWord inFlow p.rest with
    | [] => (read, p, ended)
    | word =>
      let read := read ++ gap ++ word
      let (gap, p, ended) := plainGap fuel (p.advance word.length)
      if gap.isEmpty || p.rest.head? = some '#' || (!inFlow && p.column < column) then
        (read, p, ended)
      else plainText inFlow column fuel read gap ended p

end ResourceVersions.Yaml
