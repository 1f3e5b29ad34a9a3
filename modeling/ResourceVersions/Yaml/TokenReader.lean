import ResourceVersions.Yaml.Plain
import ResourceVersions.Yaml.Token

/-!
# Reading YAML tokens

The tokens of a text, or nothing where the text breaks a rule of the layout: a tab as
indentation, a second key in one line, a line that should have been a key.
-/
namespace ResourceVersions.Yaml.Layout

/-- Passes over blanks, comments and line breaks. A tab is a blank inside brackets and braces
only, and outside of them a new line may start with a key. -/
def skipGap : (fuel : Nat) → Layout → Layout
  | 0, s => s
  | fuel + 1, s =>
    let p := s.place.skipWhile fun c => c = ' ' || (s.inFlow && c = '\t')
    let p := if p.rest.head? = some '#' then p.skipWhile (!isLineEnd ·) else p
    match p.lineBreak? with
    | some (_, p) => skipGap fuel { s with place := p, allowsKey := s.allowsKey || !s.inFlow }
    | none => { s with place := p }

/-- A mark that separates documents closes all blocks. -/
def separator (s : Layout) (t : Token) : Option Layout := do
  let s ← (s.closeBlocks fun _ => true).dropKey
  return { s.pushNext t 3 with allowsKey := false }

def openFlow (s : Layout) (context : Context) (t : Token) : Option Layout := do
  let s ← s.saveKey
  return { s.pushNext t 1 with
    allowsKey := true, level := ⟨context, none⟩, outer := s.level :: s.outer }

def closeFlow (s : Layout) (t : Token) : Option Layout :=
  match s.outer with
  | level :: outer => do
    discard s.dropKey
    return { s.pushNext t 1 with allowsKey := false, level, outer }
  | [] => none

def comma (s : Layout) : Option Layout := do
  let s ← s.dropKey
  return { s.pushNext .comma 1 with allowsKey := true }

/-- A hyphen before an item, or a question mark before a key, in a block. -/
def blockMark (s : Layout) (block t : Token) : Option Layout := do
  if !s.inFlow && !s.allowsKey then none
  else
    let s := if s.inFlow then s else s.openBlock s.place.column s.count block
    let s ← s.dropKey
    return s.pushNext t 1

def item (s : Layout) : Option Layout := do
  return { ← s.blockMark .blockList .item with allowsKey := true }

def explicitKey (s : Layout) : Option Layout := do
  return { ← s.blockMark .blockMapping .key with allowsKey := !s.inFlow }

/-- A colon. What may be a key before it is one, and opens a block if it is the first. -/
def colon (s : Layout) : Option Layout :=
  match s.level.key? with
  | some k =>
    let s := { s.insertAt k.number .key with level.key? := none }
    let s := if s.inFlow then s else s.openBlock k.column k.number .blockMapping
    some { s.pushNext .value 1 with allowsKey := false }
  | none => do
    return { ← s.blockMark .blockMapping .value with allowsKey := !s.inFlow }

def quoted (fuel : Nat) (quote : Char) (s : Layout) : Option Layout := do
  let s ← s.saveKey
  let (text, place) ← quotedText quote fuel [] s.place.next
  return { s.push (.quoted text) with place, allowsKey := false }

def plain (fuel : Nat) (s : Layout) : Option Layout := do
  let s ← s.saveKey
  let column := (s.columns.head?.map (· + 1)).getD 0
  let (text, place, ended) := plainText s.inFlow column fuel [] [] false s.place
  return { s.push (.plain text) with place, allowsKey := ended }

/-- Whether a colon separates a key from its value here. -/
def colonSeparates (s : Layout) : Bool :=
  atWordEnd (s.place.rest.drop 1) ||
    (s.level.context = .flowMapping &&
      !(s.awaitsColon && s.tokens.head? = some .value))

/-- Reads one token. -/
def token (fuel : Nat) (c : Char) (s : Layout) : Option Layout :=
  let behind := s.place.rest.drop 1
  if s.place.column = 0 && s.place.separatesDocuments then
    s.separator (if c = '-' then .documentStart else .documentEnd)
  else if c = '[' then s.openFlow .flowList .openList
  else if c = '\x7b' then s.openFlow .flowMapping .openMapping
  else if c = ']' then s.closeFlow .closeList
  else if c = '\x7d' then s.closeFlow .closeMapping
  else if c = ',' then s.comma
  else if c = '-' && atWordEnd behind then s.item
  else if c = '?' && (s.inFlow || atWordEnd behind) then s.explicitKey
  else if c = ':' && s.colonSeparates then s.colon
  else if c = '\'' || c = '"' then s.quoted fuel c
  else if startsPlain s.inFlow s.place.rest then s.plain fuel
  else none

/-- Reads up to the end of the text, where all blocks are closed. -/
def finish : (fuel : Nat) → Layout → Option Layout
  | 0, _ => none
  | fuel + 1, s => do
    let s ← (skipGap (fuel + 1) s).dropStale
    let s := if s.inFlow then s else s.closeBlocks (s.place.column < ·)
    match s.place.rest with
    | [] => (if s.inFlow then s else s.closeBlocks fun _ => true).dropKey
    | c :: _ => finish fuel (← token (fuel + 1) c s)

end Layout

/-- The tokens of a text. -/
def tokens? (text : List Char) : Option (List Token) :=
  if text.all isAllowed then
    ((Layout.start text).finish (text.length + 1)).map fun s => s.tokens.reverse
  else none

end ResourceVersions.Yaml
