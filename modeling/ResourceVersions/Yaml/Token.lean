import ResourceVersions.Yaml.Place

/-!
# YAML tokens

The indentation of a text and the places of its keys become tokens of their own: a block opens
and closes, and a key is announced before what it is written as. A key is recognised by the
colon behind it, so what may be one is remembered until its line ends.
-/
namespace ResourceVersions.Yaml

inductive Token where
  | documentStart
  | documentEnd
  | blockList
  | blockMapping
  | blockEnd
  | item
  | key
  | value
  | openList
  | closeList
  | openMapping
  | closeMapping
  | comma
  | plain (text : List Char)
  | quoted (text : String)
deriving DecidableEq

/-- What the innermost collection is: one by indentation or one in brackets or braces. -/
inductive Context where
  | block
  | flowList
  | flowMapping
deriving DecidableEq

/-- Something that is a key if a colon follows in its line. -/
structure KeyStart where
  /-- the number of tokens before it -/
  number : Nat
  /-- the indentation leaves no other reading -/
  isRequired : Bool
  index : Nat
  line : Nat
  column : Nat

/-- The most characters from the start of a key to its colon. -/
def maxKeyLength : Nat := 1024

/-- Whether a colon at a place can still make a key. -/
def KeyStart.reaches (k : KeyStart) (p : Place) : Bool :=
  k.line = p.line && p.index - k.index ≤ maxKeyLength

/-- A collection that is open, and what may be a key directly inside it. -/
structure Level where
  context : Context
  key? : Option KeyStart

/-- What has been read of a text. -/
structure Layout where
  place : Place
  /-- the tokens, the latest first -/
  tokens : List Token
  count : Nat
  /-- the columns of the open blocks, the innermost first -/
  columns : List Nat
  allowsKey : Bool
  level : Level
  outer : List Level

namespace Layout

/-- Nothing is read yet. -/
def start (text : List Char) : Layout :=
  { place := .start text, tokens := [], count := 0, columns := [], allowsKey := true,
    level := ⟨.block, none⟩, outer := [] }

def inFlow (s : Layout) : Bool := s.level.context != .block

def push (s : Layout) (t : Token) : Layout :=
  { s with tokens := t :: s.tokens, count := s.count + 1 }

/-- Adds a token that the next characters write. -/
def pushNext (s : Layout) (t : Token) (length : Nat) : Layout :=
  { s.push t with place := s.place.advance length }

/-- Puts a token before those from a given number on. -/
def insertAt (s : Layout) (number : Nat) (t : Token) : Layout :=
  { s with tokens := s.tokens.insertIdx (s.count - number) t, count := s.count + 1 }

/-- The level without a key that a colon can no longer make one. -/
def freshen (p : Place) (l : Level) : Option Level :=
  match l.key? with
  | some k =>
    if k.reaches p then some l else if k.isRequired then none else some { l with key? := none }
  | none => some l

/-- Gives up the keys that ended without a colon. -/
def dropStale (s : Layout) : Option Layout := do
  let level ← freshen s.place s.level
  let outer ← s.outer.mapM (freshen s.place)
  return { s with level, outer }

/-- Gives up what may be a key in the innermost collection. -/
def dropKey (s : Layout) : Option Layout :=
  if s.level.key?.any KeyStart.isRequired then none
  else some { s with level := { s.level with key? := none } }

/-- What comes next may be a key, if keys are allowed here. -/
def saveKey (s : Layout) : Option Layout :=
  if s.allowsKey then do
    let p := s.place
    let isRequired := !s.inFlow && s.columns.head? = some p.column
    let s ← s.dropKey
    return { s with level.key? := some ⟨s.count, isRequired, p.index, p.line, p.column⟩ }
  else some s

/-- Closes the blocks whose column satisfies a test. -/
def closeBlocks (s : Layout) (test : Nat → Bool) : Layout :=
  let closed := s.columns.takeWhile test
  { s with
    columns := s.columns.dropWhile test
    tokens := closed.map (fun _ => .blockEnd) ++ s.tokens
    count := s.count + closed.length }

/-- Opens a block at a column if it is indented further than the innermost one. -/
def opensBlock (s : Layout) (column : Nat) : Bool := s.columns.head?.all (· < column)

def openBlock (s : Layout) (column number : Nat) (t : Token) : Layout :=
  if s.opensBlock column then
    { s.insertAt number t with columns := column :: s.columns }
  else s

/-- Whether something may still become a key. -/
def awaitsColon (s : Layout) : Bool :=
  s.level.key?.isSome || s.outer.any (·.key?.isSome)

end Layout

end ResourceVersions.Yaml
