import ResourceVersions.Json.Basic
import ResourceVersions.Number.Literal
import ResourceVersions.Text.Split

/-!
# Reading JSON text

The reader accepts the JSON grammar and, as numbers, `NaN`, `Infinity` and `-Infinity`. A
number without a point and an exponent is an integer of any size up to the digit limit. Of two
entries with one key the later value is kept, in the place of the earlier.
-/
namespace ResourceVersions.Json

open Text

def isSpace (c : Char) : Bool := c = ' ' || c = '\t' || c = '\n' || c = '\r'

def skipSpaces (s : List Char) : List Char := s.dropWhile isSpace

def hexValue? (c : Char) : Option Nat :=
  if '0' ≤ c ∧ c ≤ '9' then some (c.toNat - 48)
  else if 'a' ≤ c ∧ c ≤ 'f' then some (c.toNat - 87)
  else if 'A' ≤ c ∧ c ≤ 'F' then some (c.toNat - 55)
  else none

/-- The number that the next four hexadecimal digits write. -/
def fourHex : List Char → Option (Nat × List Char)
  | a :: b :: c :: d :: rest => do
    let a ← hexValue? a
    let b ← hexValue? b
    let c ← hexValue? c
    let d ← hexValue? d
    pure (((a * 16 + b) * 16 + c) * 16 + d, rest)
  | _ => none

def isHighSurrogate (n : Nat) : Bool := decide (0xd800 ≤ n) && decide (n < 0xdc00)
def isLowSurrogate (n : Nat) : Bool := decide (0xdc00 ≤ n) && decide (n < 0xe000)

/-- The character of a code unit; a surrogate that stands alone has none. -/
def unitChar (n : Nat) : Char :=
  if isHighSurrogate n || isLowSurrogate n then Char.ofNat 0xfffd else Char.ofNat n

/-- A code unit escape, joined with a low surrogate that follows a high one. -/
def unicodeEscape (s : List Char) : Option (Char × List Char) := do
  let (high, rest) ← fourHex s
  match isHighSurrogate high, rest with
  | true, '\\' :: 'u' :: more =>
    match fourHex more with
    | some (low, rest') =>
      if isLowSurrogate low then
        some (Char.ofNat (0x10000 + (high - 0xd800) * 0x400 + (low - 0xdc00)), rest')
      else some (unitChar high, rest)
    | none => some (unitChar high, rest)
  | _, _ => some (unitChar high, rest)

/-- The character that a letter behind a backslash stands for. -/
def simpleEscape? : Char → Option Char
  | '"' => some '"'
  | '\\' => some '\\'
  | '/' => some '/'
  | 'b' => some '\x08'
  | 'f' => some '\x0c'
  | 'n' => some '\n'
  | 'r' => some '\r'
  | 't' => some '\t'
  | _ => none

/-- The text up to the closing quote and what follows it. -/
def stringBody : (fuel : Nat) → (read : List Char) → List Char → Option (String × List Char)
  | 0, _, _ => none
  | _ + 1, _, [] => none
  | fuel + 1, read, c :: rest =>
    if c = '"' then some (String.ofList read.reverse, rest)
    else if c = '\\' then
      match rest with
      | 'u' :: more =>
        match unicodeEscape more with
        | some (c, tail) => stringBody fuel (c :: read) tail
        | none => none
      | e :: tail =>
        match simpleEscape? e with
        | some c => stringBody fuel (c :: read) tail
        | none => none
      | [] => none
    else if c.toNat < 0x20 then none
    else stringBody fuel (c :: read) rest

/-- A run of ASCII digits and the rest. -/
def asciiDigits (s : List Char) : List Nat × List Char :=
  ((s.takeWhile isAsciiDigit).filterMap asciiDigit?, s.dropWhile isAsciiDigit)

/-- A point with digits behind it. -/
def fractionPart (s : List Char) : Option (List Nat) × List Char :=
  match s with
  | '.' :: rest =>
    match asciiDigits rest with
    | ([], _) => (none, s)
    | (ds, tail) => (some ds, tail)
  | _ => (none, s)

/-- An exponent mark with a sign and digits behind it. -/
def exponentPart (s : List Char) : Option Int × List Char :=
  match s with
  | c :: rest =>
    if c = 'e' ∨ c = 'E' then
      let (negative, rest) := Number.takeSign rest
      match asciiDigits rest with
      | ([], _) => (none, s)
      | (ds, tail) => (some (Number.signedInt negative ds), tail)
    else (none, s)
  | [] => (none, s)

/-- The digits before the point: a zero stands alone. -/
def wholePart : List Char → List Nat × List Char
  | '0' :: rest => ([0], rest)
  | s => asciiDigits s

def number (negative : Bool) (s : List Char) : Option (Json × List Char) :=
  match wholePart s with
  | ([], _) => none
  | (whole, rest) =>
    let (fraction, rest) := fractionPart rest
    let (exponent, rest) := exponentPart rest
    match fraction, exponent with
    | none, none =>
      if whole.length > Number.maxIntDigits then none
      else some (.int (Number.signedInt negative whole), rest)
    | _, _ =>
      let tail := fraction.getD []
      let x := .ofDecimal negative (ofDigits (whole ++ tail)) (exponent.getD 0 - tail.length)
      some (.float x, rest)

/-- The words that stand for a value. -/
def words : List (List Char × Json) :=
  [("null".toList, .null), ("true".toList, .bool true), ("false".toList, .bool false),
   ("NaN".toList, .float .nan), ("Infinity".toList, .float (.infinite false)),
   ("-Infinity".toList, .float (.infinite true))]

def word (s : List Char) : Option (Json × List Char) :=
  words.findSome? fun (w, d) => (after? w s).map (d, ·)

mutual
/-- A value at the start of the text. -/
def value : (fuel : Nat) → List Char → Option (Json × List Char)
  | 0, _ => none
  | fuel + 1, s =>
    match s with
    | '"' :: rest => (stringBody (rest.length + 1) [] rest).map fun (t, tail) => (.str t, tail)
    | '[' :: rest =>
      match skipSpaces rest with
      | ']' :: tail => some (.arr [], tail)
      | rest => (itemsFrom fuel rest).map fun (xs, tail) => (.arr xs, tail)
    | '\x7b' :: rest =>
      match skipSpaces rest with
      | '\x7d' :: tail => some (.obj [], tail)
      | rest => (entriesFrom fuel [] rest).map fun (fs, tail) => (.obj fs, tail)
    | '-' :: rest => (word s).or (number true rest)
    | s => (word s).or (number false s)

/-- The items of a list up to its closing bracket. -/
def itemsFrom : (fuel : Nat) → List Char → Option (List Json × List Char)
  | 0, _ => none
  | fuel + 1, s =>
    match value fuel s with
    | none => none
    | some (d, rest) =>
      match skipSpaces rest with
      | ']' :: tail => some ([d], tail)
      | ',' :: tail => (itemsFrom fuel (skipSpaces tail)).map fun (ds, tail) => (d :: ds, tail)
      | _ => none

/-- The entries of a mapping up to its closing brace, added to those read before. -/
def entriesFrom : (fuel : Nat) → (read : List (String × Json)) → List Char →
    Option (List (String × Json) × List Char)
  | 0, _, _ => none
  | fuel + 1, read, s =>
    match s with
    | '"' :: rest =>
      match stringBody (rest.length + 1) [] rest with
      | none => none
      | some (key, rest) =>
        match skipSpaces rest with
        | ':' :: rest =>
          match value fuel (skipSpaces rest) with
          | none => none
          | some (d, rest) =>
            let read := Table.putEntry key d read
            match skipSpaces rest with
            | '\x7d' :: tail => some (read, tail)
            | ',' :: tail => entriesFrom fuel read (skipSpaces tail)
            | _ => none
        | _ => none
    | _ => none
end

/-- The document that a text holds, with nothing but spaces around it. -/
def read? (text : String) : Option Json :=
  let s := text.toList
  match value (2 * s.length + 2) (skipSpaces s) with
  | some (d, rest) => if (skipSpaces rest).isEmpty then some d else none
  | none => none

end ResourceVersions.Json
