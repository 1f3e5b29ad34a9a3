import ResourceVersions.Text.Digit
import ResourceVersions.Value.Timestamp

/-!
# Reading timestamps

A date, and possibly any one character and a time with a zone, in the extended or the basic
form of ISO 8601. Texts are read as the characters of their UTF-8 bytes, and the end of a text
counts as a null character.
-/
namespace ResourceVersions.Timestamp

open Text

/-- A number of exactly `count` digits, and what follows. -/
def digits? (count : Nat) (s : List Char) : Option (Nat × List Char) :=
  let ds := (s.take count).filterMap asciiDigit?
  if ds.length = count then some (ofDigits ds, s.drop count) else none

def head (s : List Char) : Char := s.headD '\x00'

/-- Drops a hyphen if hyphens are in use; there has to be one then. -/
def hyphen? (inUse : Bool) (s : List Char) : Option (List Char) :=
  if !inUse then some s else if head s = '-' then some s.tail else none

/-- A week and a day of it. The day may be missing if the date ends after the week. -/
def weekDate? (year : Nat) (hyphens : Bool) (ends : List Char → Bool) (s : List Char) :
    Option (Nat × Nat × Nat) := do
  let (week, s) ← digits? 2 s
  let day ← if ends s then some 1 else do
    let (day, _) ← digits? 1 (← hyphen? hyphens s)
    some day
  if Calendar.hasWeek year week && 1 ≤ day && day ≤ 7 then
    some (Calendar.weekDate year week day)
  else none

/-- The date at the start of a text, of which it may take `length` characters. -/
def date? (length : Nat) (text : List Char) : Option (Nat × Nat × Nat) := do
  let (year, s) ← digits? 4 text
  let hyphens := head s == '-'
  let s := if hyphens then s.tail else s
  if head s = 'W' then
    weekDate? year hyphens (fun s => decide (length ≤ text.length - s.length)) s.tail
  else
    let (month, s) ← digits? 2 s
    let (day, _) ← digits? 2 (← hyphen? hyphens s)
    some (year, month, day)

/-- The length of the date at the start of a text. Where a week date and a week with a time
look the same, the number of digits decides. -/
def dateLength (s : List Char) : Nat :=
  let isDigitAt := fun i => isAsciiDigit (s.getD i '\x00')
  if s.length = 7 then 7
  else if s.getD 4 '\x00' = '-' then
    if s.getD 5 '\x00' = 'W' then
      if s.length > 8 && s.getD 8 '\x00' = '-' then
        if s.length > 10 && isDigitAt 10 then 8 else 10
      else 8
    else 10
  else if s.getD 4 '\x00' = 'W' then
    let pos := 7 + ((s.drop 7).takeWhile isAsciiDigit).length
    if pos < 9 then pos else if pos % 2 = 0 then 7 else 8
  else 8

/-- A time of day, and whether something unread stands behind it. -/
structure Clock where
  hour : Nat
  minute : Nat
  second : Nat
  microsecond : Nat
  unread : Bool

/-- The fraction of a second at the start of a text, of which `length` characters belong to the
time. Digits from the seventh on do not count. -/
def fraction? (length : Nat) (s : List Char) : Option (Nat × Bool) := do
  let count := min length 6
  let (n, s) ← digits? count s
  some (n * Nat.pow 10 (6 - count), head (s.dropWhile isAsciiDigit) != '\x00')

/-- Up to `left` more two-digit numbers and the fraction behind them. `colons` tells whether
colons stand between the numbers; the first character behind the hour decides that. -/
def numbers? (colons? : Option Bool) (s : List Char) (length : Nat) :
    (left : Nat) → Option (List Nat × Nat × Bool)
  | 0 => do
    let (micros, unread) ← fraction? length s
    some ([], micros, unread)
  | left + 1 => do
    let (n, s) ← digits? 2 s
    let c := head s
    let colons := colons?.getD (c == ':')
    if length ≤ 3 then some ([n], 0, c != '\x00')
    else
      let (ns, rest) ←
        if colons && c == ':' then numbers? (some colons) s.tail (length - 3) left
        else if c == '.' || c == ',' then numbers? (some colons) s.tail (length - 3) 0
        else if !colons then numbers? (some colons) s (length - 2) left
        else none
      some (n :: ns, rest)

def clock? (s : List Char) (length : Nat) : Option Clock := do
  let (ns, microsecond, unread) ← numbers? none s length 3
  some ⟨ns.getD 0 0, ns.getD 1 0, ns.getD 2 0, microsecond, unread⟩

def isZoneStart (c : Char) : Bool := c == '+' || c == '-' || c == 'Z'

/-- The offset of a zone; whole seconds that come to nothing stand for UTC. -/
def zone? (sign : Char) (s : List Char) : Option Int := do
  let z ← clock? s s.length
  if z.unread then none
  else
    let seconds := z.hour * 3600 + z.minute * 60 + z.second
    let micros : Int := if seconds = 0 then 0 else (seconds * 1000000 + z.microsecond : Nat)
    some (if sign = '-' then -micros else micros)

/-- A time of day and its zone. Without a zone nothing may be left unread. -/
def time? (s : List Char) : Option (Clock × Option Int) := do
  let length := (s.takeWhile (!isZoneStart ·)).length
  let c ← clock? s length
  match s.drop length with
  | [] => if c.unread then none else some (c, none)
  | 'Z' :: rest => if head rest = '\x00' then some (c, some 0) else none
  | sign :: rest => some (c, some (← zone? sign rest))

/-- The number of bytes that the first character of a text takes. -/
def firstWidth (s : List Char) : Nat :=
  let n := (head s).toNat
  if n < 0x80 then 1 else if n / 16 = 0xe then 3 else if n / 16 = 0xf then 4 else 2

/-- The bytes of the UTF-8 encoding, each as a character. -/
def utf8 (s : String) : List Char := s.toUTF8.toList.map fun b => Char.ofNat b.toNat

def read? (text : String) : Option Timestamp := do
  if text.length < 7 then none
  else
    let s := utf8 text
    let length := dateLength s
    let (year, month, day) ← date? length s
    let rest := s.drop length
    let (c, offset?) ←
      if rest.isEmpty then some (⟨0, 0, 0, 0, false⟩, none)
      else time? (rest.drop (firstWidth rest))
    let t : Timestamp :=
      { year, month, day, hour := c.hour, minute := c.minute, second := c.second
        microsecond := c.microsecond, offset? }
    if t.isValid then some t else none

end ResourceVersions.Timestamp
