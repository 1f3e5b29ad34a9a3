import ResourceVersions.Document
import ResourceVersions.Json.Reader

/-!
# YAML scalars

A scalar without quotes is null, a boolean, a number or a date if it is spelled like one, and
a text otherwise. Numbers may be signed and hold underscores; integers may be binary, octal or
hexadecimal.
-/
namespace ResourceVersions.Yaml

open Text

/-- The number that digits of a base below 17 write, underscores being left out. -/
def baseNumber? (base : Nat) (s : List Char) : Option Nat :=
  let digits := s.filter (· != '_')
  if digits.isEmpty then none
  else
    (digits.mapM fun c => (Json.hexValue? c).filter (· < base)).map
      (List.foldl (fun n d => base * n + d) 0)

/-- An integer behind its sign. -/
def natural? : List Char → Option Nat
  | '0' :: 'b' :: digits => baseNumber? 2 digits
  | '0' :: 'o' :: digits => baseNumber? 8 digits
  | '0' :: 'x' :: digits => baseNumber? 16 digits
  | digits => baseNumber? 10 digits

/-- Whether a number may start with the character. -/
def startsNumber (c : Char) : Bool := isAsciiDigit c || c = '-' || c = '+' || c = '.'

def integer? (s : List Char) : Option Int :=
  let (negative, rest) := Number.takeSign s
  if (s.head?.map startsNumber).getD false then
    (natural? rest).map fun n => if negative then -(n : Int) else n
  else none

def isMantissaChar (c : Char) : Bool := isAsciiDigit c || c = '_'

/-- An exponent at the end of a decimal; without an integral part its sign is required. -/
def isExponent (needsSign : Bool) : List Char → Bool
  | 'e' :: rest | 'E' :: rest =>
    let signed := rest.head? = some '-' || rest.head? = some '+'
    let digits := (Number.takeSign rest).2
    (signed || !needsSign) && !digits.isEmpty && digits.all isAsciiDigit
  | _ => false

/-- Whether a text behind its sign is a decimal: it has a point, or an exponent, or both. -/
def isDecimal (s : List Char) : Bool :=
  let whole := s.takeWhile isMantissaChar
  let hasWhole := (whole.head?.map isAsciiDigit).getD false
  match s.dropWhile isMantissaChar with
  | '.' :: rest =>
    let fraction := rest.takeWhile isMantissaChar
    let behind := rest.dropWhile isMantissaChar
    (behind.isEmpty || isExponent (!hasWhole) behind) &&
      (hasWhole || (whole.isEmpty && fraction.any isAsciiDigit))
  | behind => hasWhole && isExponent false behind

def decimal? (s : List Char) : Option Binary64 :=
  let (negative, rest) := Number.takeSign s
  match String.ofList rest with
  | ".inf" | ".Inf" | ".INF" => some (.infinite negative)
  | _ =>
    if isDecimal rest then Number.readFloat? (String.ofList (s.filter (· != '_'))) else none

/-- A year, a month and a day with four, two and two digits. -/
def date? (s : List Char) : Option Atom :=
  match s with
  | [a, b, c, d, '-', e, f, '-', g, h] => do
    let year ← [a, b, c, d].mapM asciiDigit?
    let month ← [e, f].mapM asciiDigit?
    let day ← [g, h].mapM asciiDigit?
    return .date (ofDigits year) (ofDigits month) (ofDigits day)
  | _ => none

/-- What a scalar without quotes stands for. The signs for merging and for default values do
not stand for a value. -/
def resolve? (s : List Char) : Option Atom :=
  match String.ofList s with
  | "" | "~" | "null" | "Null" | "NULL" => some .null
  | "true" | "True" | "TRUE" => some (.bool true)
  | "false" | "False" | "FALSE" => some (.bool false)
  | ".nan" | ".NaN" | ".NAN" => some (.float .nan)
  | "<<" | "=" => none
  | text =>
    some ((((decimal? s).map Atom.float).or ((integer? s).map Atom.int)).or (date? s)
      |>.getD (.text text))

end ResourceVersions.Yaml
