import ResourceVersions.Number.Binary64
import ResourceVersions.Text.Blank
import ResourceVersions.Text.Digit

/-!
# Number literals

Integers and decimals as people write them: white space around the literal, a sign, digits of
any script and single underscores between digits are accepted.
-/
namespace ResourceVersions.Number

open Text

/-- The most digits an integer literal may have. -/
def maxIntDigits : Nat := 4300

/-- Why a text is no integer. -/
inductive IntFault where
  | notAnInteger
  | tooManyDigits (count : Nat)
deriving DecidableEq

/-- The digits that continue a run, each behind at most one underscore, and the rest. -/
def digitTail : List Char → List Nat × List Char
  | [] => ([], [])
  | '_' :: c :: rest =>
    match digitValue? c with
    | some d => let (ds, tail) := digitTail rest; (d :: ds, tail)
    | none => ([], '_' :: c :: rest)
  | c :: rest =>
    match digitValue? c with
    | some d => let (ds, tail) := digitTail rest; (d :: ds, tail)
    | none => ([], c :: rest)

/-- Digits with single underscores between them, and the rest of the text. -/
def digitRun : List Char → List Nat × List Char
  | [] => ([], [])
  | c :: rest =>
    match digitValue? c with
    | some d => let (ds, tail) := digitTail rest; (d :: ds, tail)
    | none => ([], c :: rest)

/-- A sign, and whether it is a minus. -/
def takeSign : List Char → Bool × List Char
  | '-' :: rest => (true, rest)
  | '+' :: rest => (false, rest)
  | rest => (false, rest)

/-- The integer that a sign and digits write. -/
def signedInt (negative : Bool) (digits : List Nat) : Int :=
  if negative then -(ofDigits digits : Int) else (ofDigits digits : Int)

/-- Reads an integer. A run of too many digits is reported even if something follows it, unless
an underscore does. -/
def readInt (s : String) : Except IntFault Int :=
  let (negative, rest) := takeSign (trimBy isWhiteSpace s.toList)
  match digitRun rest with
  | ([], _) => .error .notAnInteger
  | (_, '_' :: _) => .error .notAnInteger
  | (digits, rest) =>
    if digits.length > maxIntDigits then .error (.tooManyDigits digits.length)
    else if rest.isEmpty then .ok (signedInt negative digits)
    else .error .notAnInteger

/-- An exponent behind its mark: the sign, the digits and the rest of the text. -/
def exponentPart : List Char → Option (Int × List Char)
  | c :: rest =>
    if c = 'e' ∨ c = 'E' then
      let (negative, rest) := takeSign rest
      match digitRun rest with
      | ([], _) => none
      | (digits, tail) => some (signedInt negative digits, tail)
    else some (0, c :: rest)
  | [] => some (0, [])

/-- Digits, at most one point among or beside them, and an exponent, up to the end. -/
def decimalLiteral (negative : Bool) (s : List Char) : Option Binary64 :=
  let (whole, rest) := digitRun s
  let (fraction, rest) :=
    match rest with
    | '.' :: rest => digitRun rest
    | _ => ([], rest)
  if whole.isEmpty && fraction.isEmpty then none
  else
    match exponentPart rest with
    | some (e, []) =>
      some (.ofDecimal negative (ofDigits (whole ++ fraction)) (e - fraction.length))
    | _ => none

def lowerAscii (s : List Char) : List Char :=
  s.map fun c => if isAsciiUpper c then Char.ofNat (c.toNat + 32) else c

/-- Reads a decimal, or one of the words for infinity and for what is no number. -/
def readFloat? (s : String) : Option Binary64 :=
  let (negative, rest) := takeSign (trimBy isWhiteSpace s.toList)
  match String.ofList (lowerAscii rest) with
  | "inf" | "infinity" => some (.infinite negative)
  | "nan" => some .nan
  | _ => decimalLiteral negative rest

end ResourceVersions.Number
