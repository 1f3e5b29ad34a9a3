import ResourceVersions.Error
import ResourceVersions.Number.Literal

/-!
# API versions

A version is `v`, a major number and, unless it is generally available, the track `alpha` or
`beta` with a minor number. Versions are ordered by major number, then alpha before beta
before general availability, then minor number.
-/
namespace ResourceVersions

open Text

inductive Track where
  | alpha
  | beta
  | ga
deriving DecidableEq, Repr

namespace Track

def rank : Track → Nat
  | alpha => 0
  | beta => 1
  | ga => 2

def text : Track → String
  | alpha => "alpha"
  | beta => "beta"
  | ga => "ga"

end Track

structure Version where
  major : Nat
  track : Track
  minor : Nat
deriving DecidableEq, Repr

namespace Version

/-- The lexicographic order on major number, track and minor number. -/
def le (a b : Version) : Bool :=
  decide (a.major < b.major) || (a.major == b.major &&
    (decide (a.track.rank < b.track.rank) || (a.track == b.track && decide (a.minor ≤ b.minor))))

/-- The values of the digits at the start of a text, and the rest. -/
def digits (s : List Char) : List Nat × List Char :=
  (s.takeWhile (fun c => (digitValue? c).isSome) |>.filterMap digitValue?,
    s.dropWhile (fun c => (digitValue? c).isSome))

/-- The end of a version: one line break may stand there. -/
def atEnd : List Char → Bool
  | [] => true
  | ['\n'] => true
  | _ => false

/-- The track that a text starts with, and the rest. -/
def track? : List Char → Option (Track × List Char)
  | 'a' :: 'l' :: 'p' :: 'h' :: 'a' :: rest => some (.alpha, rest)
  | 'b' :: 'e' :: 't' :: 'a' :: rest => some (.beta, rest)
  | _ => none

/-- The digits of the major number, and the track with the digits of the minor number. -/
def parts? : List Char → Option (List Nat × Option (Track × List Nat))
  | 'v' :: s =>
    match digits s with
    | ([], _) => none
    | (major, rest) =>
      if atEnd rest then some (major, none)
      else
        match track? rest with
        | none => none
        | some (track, rest) =>
          match digits rest with
          | ([], _) => none
          | (minor, rest) => if atEnd rest then some (major, some (track, minor)) else none
  | _ => none

/-- The number that digits write, as long as there are not too many. -/
def number (digits : List Nat) : Except Error Nat :=
  if digits.length > Number.maxIntDigits then .error (.oversizedNumber digits.length)
  else .ok (ofDigits digits)

def parse (text : String) : Except Error Version :=
  match parts? text.toList with
  | none => .error (.config (.invalidVersion text))
  | some (major, none) => do return ⟨← number major, .ga, 0⟩
  | some (major, some (track, minor)) => do return ⟨← number major, track, ← number minor⟩

/-- Version texts beside the versions they name. -/
def parseAll : List String → Except Error (List (Version × String))
  | [] => .ok []
  | text :: rest => do
    let version ← parse text
    let others ← parseAll rest
    return (version, text) :: others

/-- The texts in version order; equal versions keep their places. -/
def sortTexts (texts : List String) : Except Error (List String) := do
  let parsed ← parseAll texts
  return (parsed.mergeSort (fun a b => a.1.le b.1)).map Prod.snd

end Version

end ResourceVersions
