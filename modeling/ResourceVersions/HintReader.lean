import ResourceVersions.Hint
import ResourceVersions.Text.Digit

/-!
# Reading type hints

A hint is a name, possibly with parameters in brackets. A choice between types is kept flat and
without repetitions, and a choice of one type is that type. Two generic types are the same if
they are written with the same name and the same parameters, two choices if they have the same
members in any order.
-/
namespace ResourceVersions.Hint

open Text

/-- A type as it is written. -/
inductive Term where
  | name (name : String)
  | generic (name : String) (parameters : List Term)
  | choice (members : List Term)

namespace Term

mutual
/-- A text that is the same for the same types only. -/
def form : Term → String
  | name n => n
  | generic n ts => n ++ "[" ++ ", ".intercalate (forms ts) ++ "]"
  | choice ts => " | ".intercalate ((forms ts).mergeSort fun a b => decide (a ≤ b))

def forms : List Term → List String
  | [] => []
  | t :: ts => form t :: forms ts
end

/-- The members of a type that may be a choice. -/
def members : Term → List Term
  | choice ts => ts
  | t => [t]

/-- Keeps the first of the types that are the same. -/
def distinct (ts : List Term) : List Term :=
  ts.foldl (fun acc t => if acc.any (fun u => u.form == t.form) then acc else acc ++ [t]) []

/-- The choice between types that may be choices themselves. -/
def oneOf (ts : List Term) : Term :=
  match distinct (ts.flatMap members) with
  | [t] => t
  | ts => choice ts

/-- A name with parameters. -/
def ofParameters (n : String) (ts : List Term) : Option Term :=
  match n, ts with
  | "List", [_] | "list", [_] | "Dict", [_, _] | "dict", [_, _] => some (generic n ts)
  | "Optional", [t] => some (oneOf [t, name "None"])
  | "Union", _ :: _ => some (oneOf ts)
  | _, _ => Option.none

end Term

/-- The hint of a name without parameters. The names of generic types leave their parameters
open. -/
def ofName : String → Hint
  | "Any" => any
  | "None" => none
  | "bool" => bool
  | "int" => int
  | "float" => float
  | "str" => str
  | "datetime" => datetime
  | "list" => anyList
  | "dict" => anyDict
  | "List" => list any
  | "Dict" => dict any any
  | name => named name

mutual
def ofTerm : Term → Hint
  | .name n => ofName n
  | .generic _ [element] => list (ofTerm element)
  | .generic _ [key, value] => dict (ofTerm key) (ofTerm value)
  | .generic n _ => ofName n
  | .choice ts => union (ofTerms ts)

def ofTerms : List Term → List Hint
  | [] => []
  | t :: ts => ofTerm t :: ofTerms ts
end

def isNameChar (c : Char) : Bool := isAsciiAlnum c || c == '_' || c == '.'

mutual
/-- A type at the start of a text, and what follows. -/
def readFrom : (fuel : Nat) → List Char → Option (Term × List Char)
  | 0, _ => Option.none
  | fuel + 1, s =>
    let s := s.dropWhile (· == ' ')
    let name := String.ofList (s.takeWhile isNameChar)
    match s.dropWhile isNameChar with
    | '[' :: rest =>
      match readParameters fuel rest with
      | some (ts, rest) => (Term.ofParameters name ts).map fun t => (t, rest)
      | Option.none => Option.none
    | rest => if name.isEmpty then Option.none else some (.name name, rest)

/-- Types separated by commas up to the closing bracket. -/
def readParameters : (fuel : Nat) → List Char → Option (List Term × List Char)
  | 0, _ => Option.none
  | fuel + 1, s =>
    match readFrom fuel s with
    | Option.none => Option.none
    | some (t, rest) =>
      match rest.dropWhile (· == ' ') with
      | ',' :: rest => (readParameters fuel rest).map fun (ts, rest) => (t :: ts, rest)
      | ']' :: rest => some ([t], rest)
      | _ => Option.none
end

def read? (text : String) : Option Hint :=
  match readFrom (2 * text.length + 1) text.toList with
  | some (t, rest) => if rest.all (· == ' ') then some (ofTerm t) else Option.none
  | Option.none => Option.none

end ResourceVersions.Hint
