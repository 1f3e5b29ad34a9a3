import ResourceVersions.Api.Basic
import ResourceVersions.Name.Noun
import ResourceVersions.Text.Split

/-!
# What operations do

The name of an operation starts with what it does and goes on with the resource it does it to.
Operations on attributes are recognised first; a Describe or Get of a plural noun reads many.
-/
namespace ResourceVersions

inductive OpKind where
  | create
  | readOne
  | readMany
  | update
  | delete
  | getAttributes
  | setAttributes
  | unknown
deriving DecidableEq, Repr

namespace OpKind

def all : List OpKind :=
  [create, readOne, readMany, update, delete, getAttributes, setAttributes, unknown]

/-- The noun between a verb and `Attributes`, if there is one. -/
def attributesNoun? (verb name : List Char) : Option (List Char) :=
  match Text.after? verb name with
  | none => none
  | some rest =>
    match Name.stem? "Attributes".toList rest with
    | some (c :: noun) => some (c :: noun)
    | _ => none

/-- The noun behind a verb, if there is one. -/
def noun? (verb name : List Char) : Option (List Char) :=
  match Text.after? verb name with
  | some (c :: noun) => some (c :: noun)
  | _ => none

/-- The verbs that say alone what an operation does. -/
def verbs : List (List Char × OpKind) :=
  [("Create".toList, create), ("Update".toList, update), ("Modify".toList, update),
   ("Put".toList, update), ("Delete".toList, delete), ("List".toList, readMany)]

/-- Reading operations: of many if the noun is plural. -/
def readKind (noun : List Char) : OpKind × List Char :=
  let singular := Name.singularChars noun
  if singular = noun then (readOne, noun) else (readMany, singular)

def verbKind? (name : List Char) : Option (OpKind × List Char) :=
  verbs.findSome? fun (verb, kind) =>
    (noun? verb name).map fun noun =>
      (kind, if kind = readMany then Name.singularChars noun else noun)

/-- What an operation does, and the resource that its name tells. -/
def classifyChars (name : List Char) : OpKind × List Char :=
  match attributesNoun? "Get".toList name with
  | some noun => (getAttributes, noun)
  | none =>
    match attributesNoun? "Set".toList name with
    | some noun => (setAttributes, noun)
    | none =>
      match noun? "Describe".toList name with
      | some noun => readKind noun
      | none =>
        match noun? "Get".toList name with
        | some noun => readKind noun
        | none => (verbKind? name).getD (unknown, name)

def classify (name : String) : OpKind × String :=
  let (kind, noun) := classifyChars name.toList
  (kind, String.ofList noun)

end OpKind

namespace Api

/-- The operations of a kind by resource, in code-point order of their names. Of two operations
of one kind on one resource the later one counts. -/
def operationsOf (api : Api) (ignored : List String) (kind : OpKind) : Table Operation :=
  (api.operations.sorted.filter fun e => !ignored.contains e.1).foldl
    (fun t e =>
      let (k, resource) := OpKind.classify e.1
      if k = kind then t.insert resource e.2 else t) ∅

end Api

end ResourceVersions
