import ResourceVersions.Value.Classes
import ResourceVersions.Value.TimestampReader

/-!
# Rebuilding values

A document is turned back into a value by the type that it should have: texts become
timestamps and mappings become objects. Null fits every type, and types that say nothing about
the form of a value are not checked.
-/
namespace ResourceVersions.Value

def isNoneHint : Hint → Bool
  | .none => true
  | _ => false

/-- What a type asks for when the value is not null. A choice of several asks for nothing. -/
def requirement : Hint → Hint
  | .union choices =>
    match choices.filter (fun h => !isNoneHint h) with
    | [h] => h
    | _ => .any
  | h => h

/-- How the value of an entry is rebuilt by a type. -/
abbrev Rebuilder := Hint → Except Error Value

/-- Rebuilds the attributes that a mapping has and fills in the others. -/
def rebuildObject (className : String) (attrs : List AttrDecl)
    (parts : List (String × Rebuilder)) : Except Error Value := do
  let given ← attrs.filterMapM fun a =>
    match parts.lookup a.name with
    | none => .ok none
    | some rebuild => return some (a.name, ← rebuild a.hint)
  return .object className (← (Classes.fill className attrs given).mapError .attr)

def rebuildTimestamp (shown text : String) : Except Error Value :=
  match Timestamp.read? text with
  | some t => .ok (.datetime t)
  | none => .error (.decoding (.badTimestamp shown))

/-- What a value that is neither null nor a list nor a mapping becomes. -/
def rebuildScalar (classes : Classes) (value : Value) (hint : Hint) : Except Error Value :=
  match requirement hint with
  | .list _ => .error (.decoding (.notList value.shown))
  | .dict _ _ => .error (.decoding (.notMapping value.shown))
  | .datetime =>
    match value with
    | .str s => rebuildTimestamp value.shown s
    | _ => .error (.decoding (.badTimestamp value.shown))
  | .named c =>
    if classes.contains c then .error (.decoding (.notInstance c value.shown)) else .ok value
  | _ => .ok value

mutual

def rebuild (classes : Classes) : Value → Hint → Except Error Value
  | .null, _ => .ok .null
  | .list items, hint =>
    match requirement hint with
    | .list element => do return .list (← rebuildItems classes items element)
    | _ => rebuildScalar classes (.list items) hint
  | .dict entries, hint =>
    let parts := rebuildParts classes entries
    match requirement hint with
    | .dict _ element => do
      return .dict (← parts.mapM fun (k, rebuild) => return (k, ← rebuild element))
    | .named c =>
      match classes.get? c with
      | some attrs => rebuildObject c attrs parts
      | none => .ok (.dict entries)
    | _ => rebuildScalar classes (.dict entries) hint
  | value, hint => rebuildScalar classes value hint

def rebuildItems (classes : Classes) : List Value → Hint → Except Error (List Value)
  | [], _ => .ok []
  | v :: rest, hint => do
    let v ← rebuild classes v hint
    return v :: (← rebuildItems classes rest hint)

def rebuildParts (classes : Classes) : List (String × Value) → List (String × Rebuilder)
  | [] => []
  | (k, v) :: rest => (k, fun hint => rebuild classes v hint) :: rebuildParts classes rest

end

end ResourceVersions.Value
