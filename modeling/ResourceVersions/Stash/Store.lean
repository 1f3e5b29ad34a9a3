import ResourceVersions.Stash.Codec

/-!
# The stash in an object's metadata

The texts are kept among the annotations of an object, which may be missing altogether. Fields
have separate keys, so what is stashed for one does not touch another.
-/
namespace ResourceVersions.Stash

/-- The annotations of an object. -/
abbrev Store := Option (Table String)

/-- Stashes the value of a field; null is not stored. -/
def put (store : Store) (fieldId : String) (value : Value) : Store :=
  if value.isNull then store else some ((store.getD ∅).insert (key fieldId) (encode value))

/-- Takes the value of a field out of the stash, to be stored in an attribute of a class. The
entry goes also when it cannot be decoded; no value means that there was no entry. -/
def take (classes : Classes) (store : Store) (fieldId owner attr : String) :
    Except Error (Option Value) × Store :=
  match store with
  | none => (.ok none, none)
  | some entries =>
    match entries.get? (key fieldId) with
    | none => (.ok none, some entries)
    | some text =>
      let result :=
        match classes.hint? owner attr with
        | none => .error (.attr (.unknown owner attr))
        | some hint => some <$> decode classes text hint
      (result, some (entries.erase (key fieldId)))

end ResourceVersions.Stash
