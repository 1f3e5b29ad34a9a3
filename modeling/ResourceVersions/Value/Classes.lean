import ResourceVersions.Error
import ResourceVersions.Hint
import ResourceVersions.Table
import ResourceVersions.Value.Basic

/-!
# Classes of values

A class declares its attributes with their types. An attribute with a default may be left out
when an object is created.
-/
namespace ResourceVersions

structure AttrDecl where
  name : String
  hint : Hint
  default? : Option Value

/-- The declared classes by name. -/
abbrev Classes := Table (List AttrDecl)

namespace Classes

/-- All attributes of an object for which some are given. -/
def fill (className : String) (attrs : List AttrDecl) (given : List (String × Value)) :
    Except AttributeError (List (String × Value)) :=
  attrs.mapM fun a =>
    match given.lookup a.name, a.default? with
    | some v, _ => .ok (a.name, v)
    | none, some v => .ok (a.name, v)
    | none, none => .error (.missing className a.name)

/-- The type of an attribute of a class. -/
def hint? (classes : Classes) (className attr : String) : Option Hint :=
  ((classes.getD className []).find? fun a => a.name == attr).map AttrDecl.hint

def optionalText : Hint := .union [.str, .none]

def metaAttrs : List AttrDecl :=
  [⟨"name", optionalText, some .null⟩, ⟨"namespace", optionalText, some .null⟩,
   ⟨"labels", .dict .str .str, some (.dict [])⟩,
   ⟨"annotations", .dict .str .str, some (.dict [])⟩]

/-- The metadata of an object about which nothing is known. -/
def emptyMeta : Value :=
  .object "ObjectMeta" (metaAttrs.map fun a => (a.name, a.default?.getD .null))

/-- The classes that generated modules build on. -/
def builtin : Classes := .ofList
  [("ObjectMeta", metaAttrs),
   ("ResourceMetadata",
     [⟨"identifier", optionalText, some .null⟩, ⟨"ownerAccountID", optionalText, some .null⟩,
      ⟨"region", optionalText, some .null⟩]),
   (Hint.secretClass,
     [⟨"name", .str, none⟩, ⟨"key", .str, none⟩, ⟨"namespace", optionalText, some .null⟩]),
   ("ResourceBase",
     [⟨"apiVersion", .str, some (.str "")⟩, ⟨"kind", .str, some (.str "")⟩,
      ⟨"metadata", .named "ObjectMeta", some emptyMeta⟩])]

end Classes

end ResourceVersions
