import ResourceVersions.Hint
import ResourceVersions.Source.Docstring
import ResourceVersions.Text.Quoted

/-!
# Class definitions

The classes of a generated module as data, and their lines.
-/
namespace ResourceVersions.Source

open Text

/-- How an attribute is declared. -/
inductive AttrForm where
  /-- a constant of an enumeration -/
  | constant (value : String)
  /-- a value that may be missing -/
  | optional (hint : Hint)
  /-- a text that is given -/
  | fixed (value : String)
  /-- an object of a class that is created with its owner -/
  | owned (className : String)
deriving Repr

structure ClassAttr where
  name : String
  form : AttrForm
deriving Repr

def ClassAttr.line (a : ClassAttr) : String :=
  indent ++ a.name ++
    match a.form with
    | .constant value => s!" = {quoted value}"
    | .optional hint => s!": Optional[{hint.text}] = None"
    | .fixed value => s!": str = {quoted value}"
    | .owned className => s!": {className} = field(default_factory={className})"

structure ClassDef where
  name : String
  isDataclass : Bool := true
  base? : Option String := none
  summary : String
  documentation : String := ""
  attrs : List ClassAttr
deriving Repr

namespace ClassDef

def attrNames (d : ClassDef) : List String := d.attrs.map ClassAttr.name

def lines (d : ClassDef) : List String :=
  let bases := (d.base?.map fun base => s!"({base})").getD ""
  let head := (if d.isDataclass then ["@dataclass"] else []) ++ [s!"class {d.name}{bases}:"]
  let attrs := if d.attrs.isEmpty then [] else "" :: d.attrs.map ClassAttr.line
  head ++ docstring d.summary d.documentation ++ attrs

end ClassDef

/-- The lines that open a generated module. -/
def moduleHead (service version : String) : List String :=
  let service := if service.isEmpty then "service" else service
  ["\"\"\"", "DO NOT EDIT THIS FILE!", "",
   s!"This module is automatically generated by the {rootPackage} build program from the",
   s!"{service} API description for version {version}.", "\"\"\"",
   "from __future__ import annotations", ""]
where
  rootPackage : String := "henkan"

/-- The lines that list the public names of a module. -/
def publicNames (names : List String) : List String :=
  "__all__ = [" :: names.map (fun n => s!"{indent}{quoted n},") ++ ["]"]

/-- The lines of a module: the head, every block behind two empty lines, and the public names. -/
def moduleLines (head : List String) (blocks : List (List String)) (names : List String) :
    List String :=
  head ++ (blocks ++ [publicNames names]).flatMap fun block => "" :: "" :: block

/-- Lines as the text of a file. -/
def fileText (lines : List String) : String := "\n".intercalate lines ++ "\n"

end ResourceVersions.Source
