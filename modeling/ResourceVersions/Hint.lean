/-!
# Type hints

What a generated attribute may hold, as the generated language writes it. A list or mapping
without parameters says nothing about what is in it.
-/
namespace ResourceVersions

inductive Hint where
  | any
  | none
  | bool
  | int
  | float
  | str
  | datetime
  | anyList
  | anyDict
  | list (element : Hint)
  | dict (key value : Hint)
  | union (choices : List Hint)
  | named (name : String)
deriving Repr, Inhabited

namespace Hint

/-- The class of the references that stand for secret values. -/
def secretClass : String := "SecretKeyReference"

def secret : Hint := named secretClass

mutual

def text : Hint → String
  | any => "Any"
  | none => "None"
  | bool => "bool"
  | int => "int"
  | float => "float"
  | str => "str"
  | datetime => "datetime"
  | anyList => "list"
  | anyDict => "dict"
  | list e => "List[" ++ text e ++ "]"
  | dict k v => "Dict[" ++ text k ++ ", " ++ text v ++ "]"
  | union hs => "Union[" ++ ", ".intercalate (texts hs) ++ "]"
  | named n => n

def texts : List Hint → List String
  | [] => []
  | h :: hs => text h :: texts hs

end

end Hint

end ResourceVersions
