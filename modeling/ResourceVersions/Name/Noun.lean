/-!
# Nouns

List operations name what they list in the plural. The endings are tried in a fixed order, the
longer ones first, and a noun in `ss`, `us` or `is` is already singular.
-/
namespace ResourceVersions.Name

/-- What stands before an ending. -/
def stem? (ending noun : List Char) : Option (List Char) :=
  if ending.isSuffixOf noun then some (noun.take (noun.length - ending.length)) else none

def sibilantEndings : List (List Char) :=
  ["sses".toList, "shes".toList, "ches".toList, "xes".toList, "uses".toList]

def singularEndings : List (List Char) := ["ss".toList, "us".toList, "is".toList]

def singularChars (noun : List Char) : List Char :=
  match stem? "ies".toList noun with
  | some stem => stem ++ ['y']
  | none =>
    if sibilantEndings.any (fun e => e.isSuffixOf noun) then noun.take (noun.length - 2)
    else if ['s'].isSuffixOf noun && !singularEndings.any (fun e => e.isSuffixOf noun) then
      noun.take (noun.length - 1)
    else noun

def singularize (noun : String) : String := String.ofList (singularChars noun.toList)

def isPlural (noun : String) : Bool := singularize noun != noun

end ResourceVersions.Name
