import ResourceVersions.Code.Basic
import ResourceVersions.Source.Docstring

/-!
# Rendering code

Statements become lines. A block is indented by its level, and a block of nothing is a `pass`.
-/
namespace ResourceVersions.Code

open Text

/-- The variable that holds a value taken out of the stash. -/
def unstashedVar : String := "field_data"

def indentOf (level : Nat) : String := String.join (List.replicate level Source.indent)

def TypeRef.text (t : TypeRef) : String :=
  match t.alias? with
  | none => t.name
  | some a => if a.isEmpty then t.name else s!"{a}.{t.name}"

def Expr.text : Expr → String
  | name ident => ident
  | attr base a => base.text ++ "." ++ a
  | type ref => ref.text
  | const value => value.shown
  | valueCopy value => "copy.deepcopy(" ++ value.text ++ ")"
  | recurse helper value => helper ++ "(" ++ value.text ++ ")"

def Fresh.text : Fresh → String
  | struct type => type.text ++ "()"
  | list => "[]"
  | map => "\x7b\x7d"

def paramText : String × Option TypeRef → String
  | (name, none) => name
  | (name, some type) => s!"{name}: {type.text}"

def loopHead (var : String) (subject : String) : LoopRange → String
  | .items => s!"for {var} in {subject}:"
  | .entries keyVar => s!"for {keyVar}, {var} in {subject}.items():"

/-- The lines of a suite, which may not be empty. -/
def suite (level : Nat) (lines : List String) : List String :=
  if lines.isEmpty then [indentOf level ++ "pass"] else lines

/-- The line of a docstring, if there is one with text in it. -/
def docLine : Option String → List String
  | none => []
  | some doc => if doc.isEmpty then [] else [Source.indent ++ "\"\"\"" ++ doc ++ "\"\"\""]

/-- Indents a line that is not empty. -/
def indentLine (level : Nat) (line : String) : String :=
  if line.isEmpty then line else indentOf level ++ line

mutual

def Stmt.lines (level : Nat) : Stmt → List String
  | .comment text => [indentOf level ++ "# " ++ text]
  | .assign target value => [s!"{indentOf level}{target.text} = {value.text}"]
  | .allocate var fresh => [s!"{indentOf level}{var} = {fresh.text}"]
  | .guard subject body orelse =>
    let head := s!"{indentOf level}if {subject.text} is not None:"
    let other :=
      match orelse with
      | [] => []
      | _ => (indentOf level ++ "else:") :: suite (level + 1) (blockLines (level + 1) orelse)
    head :: suite (level + 1) (blockLines (level + 1) body) ++ other
  | .loop var range subject body =>
    (indentOf level ++ loopHead var subject.text range) ::
      suite (level + 1) (blockLines (level + 1) body)
  | .append container value => [s!"{indentOf level}{container.text}.append({value.text})"]
  | .setItem container key value =>
    [s!"{indentOf level}{container.text}[{key.text}] = {value.text}"]
  | .stash store fieldId value =>
    [s!"{indentOf level}set_field_data({store.text}, {quoted fieldId}, {value.text})"]
  | .unstash store fieldId base a owner =>
    let call := s!"({store.text}, {quoted fieldId}, {owner.text}, {quoted a})"
    [indentOf level ++ unstashedVar ++ " = pop_field_data" ++ call,
     s!"{indentOf level}if {unstashedVar} is not MISSING:",
     s!"{indentOf level}{Source.indent}{base.text}.{a} = {unstashedVar}"]
  | .ret value => [s!"{indentOf level}return {value.text}"]
  | .func name params body docstring? =>
    let head := s!"def {name}(" ++ ", ".intercalate (params.map paramText) ++ "):"
    let doc := docLine docstring?
    let block := blockLines 1 body
    let block := if doc.isEmpty then suite 1 block else block
    (head :: doc ++ block).map (indentLine level)

/-- The lines of statements, one after the other. -/
def blockLines (level : Nat) : List Stmt → List String
  | [] => []
  | s :: rest => Stmt.lines level s ++ blockLines level rest

end

def Func.lines (f : Func) : List String := f.stmt.lines 0

end ResourceVersions.Code
