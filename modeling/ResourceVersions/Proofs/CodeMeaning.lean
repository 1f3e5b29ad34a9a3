import Mathlib.Tactic.Common
import ResourceVersions.Code.Basic
import ResourceVersions.Proofs.Table
import ResourceVersions.Stash.Store

/-! # The meaning of conversion code

Statements change the variables of one call; they have no meaning where they would fail. Objects
are values, so that a changed object is a new one. The copy helpers are given as a function, and
the classes under the names that code refers to them by. -/
namespace ResourceVersions

namespace Value

def attr? : Value → String → Option Value
  | .object _ attrs, a => attrs.lookup a
  | _, _ => none

/-- The object with another value of an attribute. -/
def setAttr? : Value → String → Value → Option Value
  | .object c attrs, a, v => some (.object c (Table.putEntry a v attrs))
  | _, _, _ => none

def append? : Value → Value → Option Value
  | .list items, v => some (.list (items ++ [v]))
  | _, _ => none

def setItem? : Value → Value → Value → Option Value
  | .dict entries, .str k, v => some (.dict (Table.putEntry k v entries))
  | _, _, _ => none

/-- The texts of a mapping that holds nothing else. -/
def texts? : List (String × Value) → Option (List (String × String))
  | [] => some []
  | (k, .str s) :: rest => (texts? rest).map ((k, s) :: ·)
  | _ :: _ => none

/-- The stash that annotations hold. -/
def store? : Value → Option Stash.Store
  | .null => some none
  | .dict entries => (texts? entries).map fun l => some (.ofList l)
  | _ => none

def ofStore : Stash.Store → Value
  | none => .null
  | some texts => .dict (texts.entries.map fun e => (e.1, .str e.2))

end Value

namespace Code

/-- The class name by which code refers to a class. -/
def TypeRef.qualified (t : TypeRef) : String :=
  match t.alias? with
  | none => t.name
  | some a => a ++ "." ++ t.name

/-- The values of the variables. -/
abbrev Frame := String → Option Value

def Frame.set (f : Frame) (x : String) (v : Value) : Frame :=
  fun y => if y = x then some v else f y

/-- The variables of a call. -/
def Frame.ofArgs (params : List String) (args : List Value) : Frame :=
  fun x => (params.zip args).lookup x

/-- Where statements end: behind the last one or with a returned value. -/
inductive Outcome where
  | running (frame : Frame)
  | returned (value : Value)

def Outcome.andThen (next : Frame → Option Outcome) : Outcome → Option Outcome
  | .running f => next f
  | .returned v => some (.returned v)

/-- Does a step for every element, up to a return. -/
def forEach {α : Type} (step : α → Frame → Option Outcome) : List α → Frame → Option Outcome
  | [], f => some (.running f)
  | a :: rest, f => (step a f).bind (Outcome.andThen (forEach step rest))

section Meaning

variable (classes : Classes) (call : String → Value → Option Value)

def Expr.eval (f : Frame) : Expr → Option Value
  | .name x => f x
  | .attr base a => (base.eval f).bind (·.attr? a)
  | .type _ => none
  | .const v => some v
  | .valueCopy e => e.eval f
  | .recurse helper e => (e.eval f).bind (call helper)

/-- The variables after a place has got a value. -/
def Expr.assign (v : Value) (f : Frame) : Expr → Option Frame
  | .name x => some (f.set x v)
  | .attr base a => do
    let o ← base.eval call f
    base.assign (← o.setAttr? a v) f
  | _ => none

def create : Fresh → Option Value
  | .struct t => (classes.get? t.qualified).map fun attrs =>
      .object t.qualified (attrs.map fun a => (a.name, .null))
  | .list => some (.list [])
  | .map => some (.dict [])

/-- Stashes a value in the annotations of an object. -/
def putInto (store : Expr) (fieldId : String) (v : Value) (f : Frame) : Option Frame := do
  let object ← store.eval call f
  let stash ← (← object.attr? "annotations").store?
  let object ← object.setAttr? "annotations" (.ofStore (Stash.put stash fieldId v))
  store.assign call object f

/-- Takes a value out of the annotations of an object and stores it in an attribute. -/
def takeInto (store : Expr) (fieldId : String) (base : Expr) (a owner : String) (f : Frame) :
    Option Frame := do
  let object ← store.eval call f
  let stash ← (← object.attr? "annotations").store?
  match Stash.take classes stash fieldId owner a with
  | (.error _, _) => none
  | (.ok taken, stash) =>
    let object ← object.setAttr? "annotations" (.ofStore stash)
    let f ← store.assign call object f
    match taken with
    | none => some f
    | some v => (Expr.attr base a).assign call v f

mutual

def Stmt.exec : Stmt → Frame → Option Outcome
  | .comment _, f => some (.running f)
  | .assign target value, f => do
    return .running (← target.assign call (← value.eval call f) f)
  | .allocate x fresh, f => do return .running (f.set x (← create classes fresh))
  | .guard subject body orelse, f => do
    if (← subject.eval call f).isNull then execAll orelse f else execAll body f
  | .loop x .items subject body, f => do
    match ← subject.eval call f with
    | .list items => forEach (fun v f => execAll body (f.set x v)) items f
    | _ => none
  | .loop x (.entries k) subject body, f => do
    match ← subject.eval call f with
    | .dict entries =>
      forEach (fun e f => execAll body ((f.set k (.str e.1)).set x e.2)) entries f
    | _ => none
  | .append container value, f => do
    let v ← value.eval call f
    let c ← container.eval call f
    return .running (← container.assign call (← c.append? v) f)
  | .setItem container key value, f => do
    let v ← value.eval call f
    let k ← key.eval call f
    let c ← container.eval call f
    return .running (← container.assign call (← c.setItem? k v) f)
  | .stash store fieldId value, f => do
    return .running (← putInto call store fieldId (← value.eval call f) f)
  | .unstash store fieldId base a owner, f => do
    return .running (← takeInto classes call store fieldId base a owner.qualified f)
  | .ret value, f => do return .returned (← value.eval call f)
  | .func .., _ => none

def execAll : List Stmt → Frame → Option Outcome
  | [], f => some (.running f)
  | s :: rest, f => (s.exec f).bind (Outcome.andThen (execAll rest))

end

end Meaning

section Steps

variable {classes : Classes} {call : String → Value → Option Value} {f : Frame} {x k : String}
  {subject : Expr} {body : List Stmt}

theorem exec_allocate {fresh : Fresh} {v : Value} (h : create classes fresh = some v) :
    (Stmt.allocate x fresh).exec classes call f = some (.running (f.set x v)) := by
  rw [Stmt.exec, h]
  rfl

/-- A loop over a list does its body for every item. -/
theorem exec_items {items : List Value} (h : subject.eval call f = some (.list items)) :
    (Stmt.loop x .items subject body).exec classes call f =
      forEach (fun v f => execAll classes call body (f.set x v)) items f := by
  rw [Stmt.exec, h]
  rfl

/-- A loop over a dictionary does its body for every key with its value. -/
theorem exec_entries {entries : List (String × Value)}
    (h : subject.eval call f = some (.dict entries)) :
    (Stmt.loop x (.entries k) subject body).exec classes call f =
      forEach (fun e f => execAll classes call body ((f.set k (.str e.1)).set x e.2)) entries f := by
  rw [Stmt.exec, h]
  rfl

end Steps

/-- The copy helpers of a table, down to some depth of calls. -/
def callHelper (classes : Classes) (helpers : Table Func) : Nat → String → Value → Option Value
  | 0, _, _ => none
  | fuel + 1, name, v => do
    let f ← helpers.get? name
    let frame := Frame.ofArgs (f.params.map Prod.fst) [v]
    match ← execAll classes (callHelper classes helpers fuel) f.body frame with
    | .returned w => some w
    | .running _ => none

end Code

end ResourceVersions
