import ResourceVersions.Proofs.RoundTrip

/-! # Calls and the helpers they reach

A converter may be called again after a call that failed. A helper that was being generated when
the call failed stays begun: it is called from then on, but it is never generated. All other
helpers that generated code calls are there. -/
namespace ResourceVersions.Conversion

open Code Direction

/-- A call of a converter: what it gave, and the helpers before and after it. -/
structure Attempt where
  before : Helpers
  result : Except Error (List Func)
  after : Helpers

namespace Attempt

def Returned (a : Attempt) (f : Func) : Prop := ∃ fs, a.result = .ok fs ∧ f ∈ fs

/-- The call failed while the helper of a name, which it had begun, was not finished. -/
structure BrokeOff (a : Attempt) (name : String) : Prop where
  failed : ∃ e, a.result = .error e
  new : name ∉ a.before.begun
  begun : name ∈ a.after.begun
  unfinished : name ∉ a.after.table.keys

end Attempt

/-- Calls of one converter in any order, whatever they give. -/
inductive Attempts (c : Converter) : List Attempt → Helpers → Prop where
  | start : Attempts c [] {}
  | call {attempts h result h'} (spoke hub delta) : Attempts c attempts h →
      c.functions h spoke hub delta = (result, h') →
      Attempts c (attempts ++ [⟨h, result, h'⟩]) h'

/-- Called helpers have been begun, and the begun ones that are missing were broken off. -/
structure Accounted (attempts : List Attempt) (h : Helpers) : Prop where
  closed : h.Closed
  returned : ∀ a ∈ attempts, ∀ f, a.Returned f → f.calls ⊆ h.begun
  missing : ∀ name ∈ h.begun, name ∈ h.table.keys ∨ ∃ a ∈ attempts, a.BrokeOff name
  lost : ∀ a ∈ attempts, ∀ name, a.BrokeOff name → name ∈ h.begun ∧ name ∉ h.table.keys

variable {c : Converter} {attempts : List Attempt} {h h' : Helpers} {spoke hub : Resource}
  {delta : ResourceDelta} {result : Except Error (List Func)} {name : String} {f : Func}

/-- One more call accounts for what it begins: it finishes it, or it fails. -/
theorem Accounted.call (hacc : Accounted attempts h)
    (hcall : c.functions h spoke hub delta = (result, h')) :
    Accounted (attempts ++ [⟨h, result, h'⟩]) h' := by
  obtain ⟨hclosed, hgrows⟩ := functions_grows hacc.closed hcall
  constructor
  case closed => exact hclosed
  case returned =>
    intro a ha f hf
    rcases List.mem_append.mp ha with ha | ha
    · intro n hn
      exact hgrows.begun (hacc.returned a ha f hf hn)
    · obtain rfl := List.mem_singleton.mp ha
      obtain ⟨fs, rfl, hf⟩ := hf
      exact (functions_complete hacc.closed hcall).1 f hf
  case missing =>
    intro name hn
    by_cases hkey : name ∈ h'.table.keys
    · exact .inl hkey
    right
    by_cases hold : name ∈ h.begun
    · -- it was missing before, so an earlier call broke it off
      rcases hacc.missing name hold with hin | ⟨a, ha, hbroke⟩
      · exact absurd (hgrows.keys hin) hkey
      · exact ⟨a, List.mem_append_left _ ha, hbroke⟩
    · -- this call began it, so this call did not return
      refine ⟨⟨h, result, h'⟩, by simp, ?_, hold, hn, hkey⟩
      cases result with
      | error e => exact ⟨e, rfl⟩
      | ok fs =>
        have hdone := (functions_complete hacc.closed hcall).2 name hn
        exact (hdone.elim hold hkey).elim
  case lost =>
    intro a ha name hbroke
    rcases List.mem_append.mp ha with ha | ha
    · obtain ⟨hbegun, hkey⟩ := hacc.lost a ha name hbroke
      refine ⟨hgrows.begun hbegun, ?_⟩
      intro hin
      rcases hgrows.fresh name hin with hold | hnew
      · exact hkey hold
      · exact hnew hbegun
    · obtain rfl := List.mem_singleton.mp ha
      exact ⟨hbroke.begun, hbroke.unfinished⟩

theorem Attempts.accounted (hrun : Attempts c attempts h) : Accounted attempts h := by
  induction hrun with
  | start => exact ⟨Helpers.closed_start, by simp, by simp, by simp⟩
  | call spoke hub delta _ hcall ih => exact ih.call hcall

/-- A helper that returned functions or helpers call is there, unless a failed call broke it
off. -/
theorem called_helper_exists_iff (hrun : Attempts c attempts h)
    (hf : f ∈ h.toList ∨ ∃ a ∈ attempts, a.Returned f) (hcall : name ∈ f.calls) :
    (∃ g ∈ h.toList, g.name = name) ↔ ¬ ∃ a ∈ attempts, a.BrokeOff name := by
  have hacc := hrun.accounted
  have hbegun : name ∈ h.begun := by
    rcases hf with hf | ⟨a, ha, hf⟩
    · obtain ⟨key, hget⟩ := Helpers.mem_toList.mp hf
      exact hacc.closed.calls key f hget hcall
    · exact hacc.returned a ha f hf hcall
  rw [hacc.closed.exists_named]
  constructor
  · rintro hkey ⟨a, ha, hbroke⟩
    exact (hacc.lost a ha name hbroke).2 hkey
  · intro hnone
    exact (hacc.missing name hbegun).resolve_right hnone

namespace Sample

/-- A node holds a key and perhaps another node. -/
def nodeMembers (self : String) : Table ShapeRef :=
  .ofList [("Child", ref self), ("Key", ref "Text")]

/-- Nodes of two names; they have the same structure. -/
def nodeApi : Api where
  serviceId := ""
  apiVersion := ""
  shapes := .ofList [("Node", plainShape (.struct (nodeMembers "Node"))),
    ("Knot", plainShape (.struct (nodeMembers "Knot"))), ("Text", plainShape (.scalar .string))]
  operations := ∅

def nodeDef (camel lower : String) : TypeDef :=
  ⟨names camel lower, false, "",
    [⟨names "Child" "child", ref camel, false⟩, ⟨names "Key" "key", ref "Text", false⟩]⟩

def nodeModel (version : String) (secretMembers : Table (List String)) : VersionModel :=
  { version, api := nodeApi, config := {}, group? := none, resources := []
    typeDefs := [nodeDef "Knot" "knot", nodeDef "Node" "node"], enumDefs := [], secretMembers
    failures := [] }

/-- A converter between nodes, where the hub keeps some members as secrets. -/
def nodes (secretMembers : Table (List String)) : Converter :=
  { spoke := nodeModel "v1" ∅, hub := nodeModel "v2" secretMembers }

def holder : Resource :=
  { names := names "A" "a", ops := .ofApi nodeApi [] "A" create, settings := {} }

/-- A field that refers to two shapes in the two versions. -/
def nodeDelta (camel lower x y : String) : FieldDelta :=
  .pair .intact (field (names camel lower, ref x)) (field (names camel lower, ref y))

def rootDelta (x y : String) : ResourceDelta := ⟨[nodeDelta "Root" "root" x y], []⟩

theorem of_outline_error {α : Type} {run : Except Error α × List HelperRequest}
    {requests : List HelperRequest} (h : outline run = (false, requests)) :
    ∃ e, run = (.error e, requests) := by
  obtain ⟨result, requests'⟩ := run
  obtain ⟨hok, rfl⟩ := Prod.mk.inj h
  cases result with
  | ok a => cases hok
  | error e => exact ⟨e, rfl⟩

section Lone

variable {d : Direction} {h : Helpers} {r : HelperRequest} {shape : Shape} {name : String}

/-- A new helper whose body calls nothing but the helper itself. -/
theorem serve_lone_ok {body : List Stmt} (hname : d.helperName? r.src = some name)
    (hs : d.src.api.shapes.get? r.src = some shape) (hnew : name ∉ h.begun)
    (hbody : d.helperBody r = (.ok body, [r])) (rest : List HelperTask) :
    d.serve h (.need r :: rest) = d.serve
      ⟨h.table.insert name { name, params := [("src", none)], body }, name :: h.begun⟩ rest := by
  rw [serve_new hname hs hnew, hbody]
  simp only [tasksOf, List.map, List.cons_append, List.nil_append]
  rw [serve_known hname hs (List.mem_cons_self ..), serve]

/-- A new helper whose body fails after it called the helper itself. -/
theorem serve_lone_error {e : Error} (hname : d.helperName? r.src = some name)
    (hs : d.src.api.shapes.get? r.src = some shape) (hnew : name ∉ h.begun)
    (hbody : d.helperBody r = (.error e, [r])) (rest : List HelperTask) :
    d.serve h (.need r :: rest) = (.error e, { h with begun := name :: h.begun }) := by
  rw [serve_new hname hs hnew, hbody]
  simp only [tasksOf, List.map, List.cons_append, List.nil_append]
  rw [serve_known hname hs (List.mem_cons_self ..), serve]

end Lone

theorem helperName_node {d : Direction} :
    d.helperName? "Node" = some ("_copy_node_" ++ d.suffix) := by
  have hnames : Names.of? "Node" = some (names "Node" "node") := by cbv
  unfold helperName?
  rw [hnames]
  rfl

theorem helperName_knot {d : Direction} :
    d.helperName? "Knot" = some ("_copy_knot_" ++ d.suffix) := by
  have hnames : Names.of? "Knot" = some (names "Knot" "knot") := by cbv
  unfold helperName?
  rw [hnames]
  rfl

variable {secretMembers : Table (List String)}

theorem node_toHub : ((nodes secretMembers).direction .toHub).helperName? "Node" =
    some "_copy_node_to_hub" := by
  have htext : "_copy_node_" ++ "to_hub" = "_copy_node_to_hub" := by simp
  rw [helperName_node]
  exact congrArg some htext

theorem knot_fromHub : ((nodes secretMembers).direction .fromHub).helperName? "Knot" =
    some "_copy_knot_from_hub" := by
  have htext : "_copy_knot_" ++ "from_hub" = "_copy_knot_from_hub" := by simp
  rw [helperName_knot]
  exact congrArg some htext

/-- A function of the sample calls what its code requests. -/
theorem holder_function {way : Way} {delta : ResourceDelta}
    {h h' : Helpers} {requests : List HelperRequest} (hδ : ∀ δ ∈ delta.all, δ.isSupported = true)
    (hcode : outline (((nodes secretMembers).direction way).functionBody way "A" delta).run =
      (true, requests))
    (hserve : ((nodes secretMembers).direction way).serve h (requests.map .need) = (.ok (), h')) :
    ∃ f, (nodes secretMembers).function h way holder holder delta = (.ok f, h') ∧
      CallsFor ((nodes secretMembers).direction way) f.calls requests := by
  obtain ⟨body, hcode⟩ := of_outline_ok hcode
  have hcalls := functionBody_callsFor hδ hcode
  have hemit := emit_of_serve hcode hserve
  rw [show "A" = (way.back.pick holder holder).names.camel by cases way <;> rfl] at hemit
  obtain ⟨f, hf, rfl⟩ := function_of_emit hemit
  exact ⟨f, hf, hcalls⟩

/-- The hub keeps the keys of nodes as secrets. -/
def guardedNodes : Converter := nodes (.ofList [("Node", ["Key"])])

/-- A call that cannot copy the keys of nodes fails in the helper for nodes. -/
theorem broken_off_call : ∃ e, guardedNodes.functions {} holder holder (rootDelta "Node" "Node") =
    (.error e, ⟨∅, ["_copy_node_to_hub"]⟩) := by
  have hcode : outline ((guardedNodes.direction .toHub).functionBody .toHub "A"
      (rootDelta "Node" "Node")).run = (false, [⟨"Node", "Node"⟩]) := by
    cbv
  have hhelper : outline ((guardedNodes.direction .toHub).helperBody ⟨"Node", "Node"⟩) =
      (false, [⟨"Node", "Node"⟩]) := by
    cbv
  obtain ⟨failure, hcode⟩ := of_outline_error hcode
  obtain ⟨e, hbody⟩ := of_outline_error hhelper
  have hserve := serve_lone_error (h := {}) node_toHub rfl (by simp) hbody []
  have hfunction : guardedNodes.function {} .toHub holder holder (rootDelta "Node" "Node") =
      (.error e, ⟨∅, ["_copy_node_to_hub"]⟩) := by
    rw [function_eq]
    dsimp only [emit]
    rw [show (Way.toHub.back.pick holder holder).names.camel = "A" from rfl, hcode]
    dsimp only [List.map]
    rw [hserve]
    rfl
  refine ⟨e, ?_⟩
  unfold Converter.functions
  rw [if_neg (by decide), hfunction]

/-- A later call finds the helper begun, and calls it. -/
theorem later_call : ∃ toHub fromHub h', guardedNodes.functions ⟨∅, ["_copy_node_to_hub"]⟩ holder
    holder (rootDelta "Node" "Knot") = (.ok [toHub, fromHub], h') ∧
      "_copy_node_to_hub" ∈ toHub.calls ∧ "_copy_knot_from_hub" ∈ fromHub.calls := by
  have hto : outline ((guardedNodes.direction .toHub).functionBody .toHub "A"
      (rootDelta "Node" "Knot")).run = (true, [⟨"Node", "Knot"⟩]) := by
    cbv
  have hfrom : outline ((guardedNodes.direction .fromHub).functionBody .fromHub "A"
      (rootDelta "Node" "Knot")).run = (true, [⟨"Knot", "Node"⟩]) := by
    cbv
  have hhelper : outline ((guardedNodes.direction .fromHub).helperBody ⟨"Knot", "Node"⟩) =
      (true, [⟨"Knot", "Node"⟩]) := by
    cbv
  have hδ : ∀ δ ∈ (rootDelta "Node" "Knot").all, δ.isSupported = true := by decide
  obtain ⟨body, hbody⟩ := of_outline_ok hhelper
  have hknown : (guardedNodes.direction .toHub).serve ⟨∅, ["_copy_node_to_hub"]⟩
      [.need ⟨"Node", "Knot"⟩] = (.ok (), ⟨∅, ["_copy_node_to_hub"]⟩) := by
    rw [serve_known node_toHub rfl (List.mem_singleton.mpr rfl), serve]
  have hnew := serve_lone_ok (h := ⟨∅, ["_copy_node_to_hub"]⟩) knot_fromHub rfl (by decide)
    hbody []
  rw [serve] at hnew
  obtain ⟨toHub, hto, hcalls⟩ := holder_function hδ hto hknown
  obtain ⟨fromHub, hfrom, hcalls'⟩ := holder_function hδ hfrom hnew
  refine ⟨toHub, fromHub, _, functions_of_function rfl hto hfrom, ?_, ?_⟩
  · obtain ⟨name, hn, hcall⟩ := hcalls.call (List.mem_singleton.mpr rfl)
    cases hcall.name.symm.trans node_toHub
    exact hn
  · obtain ⟨name, hn, hcall⟩ := hcalls'.call (List.mem_singleton.mpr rfl)
    cases hcall.name.symm.trans knot_fromHub
    exact hn

/-- Both calls, one after the other. -/
theorem guarded_calls : ∃ e toHub fromHub h₁ h₂,
    guardedNodes.functions {} holder holder (rootDelta "Node" "Node") = (.error e, h₁) ∧
    guardedNodes.functions h₁ holder holder (rootDelta "Node" "Knot") =
      (.ok [toHub, fromHub], h₂) ∧
    "_copy_node_to_hub" ∈ toHub.calls ∧ "_copy_knot_from_hub" ∈ fromHub.calls ∧
    h₁ = ⟨∅, ["_copy_node_to_hub"]⟩ := by
  obtain ⟨e, hbroke⟩ := broken_off_call
  obtain ⟨toHub, fromHub, h, hlater, hcall, hcall'⟩ := later_call
  exact ⟨e, toHub, fromHub, _, h, hbroke, hlater, hcall, hcall', rfl⟩

end Sample

open Sample in
/-- A helper that was broken off is called by a later call, and there is none. -/
theorem called_helper_missing : ∃ e toHub fromHub h₁ h₂,
    guardedNodes.functions {} holder holder (rootDelta "Node" "Node") = (.error e, h₁) ∧
    guardedNodes.functions h₁ holder holder (rootDelta "Node" "Knot") =
      (.ok [toHub, fromHub], h₂) ∧
    "_copy_node_to_hub" ∈ toHub.calls ∧ ¬ ∃ g ∈ h₂.toList, g.name = "_copy_node_to_hub" := by
  obtain ⟨e, toHub, fromHub, h₁, h₂, hbroke, hlater, hcall, -, rfl⟩ := guarded_calls
  refine ⟨e, toHub, fromHub, _, h₂, hbroke, hlater, hcall, ?_⟩
  have hacc := ((Attempts.start.call _ _ _ hbroke).call _ _ _ hlater).accounted
  have hlost := hacc.lost _ (List.mem_append_left _ (List.mem_singleton.mpr rfl))
    "_copy_node_to_hub" ⟨⟨e, rfl⟩, List.not_mem_nil, List.mem_singleton.mpr rfl, List.not_mem_nil⟩
  rw [hacc.closed.exists_named]
  exact hlost.2

open Sample in
/-- The other helper that the later call needs is there. -/
theorem called_helper_exists_knot : ∃ toHub fromHub h₁ h₂,
    guardedNodes.functions h₁ holder holder (rootDelta "Node" "Knot") =
      (.ok [toHub, fromHub], h₂) ∧ "_copy_node_to_hub" ∈ h₁.begun ∧
    "_copy_knot_from_hub" ∈ fromHub.calls ∧ ∃ g ∈ h₂.toList, g.name = "_copy_knot_from_hub" := by
  obtain ⟨e, toHub, fromHub, h₁, h₂, hbroke, hlater, -, hcall, rfl⟩ := guarded_calls
  refine ⟨toHub, fromHub, _, h₂, hlater, List.mem_singleton.mpr rfl, hcall, ?_⟩
  have hrun := (Attempts.start.call _ _ _ hbroke).call _ _ _ hlater
  have hreturned : Attempt.Returned ⟨⟨∅, ["_copy_node_to_hub"]⟩, .ok [toHub, fromHub], h₂⟩
      fromHub := ⟨_, rfl, by simp⟩
  refine (called_helper_exists_iff hrun (.inr ⟨_, by simp, hreturned⟩) hcall).mpr ?_
  rintro ⟨a, ha, hbroke⟩
  rcases List.mem_append.mp ha with ha | ha
  · obtain rfl := List.mem_singleton.mp ha
    have hother : "_copy_knot_from_hub" ∉ ["_copy_node_to_hub"] := by decide
    exact hother hbroke.begun
  · obtain rfl := List.mem_singleton.mp ha
    obtain ⟨e, he⟩ := hbroke.failed
    cases he

end ResourceVersions.Conversion
