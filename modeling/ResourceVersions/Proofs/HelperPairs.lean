import ResourceVersions.Proofs.CallClosure

/-! # The pairs that helpers are for

A helper is called for a pair of structures, but it is generated once under a name that depends on
the source alone. In a run without failures every helper is generated for a pair that it is called
for; it is right for all of them exactly if pairs that share a name share their code. -/
namespace ResourceVersions.Conversion

open Code Direction

variable {c : Converter} {way : Way} {h : Helpers} {r : HelperRequest} {calls : List Call}

/-- The pairs that a run of calls needs helpers for. -/
abbrev CallsPair (c : Converter) (calls : List Call) (h : Helpers) : Way → HelperRequest → Prop :=
  Emitted c (calls.flatMap fun q => q.roots c) (· ∈ h.toList)

theorem CleanCalls.callsFor {q : Call} (hrun : CleanCalls c calls h) (hq : q ∈ calls) (way : Way) :
    CallsFor (c.direction way) (q.func way).calls (q.requests c way) :=
  functionBody_callsFor (hrun.faithful hq).supported ((hrun.faithful hq).body way)

/-- A pair that a helper is called for has a helper of its name. -/
theorem CallsPair.named (hrun : CleanCalls c calls h) (hr : CallsPair c calls h way r) :
    ∃ f ∈ h.toList, CallFor (c.direction way) f.name r := by
  have hdone := hrun.cleanRun.complete
  obtain ⟨name, hcall, hbegun⟩ : ∃ name, CallFor (c.direction way) name r ∧ name ∈ h.begun := by
    cases hr with
    | root hr =>
      obtain ⟨q, hq, hin⟩ := List.mem_flatMap.mp hr
      have hin : r ∈ q.requests c way := by
        cases way <;> simpa [Call.roots] using hin
      obtain ⟨name, -, hcall⟩ := (hrun.callsFor hq way).call hin
      obtain ⟨shape, hs⟩ := hcall.shape
      exact ⟨name, hcall, hdone.known way r hr name shape hcall.name hs⟩
    | nested _ hf hfor hin =>
      obtain ⟨name, hn, hcall⟩ := hfor.callsFor.call hin
      obtain ⟨key, hf⟩ := Helpers.mem_toList.mp hf
      exact ⟨name, hcall, hdone.closed.calls key _ hf hn⟩
  obtain ⟨f, hf, rfl⟩ := hdone.closed.exists_named.mpr (hdone.finished hbegun)
  exact ⟨f, hf, hcall⟩

/-- In a run without failures the helpers of all calls are built for the pairs that they are called
for exactly if pairs whose helpers share a name share the body. Calls stand for pairs one by one,
and helpers are built for no other pairs. -/
theorem helpers_built_iff (hrun : CleanCalls c calls h) :
    (∀ q ∈ calls, ∀ way, CallsFor (c.direction way) (q.func way).calls (q.requests c way)) ∧
    (∀ f ∈ h.toList, ∃ way r, CallsPair c calls h way r ∧ BuiltFor (c.direction way) r f ∧
      CallsFor (c.direction way) f.calls ((c.direction way).helperBody r).2) ∧
    ((∀ way r, CallsPair c calls h way r → ∃ f ∈ h.toList, BuiltFor (c.direction way) r f) ↔
      ∀ way r q name, CallsPair c calls h way r → CallsPair c calls h way q →
        (c.direction way).helperName? r.src = some name →
        (c.direction way).helperName? q.src = some name →
        ((c.direction way).helperBody r).1 = ((c.direction way).helperBody q).1) := by
  have hdone := hrun.cleanRun.complete
  refine ⟨?_, ?_, ?_, ?_⟩
  · intro q hq way
    exact hrun.callsFor hq way
  · intro f hf
    obtain ⟨way, r, hr, hfor⟩ := hdone.traced f hf
    exact ⟨way, r, hr, hfor, hfor.callsFor⟩
  · intro hall way r q name hr hq hname hname'
    obtain ⟨f, hf, hfor⟩ := hall way r hr
    obtain ⟨g, hg, hfor'⟩ := hall way q hq
    have hsame : f.name = g.name :=
      (Option.some.inj (hfor.name.symm.trans hname)).trans
        (Option.some.inj (hname'.symm.trans hfor'.name))
    rw [hfor.body, hfor'.body, hdone.closed.unique hf hg hsame]
  · intro hshare way r hr
    obtain ⟨f, hf, hcall⟩ := CallsPair.named hrun hr
    -- the helper of that name was built for some pair, which shares its name with `r`
    obtain ⟨way', q, hq, hfor⟩ := hdone.traced f hf
    obtain rfl := helperName_way hcall.name hfor.name
    exact ⟨f, hf, hcall.name, hfor.params,
      (hshare way r q f.name hr hq hcall.name hfor.name).trans hfor.body⟩

open Sample in
/-- In the run for boxes all calls are of the helper for boxes. -/
theorem helpers_built_boxes : ∃ q h, CleanCalls converter [q] h ∧
    CallsPair converter [q] h .toHub boxRequest ∧
    ∃ f ∈ h.toList, BuiltFor (converter.direction .toHub) boxRequest f := by
  obtain ⟨q, h, hs, hh, hd, hrun⟩ := functions_returned
  have hrequests : ∀ way, q.requests converter way = [boxRequest] := by
    intro way
    obtain ⟨_, hbody⟩ := functions_body way
    unfold Call.requests Call.dest
    rw [hs, hh, hd, show (way.back.pick spokeA hubA).names.camel = "A" by cases way <;> rfl, hbody]
  have hroots : ([q].flatMap fun q => q.roots converter) =
      [(.toHub, boxRequest), (.fromHub, boxRequest)] := by
    rw [List.flatMap_singleton, Call.roots, hrequests, hrequests]
    rfl
  have hcalls : ∀ {way r}, CallsPair converter [q] h way r → r = boxRequest := by
    intro way r hr
    refine box_requested (fun p hp => ?_) hr.requested
    rw [hroots] at hp
    simp only [List.mem_cons, List.not_mem_nil, or_false] at hp
    rcases hp with rfl | rfl <;> rfl
  have hbox : CallsPair converter [q] h .toHub boxRequest := by
    refine .root ?_
    rw [hroots]
    exact List.mem_cons_self ..
  refine ⟨q, h, hrun, hbox, (helpers_built_iff hrun).2.2.mpr ?_ .toHub boxRequest hbox⟩
  intro way r r' name hr hr' _ _
  rw [hcalls hr, hcalls hr']

namespace Sample

/-- Two fields that hold nodes in the spoke; the second one holds knots in the hub. -/
def twoRoots : ResourceDelta :=
  ⟨[nodeDelta "First" "first" "Node" "Node", nodeDelta "Second" "second" "Node" "Knot"], []⟩

/-- The class that code allocates first. -/
def allocated? : List Stmt → Option String
  | .guard _ (.allocate _ (.struct type) :: _) _ :: _ => some type.name
  | _ => none

theorem node_fromHub : ((nodes ∅).direction .fromHub).helperName? "Node" =
    some "_copy_node_from_hub" := by
  have htext : "_copy_node_" ++ "from_hub" = "_copy_node_from_hub" := by simp
  rw [helperName_node]
  exact congrArg some htext

/-- On the way to the hub both fields are copied with the helper for the first one. -/
theorem twoRoots_toHub : ∃ toHub h body,
    (nodes ∅).function {} .toHub holder holder twoRoots = (.ok toHub, h) ∧
    h.begun = ["_copy_node_to_hub"] ∧
    (((nodes ∅).direction .toHub).functionBody .toHub "A" twoRoots).run.2 =
      [⟨"Node", "Node"⟩, ⟨"Node", "Knot"⟩] ∧
    ((nodes ∅).direction .toHub).helperBody ⟨"Node", "Node"⟩ = (.ok body, [⟨"Node", "Node"⟩]) ∧
    h.table.get? "_copy_node_to_hub" =
      some { name := "_copy_node_to_hub", params := [("src", none)], body } := by
  have hcode : outline (((nodes ∅).direction .toHub).functionBody .toHub "A" twoRoots).run =
      (true, [⟨"Node", "Node"⟩, ⟨"Node", "Knot"⟩]) := by
    cbv
  have hbody : outline (((nodes ∅).direction .toHub).helperBody ⟨"Node", "Node"⟩) =
      (true, [⟨"Node", "Node"⟩]) := by
    cbv
  obtain ⟨body, hbody⟩ := of_outline_ok hbody
  have hserve := serve_lone_ok (r := ⟨"Node", "Node"⟩) (h := {}) node_toHub rfl (by simp) hbody
    [.need ⟨"Node", "Knot"⟩]
  rw [serve_known (r := ⟨"Node", "Knot"⟩) node_toHub rfl (by simp), serve] at hserve
  obtain ⟨toHub, hto, -⟩ := holder_function (by decide) hcode hserve
  exact ⟨toHub, _, body, hto, rfl, (Prod.mk.inj hcode).2, hbody, by rw [Table.get?_insert, if_pos rfl]⟩

theorem twoRoots_fromHub {h : Helpers} (hnode : "_copy_node_from_hub" ∉ h.begun)
    (hknot : "_copy_knot_from_hub" ∉ h.begun) : ∃ fromHub h',
      (nodes ∅).function h .fromHub holder holder twoRoots = (.ok fromHub, h') := by
  have hcode : outline (((nodes ∅).direction .fromHub).functionBody .fromHub "A" twoRoots).run =
      (true, [⟨"Node", "Node"⟩, ⟨"Knot", "Node"⟩]) := by
    cbv
  have hbody : outline (((nodes ∅).direction .fromHub).helperBody ⟨"Node", "Node"⟩) =
      (true, [⟨"Node", "Node"⟩]) := by
    cbv
  have hbody' : outline (((nodes ∅).direction .fromHub).helperBody ⟨"Knot", "Node"⟩) =
      (true, [⟨"Knot", "Node"⟩]) := by
    cbv
  obtain ⟨body, hbody⟩ := of_outline_ok hbody
  obtain ⟨body', hbody'⟩ := of_outline_ok hbody'
  have hserve := serve_lone_ok (r := ⟨"Node", "Node"⟩) node_fromHub rfl hnode hbody
    [.need ⟨"Knot", "Node"⟩]
  rw [serve_lone_ok (r := ⟨"Knot", "Node"⟩) knot_fromHub rfl (by simpa using hknot) hbody', serve]
    at hserve
  obtain ⟨fromHub, hfrom, -⟩ := holder_function (by decide) hcode hserve
  exact ⟨fromHub, _, hfrom⟩

end Sample

open Sample in
/-- The helper that the second field calls for knots makes nodes, as the first field needs it. -/
theorem helper_of_other_pair : ∃ q h, CleanCalls (nodes ∅) [q] h ∧
    (q.spoke = holder ∧ q.hub = holder ∧ q.delta = twoRoots) ∧
    CallsPair (nodes ∅) [q] h .toHub ⟨"Node", "Knot"⟩ ∧
    ¬ ∃ f ∈ h.toList, BuiltFor ((nodes ∅).direction .toHub) ⟨"Node", "Knot"⟩ f := by
  obtain ⟨toHub, h₁, body, hto, hbegun, hrequests, hbody, htable⟩ := twoRoots_toHub
  obtain ⟨fromHub, h, hfrom⟩ := twoRoots_fromHub (h := h₁) (by rw [hbegun]; decide)
    (by rw [hbegun]; decide)
  have hrun : CleanCalls (nodes ∅) [⟨holder, holder, twoRoots, toHub, fromHub⟩] h :=
    .call .start (functions_of_function rfl hto hfrom)
  have hkept : h.table.get? "_copy_node_to_hub" =
      some { name := "_copy_node_to_hub", params := [("src", none)], body } := by
    obtain ⟨hclosed, -⟩ := function_grows Helpers.closed_start hto
    obtain ⟨-, hgrows⟩ := function_grows hclosed hfrom
    exact hgrows.kept _ _ htable
  refine ⟨_, h, hrun, ⟨rfl, rfl, rfl⟩, .root ?_, ?_⟩
  · have hin : ⟨"Node", "Knot"⟩ ∈
        (((nodes ∅).direction .toHub).functionBody .toHub "A" twoRoots).run.2 := by
      rw [hrequests]
      exact List.mem_cons_of_mem _ (List.mem_singleton.mpr rfl)
    rw [List.flatMap_singleton]
    exact List.mem_append_left _ (List.mem_map_of_mem hin)
  · rintro ⟨f, hf, hfor⟩
    have hclass : (((nodes ∅).direction .toHub).helperBody ⟨"Node", "Node"⟩).1.toOption.bind
        allocated? = some "Node" := by
      cbv
    have hclass' : (((nodes ∅).direction .toHub).helperBody ⟨"Node", "Knot"⟩).1.toOption.bind
        allocated? = some "Knot" := by
      cbv
    obtain ⟨key, hf⟩ := Helpers.mem_toList.mp hf
    obtain rfl : key = "_copy_node_to_hub" :=
      (hrun.cleanRun.complete.closed.named key f hf).symm.trans
        (Option.some.inj (hfor.name.symm.trans node_toHub))
    cases hkept.symm.trans hf
    rw [hbody] at hclass
    rw [hfor.body] at hclass'
    exact absurd (hclass.symm.trans hclass') (by decide)

end ResourceVersions.Conversion
