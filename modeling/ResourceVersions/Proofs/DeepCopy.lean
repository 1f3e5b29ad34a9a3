import Mathlib
import ResourceVersions.Proofs.BuiltHelpers
import ResourceVersions.Proofs.ModuleClasses

/-! # Emitted code is a deep copy

The code of a copy, together with the helpers that its run has generated, stores a copy of every
value exactly once. Helpers call each other on ever smaller values, so some depth of calls is
enough. -/
namespace ResourceVersions

open Code

section Agreement

variable {P : String → Prop} {f g : Frame} {call : String → Value → Option Value}
  {classes : Classes}

namespace Code

/-- Outcomes that differ at most in the variables of a set. -/
inductive Outcome.SameOff (P : String → Prop) : Outcome → Outcome → Prop where
  | running {f g : Frame} : AgreeOff P f g → SameOff P (.running f) (.running g)
  | returned (v : Value) : SameOff P (.returned v) (.returned v)

theorem returned_of_rel {v : Value} {o : Option Outcome}
    (h : Option.Rel (Outcome.SameOff P) (some (.returned v)) o) : o = some (.returned v) := by
  cases h with
  | some h =>
    cases h
    rfl

theorem AgreeOff.set_both (h : AgreeOff P f g) (x : String) (v : Value) :
    AgreeOff P (f.set x v) (g.set x v) := by
  intro y hy
  unfold Frame.set
  split
  · rfl
  · exact h y hy

theorem rel_bind {α β γ δ : Type} {R : α → β → Prop} {S : γ → δ → Prop} {x : Option α}
    {y : Option β} {k : α → Option γ} {l : β → Option δ} (h : Option.Rel R x y)
    (hkl : ∀ a b, R a b → Option.Rel S (k a) (l b)) : Option.Rel S (x.bind k) (y.bind l) := by
  cases h with
  | none => exact .none
  | some h => exact hkl _ _ h

theorem rel_bind_same {α γ δ : Type} {S : γ → δ → Prop} {x y : Option α} {k : α → Option γ}
    {l : α → Option δ} (h : x = y) (hkl : ∀ a, Option.Rel S (k a) (l a)) :
    Option.Rel S (x.bind k) (y.bind l) := by
  subst h
  cases x with
  | none => exact .none
  | some a => exact hkl a

/-- Storing in a place that starts from another variable keeps frames in agreement. -/
theorem Expr.assign_congr {e : Expr} (he : e.Avoids P) (h : AgreeOff P f g) (v : Value) :
    Option.Rel (AgreeOff P) (e.assign call v f) (e.assign call v g) := by
  induction e generalizing v with
  | name x => exact .some (h.set_both x v)
  | attr base a ih =>
    have hbase : base.eval call g = base.eval call f := Expr.eval_congr he h
    simp only [Expr.assign, hbase]
    cases base.eval call f with
    | none => exact .none
    | some o =>
      cases ho : o.setAttr? a v with
      | none => simp [ho]
      | some o' => simpa [ho] using ih he o'
  | _ => exact .none

end Code

namespace Conversion

/-- Storing a value gives the same in frames that agree off variables that it avoids. -/
theorem Target.store_congr {target : Target} (ht : target.Avoids P) (h : AgreeOff P f g)
    (w : Value) : Option.Rel (Outcome.SameOff P)
      ((target.store (.const w)).exec classes call f)
      ((target.store (.const w)).exec classes call g) := by
  cases target with
  | assign e => exact rel_bind (Expr.assign_congr ht h w) fun _ _ hrel => .some (.running hrel)
  | append e =>
    refine rel_bind_same (Expr.eval_congr ht h).symm fun c => ?_
    refine rel_bind_same rfl fun c' => ?_
    exact rel_bind (Expr.assign_congr ht h c') fun _ _ hrel => .some (.running hrel)
  | setItem e k =>
    refine rel_bind_same (Expr.eval_congr ht.2 h).symm fun key => ?_
    refine rel_bind_same (Expr.eval_congr ht.1 h).symm fun c => ?_
    refine rel_bind_same rfl fun c' => ?_
    exact rel_bind (Expr.assign_congr ht.1 h c') fun _ _ hrel => .some (.running hrel)
  | ret => exact .some (.returned w)

end Conversion

end Agreement

namespace Conversion

open Direction

variable {c : Converter} {way : Way} {roots : List (Way × HelperRequest)} {h h' : Helpers}
  {classes : Classes} {t : Table Func}

/-- The helpers of a complete table are right for values below the depth of calls. -/
theorem callHelper_serves (hd : (c.direction way).Grounded classes) (hone : OnePair c roots)
    (hdone : Complete c roots h) (ht : ∀ name f, h.table.get? name = some f → t.get? name = some f)
    (fuel : Nat) {r : HelperRequest} (hr : Requested c roots way r)
    (hknown : Known (c.direction way) h r) :
    Serves (callHelper classes t fuel) (c.direction way) fuel r := by
  induction fuel generalizing r with
  | zero => exact fun _ _ _ _ _ _ _ hlt => absurd hlt (by omega)
  | succ fuel ih =>
    intro names shape v hnames hshape hsame hconf hlt
    have hname : (c.direction way).helperName? r.src =
        some ((c.direction way).helperName names) := by
      rw [helperName?, Names.of?_eq hnames]
      rfl
    obtain ⟨helper, hget, hfor, hrequests⟩ := hdone.helper hone hr hknown hname hshape
    obtain ⟨requests, hemitted, hcode⟩ := copyFrom_emits (Prod.ext hfor.body rfl)
    obtain rfl : ((c.direction way).helperBody r).2 = requests := hemitted
    let frame := Frame.ofArgs ["src"] [v]
    have hsrc : (Expr.name "src").Avoids (Scratch 1) := not_scratch (by decide)
    obtain ⟨w, hw, g, -, hrun | ⟨-, hkeep, -⟩⟩ := hcode.copies (f := frame) hd
      (fun q hq => (ih (hrequests q hq).1 (hrequests q hq).2)) hsame hsrc hconf
      (Nat.le_of_lt_succ hlt) (fun hne => absurd rfl hne) rfl
    · refine ⟨w, ?_, hw⟩
      rw [callHelper, ht _ _ hget]
      have hrun : execAll classes (callHelper classes t fuel) helper.body frame =
          some (.returned w) := hrun
      simp only [Option.bind_eq_bind, Option.bind_some]
      have hframe : Frame.ofArgs (helper.params.map Prod.fst) [v] = frame := by
        rw [hfor.params]
        rfl
      rw [hframe, hrun]
      rfl
    · cases hkeep

/-- Code that copies a value between shapes of one structure performs the given store exactly
once, with a value of the same tree and of the destination's classes; a null may be left out
where it need not be kept. This holds together with the helpers of the run, in every table that
still has them, if no call of the run failed and each helper name stands for one pair. -/
theorem emitted_copy_faithful (hspoke : c.spoke.Built) (hhub : c.hub.Built)
    (hspokeAttrs : c.spoke.DistinctAttrs) (hhubAttrs : c.hub.DistinctAttrs)
    (hrun : CleanRun c roots h) {active passed : List String} {value : Expr} {x y : String}
    {depth : Nat} {target : Target} {keepNone : Bool} {code : List Stmt}
    (hemit : (c.direction way).emit h ((c.direction way).copyFrom active passed value x y depth
      target keepNone) = (.ok code, h'))
    (hone : OnePair c (roots ++ ((c.direction way).copyFrom active passed value x y depth target
      keepNone).run.2.map (way, ·)))
    (ht : ∀ name f, h'.table.get? name = some f → t.get? name = some f)
    (hsame : Api.sameStructure (c.direction way).src.api (c.direction way).dst.api x y = true)
    (hvalue : value.Avoids (Scratch depth)) (htarget : target.Avoids (Scratch depth))
    {v : Value} (hconf : (c.direction way).srcSide.Conforms x v) {fuel : Nat}
    (hfuel : v.size < fuel) {f : Frame}
    (hv : value.eval (callHelper c.classes t fuel) f = some v) :
    ∃ w, Copied (c.direction way).dstSide y v w ∧
      let run := execAll c.classes (callHelper c.classes t fuel)
      (Option.Rel (Outcome.SameOff (Scratch depth)) (run [target.store (.const w)] f)
          (run code f) ∨
        v = .null ∧ keepNone = false ∧
          Option.Rel (Outcome.SameOff (Scratch depth)) (run [] f) (run code f)) := by
  have hd := c.grounded hspoke hhub hspokeAttrs hhubAttrs way
  have hdone := (hrun.emit way hemit).complete
  obtain ⟨hresult, -⟩ := emit_ok hemit
  obtain ⟨requests, hrequests, hcode⟩ := copyFrom_emits (Prod.ext hresult rfl)
  have hrequests : ((c.direction way).copyFrom active passed value x y depth target
      keepNone).run.2 = requests := hrequests
  have hcalls : ∀ r ∈ requests, Serves (callHelper c.classes t fuel) (c.direction way) fuel r := by
    intro r hr
    have hroot : (way, r) ∈ roots ++ ((c.direction way).copyFrom active passed value x y depth
        target keepNone).run.2.map (way, ·) := by
      refine List.mem_append_right _ (List.mem_map_of_mem ?_)
      rw [hrequests]
      exact hr
    exact callHelper_serves hd hone hdone ht fuel (.root hroot) (hdone.known way r hroot)
  obtain ⟨w, hw, g, hg, hstore⟩ :=
    hcode.copies hd hcalls hsame hvalue hconf (by omega) (fun _ => hfuel) hv
  refine ⟨w, hw, ?_⟩
  rcases hstore with hstore | ⟨hnull, hkeep, hstore⟩
  · refine .inl ?_
    rw [execAll_singleton, hstore]
    exact target.store_congr htarget hg w
  · refine .inr ⟨hnull, hkeep, ?_⟩
    rw [hstore]
    exact .some (.running hg)

namespace Sample

def ref (name : String) : ShapeRef := ⟨name, ""⟩
def plainShape (form : Form) : Shape := ⟨form, [], false, ""⟩
def create : Operation := ⟨"CreateA", some (ref "In"), none⟩

/-- A box holds a text and perhaps another box. -/
def boxMembers : Table ShapeRef := .ofList [("Id", ref "Text"), ("Up", ref "Box")]

/-- An API with one resource, whose create operation takes the given members. -/
def api (members : List (String × ShapeRef)) : Api where
  serviceId := ""
  apiVersion := ""
  shapes := .ofList [("In", plainShape (.struct (.ofList members))),
    ("Box", plainShape (.struct boxMembers)), ("Text", plainShape (.scalar .string))]
  operations := .ofList [("CreateA", create)]

def names (camel lower : String) : Names := ⟨camel, camel, lower, lower⟩

def boxAttrs : List AttrDef :=
  [⟨names "Id" "id", ref "Text", false⟩, ⟨names "Up" "up", ref "Box", false⟩]

def boxDef : TypeDef := ⟨names "Box" "box", false, "", boxAttrs⟩

def resource (a : Api) (fields : List (Names × ShapeRef)) : Resource :=
  let r : Resource := { names := names "A" "a", ops := .ofApi a [] "A" create, settings := {} }
  let r := fields.foldl (fun r f => r.addSpec f.1 (some f.2)) r
  boxAttrs.foldl (fun r a => r.addNested ("Box." ++ a.names.camel) a.names a.ref) r

def model (version : String) (fields : List (Names × ShapeRef)) : VersionModel :=
  let a := api (fields.map fun f => (f.1.camel, f.2))
  { version, api := a, config := {}, group? := none, resources := [resource a fields]
    typeDefs := [boxDef], enumDefs := [], secretMembers := ∅, failures := [] }

def boxField : Names × ShapeRef := (names "Box" "box", ref "Box")
def idField : Names × ShapeRef := (names "Id" "id", ref "Text")

def spoke : VersionModel := model "v1" [boxField]
def hub : VersionModel := model "v2" [boxField, idField]

/-- A model of the sample is built if its parts are what building them gives. -/
theorem built_model {version : String} {fields : List (Names × ShapeRef)} {m : VersionModel}
    (hm : m = model version fields)
    (hall : (Resource.buildAll m.api {} .stop).run = (.ok (m.resources, []), []))
    (hsecrets : (Resource.resolveSecrets m.api m.resources .stop).run = (.ok (∅, []), []))
    (hreach : m.api.reachableStructures (Resource.fieldShapes m.resources) =
      .ok (.ofList [("Box", plainShape (.struct boxMembers))]))
    (hpayloads : m.api.payloads.contains "Box" = false)
    (hfree : (Types.reserved m.resources).contains "Box" = false)
    (henums : Types.enumDefs m.api m.resources = .ok []) : m.Built := by
  have hclass : Types.classNames (Types.reserved m.resources) "Box" =
      .ok (names "Box" "box", false) := by
    have hnames : Names.of "Box" = .ok (names "Box" "box") := by cbv
    unfold Types.classNames
    rw [hnames]
    dsimp only [bind, Except.bind, names]
    rw [hfree]
    rfl
  have hdef : Types.addTypeDef (Types.reserved m.resources) ∅ []
      ("Box", plainShape (.struct boxMembers)) = .ok [boxDef] := by
    have hattrs : Types.attrsOf boxMembers [] = .ok boxAttrs := by cbv
    unfold Types.addTypeDef
    dsimp only
    rw [hclass]
    exact congrArg (Except.map fun attrs => [{ boxDef with attrs }]) hattrs
  have htypes : Types.typeDefs m.api m.resources ∅ = .ok [boxDef] := by
    unfold Types.typeDefs
    rw [hreach]
    have hneeded : (Table.ofList [("Box", plainShape (.struct boxMembers))]).sorted.filter
        (fun e => !(m.api.payloads.contains e.1 || e.2.isException)) =
          [("Box", plainShape (.struct boxMembers))] := by
      rw [show (Table.ofList [("Box", plainShape (.struct boxMembers))]).sorted =
        [("Box", plainShape (.struct boxMembers))] from List.mergeSort_singleton _]
      simpa [plainShape] using hpayloads
    dsimp only [Except.mapError, bind, Except.bind]
    rw [hneeded, List.foldlM_cons, hdef]
    exact congrArg Except.ok (List.mergeSort_singleton _)
  refine ⟨version, m.api, {}, none, .stop, ?_⟩
  have hrun : ∃ records, runFrom (VersionModel.build version m.api {} none .stop) [] =
      (.ok m, records) := by
    unfold VersionModel.build
    rw [runFrom_bind_eq (show runFrom _ [] = (.ok (m.resources, []), []) from hall)]
    dsimp only
    rw [runFrom_bind_eq (show runFrom _ [] = (.ok (∅, []), []) from hsecrets)]
    subst hm
    dsimp only
    rw [show ((model version fields).resources.filter fun r =>
      !(List.map Failure.name ([] ++ [])).contains r.names.camel) =
        (model version fields).resources from rfl]
    rw [show Types.typeDefs (model version fields).api (model version fields).resources ∅ = _
      from htypes, henums]
    exact ⟨_, rfl⟩
  obtain ⟨records, hrun⟩ := hrun
  exact congrArg Prod.fst hrun

theorem spoke_built : spoke.Built := by
  apply built_model (m := spoke) rfl
  · cbv
  · cbv
  · cbv
  · decide
  · decide
  · cbv

theorem hub_built : hub.Built := by
  apply built_model (m := hub) rfl
  · cbv
  · cbv
  · cbv
  · decide
  · decide
  · cbv

def converter : Converter := { spoke, hub }

def boxRequest : HelperRequest := ⟨"Box", "Box"⟩

/-- Whether code was generated, and the requests that were made. -/
def outline {α : Type} (run : Except Error α × List HelperRequest) : Bool × List HelperRequest :=
  (run.1.isOk, run.2)

theorem of_outline_ok {α : Type} {run : Except Error α × List HelperRequest}
    {requests : List HelperRequest} (h : outline run = (true, requests)) :
    ∃ a, run = (.ok a, requests) := by
  obtain ⟨result, requests'⟩ := run
  obtain ⟨hok, rfl⟩ := Prod.mk.inj h
  cases result with
  | ok a => exact ⟨a, rfl⟩
  | error e => cases hok

/-- Copying a box asks for the helper that copies the box inside it. -/
theorem box_body (way : Way) : ∃ body, (converter.direction way).helperBody boxRequest =
    (.ok body, [boxRequest]) := by
  have hbody : outline ((converter.direction way).helperBody boxRequest) = (true, [boxRequest]) := by
    cases way <;> cbv
  exact of_outline_ok hbody

theorem box_requested {roots : List (Way × HelperRequest)} (hroots : ∀ p ∈ roots, p.2 = boxRequest)
    {way : Way} {r : HelperRequest} (h : Requested converter roots way r) : r = boxRequest := by
  induction h with
  | root hr => exact hroots _ hr
  | nested _ hq ih =>
    subst ih
    obtain ⟨body, hbody⟩ := box_body ‹_›
    rw [hbody] at hq
    exact List.mem_singleton.mp hq

theorem box_onePair {roots : List (Way × HelperRequest)}
    (hroots : ∀ p ∈ roots, p.2 = boxRequest) : OnePair converter roots := by
  intro way r q name hr hq _ _
  rw [box_requested hroots hr, box_requested hroots hq]

theorem distinct_attrs {version : String} {fields : List (Names × ShapeRef)} :
    (model version fields).DistinctAttrs := by
  intro x d hd
  obtain rfl := List.mem_singleton.mp (List.mem_of_find?_eq_some hd)
  decide

/-- Two boxes, one in the other. -/
def boxes (s : Side) : Value :=
  let box := fun id inner => s.object boxDef [(boxAttrs[0], id), (boxAttrs[1], inner)]
  box (.str "outer") (box .null .null)

theorem boxes_conform {s : Side} {version : String} {fields : List (Names × ShapeRef)}
    (hs : s.model = model version fields) : s.Conforms "Box" (boxes s) := by
  have hbox : ∀ id inner, s.Conforms "Text" id → s.Conforms "Box" inner →
      s.Conforms "Box" (s.object boxDef [(boxAttrs[0], id), (boxAttrs[1], inner)]) := by
    intro id inner hid hinner
    have hshape : s.model.api.shape? "Box" = some (plainShape (.struct boxMembers)) := by
      rw [hs]
      rfl
    refine .object hshape rfl (d := boxDef) ?_ rfl ?_ ?_
    · rw [hs]
      rfl
    · simp [boxAttrs]
    · simp [boxAttrs, ref, hid, hinner]
  have htext : s.model.api.shape? "Text" = some (plainShape (.scalar .string)) := by
    rw [hs]
    rfl
  exact hbox _ _ (.scalar htext rfl trivial) (hbox _ _ (.null _) (.null _))

/-- Code that asks for the helper of boxes gets it, with nothing else begun. -/
theorem box_served (way : Way) {h : Helpers} {work : Emit (List Stmt)} {code : List Stmt}
    (hnew : (converter.direction way).helperName (names "Box" "box") ∉ h.begun)
    (hwork : work.run = (.ok code, [boxRequest])) : ∃ h',
      (converter.direction way).emit h work = (.ok code, h') ∧
        h'.begun = (converter.direction way).helperName (names "Box" "box") :: h.begun := by
  obtain ⟨body, hbody⟩ := box_body way
  have hname : (converter.direction way).helperName? boxRequest.src =
      some ((converter.direction way).helperName (names "Box" "box")) := by
    have hnames : Names.of? "Box" = some (names "Box" "box") := by cbv
    unfold helperName? boxRequest
    rw [hnames]
    rfl
  have hshape : (converter.direction way).src.api.shapes.get? boxRequest.src =
      some (plainShape (.struct boxMembers)) := by
    cases way <;> rfl
  unfold emit
  rw [hwork]
  dsimp only [List.map]
  rw [serve_new hname hshape hnew, hbody]
  dsimp only [tasksOf, List.map, List.append_nil, List.cons_append, List.nil_append]
  rw [serve_known hname hshape (by simp)]
  simp only [serve]
  exact ⟨_, rfl, rfl⟩

/-- The code that copies a box, with its helper. -/
theorem box_emit (way : Way) : ∃ code h, (converter.direction way).emit {}
    ((converter.direction way).copyFrom [] [] (.name "src") "Box" "Box" 1 .ret true) =
      (.ok code, h) := by
  obtain ⟨body, hbody⟩ := box_body way
  obtain ⟨h, hemit, -⟩ := box_served way (h := {}) (by simp) hbody
  exact ⟨body, h, hemit⟩

end Sample

open Sample in
/-- The copy of two boxes by the code emitted for them. -/
theorem emitted_copy_faithful_boxes : ∃ code h w,
    (converter.direction .toHub).emit {} ((converter.direction .toHub).copyFrom [] [] (.name "src")
      "Box" "Box" 1 .ret true) = (.ok code, h) ∧
    Copied ⟨hub, some "hub"⟩ "Box" (boxes ⟨spoke, none⟩) w ∧
    execAll converter.classes (callHelper converter.classes h.table
      ((boxes ⟨spoke, none⟩).size + 1)) code
        (Frame.ofArgs ["src"] [boxes ⟨spoke, none⟩]) = some (.returned w) := by
  obtain ⟨code, h, hemit⟩ := box_emit .toHub
  obtain ⟨body, hbody⟩ := box_body .toHub
  have hrequests : Emit.run ((converter.direction .toHub).copyFrom [] [] (.name "src") "Box" "Box"
      1 .ret true) = (.ok body, [boxRequest]) := hbody
  have hsame : Api.sameStructure spoke.api hub.api "Box" "Box" = true := by cbv
  obtain ⟨w, hw, hrun⟩ := emitted_copy_faithful (c := converter) spoke_built
    hub_built distinct_attrs distinct_attrs .start hemit
    (box_onePair (by simp [hrequests])) (fun _ _ hf => hf) hsame
    (not_scratch (by decide)) trivial (boxes_conform rfl) (Nat.lt_succ_self _)
    (f := Frame.ofArgs ["src"] [boxes ⟨spoke, none⟩]) rfl
  refine ⟨code, h, w, hemit, hw, ?_⟩
  rcases hrun with hrun | ⟨hnull, -⟩
  · exact returned_of_rel hrun
  · cases hnull

end Conversion

end ResourceVersions
