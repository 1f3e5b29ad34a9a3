import ResourceVersions.Proofs.CopyCode
import ResourceVersions.Proofs.FieldLog
import ResourceVersions.Proofs.NormalNames

/-! # The passes that fill a resource

What the four passes write to the Spec and the Status, and why they do not write the rest: a path
or a key is taken, or there is no reference. Fields below these are written under paths with a
separator, which no key of the Spec or the Status holds. -/
namespace ResourceVersions

namespace Resource

variable {api : Api} {r r' : Resource} {ws : List FieldWrite} {o : Bool} {k : String}

section Members

/-- The key of a member of a payload. -/
def memberKey (r : Resource) (member : String) : String :=
  Name.camelOf (r.inputRename r.ops.create.name member)

def memberWrite (observed : Bool) (r : Resource) (e : String × ShapeRef) : FieldWrite :=
  ⟨observed, r.inputRename r.ops.create.name e.1, some e.2⟩

def attributeWrite (e : String × FieldConfig) : FieldWrite := ⟨e.2.isReadOnly, e.1, none⟩

/-- The members of the create input that become fields. -/
def inputMembers (api : Api) (r : Resource) : List (String × ShapeRef) :=
  match r.ops.create.input?.bind fun ref => api.shape? ref.target with
  | none => []
  | some shape => r.payloadMembers shape.form.members

/-- The attributes that become fields, if there is an input to take them from. -/
def attributes (r : Resource) : List (String × FieldConfig) :=
  if r.ops.create.input?.isSome && r.settings.unpacksAttributes then
    r.settings.fields.sorted.filter fun e => e.2.isAttribute
  else []

/-- The members of the create output that become fields. -/
def outputMembers (api : Api) (r : Resource) : List (String × ShapeRef) :=
  match r.outputMembers? api with
  | .ok (some members) => r.payloadMembers members
  | _ => []

/-- The writes for the create input. -/
def inputWrites (api : Api) (r : Resource) : List FieldWrite :=
  (r.inputMembers api).map (r.memberWrite false) ++ r.attributes.map attributeWrite

theorem memberWrite_congr (hs : r'.settings = r.settings) (ho : r'.ops = r.ops) (o : Bool) :
    r'.memberWrite o = r.memberWrite o := by
  unfold memberWrite inputRename
  rw [hs, ho]

theorem addInputMember_write {e : String × ShapeRef} (h : r.addInputMember api e = .ok r') :
    r' = r.write (r.memberWrite false e) := by
  obtain ⟨-, -, h⟩ := Fallible.bind_ok_iff.mp h
  obtain ⟨names, hnames, h⟩ := Fallible.bind_ok_iff.mp h
  cases h
  rw [Names.of_ok hnames]
  rfl

theorem unpackAttributes_wrote (h : r.unpackAttributes = .ok r') :
    Wrote ((r.settings.fields.sorted.filter fun e => e.2.isAttribute).map attributeWrite) r r' ∧
      r'.identifier? = r.identifier? := by
  apply wrote_of_steps (g := fun _ => attributeWrite)
  · intro a _
    rfl
  · refine Fallible.foldlM_steps ?_ h
    rintro a ⟨path, fc⟩ a' hstep
    obtain ⟨names, hnames, hstep⟩ := Fallible.bind_ok_iff.mp hstep
    cases hstep
    rw [Names.of_ok hnames]
    rfl

/-- The create input is written member by member, and the attributes behind it. -/
theorem addInputMembers_wrote (h : r.addInputMembers api = .ok r') :
    Wrote (r.inputWrites api) r r' ∧ r'.identifier? = r.identifier? := by
  unfold addInputMembers at h
  unfold inputWrites inputMembers attributes
  cases hin : r.ops.create.input? with
  | none =>
    rw [hin] at h
    cases h
    exact ⟨.nil r.identifier?, rfl⟩
  | some ref =>
    rw [hin] at h
    obtain ⟨shape, hshape, h⟩ := Fallible.bind_ok_iff.mp h
    obtain ⟨r₁, hmembers, h⟩ := Fallible.bind_ok_iff.mp h
    have hshape : api.shape? ref.target = some shape :=
      Conversion.Direction.shape_ok (Fallible.mapError_ok_iff.mp hshape)
    obtain ⟨hwrote, hidentifier⟩ := wrote_of_steps (g := memberWrite false)
      (fun a ha => memberWrite_congr ha.settings ha.ops false)
      (Fallible.foldlM_steps (fun a e a' => addInputMember_write) hmembers)
    simp only [Option.bind_some, hshape, Option.isSome_some, Bool.true_and]
    split at h
    · rename_i hunpacks
      rw [hwrote.settings] at hunpacks
      obtain ⟨hattributes, hidentifier'⟩ := unpackAttributes_wrote h
      rw [hwrote.settings] at hattributes
      rw [if_pos hunpacks]
      exact ⟨hwrote.append hattributes, hidentifier'.trans hidentifier⟩
    · rename_i hunpacks
      rw [hwrote.settings] at hunpacks
      cases h
      rw [if_neg hunpacks, List.map_nil, List.append_nil]
      exact ⟨hwrote, hidentifier⟩

end Members

section Configured

/-- Where a configured field looks for its reference. -/
def sourceRef? (api : Api) (observed : Bool) (source : FieldSource) : Option ShapeRef :=
  if observed then api.outputRef? source.operation source.path
  else api.inputRef? source.operation source.path

/-- A configured field of the Spec or of the Status that takes its reference from elsewhere. -/
structure Sourced (api : Api) (observed : Bool) (path : String) (fc : FieldConfig)
    (ref : ShapeRef) : Prop where
  top : FieldPath.isNested path = false
  readOnly : fc.isReadOnly = observed
  plain : fc.isAttribute = false
  found : ∃ source, fc.source? = some source ∧ sourceRef? api observed source = some ref

theorem Sourced.unique {path : String} {fc : FieldConfig} {ref ref' : ShapeRef}
    (h : Sourced api o path fc ref) (h' : Sourced api o path fc ref') : ref = ref' := by
  obtain ⟨s, hs, href⟩ := h.found
  obtain ⟨s', hs', href'⟩ := h'.found
  cases hs.symm.trans hs'
  exact Option.some.inj (href.symm.trans href')

/-- A configured field is written unless its path is taken. -/
def configuredRule (api : Api) (o : Bool) : Rule (String × FieldConfig) where
  writes a e w := e.1 ∉ (a.part o).keys ∧ ∃ ref, Sourced api o e.1 e.2 ref ∧ w = ⟨o, e.1, some ref⟩
  skips a e := e.1 ∈ (a.part o).keys ∨ ∀ ref, ¬ Sourced api o e.1 e.2 ref

theorem addConfiguredSpec_step (api : Api) (r : Resource) (e : String × FieldConfig) :
    Yields ((configuredRule api false).Step r e) (r.addConfiguredSpec api e) := by
  obtain ⟨path, fc⟩ := e
  simp only [addConfiguredSpec]
  split
  · rename_i hpass
    apply Yields.pure
    apply Rule.Step.skip
    simp only [Bool.or_eq_true, Table.contains_iff_mem_keys] at hpass
    rcases hpass with (hnested | hreadOnly) | htaken
    · right
      intro ref hs
      cases hs.top.symm.trans hnested
    · right
      intro ref hs
      cases hs.readOnly.symm.trans hreadOnly
    · exact .inl htaken
  rename_i hpass
  simp only [Bool.or_eq_true, Table.contains_iff_mem_keys, not_or, Bool.not_eq_true] at hpass
  obtain ⟨⟨htop, hreadOnly⟩, hfree⟩ := hpass
  split
  · rename_i hattribute
    have hnone : (configuredRule api false).Step r (path, fc) r := by
      apply Rule.Step.skip
      right
      intro ref hs
      cases hs.plain.symm.trans hattribute
    split
    · exact .bind fun _ => .pure hnone
    · exact .pure hnone
  rename_i hplain
  split
  · rename_i hsource
    have hnone : (configuredRule api false).Step r (path, fc) r := by
      apply Rule.Step.skip
      right
      intro ref hs
      obtain ⟨source, hs, -⟩ := hs.found
      cases hsource.symm.trans hs
    refine .bind fun found => ?_
    split
    · exact .bind fun _ => .pure hnone
    · exact .pure hnone
  · rename_i source hsource
    split
    · exact .throw _ _
    · rename_i ref href
      refine .bind fun _ => .bind_of (.except fun names hnames => hnames) fun names hnames => ?_
      rw [Names.of_ok hnames]
      apply Yields.pure
      have hs : Sourced api false path fc ref :=
        ⟨htop, hreadOnly, by simpa using hplain, source, hsource, href⟩
      exact .write (v := ⟨false, path, some ref⟩) ⟨hfree, ref, hs, rfl⟩

theorem addConfiguredStatus_step (api : Api) (r : Resource) (e : String × FieldConfig) :
    Yields ((configuredRule api true).Step r e) (r.addConfiguredStatus api e) := by
  obtain ⟨path, fc⟩ := e
  simp only [addConfiguredStatus]
  split
  · rename_i hpass
    apply Yields.pure
    apply Rule.Step.skip
    simp only [Bool.or_eq_true, Table.contains_iff_mem_keys, Bool.not_eq_true'] at hpass
    rcases hpass with ((hnested | hwritable) | hattribute) | htaken
    · right
      intro ref hs
      cases hs.top.symm.trans hnested
    · right
      intro ref hs
      cases hs.readOnly.symm.trans hwritable
    · right
      intro ref hs
      cases hs.plain.symm.trans hattribute
    · exact .inl htaken
  rename_i hpass
  simp only [Bool.or_eq_true, Table.contains_iff_mem_keys, not_or, Bool.not_eq_true,
    Bool.not_eq_false'] at hpass
  obtain ⟨⟨⟨htop, hreadOnly⟩, hplain⟩, hfree⟩ := hpass
  split
  · rename_i hsource
    refine .bind fun _ => .pure (.skip (.inr ?_))
    intro ref hs
    obtain ⟨source, hs, -⟩ := hs.found
    cases hsource.symm.trans hs
  · rename_i source hsource
    split
    · exact .throw _ _
    · rename_i ref href
      refine .bind fun _ => .bind_of (.except fun names hnames => hnames) fun names hnames => ?_
      rw [Names.of_ok hnames]
      apply Yields.pure
      have hs : Sourced api true path fc ref :=
        ⟨htop, hreadOnly, hplain, source, hsource, href⟩
      exact .write (v := ⟨true, path, some ref⟩) ⟨hfree, ref, hs, rfl⟩

end Configured

section Outputs

/-- A member of the output has a field of its key, or a field of the Spec is named like it. -/
def Placed (r : Resource) (member : String) : Prop :=
  r.memberKey member ∈ r.spec.keys ∨ member ∈ r.spec.keys ∨ r.memberKey member ∈ r.status.keys

/-- A member of the output is written unless it identifies the resource or is placed already. -/
def outputRule : Rule (String × ShapeRef) where
  writes a e w := (a.isIdentifier e.1 = false ∧ ¬ a.Placed e.1) ∧ w = a.memberWrite true e
  skips a e := a.isIdentifier e.1 = false ∧ a.Placed e.1
  marks a e member := a.isIdentifier e.1 = true ∧ member = e.1

theorem addOutputMember_step {e : String × ShapeRef} (h : r.addOutputMember api e = .ok r') :
    outputRule.Step r e r' := by
  obtain ⟨member, ref⟩ := e
  simp only [addOutputMember] at h
  split at h
  · rename_i hidentifier
    cases h
    exact .mark ⟨hidentifier, rfl⟩
  rename_i hother
  have hother : r.isIdentifier member = false := by simpa using hother
  obtain ⟨names, hnames, h⟩ := Fallible.bind_ok_iff.mp h
  have hplaced : (r.spec.contains names.camel || r.spec.contains member ||
      r.status.contains names.camel) = true ↔ r.Placed member := by
    simp only [Bool.or_eq_true, Table.contains_iff_mem_keys, Names.camel_eq hnames, or_assoc]
    rfl
  split at h
  · rename_i hpass
    cases h
    exact .skip ⟨hother, hplaced.mp hpass⟩
  · rename_i hpass
    obtain ⟨-, -, h⟩ := Fallible.bind_ok_iff.mp h
    cases h
    rw [Names.of_ok hnames]
    have hfree : ¬ r.Placed member := fun hp => hpass (hplaced.mpr hp)
    exact .write (v := r.memberWrite true (member, ref)) ⟨⟨hother, hfree⟩, rfl⟩

/-- The last member that identifies the resource. -/
def lastIdentifier? (r : Resource) (members : List (String × ShapeRef)) : Option String :=
  (members.filter fun e => r.isIdentifier e.1).getLast?.map Prod.fst

theorem isIdentifier_congr (hn : r'.names = r.names) (hs : r'.settings = r.settings)
    (member : String) : r'.isIdentifier member = r.isIdentifier member := by
  unfold isIdentifier
  rw [hn, hs]

theorem lastIdentifier?_cons (e : String × ShapeRef) (members : List (String × ShapeRef)) :
    r.lastIdentifier? (e :: members) = (r.lastIdentifier? members).or
      (if r.isIdentifier e.1 then some e.1 else none) := by
  unfold lastIdentifier?
  rw [List.filter_cons]
  split
  · rw [List.getLast?_cons]
    cases (members.filter fun e => r.isIdentifier e.1).getLast? <;> rfl
  · rw [Option.or_none]

theorem lastIdentifier?_congr (hn : r'.names = r.names) (hs : r'.settings = r.settings)
    (members : List (String × ShapeRef)) :
    r'.lastIdentifier? members = r.lastIdentifier? members := by
  unfold lastIdentifier?
  rw [funext fun e : String × ShapeRef => isIdentifier_congr hn hs e.1]

theorem outputStep_identifier {e : String × ShapeRef} (h : outputRule.Step r e r') :
    r'.identifier? = if r.isIdentifier e.1 then some e.1 else r.identifier? := by
  cases h with
  | write hw =>
    rw [if_neg (by simp [hw.1.1])]
    exact write_identifier r _
  | skip hs => rw [if_neg (by simp [hs.1])]
  | mark hm =>
    rw [if_pos hm.1, hm.2]

theorem identifier_of_steps {members : List (String × ShapeRef)}
    (h : Steps outputRule.Step r members r') :
    r'.identifier? = (r.lastIdentifier? members).or r.identifier? := by
  induction h with
  | nil => rfl
  | @cons r e r₁ members r' hstep _ ih =>
    have hgrown := hstep.grown
    rw [ih, outputStep_identifier hstep, lastIdentifier?_congr hgrown.names hgrown.settings,
      lastIdentifier?_cons, Option.or_assoc]
    split <;> rfl

/-- The pass over the create output, and the identifier that it leaves. -/
theorem addOutputMembers_pass (h : r.addOutputMembers api = .ok r') :
    (∃ ws, outputRule.Pass (r.outputMembers api) ws r r') ∧
      r'.identifier? = (r.lastIdentifier? (r.outputMembers api)).or r.identifier? := by
  obtain ⟨members?, hmembers, h⟩ := Fallible.bind_ok_iff.mp h
  unfold outputMembers
  rw [Fallible.mapError_ok_iff.mp hmembers]
  cases members? with
  | none =>
    cases h
    exact ⟨⟨[], outputRule.pass_nil r⟩, rfl⟩
  | some members =>
    have hsteps := Fallible.foldlM_steps (fun a e a' => addOutputMember_step) h
    exact ⟨pass_of_steps hsteps, identifier_of_steps hsteps⟩

end Outputs

section Nested

/-- A field below a path is a member of the structure behind the shape there, or is below one. -/
theorem nestedFrom_mem {active : List String} {path shape : String} {nested : List NestedField}
    {f : NestedField} (h : nestedFrom api active path shape = .ok nested) (hf : f ∈ nested) :
    ∃ inner members enum isException documentation member ref names below,
      api.innermost shape = .ok inner ∧
      api.shapes.get? inner = some ⟨.struct members, enum, isException, documentation⟩ ∧
      inner ∉ active ∧ members.get? member = some ref ∧ Names.of member = .ok names ∧
      nestedFrom api (inner :: active) (FieldPath.child path (api.isCollection shape) member)
        ref.target = .ok below ∧
      f ∈ ⟨FieldPath.child path (api.isCollection shape) member, names, ref⟩ :: below ∧
      ∀ g ∈ ⟨FieldPath.child path (api.isCollection shape) member, names, ref⟩ :: below,
        g ∈ nested := by
  rw [nestedFrom] at h
  obtain ⟨inner, hinner, h⟩ := Fallible.bind_ok_iff.mp h
  split at h
  · rename_i members enum isException documentation hs
    split at h
    · cases h
      cases hf
    · rename_i hactive
      obtain ⟨groups, hgroups, h⟩ := Fallible.bind_ok_iff.mp h
      cases h
      obtain ⟨group, hgroup, hf⟩ := List.mem_flatten.mp hf
      obtain ⟨⟨member, ref⟩, hin, hmember⟩ := Fallible.mapM_ok_result hgroups hgroup
      obtain ⟨-, -, hmember⟩ := Fallible.bind_ok_iff.mp hmember
      obtain ⟨names, hnames, hmember⟩ := Fallible.bind_ok_iff.mp hmember
      obtain ⟨below, hbelow, hmember⟩ := Fallible.bind_ok_iff.mp hmember
      cases hmember
      exact ⟨inner, members, enum, isException, documentation, member, ref, names, below,
        Fallible.mapError_ok_iff.mp hinner, hs, hactive, Table.mem_sorted_iff.mp hin, hnames,
        hbelow, hf, fun g hg => List.mem_flatten.mpr ⟨_, hgroup, hg⟩⟩
  · cases h
    cases hf

theorem child_dotted (path : String) (c : Bool) (member : String) :
    '.' ∈ (FieldPath.child path c member).toList := by
  unfold FieldPath.child
  split <;> simp

/-- The paths below a field hold a separator. -/
theorem nestedFrom_dotted {active : List String} {path shape : String} {nested : List NestedField}
    (h : nestedFrom api active path shape = .ok nested) : ∀ f ∈ nested, '.' ∈ f.path.toList := by
  induction active, path, shape using nestedFrom.induct api generalizing nested with
  | case1 active path shape ih =>
    intro f hf
    obtain ⟨inner, members, enum, isException, documentation, member, ref, names, below, -, hs,
      hactive, -, -, hbelow, hf, -⟩ := nestedFrom_mem h hf
    rcases List.mem_cons.mp hf with rfl | hf
    · exact child_dotted _ _ _
    · exact ih inner members enum isException documentation hs hactive member ref hbelow f hf

/-- Every nested field is below a field of the Spec or the Status. -/
theorem nestedFields_mem {nested : List NestedField} {f : NestedField}
    (h : r.nestedFields api = .ok nested) (hf : f ∈ nested) :
    ∃ o k t shape group, (r.part o).get? k = some t ∧ t.shape? = some shape ∧
      nestedFrom api [] t.path shape = .ok group ∧ f ∈ group ∧ ∀ g ∈ group, g ∈ nested := by
  obtain ⟨groups, hgroups, h⟩ := Fallible.bind_ok_iff.mp h
  cases h
  obtain ⟨group, hgroup, hf⟩ := List.mem_flatten.mp hf
  obtain ⟨t, ht, htop⟩ := Fallible.mapM_ok_result hgroups hgroup
  obtain ⟨⟨k, t⟩, hin, rfl⟩ := List.mem_map.mp ht
  have hpart : ∃ o, (r.part o).get? k = some t := by
    rcases List.mem_append.mp hin with hin | hin
    · exact ⟨false, Table.mem_sorted_iff.mp hin⟩
    · exact ⟨true, Table.mem_sorted_iff.mp hin⟩
  obtain ⟨o, hpart⟩ := hpart
  split at htop
  · cases htop
    cases hf
  · rename_i shape hshape
    exact ⟨o, k, t, shape, group, hpart, hshape, htop, hf,
      fun g hg => List.mem_flatten.mpr ⟨_, hgroup, hg⟩⟩

theorem nestedFields_dotted {nested : List NestedField} (h : r.nestedFields api = .ok nested) :
    ∀ f ∈ nested, '.' ∈ f.path.toList := by
  intro f hf
  obtain ⟨o, k, t, shape, group, -, -, hgroup, hf, -⟩ := nestedFields_mem h hf
  exact nestedFrom_dotted hgroup f hf

/-- A resource with fields below those of another one. -/
structure Deepened (top deep : Resource) : Prop where
  names : deep.names = top.names
  ops : deep.ops = top.ops
  settings : deep.settings = top.settings
  identifier : deep.identifier? = top.identifier?
  part : ∀ o, deep.part o = top.part o
  fields : ∀ k, '.' ∉ k.toList → deep.fields.get? k = top.fields.get? k

theorem deepened_addNested {nested : List NestedField} (h : ∀ f ∈ nested, '.' ∈ f.path.toList)
    (hr : Deepened r r') :
    Deepened r (nested.foldl (fun r f => r.addNested f.path f.names f.ref) r') := by
  induction nested generalizing r' with
  | nil => exact hr
  | cons f nested ih =>
    obtain ⟨hf, hnested⟩ := List.forall_mem_cons.mp h
    apply ih hnested
    refine ⟨hr.names, hr.ops, hr.settings, hr.identifier, hr.part, ?_⟩
    intro k hk
    have hne : k ≠ f.path := by
      rintro rfl
      exact hk hf
    rw [← hr.fields k hk]
    exact (Table.get?_insert ..).trans (if_neg hne)

theorem addNestedFields_deepened (api : Api) (r : Resource) :
    Yields (Deepened r) (r.addNestedFields api) := by
  unfold addNestedFields
  refine .bind_of (.except fun nested hnested => hnested) fun nested hnested => ?_
  refine .bind fun _ => .pure ?_
  apply deepened_addNested (nestedFields_dotted hnested)
  exact ⟨rfl, rfl, rfl, rfl, fun _ => rfl, fun _ _ => rfl⟩

end Nested

section Built

/-- What the passes behind the create input write. -/
structure FieldLog where
  configured : Bool → List FieldWrite
  outputs : List FieldWrite

/-- All writes in their order. -/
def FieldLog.all (log : FieldLog) (api : Api) (r : Resource) : List FieldWrite :=
  r.inputWrites api ++ log.configured false ++ log.outputs ++ log.configured true

/-- A resource and the writes that made it. -/
structure Logged (api : Api) (log : FieldLog) (r : Resource) : Prop where
  part : ∀ o k, (r.part o).get? k =
    r.lastField ((log.all api r).filter fun w => w.observed == o && w.key == k)
  fields : ∀ k, '.' ∉ k.toList →
    r.fields.get? k = r.lastField ((log.all api r).filter fun w => w.key == k)
  configured : ∀ o, ∀ w ∈ log.configured o, ∃ path fc ref,
    r.settings.fields.get? path = some fc ∧ Sourced api o path fc ref ∧ w = ⟨o, path, some ref⟩ ∧
      ∀ v ∈ r.inputWrites api, v.observed = o → v.key ≠ path
  sourced : ∀ o path fc ref, r.settings.fields.get? path = some fc → Sourced api o path fc ref →
    ⟨o, path, some ref⟩ ∈ log.configured o ∨ path ∈ (r.part o).keys
  outputs : ∀ w ∈ log.outputs, w.observed = true ∧ w.key ∉ r.spec.keys
  placed : ∀ e ∈ r.outputMembers api, r.isIdentifier e.1 = true ∨ r.Placed e.1
  identifier : r.identifier? = r.lastIdentifier? (r.outputMembers api)

/-- A resource before any field is written. -/
structure Blank (r : Resource) : Prop where
  part : ∀ o, r.part o = ∅
  fields : r.fields = ∅
  identifier : r.identifier? = none

theorem inputMembers_congr (hs : r'.settings = r.settings) (ho : r'.ops = r.ops) (api : Api) :
    r'.inputMembers api = r.inputMembers api := by
  unfold inputMembers payloadMembers
  rw [hs, ho]

theorem inputWrites_congr (hs : r'.settings = r.settings) (ho : r'.ops = r.ops) (api : Api) :
    r'.inputWrites api = r.inputWrites api := by
  unfold inputWrites attributes
  rw [inputMembers_congr hs ho, memberWrite_congr hs ho, hs, ho]

theorem outputMembers_congr (hs : r'.settings = r.settings) (ho : r'.ops = r.ops) (api : Api) :
    r'.outputMembers api = r.outputMembers api := by
  unfold outputMembers outputMembers? payloadMembers
  rw [hs, ho]

theorem memberKey_congr (hs : r'.settings = r.settings) (ho : r'.ops = r.ops) (member : String) :
    r'.memberKey member = r.memberKey member := by
  unfold memberKey inputRename
  rw [hs, ho]

theorem Placed.grown {member : String} (h : r.Grown r') (hp : r.Placed member) :
    r'.Placed member := by
  unfold Placed
  rw [memberKey_congr h.settings h.ops]
  rcases hp with hspec | hspec | hstatus
  · exact .inl (h.keys false hspec)
  · exact .inr (.inl (h.keys false hspec))
  · exact .inr (.inr (h.keys true hstatus))

/-- What a configured pass writes is configured, and was not taken before the pass. -/
theorem configured_source {r₁ r₂ : Resource} (hpass : (configuredRule api o).Pass
    r₁.settings.fields.sorted ws r₁ r₂) {w : FieldWrite} (hw : w ∈ ws) : ∃ path fc ref,
      r₁.settings.fields.get? path = some fc ∧ Sourced api o path fc ref ∧
        w = ⟨o, path, some ref⟩ ∧ path ∉ (r₁.part o).keys := by
  obtain ⟨⟨path, fc⟩, he, a, ha, -, hfree, ref, hs, rfl⟩ := hpass.source w hw
  refine ⟨path, fc, ref, Table.mem_sorted_iff.mp he, hs, rfl, ?_⟩
  intro hin
  exact hfree (ha.keys o hin)

theorem configured_done {r₁ r₂ : Resource} (hpass : (configuredRule api o).Pass
    r₁.settings.fields.sorted ws r₁ r₂) {path : String} {fc : FieldConfig} {ref : ShapeRef}
    (hget : r₁.settings.fields.get? path = some fc) (hs : Sourced api o path fc ref) :
    ⟨o, path, some ref⟩ ∈ ws ∨ path ∈ (r₂.part o).keys := by
  obtain ⟨a, -, ha, ⟨w, hw, -, ref', hs', rfl⟩ | (htaken | hnone) | ⟨_, hmark⟩⟩ :=
    hpass.done _ (Table.mem_sorted_iff.mpr hget)
  · rw [hs.unique hs']
    exact .inl hw
  · exact .inr (ha.keys o htaken)
  · exact (hnone ref hs).elim
  · exact hmark.elim

section Together

variable {r₁ r₂ r₃ r₄ : Resource} {ws₂ ws₃ ws₄ : List FieldWrite}

theorem output_source (h₃ : outputRule.Pass (r₂.outputMembers api) ws₃ r₂ r₃) {w : FieldWrite}
    (hw : w ∈ ws₃) : w.observed = true ∧ w.key ∉ r₂.spec.keys := by
  obtain ⟨e, -, a, ha, -, ⟨-, hfree⟩, rfl⟩ := h₃.source w hw
  refine ⟨rfl, ?_⟩
  intro hin
  exact hfree (.inl (ha.keys false hin))

/-- The passes behind those of the Spec leave the Spec as it is. -/
theorem spec_unchanged (h₃ : outputRule.Pass (r₂.outputMembers api) ws₃ r₂ r₃)
    (h₄ : (configuredRule api true).Pass r₃.settings.fields.sorted ws₄ r₃ r₄)
    (hk : k ∈ r₄.spec.keys) : k ∈ r₂.spec.keys := by
  have hk : k ∈ (r₄.part false).keys := hk
  rcases (h₃.wrote.append h₄.wrote).mem_part.mp hk with ⟨w, hw, hspec, -⟩ | hk
  · exfalso
    rcases List.mem_append.mp hw with hw | hw
    · rw [(output_source h₃ hw).1] at hspec
      cases hspec
    · obtain ⟨path, fc, ref, -, -, rfl, -⟩ := configured_source h₄ hw
      cases hspec
  · exact hk

theorem logged_of_passes (hblank : r.Blank) (h₁ : Wrote (r.inputWrites api) r r₁)
    (hid₁ : r₁.identifier? = r.identifier?)
    (h₂ : (configuredRule api false).Pass r₁.settings.fields.sorted ws₂ r₁ r₂)
    (h₃ : outputRule.Pass (r₂.outputMembers api) ws₃ r₂ r₃)
    (hid₃ : r₃.identifier? = (r₂.lastIdentifier? (r₂.outputMembers api)).or r₂.identifier?)
    (h₄ : (configuredRule api true).Pass r₃.settings.fields.sorted ws₄ r₃ r₄) :
    Logged api ⟨fun o => if o then ws₄ else ws₂, ws₃⟩ r₄ := by
  have g₂ : r₂.Grown r₄ := ⟨_, h₃.wrote.append h₄.wrote⟩
  have g₄ : r₃.Grown r₄ := ⟨_, h₄.wrote⟩
  have hall := ((h₁.append h₂.wrote).append h₃.wrote).append h₄.wrote
  have g₁ : r₁.settings = r₄.settings := h₁.settings.trans hall.settings.symm
  have hempty : ∀ k, (∅ : Table Field).get? k = none := fun _ => rfl
  have hinputs : ∀ o, ∀ v ∈ r₄.inputWrites api, v.observed = o → v.key ∈ (r₁.part o).keys := by
    intro o v hv ho
    rw [inputWrites_congr hall.settings hall.ops] at hv
    exact h₁.mem_part.mpr (.inl ⟨v, hv, ho, rfl⟩)
  constructor
  case part =>
    intro o k
    rw [hall.part, hblank.part, hempty, Option.or_none, lastField_congr hall.settings, FieldLog.all,
      inputWrites_congr hall.settings hall.ops]
    rfl
  case fields =>
    intro k _
    rw [hall.fields, hblank.fields, hempty, Option.or_none, lastField_congr hall.settings,
      FieldLog.all, inputWrites_congr hall.settings hall.ops]
    rfl
  case configured =>
    intro o w hw
    cases o with
    | false =>
      obtain ⟨path, fc, ref, hget, hs, rfl, hfree⟩ := configured_source h₂ hw
      refine ⟨path, fc, ref, g₁ ▸ hget, hs, rfl, ?_⟩
      rintro v hv ho rfl
      exact hfree (hinputs false v hv ho)
    | true =>
      obtain ⟨path, fc, ref, hget, hs, rfl, hfree⟩ := configured_source h₄ hw
      refine ⟨path, fc, ref, g₄.settings ▸ hget, hs, rfl, ?_⟩
      rintro v hv ho rfl
      have g₃ : r₁.Grown r₃ := ⟨_, h₂.wrote.append h₃.wrote⟩
      exact hfree (g₃.keys true (hinputs true v hv ho))
  case sourced =>
    intro o path fc ref hget hs
    cases o with
    | false =>
      rcases configured_done h₂ (g₁.symm ▸ hget) hs with hw | htaken
      · exact .inl hw
      · exact .inr (g₂.keys false htaken)
    | true => exact configured_done h₄ (g₄.settings ▸ hget) hs
  case outputs =>
    intro w hw
    obtain ⟨hstatus, hfree⟩ := output_source h₃ hw
    refine ⟨hstatus, ?_⟩
    intro hin
    exact hfree (spec_unchanged h₃ h₄ hin)
  case placed =>
    intro e he
    rw [outputMembers_congr g₂.settings g₂.ops] at he
    obtain ⟨a, ha, ha', hdone⟩ := h₃.done e he
    have hlater := ha'.trans g₄
    rw [isIdentifier_congr hlater.names hlater.settings]
    rcases hdone with ⟨w, hw, -, rfl⟩ | ⟨-, hplaced⟩ | ⟨_, hidentifier, -⟩
    · right
      have hin : a.memberKey e.1 ∈ (r₃.part true).keys :=
        h₃.wrote.mem_part.mpr (.inl ⟨_, hw, rfl, rfl⟩)
      rw [← memberKey_congr ha'.settings ha'.ops] at hin
      exact .grown g₄ (.inr (.inr hin))
    · exact .inr (.grown hlater hplaced)
    · exact .inl hidentifier
  case identifier =>
    rw [h₄.unmarked (fun _ _ _ hmark => hmark), hid₃, h₂.unmarked (fun _ _ _ hmark => hmark), hid₁,
      hblank.identifier, Option.or_none, outputMembers_congr g₂.settings g₂.ops,
      lastIdentifier?_congr g₂.names g₂.settings]

end Together

theorem addTopFields_logged (hblank : r.Blank) :
    Yields (fun r' => ∃ log, Logged api log r') (r.addTopFields api) := by
  refine .bind_of (.except fun r₁ h₁ => addInputMembers_wrote h₁) fun r₁ ⟨h₁, hid₁⟩ => ?_
  refine .bind_of (.foldlM_steps fun r e => addConfiguredSpec_step api r e) fun r₂ h₂ => ?_
  refine .bind_of (.except fun r₃ h₃ => addOutputMembers_pass h₃) fun r₃ ⟨⟨ws₃, h₃⟩, hid₃⟩ => ?_
  intro s r₄ s' hrun
  have h₄ := Yields.foldlM_steps (fun r e => addConfiguredStatus_step api r e) s r₄ s' hrun
  obtain ⟨ws₂, h₂⟩ := pass_of_steps h₂
  obtain ⟨ws₄, h₄⟩ := pass_of_steps h₄
  exact ⟨_, logged_of_passes hblank h₁ hid₁ h₂ h₃ hid₃ h₄⟩

theorem Logged.deepened {log : FieldLog} (h : Logged api log r) (hd : Deepened r r') :
    Logged api log r' := by
  have hall : log.all api r' = log.all api r := by
    unfold FieldLog.all
    rw [inputWrites_congr hd.settings hd.ops]
  have hspec : r'.spec = r.spec := hd.part false
  have hstatus : r'.status = r.status := hd.part true
  constructor
  case part =>
    intro o k
    rw [hd.part, hall, lastField_congr hd.settings, h.part]
  case fields =>
    intro k hk
    rw [hd.fields k hk, hall, lastField_congr hd.settings, h.fields k hk]
  case configured =>
    rw [hd.settings, inputWrites_congr hd.settings hd.ops]
    exact h.configured
  case sourced =>
    intro o
    rw [hd.settings, hd.part]
    exact h.sourced o
  case outputs =>
    rw [hspec]
    exact h.outputs
  case placed =>
    unfold Placed
    rw [outputMembers_congr hd.settings hd.ops, hspec, hstatus,
      funext (isIdentifier_congr hd.names hd.settings), funext (memberKey_congr hd.settings hd.ops)]
    exact h.placed
  case identifier =>
    rw [hd.identifier, h.identifier, outputMembers_congr hd.settings hd.ops,
      lastIdentifier?_congr hd.names hd.settings]

theorem build_logged (api : Api) (config : Config) (names : Names) (create : Operation) :
    Yields (fun r => ∃ log, Logged api log r) (build api config names create) := by
  have hblank : Blank { names, ops := .ofApi api config.ignore.operations names.given create
                        settings := config.resource names.given } := by
    refine ⟨?_, rfl, rfl⟩
    intro o
    cases o <;> rfl
  refine .bind_of (addTopFields_logged hblank) fun r₁ ⟨log, h₁⟩ => ?_
  intro s r s' hrun
  exact ⟨log, h₁.deepened (addNestedFields_deepened api r₁ s r s' hrun)⟩

/-- Every resource of an API was made by writes. -/
theorem buildAll_logged (api : Api) (config : Config) (mode : OnFailure) :
    Yields (fun res => ∀ r ∈ res.1, ∃ log, Logged api log r) (buildAll api config mode) :=
  buildAll_each mode (build_logged api config)

end Built

end Resource

end ResourceVersions
