import ResourceVersions.Proofs.FailureIsolation
import ResourceVersions.Proofs.NestedFields
import ResourceVersions.Source.TypesModule

/-! # Secrets below fields

A nested field that is configured as secret makes a member of the structure in its parent a secret.
Fields are listed below any number of lists and maps, but the structure of a secret is looked for
behind one of them at most. So a nested secret is typed as a reference if at most one list or map
is around its structure, and behind more of them it is refused. -/
namespace ResourceVersions

namespace Resource

variable {api : Api} {config : Config} {mode : OnFailure} {r : Resource}
  {resources l : List Resource} {failures : List Failure} {s s' : List Record} {n : Nat}
  {name owner member p q parentPath : String} {ref : ShapeRef} {f parent : Field} {c : Bool}
  {found : List (String × String)} {secrets : Table (List String)}

section Owner

theorem shape_eq {shape : Shape} (h : api.shapes.get? name = some shape) :
    api.shape name = .ok shape := by
  unfold Api.shape Api.shape?
  rw [h]

/-- The structure is found behind one list or map at most. -/
theorem ownerShape_near {shape : Shape} (h : api.Behind n name owner) (hn : n ≤ 1)
    (hs : api.shapes.get? owner = some shape) : ownerShape api name = .ok (owner, shape.form) := by
  unfold ownerShape
  cases h with
  | here hs' hend =>
    cases hs.symm.trans hs'
    rw [shape_eq hs]
    simp only [bind, Except.bind, hend]
    rfl
  | through hs' href hrest =>
    cases hrest with
    | here _ _ =>
      rw [shape_eq hs']
      simp only [bind, Except.bind, href, shape_eq hs]
      rfl
    | through _ _ _ => omega

/-- Behind more than one of them another list or map is found. -/
theorem ownerShape_far (h : api.Behind n name owner) (hn : 1 < n) :
    ∃ x form, ownerShape api name = .ok (x, form) ∧ form.isStruct = false := by
  unfold ownerShape
  cases h with
  | here _ _ => omega
  | through hs href hrest =>
    cases hrest with
    | here _ _ => omega
    | @through _ _ _ shape inner hs' href' _ =>
      rw [shape_eq hs]
      simp only [bind, Except.bind, href, shape_eq hs']
      exact ⟨_, _, rfl, (Form.of_collection (by rw [href']; rfl)).1⟩

variable (hparent : r.fields.get? parentPath = some parent) (hshape : parent.shape? = some name)
  (hbehind : api.Behind n name owner)
include hparent hshape hbehind

theorem secretMember_near (howns : api.Owns owner member ref) (hdot : '.' ∉ member.toList)
    (hn : n ≤ 1) : secretMember api r (FieldPath.child parentPath c member) parentPath =
      .ok (owner, member) := by
  obtain ⟨shape, members, hs, hform, hget⟩ := howns
  have hmember : members.contains member = true :=
    Table.contains_iff_mem_keys.mpr (Table.mem_keys_iff.mpr ⟨ref, hget⟩)
  unfold secretMember
  simp only [hparent, hshape, ownerShape_near hbehind hn hs, hform, bind, Except.bind,
    FieldPath.drop_parent hdot, String.ofList_toList, hmember, if_true]
  rfl

theorem secretMember_far (hn : 1 < n) : secretMember api r p parentPath =
    .error (.secretUnderPlain r.names.camel p parentPath) := by
  obtain ⟨x, form, howner, hplain⟩ := ownerShape_far hbehind hn
  unfold secretMember
  simp only [hparent, hshape, howner, bind, Except.bind]
  cases form with
  | struct members => cases hplain
  | _ => rfl

end Owner

section Runs

/-- A nested path that is configured as secret. -/
structure NestedSecret (r : Resource) (p : String) : Prop where
  configured : ∃ fc, r.settings.fields.get? p = some fc ∧ fc.isSecret = true
  below : FieldPath.parent p ≠ ""

theorem mem_secretPaths : (p, q) ∈ (((r.settings.fields.sorted.filter fun e => e.2.isSecret).map
    fun e => (e.1, FieldPath.parent e.1)).filter fun e => !e.2.isEmpty) ↔
      r.NestedSecret p ∧ q = FieldPath.parent p := by
  simp only [List.mem_filter, List.mem_map, Prod.mk.injEq, Prod.exists, Table.mem_sorted_iff]
  constructor
  · rintro ⟨⟨path, fc, ⟨hget, hsecret⟩, rfl, rfl⟩, hne⟩
    exact ⟨⟨⟨fc, hget, hsecret⟩, by simpa using hne⟩, rfl⟩
  · rintro ⟨⟨⟨fc, hget, hsecret⟩, hne⟩, rfl⟩
    exact ⟨⟨p, fc, ⟨hget, hsecret⟩, rfl, rfl⟩, by simpa using hne⟩

/-- The secret members of a resource are those of its nested secrets. -/
theorem secretMembers_ok (h : r.secretMembers api = .ok found) (hp : r.NestedSecret p) :
    ∃ x ∈ found, secretMember api r p (FieldPath.parent p) = .ok x := by
  obtain ⟨x, hx, hstep⟩ := Fallible.mapM_ok_step h (mem_secretPaths.mpr ⟨hp, rfl⟩)
  exact ⟨x, hx, hstep⟩

theorem secretMembers_error {e : SchemaError} (h : r.secretMembers api = .error e) :
    ∃ q, r.NestedSecret q ∧ secretMember api r q (FieldPath.parent q) = .error e := by
  obtain ⟨before, ⟨q, parentPath⟩, after, hsplit, -, hq⟩ := Fallible.mapM_first_error.mp h
  have hin : (q, parentPath) ∈ before ++ (q, parentPath) :: after := by simp
  rw [← hsplit] at hin
  obtain ⟨hsecret, rfl⟩ := mem_secretPaths.mp hin
  exact ⟨q, hsecret, hq⟩

/-- In the mode that stops, resources have secrets until the first one fails. -/
theorem resolveSecrets_stop (l : List Resource) (s : List Record) :
    runFrom (resolveSecrets api l .stop) s = (match l.mapM (secretMembers api) with
      | .ok founds => .ok (founds.flatten.foldl addSecret ∅, [])
      | .error e => .error (.schema e), s) := by
  suffices hfrom : ∀ secrets, runFrom (l.foldlM (secretStep api .stop) (secrets, [])) s =
      (match l.mapM (secretMembers api) with
        | .ok founds => .ok (founds.flatten.foldl addSecret secrets, [])
        | .error e => .error (.schema e), s) from hfrom ∅
  induction l with
  | nil => exact fun secrets => rfl
  | cons r l ih =>
    intro secrets
    rw [List.foldlM_cons, List.mapM_cons]
    cases hr : r.secretMembers api with
    | ok found =>
      rw [runFrom_bind_eq (secretStep_found hr .stop _ s), ih]
      cases hl : l.mapM (secretMembers api) <;>
        simp [bind, Except.bind, pure, Except.pure]
    | error e =>
      rw [runFrom_bind, secretStep, hr]
      rfl

theorem resolveSecrets_one (r : Resource) (s : List Record) :
    runFrom (resolveSecrets api [r] .stop) s = (match r.secretMembers api with
      | .ok found => .ok (found.foldl addSecret ∅, [])
      | .error e => .error (.schema e), s) := by
  rw [resolveSecrets_stop, List.mapM_cons, List.mapM_nil]
  cases r.secretMembers api with
  | error e => rfl
  | ok found => simp [bind, Except.bind, pure, Except.pure]

end Runs

section Models

theorem mem_addSecret (entry : String × String) : entry.2 ∈ (addSecret secrets entry).getD entry.1 [] := by
  unfold addSecret
  dsimp only
  split
  · rename_i hknown
    exact List.contains_iff_mem.mp hknown
  · simp [Table.getD, Table.get?_insert]

theorem mem_addSecret_of_mem {entry : String × String} (h : member ∈ secrets.getD owner []) :
    member ∈ (addSecret secrets entry).getD owner [] := by
  unfold addSecret
  dsimp only
  split
  · exact h
  · unfold Table.getD
    rw [Table.get?_insert]
    split
    · rename_i howner
      subst howner
      exact List.mem_append_left _ h
    · exact h

/-- Secrets that are added stay. -/
theorem mem_addSecrets (h : member ∈ secrets.getD owner [] ∨ (owner, member) ∈ found) :
    member ∈ (found.foldl addSecret secrets).getD owner [] := by
  induction found generalizing secrets with
  | nil => simpa using h
  | cons x found ih =>
    apply ih
    rcases h with h | h
    · exact .inl (mem_addSecret_of_mem h)
    · rcases List.mem_cons.mp h with rfl | h
      · exact .inl (mem_addSecret _)
      · exact .inr h

/-- Every resource has its secrets resolved, or fails. -/
theorem secrets_of_run (h : runFrom (resolveSecrets api l mode) s = (.ok (secrets, failures), s'))
    (hr : r ∈ l) : (∃ found, r.secretMembers api = .ok found ∧
      ∀ x ∈ found, x.2 ∈ secrets.getD x.1 []) ∨ ∃ f ∈ failures, f.name = r.names.camel := by
  cases mode with
  | stop =>
    rw [resolveSecrets_stop] at h
    cases hl : l.mapM (secretMembers api) with
    | error e =>
      rw [hl] at h
      cases h
    | ok founds =>
      rw [hl] at h
      cases h
      obtain ⟨found, hin, hfound⟩ := Fallible.mapM_ok_step hl hr
      refine .inl ⟨found, hfound, fun x hx => ?_⟩
      exact mem_addSecrets (.inr (List.mem_flatten.mpr ⟨found, hin, hx⟩))
  | collect =>
    obtain ⟨rfl, rfl⟩ := resolveSecrets_ok h
    cases hfound : r.secretMembers api with
    | ok found =>
      refine .inl ⟨found, rfl, fun x hx => ?_⟩
      refine mem_addSecrets (.inr (List.mem_flatMap.mpr ⟨r, hr, ?_⟩))
      rwa [foundSecrets, hfound]
    | error e =>
      refine .inr ⟨⟨r.names.camel, .schema e⟩, List.mem_filterMap.mpr ⟨r, hr, ?_⟩, rfl⟩
      rw [secretFailure?, hfound]

/-- The secrets of a resource that is in a model are in the model. -/
theorem secrets_of_built {m : VersionModel} (h : m.Built) (hr : r ∈ m.resources) :
    ∃ found, r.secretMembers m.api = .ok found ∧
      ∀ x ∈ found, x.2 ∈ m.secretMembers.getD x.1 [] := by
  obtain ⟨config, mode, built, failures, failures', hmade⟩ := h.made
  obtain ⟨s₁, s₂, -, hsecrets⟩ := hmade.runs
  rw [hmade.resources, hmade.failures] at hr
  obtain ⟨hr, hkept⟩ := List.mem_filter.mp hr
  refine (secrets_of_run hsecrets hr).resolve_right ?_
  rintro ⟨f, hf, hname⟩
  have hfailed : r.names.camel ∈ (failures ++ failures').map Failure.name :=
    List.mem_map.mpr ⟨f, List.mem_append_right _ hf, hname⟩
  rw [List.contains_iff_mem.mpr hfailed] at hkept
  cases hkept

/-- The class of a structure has a reference for a member that is secret in the model. -/
theorem typeClass_secret {m : VersionModel} {d : TypeDef} {cls : Source.ClassDef} (h : m.Built)
    (hd : d ∈ m.typeDefs) (howns : m.api.Owns d.shape member ref)
    (hsecret : member ∈ m.secretMembers.getD d.shape [])
    (hcls : Source.typeClass m d = .ok cls) : ∃ names, Names.of member = .ok names ∧
      ⟨names.camelLower, .optional .secret⟩ ∈ cls.attrs := by
  obtain ⟨shape, ms, hs, hform, hattrs⟩ := (h.parts.2.each d hd).members
  obtain ⟨shape', ms', hs', hform', hget⟩ := howns
  cases hs.symm.trans hs'
  cases hform.symm.trans hform'
  have hmember : member ∈ ms.sortedKeys :=
    Table.mem_sortedKeys_iff.mpr (Table.mem_keys_iff.mpr ⟨ref, hget⟩)
  obtain ⟨a, ha, hnames, -, hmarked⟩ := Fallible.forall₂_mem_left hattrs hmember
  rw [List.contains_iff_mem.mpr hsecret] at hmarked
  obtain ⟨attrs, hrun, hcls⟩ := Fallible.bind_ok_iff.mp hcls
  cases hcls
  obtain ⟨attr, hattr, hstep⟩ := Fallible.mapM_ok_step hrun ha
  rw [hmarked] at hstep
  cases hstep
  exact ⟨a.names, hnames, hattr⟩

end Models

section Effect

/-- A nested secret has its effect: nothing fails because of it, and the class of the structure that
holds its member has a reference there. -/
structure TakesEffect (api : Api) (r : Resource) (p owner member : String) : Prop where
  resolved : ∀ s, (∃ secrets, runFrom (resolveSecrets api [r] .stop) s = (.ok (secrets, []), s) ∧
      member ∈ secrets.getD owner []) ∨
    ∃ q e, q ≠ p ∧ r.NestedSecret q ∧ secretMember api r q (FieldPath.parent q) = .error e ∧
      runFrom (resolveSecrets api [r] .stop) s = (.error (.schema e), s)
  typed : ∀ m : VersionModel, m.Built → m.api = api → r ∈ m.resources →
    ∀ d ∈ m.typeDefs, d.shape = owner → ∀ cls, Source.typeClass m d = .ok cls →
      ∃ names, Names.of member = .ok names ∧ ⟨names.camelLower, .optional .secret⟩ ∈ cls.attrs

/-- A nested secret is refused though its parent holds a structure with its member. -/
structure Refused (api : Api) (r : Resource) (p : String) : Prop where
  member : secretMember api r p (FieldPath.parent p) =
    .error (.secretUnderPlain r.names.camel p (FieldPath.parent p))
  raised : ∀ s, ∃ e, runFrom (resolveSecrets api [r] .stop) s = (.error (.schema e), s)

theorem takesEffect (hp : r.NestedSecret p) (howns : api.Owns owner member ref)
    (hmember : secretMember api r p (FieldPath.parent p) = .ok (owner, member)) :
    TakesEffect api r p owner member where
  resolved s := by
    rw [resolveSecrets_one]
    cases hr : r.secretMembers api with
    | ok found =>
      obtain ⟨x, hx, hstep⟩ := secretMembers_ok hr hp
      cases hmember.symm.trans hstep
      exact .inl ⟨_, rfl, mem_addSecrets (.inr hx)⟩
    | error e =>
      obtain ⟨q, hq, hstep⟩ := secretMembers_error hr
      refine .inr ⟨q, e, ?_, hq, hstep, rfl⟩
      rintro rfl
      cases hmember.symm.trans hstep
  typed m hbuilt hapi hr d hd hshape cls hcls := by
    subst hapi hshape
    obtain ⟨found, hfound, hknown⟩ := secrets_of_built hbuilt hr
    obtain ⟨x, hx, hstep⟩ := secretMembers_ok hfound hp
    cases hmember.symm.trans hstep
    exact typeClass_secret hbuilt hd howns (hknown _ hx) hcls

theorem refused (hp : r.NestedSecret p) (hmember : secretMember api r p (FieldPath.parent p) =
    .error (.secretUnderPlain r.names.camel p (FieldPath.parent p))) : Refused api r p where
  member := hmember
  raised s := by
    rw [resolveSecrets_one]
    cases hr : r.secretMembers api with
    | ok found =>
      obtain ⟨x, hx, hstep⟩ := secretMembers_ok hr hp
      cases hmember.symm.trans hstep
    | error e => exact ⟨e, rfl⟩

/-- The parent of a nested secret holds a structure with its member behind some lists and maps, if
the Spec and the Status do not share the top-level field. The secret has its effect if there is at
most one list or map; otherwise it is refused. -/
theorem nested_secret_effect
    (hrun : runFrom (buildAll api config mode) s = (.ok (resources, failures), s'))
    (hr : r ∈ resources) (hdot : api.Undotted) (hf : r.fields.get? p = some f)
    (hp : FieldPath.isNested p = true) (hsecret : f.isSecret = true)
    (halone : FieldPath.top p ∉ r.spec.keys ∨ FieldPath.top p ∉ r.status.keys) :
    ∃ parent shape n owner ref, r.fields.get? (FieldPath.parent p) = some parent ∧
      parent.shape? = some shape ∧ api.Behind n shape owner ∧
      api.Owns owner (FieldPath.last p) ref ∧
      (n ≤ 1 → TakesEffect api r p owner (FieldPath.last p)) ∧ (1 < n → Refused api r p) := by
  obtain ⟨log, hlog⟩ := buildAll_logged api config mode s _ s' hrun r hr
  obtain ⟨nested, hopened⟩ := buildAll_each mode (build_opened api config) s _ s' hrun r hr
  obtain ⟨parent, shape, target, hparent, hshape, -, henters⟩ :=
    hopened.parent_field hlog hdot hf hp halone
  have hsecret : r.NestedSecret p := by
    have hdotted : '.' ∈ p.toList := by simpa [FieldPath.isNested] using hp
    obtain ⟨g, -, -, rfl⟩ := hopened.found p f hdotted hf
    exact ⟨(Option.any_eq_true ..).mp hsecret, hopened.named _ _ hparent⟩
  generalize hpath : FieldPath.parent p = parentPath at henters hparent
  cases henters with
  | @member _ _ owner member n ref hbehind howns _ =>
    have hmember := hdot _ _ _ howns
    rw [FieldPath.last_child hmember]
    refine ⟨parent, shape, n, owner, ref, hparent, hshape, hbehind, howns, ?_, ?_⟩
    · intro hn
      apply takesEffect hsecret howns
      rw [hpath]
      exact secretMember_near hparent hshape hbehind howns hmember hn
    · intro hn
      apply refused hsecret
      rw [hpath]
      exact secretMember_far hparent hshape hbehind hn

namespace Sample

/-- A grid of cells with keys; the grid is a list of rows or a single one. -/
def cluster (grid : String) : Api where
  serviceId := "S"
  apiVersion := "1"
  shapes := .ofList [
    ("Payload", ⟨.struct (.ofList [("Grid", ⟨grid, ""⟩)]), [], false, ""⟩),
    ("Rows", ⟨.list ⟨"Row", ""⟩, [], false, ""⟩), ("Row", ⟨.list ⟨"Cell", ""⟩, [], false, ""⟩),
    ("Cell", ⟨.struct (.ofList [("Key", text)]), [], false, ""⟩),
    ("Text", ⟨.scalar .string, [], false, ""⟩)]
  operations := .ofList [("CreateCluster", ⟨"CreateCluster", some ⟨"Payload", ""⟩, none⟩)]

def clusterConfig : Config where
  resources := .ofList [("Cluster", { fields := .ofList [("Grid..Key", { isSecret := true })] })]

def clusterRun (grid : String) : Except Error (List Resource × List Failure) × List Record :=
  runFrom (buildAll (cluster grid) clusterConfig .stop) []

/-- Whether the key of the cells is a secret field below the grid. -/
def keyed (grid : String) (r : Resource) : Bool :=
  (r.fields.get? "Grid..Key").any Field.isSecret &&
    (r.settings.fields.get? "Grid..Key").any FieldConfig.isSecret &&
    (r.fields.get? "Grid").any (fun f => f.shape? == some grid) && r.status.keys.isEmpty

theorem cluster_built (grid : String)
    (h : ((clusterRun grid).1.toOption.any fun res => res.1.any (keyed grid)) = true) :
    ∃ resources failures s r f top, clusterRun grid = (.ok (resources, failures), s) ∧
      r ∈ resources ∧ r.fields.get? "Grid..Key" = some f ∧ f.isSecret = true ∧
      r.NestedSecret "Grid..Key" ∧ r.fields.get? "Grid" = some top ∧ top.shape? = some grid ∧
      FieldPath.top "Grid..Key" ∉ r.status.keys := by
  cases hrun : clusterRun grid with
  | mk result s =>
    rw [hrun] at h
    cases result with
    | error e => cases h
    | ok res =>
      obtain ⟨r, hr, hkeyed⟩ := List.any_eq_true.mp h
      simp only [keyed, Bool.and_eq_true, Option.any_eq_true, beq_iff_eq] at hkeyed
      obtain ⟨⟨⟨⟨f, hf, hsecret⟩, hconfigured⟩, top, htop, hshape⟩, hstatus⟩ := hkeyed
      rw [List.isEmpty_iff] at hstatus
      have hnested : r.NestedSecret "Grid..Key" := ⟨hconfigured, by decide +kernel⟩
      exact ⟨res.1, res.2, s, r, f, top, rfl, hr, hf, hsecret, hnested, htop, hshape,
        by simp [hstatus]⟩

theorem grid_parent : FieldPath.parent "Grid..Key" = "Grid" := by decide +kernel

theorem key_last : FieldPath.last "Grid..Key" = "Key" := by decide +kernel

theorem row_behind (grid : String) : (cluster grid).Behind 1 "Row" "Cell" := by
  have hrow : (cluster grid).shapes.get? "Row" = some ⟨.list ⟨"Cell", ""⟩, [], false, ""⟩ := rfl
  have hcell : (cluster grid).shapes.get? "Cell" =
    some ⟨.struct (.ofList [("Key", text)]), [], false, ""⟩ := rfl
  exact .through hrow rfl (.here hcell rfl)

theorem cell_owns (grid : String) : (cluster grid).Owns "Cell" "Key" text :=
  ⟨⟨.struct (.ofList [("Key", text)]), [], false, ""⟩, .ofList [("Key", text)], rfl, rfl, rfl⟩

end Sample

open Sample in
theorem nested_secret_effect_cell : ∃ resources failures s r f,
    clusterRun "Row" = (.ok (resources, failures), s) ∧ r ∈ resources ∧
      r.fields.get? "Grid..Key" = some f ∧ f.isSecret = true ∧
      TakesEffect (cluster "Row") r "Grid..Key" "Cell" "Key" := by
  obtain ⟨resources, failures, s, r, f, top, hrun, hr, hf, hsecret, -, htop, hshape, hstatus⟩ :=
    cluster_built "Row" (by decide +kernel)
  have hdot : (cluster "Row").Undotted := Api.undotted_of_entries (by decide +kernel)
  obtain ⟨parent, shape, n, owner, ref, hfield, hheld, hbehind, -, heffect, -⟩ :=
    nested_secret_effect hrun hr hdot hf (by decide) hsecret (.inr hstatus)
  rw [grid_parent] at hfield
  cases htop.symm.trans hfield
  cases hshape.symm.trans hheld
  obtain ⟨rfl, rfl⟩ := hbehind.unique (row_behind "Row")
  rw [key_last] at heffect
  exact ⟨resources, failures, s, r, f, hrun, hr, hf, hsecret, heffect (Nat.le_refl 1)⟩

open Sample in
/-- The key of a grid of rows is refused, though its parent holds the cells. -/
theorem nested_secret_refused : ∃ resources failures s r f top e,
    clusterRun "Rows" = (.ok (resources, failures), s) ∧ r ∈ resources ∧
      (cluster "Rows").Undotted ∧ r.fields.get? "Grid..Key" = some f ∧ f.isSecret = true ∧
      r.fields.get? (FieldPath.parent "Grid..Key") = some top ∧ top.shape? = some "Rows" ∧
      (cluster "Rows").Behind 2 "Rows" "Cell" ∧
      (cluster "Rows").Owns "Cell" (FieldPath.last "Grid..Key") text ∧
      runFrom (resolveSecrets (cluster "Rows") [r] .stop) [] = (.error (.schema e), []) := by
  obtain ⟨resources, failures, s, r, f, top, hrun, hr, hf, hsecret, hnested, htop, hshape, -⟩ :=
    cluster_built "Rows" (by decide +kernel)
  have hdot : (cluster "Rows").Undotted := Api.undotted_of_entries (by decide +kernel)
  have hrows : (cluster "Rows").shapes.get? "Rows" =
    some ⟨.list ⟨"Row", ""⟩, [], false, ""⟩ := rfl
  have hbehind : (cluster "Rows").Behind 2 "Rows" "Cell" :=
    .through hrows rfl (row_behind "Rows")
  rw [← grid_parent] at htop
  have hrefused := refused hnested (secretMember_far htop hshape hbehind (Nat.lt_succ_self 1))
  obtain ⟨e, hraised⟩ := hrefused.raised []
  refine ⟨resources, failures, s, r, f, top, e, hrun, hr, hdot, hf, hsecret, htop, hshape,
    hbehind, ?_, hraised⟩
  rw [key_last]
  exact cell_owns "Rows"

end Effect

end Resource

end ResourceVersions
