import ResourceVersions.Model.Build
import ResourceVersions.Proofs.BuiltResource
import ResourceVersions.Proofs.ResourceOrder

/-! # Models in another order

A build without failures gives the same model for every order of the API and the configuration,
unless it meets a name without words. -/
namespace ResourceVersions

open Fallible

/-- The same model without failures, up to the order of its API and of settings. -/
structure VersionModel.Same (m m' : VersionModel) : Prop where
  version : m.version = m'.version
  api : m.api.Same m'.api
  group? : m.group? = m'.group?
  resources : List.Forall₂ Resource.Same m.resources m'.resources
  typeDefs : m.typeDefs = m'.typeDefs
  enumDefs : m.enumDefs = m'.enumDefs
  secretMembers : m.secretMembers = m'.secretMembers
  clean : m.failures = []
  clean' : m'.failures = []

namespace Resource

variable {api api' : Api} {config config' : Config} {r r' : Resource} {l l' : List Resource}

/-- Work on a resource that comes to a result does so in the other order as well. -/
theorem guard_follows {α β : Type} {R : α → β → Prop} {x : Attempt α} {y : Attempt β}
    (h : Follows R x y) (name : String) (describe : String → String) :
    FollowsIf (fun res => ∃ a, res = .ok a) (fun a b => ∃ c d, a = .ok c ∧ b = .ok d ∧ R c d)
      (OnFailure.collect.guard name describe x) (OnFailure.collect.guard name describe y) := by
  rintro s _ s' t hrun ⟨a, rfl⟩
  rw [guard_run] at hrun ⊢
  cases hx : runFrom x s with
  | mk result s₁ =>
    rw [hx] at hrun
    cases result with
    | error e => cases e <;> cases hrun
    | ok c =>
      cases hrun
      rcases h s a s' t hx trivial with ⟨b, t', hy, hab⟩ | ⟨e, t', hy, htext⟩
      · rw [hy]
        exact .inl ⟨.ok b, t', rfl, a, b, rfl, rfl, hab⟩
      · rw [hy]
        have hword := htext
        obtain ⟨text, rfl⟩ := htext
        exact .inr ⟨_, t', rfl, hword⟩

theorem addResource_failures (acc : Progress) (entry : String × Operation) :
    Yields (fun acc' => acc'.failures = [] → acc.failures = [])
      (addResource api config .collect acc entry) := by
  obtain ⟨given, create⟩ := entry
  simp only [addResource]
  split
  · exact .pure id
  · refine .bind fun names => ?_
    split
    · exact .pure id
    · refine .bind fun result => ?_
      cases result with
      | ok r => exact .pure id
      | error failure => exact .pure fun h => absurd h (by simp)

/-- The same resources, without failures. -/
def Progress.Same (acc acc' : Progress) : Prop :=
  Table.Alike Resource.Same acc.built acc'.built ∧ acc'.failures = []

theorem addResource_follows (h : api.Same api') (hconfig : config.Same config')
    {acc acc' : Progress} (hacc : acc.Same acc') (entry : String × Operation) :
    FollowsIf (fun acc => acc.failures = []) Progress.Same
      (addResource api config .collect acc entry)
      (addResource api' config' .collect acc' entry) := by
  obtain ⟨given, create⟩ := entry
  unfold addResource Config.isIgnoredResource
  dsimp only
  rw [← hconfig.ignore]
  split
  · exact .pure fun _ => hacc
  · refine (Follows.except (.of_eq rfl)).bind_if fun names names' heq => ?_
    subst heq
    rw [← hacc.1.contains_eq]
    split
    · exact .pure fun _ => hacc
    · refine (guard_follows (build_follows h hconfig names create) _ _).bind_of
        (fun result => ?_) fun result result' _ hresult => ?_
      · cases result with
        | ok r => exact .pure fun _ => ⟨r, rfl⟩
        | error failure => exact .pure fun hnone => absurd hnone (by simp)
      · obtain ⟨s, s', rfl, rfl, hs⟩ := hresult
        exact .pure fun _ => ⟨hacc.1.insert _ hs, hacc.2⟩

theorem buildAll_follows (h : api.Same api') (hconfig : config.Same config') :
    FollowsIf (fun built => built.2 = [])
      (fun built built' => List.Forall₂ Same built.1 built'.1 ∧ built'.2 = [])
      (buildAll api config .collect) (buildAll api' config' .collect) := by
  unfold buildAll
  rw [← hconfig.ignore, h.operationsOf_eq]
  refine (FollowsIf.foldlM (Q := fun acc => acc.failures = []) (S := Progress.Same)
    (forall₂_eq_self _) (fun _ => ⟨Table.alike_empty _, rfl⟩) addResource_failures
    fun acc acc' a b _ hacc hab => ?_).bind_of (fun acc => .pure id) fun acc acc' _ hacc => ?_
  · subst hab
    exact addResource_follows h hconfig hacc a
  · refine .pure fun _ => ⟨?_, hacc.2⟩
    rw [List.forall₂_map_left_iff, List.forall₂_map_right_iff]
    exact hacc.1.sorted.imp fun _ _ he => he.2

theorem ownerShape_keeps (h : api.Same api') (name : String) :
    Keeps (fun a b => a.1 = b.1 ∧ a.2.Same b.2) (ownerShape api name) (ownerShape api' name) := by
  unfold ownerShape
  refine (h.shape_keeps name).bind fun s s' hs => ?_
  dsimp only
  rw [← hs.form.element?_eq]
  cases s.form.element? with
  | none => exact .pure ⟨rfl, hs.form⟩
  | some ref => exact (h.shape_keeps ref.target).bind fun t t' ht => .pure ⟨rfl, ht.form⟩

theorem secretMember_keeps (h : api.Same api') (hr : r.Same r') (path parent : String) :
    Keeps Eq (secretMember api r path parent) (secretMember api' r' path parent) := by
  obtain ⟨hc⟩ := hr
  unfold secretMember
  dsimp only
  split
  · exact .error _ _ _
  · split
    · exact .error _ _ _
    · refine (ownerShape_keeps h _).bind fun a b hab => ?_
      obtain ⟨owner, form⟩ := a
      obtain ⟨owner', form'⟩ := b
      obtain ⟨rfl, hform⟩ := hab
      dsimp only at hform ⊢
      cases hform with
      | struct hms =>
        dsimp only
        rw [hms.contains_eq]
        split
        · exact .pure rfl
        · exact .error _ _ _
      | _ => exact .error _ _ _

theorem secretMembers_keeps (h : api.Same api') (hr : r.Same r') :
    Keeps Eq (r.secretMembers api) (r'.secretMembers api') := by
  unfold secretMembers
  rw [hr.configured]
  refine (Keeps.mapM (S := Eq) (forall₂_eq_self _) fun a b hab => ?_).mono fun _ _ hall =>
    List.forall₂_eq_eq_eq ▸ hall
  subst hab
  exact secretMember_keeps h hr a.1 a.2

theorem resolveSecrets_follows (h : api.Same api') (hl : List.Forall₂ Same l l') :
    FollowsIf (fun found => found.2 = []) (fun found found' => found = found' ∧ found'.2 = [])
      (resolveSecrets api l .collect) (resolveSecrets api' l' .collect) := by
  unfold resolveSecrets
  refine FollowsIf.foldlM (Q := fun found => found.2 = [])
    (S := fun found found' : Table (List String) × List Failure => found = found' ∧ found'.2 = [])
    (c := (∅, [])) (d := (∅, [])) hl (fun _ => ⟨rfl, rfl⟩) (fun found r => ?_)
    fun found found' r r' _ hfound hr => ?_
  · refine .bind fun result => ?_
    cases result with
    | ok members => exact .pure id
    | error failure => exact .pure fun hnone => absurd hnone (by simp)
  · obtain ⟨rfl, hclean⟩ := hfound
    obtain ⟨secrets, failures⟩ := found
    have hkeep : Follows Eq (Attempt.schema (r.secretMembers api))
        (Attempt.schema (r'.secretMembers api')) := .except (secretMembers_keeps h hr).mapError
    have hnames : r.names = r'.names := by cases hr; rfl
    rw [hnames]
    refine (guard_follows hkeep _ _).bind_of (fun result => ?_) fun result result' _ hresult => ?_
    · cases result with
      | ok members => exact .pure fun _ => ⟨members, rfl⟩
      | error failure => exact .pure fun hnone => absurd hnone (by simp)
    · obtain ⟨members, members', rfl, rfl, hmembers⟩ := hresult
      subst hmembers
      exact .pure fun _ => ⟨rfl, hclean⟩

end Resource

namespace Types

variable {api api' : Api} {l l' : List Resource}

/-- Shapes under their names. -/
def SameEntry (e e' : String × Shape) : Prop := e.1 = e'.1 ∧ e.2.Same e'.2

theorem resourceNames_eq (hl : List.Forall₂ Resource.Same l l') {α : Type} {f : Resource → α}
    (hf : ∀ r c, f { r with settings := c } = f r) : l.map f = l'.map f := by
  induction hl with
  | nil => rfl
  | cons hr _ ih =>
    obtain ⟨hc⟩ := hr
    rw [List.map_cons, List.map_cons, ih, ← hf _ _]

theorem reserved_eq (hl : List.Forall₂ Resource.Same l l') : reserved l = reserved l' := by
  unfold reserved
  rw [List.flatMap_def, List.flatMap_def, resourceNames_eq hl fun _ _ => rfl]

theorem fieldShapes_eq (hl : List.Forall₂ Resource.Same l l') :
    Resource.fieldShapes l = Resource.fieldShapes l' := by
  unfold Resource.fieldShapes
  rw [List.flatMap_def, List.flatMap_def, resourceNames_eq hl fun _ _ => rfl]

theorem addTypeDef_eq (taken : List String) (secrets : Table (List String)) (defs : List TypeDef)
    {e e' : String × Shape} (he : SameEntry e e') :
    addTypeDef taken secrets defs e = addTypeDef taken secrets defs e' := by
  obtain ⟨name, shape⟩ := e
  obtain ⟨name', shape'⟩ := e'
  obtain ⟨hname, hs⟩ := he
  dsimp only at hname hs
  unfold addTypeDef attrsOf
  dsimp only
  rw [hname, hs.documentation, hs.form.members.sorted_eq]

theorem enumDef_eq (taken : List String) {e e' : String × Shape} (he : SameEntry e e') :
    enumDef taken e = enumDef taken e' := by
  unfold enumDef
  rw [he.1, he.2.enum]

theorem reachableStructures_keeps (h : api.Same api') (names : List String) :
    Keeps (Table.Alike Shape.Same) (api.reachableStructures names)
      (api'.reachableStructures names) := by
  unfold Api.reachableStructures
  rw [h.reachFrom_eq, h.ends_eq]
  refine (Keeps.of_eq rfl).bind fun reached reached' heq => .pure ?_
  subst heq
  exact h.shapes.filter fun name s s' hs => by rw [hs.form.isStruct_eq]

theorem filter_same {l l' : List (String × Shape)} (hl : List.Forall₂ SameEntry l l')
    (keep keep' : String × Shape → Bool) (hkeep : ∀ e e', SameEntry e e' → keep e = keep' e') :
    List.Forall₂ SameEntry (l.filter keep) (l'.filter keep') := by
  induction hl with
  | nil => exact .nil
  | @cons e e' _ _ he _ ih =>
    rw [List.filter_cons, List.filter_cons, hkeep e e' he]
    split
    · exact .cons he ih
    · exact ih

theorem typeDefs_keeps (h : api.Same api') (hl : List.Forall₂ Resource.Same l l')
    (secrets : Table (List String)) :
    Keeps Eq (typeDefs api l secrets) (typeDefs api' l' secrets) := by
  unfold typeDefs
  rw [reserved_eq hl, fieldShapes_eq hl]
  refine (reachableStructures_keeps h _).mapError.bind fun structures structures' hsame => ?_
  have hneeded := filter_same hsame.sorted
    (fun e => !(api.payloads.contains e.1 || e.2.isException))
    (fun e => !(api'.payloads.contains e.1 || e.2.isException))
    fun e e' he => by rw [he.1, he.2.isException, h.payloads_contains]
  refine (Keeps.foldlM hneeded rfl fun defs defs' e e' hdefs he => ?_).bind fun defs defs' heq => ?_
  · subst hdefs
    exact .of_eq (addTypeDef_eq _ _ _ he)
  · subst heq
    exact .pure rfl

theorem enumDefs_keeps (h : api.Same api') (hl : List.Forall₂ Resource.Same l l') :
    Keeps Eq (enumDefs api l) (enumDefs api' l') := by
  unfold enumDefs
  rw [reserved_eq hl]
  have henums := filter_same h.shapes.sorted (fun e => e.2.isEnum) (fun e => e.2.isEnum)
    fun e e' he => by rw [Shape.isEnum, Shape.isEnum, he.2.enum]
  refine (Keeps.mapM (S := Eq) henums fun e e' he => .of_eq (enumDef_eq _ he)).bind
    fun defs defs' hall => .pure ?_
  rw [List.forall₂_eq_eq_eq] at hall
  rw [hall]

end Types

namespace VersionModel

variable {api api' : Api} {config config' : Config}

/-- What is registered for a version does not depend on the order of its API and configuration, as
long as nothing fails and no name without words is met. -/
theorem build_follows (h : api.Same api') (hconfig : config.Same config') (version : String)
    (group? : Option String) :
    FollowsIf (fun m => m.failures = []) Same (build version api config group? .collect)
      (build version api' config' group? .collect) := by
  unfold build
  refine (Resource.buildAll_follows h hconfig).bind_of (fun built => ?_)
    fun built built' hclean hbuilt => ?_
  · refine .bind fun found => .bind fun typeDefs => .bind fun enumDefs => .bind fun _ => ?_
    exact .bind fun _ => .pure fun hnone => (List.append_eq_nil_iff.mp hnone).1
  obtain ⟨resources, failures⟩ := built
  obtain ⟨resources', failures'⟩ := built'
  obtain ⟨hresources, hclean'⟩ := hbuilt
  dsimp only at hclean hclean' hresources ⊢
  subst hclean hclean'
  refine (Resource.resolveSecrets_follows h hresources).bind_of (fun found => ?_)
    fun found found' hclean hfound => ?_
  · refine .bind fun typeDefs => .bind fun enumDefs => .bind fun _ => .bind fun _ => ?_
    exact .pure fun hnone => hnone
  obtain ⟨rfl, -⟩ := hfound
  obtain ⟨secrets, failures⟩ := found
  dsimp only at hclean ⊢
  subst hclean
  have hkeep : ∀ l : List Resource, (l.filter fun r =>
      !((([] : List Failure) ++ []).map Failure.name).contains r.names.camel) = l :=
    fun l => List.filter_eq_self.mpr (by simp)
  rw [hkeep, hkeep]
  refine (Follows.except (Types.typeDefs_keeps h hresources secrets)).bind_if
    fun typeDefs typeDefs' htypes => ?_
  subst htypes
  refine (Follows.except (Types.enumDefs_keeps h hresources)).bind_if
    fun enumDefs enumDefs' henums => ?_
  subst henums
  refine (Follows.except (.of_eq rfl)).bind_if fun _ _ _ => ?_
  refine (Follows.log _ _ _ _).bind_if fun _ _ _ => .pure fun _ => ?_
  exact ⟨rfl, h, rfl, hresources, rfl, rfl, rfl, rfl, rfl⟩

end VersionModel

end ResourceVersions
