import ResourceVersions.Proofs.ReachableShapes
import ResourceVersions.Proofs.RegistryRun

/-! # Registered models

Every model of a registry that is reached was built for its version. A build in which nothing
fails gives a model with all resources, and with the classes that they need. -/
namespace ResourceVersions

section Clean

variable {api : Api} {resources : List Resource} {s s' : List Record}

/-- The resources of a build that has recorded no failures. -/
def Resource.cleanResources
    (run : Except Error (List Resource × List Failure) × List Record) : List Resource :=
  match run with
  | (.ok (resources, []), _) => resources
  | _ => []

theorem Resource.of_cleanResources
    {run : Except Error (List Resource × List Failure) × List Record}
    (h : cleanResources run ≠ []) : run = (.ok (cleanResources run, []), run.2) := by
  unfold cleanResources at h ⊢
  split at h
  · rfl
  · exact absurd rfl h

/-- What a resource adds to the secret members, or to the failures. -/
def Resource.secretStep (api : Api) (mode : OnFailure) (acc : Table (List String) × List Failure)
    (r : Resource) : Attempt (Table (List String) × List Failure) := do
  match ← mode.guard r.names.camel id (Attempt.schema (r.secretMembers api)) with
  | .ok found => return (found.foldl addSecret acc.1, acc.2)
  | .error failure => return (acc.1, acc.2 ++ [failure])

theorem Resource.resolveSecrets_eq (api : Api) (l : List Resource) (mode : OnFailure) :
    resolveSecrets api l mode = l.foldlM (secretStep api mode) (∅, []) := rfl

theorem Resource.secretStep_found {r : Resource} {found : List (String × String)}
    (h : r.secretMembers api = .ok found) (mode : OnFailure)
    (acc : Table (List String) × List Failure) (s : List Record) :
    runFrom (secretStep api mode acc r) s = (.ok (found.foldl addSecret acc.1, acc.2), s) := by
  rw [secretStep, h]
  rfl

theorem Resource.secretStep_failed {r : Resource} {e : SchemaError}
    (h : r.secretMembers api = .error e) (acc : Table (List String) × List Failure)
    (s : List Record) : ∃ s', runFrom (secretStep api .collect acc r) s =
      (.ok (acc.1, acc.2 ++ [⟨r.names.camel, .schema e⟩]), s') := by
  rw [secretStep, h]
  exact ⟨_, rfl⟩

theorem Resource.resolveSecrets_none (h : ∀ r ∈ resources, r.secretMembers api = .ok []) :
    runFrom (Resource.resolveSecrets api resources .collect) s = (.ok (∅, []), s) := by
  rw [Resource.resolveSecrets_eq]
  induction resources with
  | nil => rfl
  | cons r rest ih =>
    rw [List.foldlM_cons, runFrom_bind_eq (Resource.secretStep_found (h r (by simp)) _ _ _)]
    exact ih fun r hr => h r (by simp [hr])

/-- Fields without shapes need no classes. -/
theorem Types.typeDefs_none {secrets : Table (List String)}
    (h : Resource.fieldShapes resources = []) : Types.typeDefs api resources secrets = .ok [] := by
  have hreach : api.reachableStructures (Resource.fieldShapes resources) = .ok ∅ := by
    rw [h, Api.reachableStructures, List.flatMap_nil, Api.reachFrom]
    have hnone : (api.shapes.filter fun name s =>
        s.form.isStruct && ([] : List String).contains name) = ∅ :=
      Table.eq_of_entries (List.filter_eq_nil_iff.mpr (by simp))
    exact congrArg Except.ok hnone
  unfold Types.typeDefs
  rw [hreach]
  simp [Except.mapError, Table.sorted, show (∅ : Table Shape).entries = [] from rfl, bind,
    Except.bind, pure, Except.pure]

/-- The model of a build in which nothing fails and no member is a secret. -/
theorem VersionModel.build_clean {version : String} {config : Config} {group? : Option String}
    {typeDefs : List TypeDef} {enumDefs : List EnumDef}
    (hbuilt : runFrom (Resource.buildAll api config .collect) s = (.ok (resources, []), s'))
    (hsecrets : ∀ r ∈ resources, r.secretMembers api = .ok [])
    (htypes : Types.typeDefs api resources ∅ = .ok typeDefs)
    (henums : Types.enumDefs api resources = .ok enumDefs)
    (hnames : checkClassNames typeDefs enumDefs = .ok ()) :
    (runFrom (VersionModel.build version api config group? .collect) s).1 =
      .ok { version, api, config, group?, resources, typeDefs, enumDefs, secretMembers := ∅
            failures := [] } := by
  have hkeep : (resources.filter fun r =>
      !((([] : List Failure) ++ []).map Failure.name).contains r.names.camel) = resources :=
    List.filter_eq_self.mpr (by simp)
  unfold VersionModel.build
  rw [runFrom_bind_eq hbuilt]
  dsimp only
  rw [runFrom_bind_eq (Resource.resolveSecrets_none hsecrets)]
  dsimp only
  rw [hkeep, htypes, henums]
  change (runFrom (do
    Attempt.schema (checkClassNames typeDefs enumDefs)
    log Level.info "builder" _
    pure _) s').1 = _
  rw [hnames]
  rfl

end Clean

namespace Registry

/-- The model was built for the version by a registration. -/
def BuiltFor (r : Registry) (version : String) (m : VersionModel) : Prop :=
  ∃ api config records,
    (runFrom (VersionModel.build version api config r.group? .collect) records).1 = .ok m

/-- The registry is sound, and all its models were built for their versions. -/
structure Stocked (r : Registry) : Prop where
  sound : r.Sound
  built : ∀ version m, r.models.get? version = some m → r.BuiltFor version m

variable {r r₁ : Registry} {version hubVersion : String} {api : Api} {config : Config}
  {info? : Option VersionInfo} {records : List Record} {infos : Table VersionInfo}
  {group? : Option String}

/-- Taking an entry changes the entries alone. -/
theorem withEntry_frame (h : r.withEntry version info? = .ok r₁) :
    r₁.hubVersion = r.hubVersion ∧ r₁.group? = r.group? ∧ r₁.models = r.models := by
  cases info? with
  | none =>
    obtain ⟨-, rfl⟩ := withEntry_none_iff.mp h
    exact ⟨rfl, rfl, rfl⟩
  | some info =>
    obtain ⟨-, rfl⟩ := withEntry_some_iff.mp h
    exact ⟨rfl, rfl, rfl⟩

theorem Stocked.registerFrom (hr : r.Stocked) (version : String) (api : Api) (config : Config)
    (info? : Option VersionInfo) (records : List Record) :
    (r.registerFrom version api config info? records).2.Stocked := by
  refine ⟨hr.sound.registerFrom version api config info? records, ?_⟩
  rw [registerFrom_eq]
  cases hentry : r.withEntry version info? with
  | error e => exact hr.built
  | ok r₁ =>
    obtain ⟨-, hgroup, hmodels⟩ := withEntry_frame hentry
    have hkept : ∀ v m, r₁.models.get? v = some m → r₁.BuiltFor v m := by
      intro v m hm
      rw [hmodels] at hm
      obtain ⟨api, config, records, hbuild⟩ := hr.built v m hm
      rw [← hgroup] at hbuild
      exact ⟨api, config, records, hbuild⟩
    dsimp only
    cases hbuild : (runFrom (VersionModel.build version api config r₁.group? .collect)
        records).1 with
    | error e => exact hkept
    | ok m =>
      intro v m' hm
      dsimp only at hm
      rw [Table.get?_insert] at hm
      split at hm
      · rename_i hv
        cases hm
        subst hv
        exact ⟨api, config, records, hbuild⟩
      · exact hkept v m' hm

/-- Registering a listed version without a new entry keeps the model that is built. -/
theorem registerFrom_built {m : VersionModel} (hlisted : version ∈ r.infos.keys)
    (hbuild : (runFrom (VersionModel.build version api config r.group? .collect) records).1 =
      .ok m) : r.registerFrom version api config none records =
        (.ok m, { r with models := r.models.insert version m }) := by
  rw [registerFrom_eq, withEntry_none_iff.mpr ⟨hlisted, rfl⟩]
  dsimp only
  rw [hbuild]

theorem Reached.stocked (h : Reached hubVersion infos group? r) : r.Stocked := by
  induction h with
  | created h =>
    refine ⟨create_sound h, fun v m hm => ?_⟩
    rw [(create_ok h).1] at hm
    cases hm
  | registered version api config info? records _ ih =>
    exact ih.registerFrom version api config info? records

end Registry

end ResourceVersions
