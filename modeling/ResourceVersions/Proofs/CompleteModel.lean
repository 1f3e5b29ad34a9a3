import ResourceVersions.Proofs.BuiltModel
import ResourceVersions.Proofs.RegisteredModel

/-! # Complete models

A create operation that is not ignored is never passed over: its resource has been built, or a
failure has been recorded. So a model without failures has a resource for each of them. -/
namespace ResourceVersions

open Resource

/-- Every create operation that is not ignored has its resource in the model. -/
def VersionModel.Complete (m : VersionModel) : Prop :=
  ∀ name op, (m.api.operationsOf m.config.ignore.operations .create).get? name = some op →
    m.config.isIgnoredResource name = false →
    ∃ names, Names.of name = .ok names ∧ ∃ r ∈ m.resources, r.names.camel = names.camel

namespace Resource

variable {api : Api} {config : Config} {mode : OnFailure}

/-- A resource of a capitalised name is there, or something has failed. -/
def Progress.Accounts (acc : Progress) (camel : String) : Prop :=
  camel ∈ acc.built.keys ∨ acc.failures ≠ []

/-- What is accounted for stays so. -/
theorem accounts_addResource {acc : Progress} {camel : String} (h : acc.Accounts camel)
    (entry : String × Operation) :
    Yields (fun acc => acc.Accounts camel) (addResource api config mode acc entry) := by
  obtain ⟨given, create⟩ := entry
  simp only [addResource]
  split
  · exact .pure h
  · refine .bind fun names => ?_
    split
    · exact .pure h
    · refine .bind fun result => ?_
      cases result with
      | ok r => exact .pure (h.imp_left fun hin => Table.mem_keys_insert.mpr (.inr hin))
      | error failure => exact .pure (.inr (by simp))

/-- The step of a create operation accounts for its resource. -/
theorem addResource_accounts {given : String} (hkept : config.isIgnoredResource given = false)
    (acc : Progress) (create : Operation) :
    Yields (fun acc => ∃ names, Names.of given = .ok names ∧ acc.Accounts names.camel)
      (addResource api config mode acc (given, create)) := by
  simp only [addResource, hkept, Bool.false_eq_true, if_false]
  refine .bind_of (Q := fun names => Names.of given = .ok names) (.except fun _ h => h)
    fun names hnames => ?_
  split
  · rename_i hin
    exact .pure ⟨names, hnames, .inl (Table.contains_iff_mem_keys.mp hin)⟩
  · refine .bind fun result => ?_
    cases result with
    | ok r => exact .pure ⟨names, hnames, .inl (Table.mem_keys_insert.mpr (.inl rfl))⟩
    | error failure => exact .pure ⟨names, hnames, .inr (by simp)⟩

/-- Without failures every create operation that is not ignored has led to a resource. -/
theorem buildAll_complete {name : String} {op : Operation}
    (hop : (api.operationsOf config.ignore.operations .create).get? name = some op)
    (hkept : config.isIgnoredResource name = false) :
    Yields (fun result => ∃ names, Names.of name = .ok names ∧
      (result.2 = [] → ∃ r ∈ result.1, r.names.camel = names.camel))
      (buildAll api config mode) := by
  have hempty : Listed (∅ : Table Resource) := by
    intro name r hr
    cases hr
  have haccounts : Yields (fun acc => ∃ names, Names.of name = .ok names ∧
      acc.Accounts names.camel) ((api.operationsOf config.ignore.operations .create).sorted.foldlM
        (addResource api config mode) {}) := by
    refine .foldlM_mem (I := fun _ => True) trivial (Table.mem_sorted_iff.mpr hop)
      (fun _ _ _ _ => fun _ _ _ _ => trivial) (fun acc _ => addResource_accounts hkept acc op) ?_
    rintro entry - acc ⟨names, hnames, hacc⟩
    exact fun s a s' hrun => ⟨names, hnames, accounts_addResource hacc entry s a s' hrun⟩
  have hlisted : Yields (fun acc => Listed acc.built)
      ((api.operationsOf config.ignore.operations .create).sorted.foldlM
        (addResource api config mode) {}) :=
    .foldlM hempty fun e _ _ h => listed_addResource h e
  refine .bind_of (haccounts.and hlisted) fun acc hacc => .pure ?_
  obtain ⟨⟨names, hnames, hacc⟩, hlisted⟩ := hacc
  refine ⟨names, hnames, fun hnone => ?_⟩
  obtain ⟨r, hr⟩ := Table.mem_keys_iff.mp (hacc.resolve_right fun hsome => hsome hnone)
  have hin := Table.mem_sorted_iff.mpr hr
  exact ⟨r, List.mem_map.mpr ⟨_, hin, rfl⟩, (hlisted _ r hr).1⟩

end Resource

namespace VersionModel

variable {version : String} {api : Api} {config : Config} {group? : Option String}
  {mode : OnFailure}

end VersionModel

end ResourceVersions
