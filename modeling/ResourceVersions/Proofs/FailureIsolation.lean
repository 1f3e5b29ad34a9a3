import ResourceVersions.Model.Build
import ResourceVersions.Proofs.BuiltResource
import ResourceVersions.Proofs.RegisteredModel
import ResourceVersions.Proofs.SteadyRuns

/-! # Isolated failures

A resource that cannot be built has no effect on the others. The run that collects its failure is
related, resource by resource, to a run that never hears of it: after every step the second run has
what the first has built without the failing resources, and no failures. -/
namespace ResourceVersions

/-- The configuration that leaves out some resources more. -/
def Config.ignoring (config : Config) (names : List String) : Config :=
  { config with ignore := { config.ignore with resources := config.ignore.resources ++ names } }

theorem Config.isIgnoredResource_ignoring (config : Config) (names : List String) (name : String) :
    (config.ignoring names).isIgnoredResource name =
      (config.isIgnoredResource name || names.contains name) := by
  simp [isIgnoredResource, ignoring]

namespace Resource

variable {api : Api} {config : Config} {mode : OnFailure}

/-- A create operation that is not ignored, and the capitalised name of its resource. -/
structure Creates (api : Api) (config : Config) (given camel : String) : Prop where
  listed : given ∈ (api.operationsOf config.ignore.operations .create).keys
  kept : config.isIgnoredResource given = false
  named : ∃ names, Names.of given = .ok names ∧ names.camel = camel

/-- No two resources have one capitalised name. -/
def DistinctNames (api : Api) (config : Config) : Prop :=
  ∀ given other camel, Creates api config given camel → Creates api config other camel →
    given = other

/-- The original names of the resources of given capitalised names. -/
def originalNames (api : Api) (config : Config) (camels : List String) : List String :=
  (api.operationsOf config.ignore.operations .create).sortedKeys.filter fun given =>
    match Names.of given with
    | .ok names => camels.contains names.camel
    | .error _ => false

theorem mem_originalNames {camels : List String} {given : String} {names : Names}
    (hgiven : given ∈ (api.operationsOf config.ignore.operations .create).keys)
    (hnames : Names.of given = .ok names) :
    given ∈ originalNames api config camels ↔ names.camel ∈ camels := by
  simp [originalNames, hnames, Table.mem_sortedKeys_iff, hgiven]

/-- What becomes of one create operation. -/
inductive Adds (api : Api) (config : Config) (mode : OnFailure) (acc : Progress)
    (entry : String × Operation) : Progress → Prop where
  | ignored (h : config.isIgnoredResource entry.1 = true) : Adds api config mode acc entry acc
  | known {names} (kept : config.isIgnoredResource entry.1 = false)
      (hnames : Names.of entry.1 = .ok names) (h : names.camel ∈ acc.built.keys) :
      Adds api config mode acc entry acc
  | built {names r} (kept : config.isIgnoredResource entry.1 = false)
      (hnames : Names.of entry.1 = .ok names) (hnew : names.camel ∉ acc.built.keys)
      (hbuild : ∀ s, (runFrom (build api config names entry.2) s).1 = .ok r) :
      Adds api config mode acc entry { acc with built := acc.built.insert names.camel r }
  | failed {names e} (kept : config.isIgnoredResource entry.1 = false)
      (hnames : Names.of entry.1 = .ok names) (hnew : names.camel ∉ acc.built.keys)
      (hbuild : ∀ s, (runFrom (build api config names entry.2) s).1 = .error (.schema e))
      (hcollect : mode = .collect) :
      Adds api config mode acc entry
        { acc with failures := acc.failures ++ [⟨names.camel, .schema e⟩] }

theorem addResource_adds {acc acc' : Progress} {entry : String × Operation} {s s' : List Record}
    (h : runFrom (addResource api config mode acc entry) s = (.ok acc', s')) :
    Adds api config mode acc entry acc' := by
  simp only [addResource] at h
  split at h
  · rename_i hignored
    cases h
    exact .ignored hignored
  · rename_i hkept
    rw [Bool.not_eq_true] at hkept
    obtain ⟨names, _, hnames, h⟩ := runFrom_bind_ok h
    cases hof : Names.of entry.1 with
    | error e =>
      rw [hof] at hnames
      cases hnames
    | ok names' =>
    rw [hof] at hnames
    cases hnames
    split at h
    · rename_i hknown
      cases h
      exact .known hkept hof (Table.contains_iff_mem_keys.mp hknown)
    · rename_i hnew
      rw [Table.contains_iff_mem_keys] at hnew
      obtain ⟨result, _, hguard, h⟩ := runFrom_bind_ok h
      rw [guard_run] at hguard
      have hsteady := build_steady api config names entry.2
      cases hbuild : runFrom (build api config names entry.2) s with
      | mk r t =>
        rw [hbuild] at hguard
        have hall : ∀ s, (runFrom (build api config names entry.2) s).1 = r := fun s => by
          rw [hsteady s _, hbuild]
        cases r with
        | ok r =>
          cases hguard
          cases h
          exact .built hkept hof hnew hall
        | error e =>
          cases e with
          | schema e =>
            cases mode with
            | stop => cases hguard
            | collect =>
              cases hguard
              cases h
              exact .failed hkept hof hnew hall rfl
          | _ => cases hguard

/-- What one create operation comes to does not depend on what has been logged. -/
theorem Adds.run {acc acc' : Progress} {entry : String × Operation}
    (h : Adds api config mode acc entry acc') (s : List Record) :
    ∃ s', runFrom (addResource api config mode acc entry) s = (.ok acc', s') := by
  have hread : ∀ {names}, Names.of entry.1 = .ok names →
      runFrom (Attempt.ofExcept (Names.of entry.1)) s = (.ok names, s) := by
    intro names hnames
    rw [hnames]
    rfl
  cases h with
  | ignored h =>
    refine ⟨s, ?_⟩
    simp only [addResource, h, if_true]
    rfl
  | known kept hnames h =>
    refine ⟨s, ?_⟩
    simp only [addResource, kept, Bool.false_eq_true, if_false]
    rw [runFrom_bind_eq (hread hnames), if_pos (Table.contains_iff_mem_keys.mpr h)]
    rfl
  | @built names r kept hnames hnew hbuild =>
    obtain ⟨s', hguard⟩ := guard_built mode names.camel (fun text => s!"{names.camel}: {text}")
      (hbuild s)
    refine ⟨s', ?_⟩
    simp only [addResource, kept, Bool.false_eq_true, if_false]
    rw [runFrom_bind_eq (hread hnames), if_neg (mt Table.contains_iff_mem_keys.mp hnew),
      runFrom_bind_eq hguard]
    rfl
  | @failed names e kept hnames hnew hbuild hcollect =>
    subst hcollect
    obtain ⟨s', hguard⟩ := guard_collected names.camel (fun text => s!"{names.camel}: {text}")
      (hbuild s)
    refine ⟨s', ?_⟩
    simp only [addResource, kept, Bool.false_eq_true, if_false]
    rw [runFrom_bind_eq (hread hnames), if_neg (mt Table.contains_iff_mem_keys.mp hnew),
      runFrom_bind_eq hguard]
    rfl

/-- The second run has what the first has built without the failing resources. -/
structure Isolated (failed : List String) (acc acc' : Progress) : Prop where
  built : acc'.built = acc.built.filter fun name _ => !failed.contains name
  failures : acc'.failures = []

theorem adds_isolated {failed : List String} {acc acc₁ acc' : Progress}
    {entry : String × Operation} (mode' : OnFailure)
    (hentry : entry.1 ∈ (api.operationsOf config.ignore.operations .create).keys)
    (h : Adds api config mode acc entry acc₁) (hacc : Isolated failed acc acc')
    (hfailed : ∀ f ∈ acc₁.failures, f.name ∈ failed) :
    ∃ acc₁', Adds api (config.ignoring (originalNames api config failed)) mode' acc' entry acc₁' ∧
      Isolated failed acc₁ acc₁' := by
  have hignored : (config.isIgnoredResource entry.1 = true ∨
      entry.1 ∈ originalNames api config failed) →
      (config.ignoring (originalNames api config failed)).isIgnoredResource entry.1 = true := by
    rintro (h | h) <;> simp [Config.isIgnoredResource_ignoring, h]
  have hkept : config.isIgnoredResource entry.1 = false →
      entry.1 ∉ originalNames api config failed →
      (config.ignoring (originalNames api config failed)).isIgnoredResource entry.1 = false := by
    intro h h'
    simp [Config.isIgnoredResource_ignoring, h, h']
  cases h with
  | ignored h => exact ⟨acc', .ignored (hignored (.inl h)), hacc⟩
  | @known names kept hnames h =>
    by_cases hin : names.camel ∈ failed
    · exact ⟨acc', .ignored (hignored (.inr ((mem_originalNames hentry hnames).mpr hin))), hacc⟩
    · refine ⟨acc', .known (hkept kept (mt (mem_originalNames hentry hnames).mp hin)) hnames ?_, hacc⟩
      rw [hacc.built]
      exact (Table.mem_keys_filter _ _).mpr ⟨h, by simpa using hin⟩
  | @built names r kept hnames hnew hbuild =>
    by_cases hin : names.camel ∈ failed
    · refine ⟨acc', .ignored (hignored (.inr ((mem_originalNames hentry hnames).mpr hin))), ?_,
        hacc.failures⟩
      rw [hacc.built]
      exact (Table.filter_insert_dropped _ _ r (by simpa using hin)).symm
    · have hnew' : names.camel ∉ acc'.built.keys := by
        rw [hacc.built]
        exact fun h => hnew ((Table.mem_keys_filter _ _).mp h).1
      refine ⟨_, .built (hkept kept (mt (mem_originalNames hentry hnames).mp hin)) hnames hnew'
        hbuild, ?_, hacc.failures⟩
      rw [hacc.built]
      exact (Table.filter_insert_kept _ _ r (by simpa using hin)).symm
  | @failed names e kept hnames hnew hbuild hcollect =>
    have hin : names.camel ∈ failed := hfailed ⟨names.camel, .schema e⟩ (by simp)
    exact ⟨acc', .ignored (hignored (.inr ((mem_originalNames hentry hnames).mpr hin))), hacc.built,
      hacc.failures⟩

theorem adds_failures {acc acc' : Progress} {entry : String × Operation}
    (h : Adds api config mode acc entry acc') : acc.failures ⊆ acc'.failures := by
  cases h with
  | failed => exact List.subset_append_left ..
  | _ => exact List.Subset.refl _

/-- Failures that have been collected stay. -/
theorem foldlM_failures (l : List (String × Operation)) (acc : Progress) :
    Yields (fun acc' => acc.failures ⊆ acc'.failures)
      (l.foldlM (addResource api config mode) acc) :=
  .foldlM (List.Subset.refl _) fun _ _ _ hsub _ _ _ hrun =>
    List.Subset.trans hsub (adds_failures (addResource_adds hrun))

theorem foldlM_isolated {failed : List String} {l : List (String × Operation)}
    {acc acc' final : Progress} {s s' : List Record} (mode' : OnFailure) (t : List Record)
    (hl : ∀ e ∈ l, e.1 ∈ (api.operationsOf config.ignore.operations .create).keys)
    (hrun : runFrom (l.foldlM (addResource api config mode) acc) s = (.ok final, s'))
    (hacc : Isolated failed acc acc') (hfailed : ∀ f ∈ final.failures, f.name ∈ failed) :
    ∃ final' t', runFrom (l.foldlM
        (addResource api (config.ignoring (originalNames api config failed)) mode') acc') t =
          (.ok final', t') ∧ Isolated failed final final' := by
  induction l generalizing acc acc' s t with
  | nil =>
    cases hrun
    exact ⟨acc', t, rfl, hacc⟩
  | cons e l ih =>
    rw [List.foldlM_cons] at hrun
    obtain ⟨acc₁, s₁, hstep, hrest⟩ := runFrom_bind_ok hrun
    have hsub := foldlM_failures l acc₁ s₁ final s' hrest
    obtain ⟨acc₁', hadds, hacc₁⟩ := adds_isolated mode' (hl e (by simp)) (addResource_adds hstep)
      hacc fun f hf => hfailed f (hsub hf)
    obtain ⟨t₁, hstep'⟩ := hadds.run t
    rw [List.foldlM_cons, runFrom_bind_eq hstep']
    exact ih t₁ (fun e he => hl e (by simp [he])) hrest hacc₁

/-- Nothing has been built and failed at once, and nothing of what is still to come has been
either. -/
structure Apart (api : Api) (config : Config) (rest : List String) (acc : Progress) : Prop where
  disjoint : ∀ f ∈ acc.failures, f.name ∉ acc.built.keys
  fresh : ∀ given ∈ rest, ∀ camel, Creates api config given camel →
    camel ∉ acc.built.keys ∧ ∀ f ∈ acc.failures, f.name ≠ camel

theorem adds_apart (hdistinct : DistinctNames api config) {rest : List String}
    {acc acc' : Progress} {entry : String × Operation}
    (hentry : entry.1 ∈ (api.operationsOf config.ignore.operations .create).keys)
    (hnew : entry.1 ∉ rest) (h : Apart api config (entry.1 :: rest) acc)
    (hadds : Adds api config mode acc entry acc') : Apart api config rest acc' := by
  have hrest : Apart api config rest acc :=
    ⟨h.disjoint, fun given hgiven => h.fresh given (List.mem_cons_of_mem _ hgiven)⟩
  have hother : ∀ {names}, config.isIgnoredResource entry.1 = false →
      Names.of entry.1 = .ok names → ∀ given ∈ rest, ∀ camel, Creates api config given camel →
        camel ≠ names.camel := by
    rintro names hkept hnames given hgiven camel hcreates rfl
    have hsame := hdistinct _ _ _ hcreates ⟨hentry, hkept, names, hnames, rfl⟩
    exact hnew (hsame ▸ hgiven)
  have hfresh : ∀ {names}, config.isIgnoredResource entry.1 = false →
      Names.of entry.1 = .ok names → ∀ f ∈ acc.failures, f.name ≠ names.camel :=
    fun hkept hnames => (h.fresh entry.1 (by simp) _ ⟨hentry, hkept, _, hnames, rfl⟩).2
  cases hadds with
  | ignored => exact hrest
  | known => exact hrest
  | @built names r kept hnames hnew hbuild =>
    refine ⟨fun f hf hin => ?_, fun given hgiven camel hcreates => ⟨fun hin => ?_, ?_⟩⟩
    · rcases Table.mem_keys_insert.mp hin with hname | hin
      · exact hfresh kept hnames f hf hname
      · exact h.disjoint f hf hin
    · rcases Table.mem_keys_insert.mp hin with hname | hin
      · exact hother kept hnames given hgiven camel hcreates hname
      · exact (hrest.fresh given hgiven camel hcreates).1 hin
    · exact (hrest.fresh given hgiven camel hcreates).2
  | @failed names e kept hnames hnew hbuild hcollect =>
    refine ⟨fun f hf => ?_, fun given hgiven camel hcreates => ⟨?_, fun f hf => ?_⟩⟩
    · rcases List.mem_append.mp hf with hf | hf
      · exact h.disjoint f hf
      · obtain rfl := List.mem_singleton.mp hf
        exact hnew
    · exact (hrest.fresh given hgiven camel hcreates).1
    · rcases List.mem_append.mp hf with hf | hf
      · exact (hrest.fresh given hgiven camel hcreates).2 f hf
      · obtain rfl := List.mem_singleton.mp hf
        exact (hother kept hnames given hgiven camel hcreates).symm

theorem foldlM_apart (hdistinct : DistinctNames api config) {l : List (String × Operation)}
    {acc : Progress}
    (hl : ∀ e ∈ l, e.1 ∈ (api.operationsOf config.ignore.operations .create).keys)
    (hnodup : (l.map Prod.fst).Nodup) (h : Apart api config (l.map Prod.fst) acc) :
    Yields (Apart api config []) (l.foldlM (addResource api config mode) acc) := by
  induction l generalizing acc with
  | nil => exact .pure h
  | cons e l ih =>
    rw [List.map_cons, List.nodup_cons] at hnodup
    rw [List.foldlM_cons]
    refine .bind_of (Q := Apart api config (l.map Prod.fst)) (fun s acc' s' hrun => ?_) fun acc' => ?_
    · exact adds_apart hdistinct (hl e (by simp)) hnodup.1 h (addResource_adds hrun)
    · exact ih (fun e he => hl e (by simp [he])) hnodup.2

/-- Where names are distinct, no resource that is built has the name of one that failed. -/
theorem buildAll_apart (hdistinct : DistinctNames api config) :
    Yields (fun res => ∀ f ∈ res.2, ∀ r ∈ res.1, r.names.camel ≠ f.name)
      (buildAll api config mode) := by
  have hempty : Listed (∅ : Table Resource) := by
    intro name r hr
    cases hr
  have hstart : ∀ rest, Apart api config rest {} :=
    fun rest => ⟨nofun, fun _ _ _ _ => ⟨nofun, nofun⟩⟩
  refine .bind_of (Yields.and (.foldlM hempty fun e _ _ h => listed_addResource h e)
    (foldlM_apart hdistinct (fun e he => ?_) ?_ (hstart _))) fun progress h => .pure ?_
  · exact Table.mem_keys_of_get? (Table.mem_sorted_iff.mp he)
  · rw [Table.fst_sorted]
    exact (Table.sortedKeys_perm _).nodup_iff.mpr (Table.keys_nodup _)
  · obtain ⟨hlisted, hapart⟩ := h
    rintro f hf r hr hname
    obtain ⟨e, he, rfl⟩ := List.mem_map.mp hr
    have hget := Table.mem_sorted_iff.mp he
    refine hapart.disjoint f hf ?_
    rw [← hname, (hlisted _ _ hget).1]
    exact Table.mem_keys_of_get? hget

/-- Without the resources that fail in the end, the same resources are built as with them. -/
theorem buildAll_isolated (failed : List String) {built : List Resource}
    {failures : List Failure} {s s' : List Record} (mode' : OnFailure) (t : List Record)
    (hrun : runFrom (buildAll api config mode) s = (.ok (built, failures), s'))
    (hfailed : ∀ f ∈ failures, f.name ∈ failed) :
    ∃ t', runFrom (buildAll api (config.ignoring (originalNames api config failed)) mode') t =
      (.ok (built.filter fun r => !failed.contains r.names.camel, []), t') := by
  obtain ⟨final, s₁, hfold, hpure⟩ := runFrom_bind_ok hrun
  cases hpure
  have hempty : Listed (∅ : Table Resource) := by
    intro name r hr
    cases hr
  have hlisted : Listed final.built :=
    Yields.foldlM (P := fun acc => Listed acc.built) hempty
      (fun e _ _ h => listed_addResource h e) s final _ hfold
  have hstart : Isolated failed {} {} := ⟨rfl, rfl⟩
  obtain ⟨final', t', hfold', hsame⟩ := foldlM_isolated mode' t
    (fun e he => Table.mem_keys_of_get? (Table.mem_sorted_iff.mp he)) hfold hstart hfailed
  refine ⟨t', (runFrom_bind_eq hfold').trans ?_⟩
  rw [runFrom_pure, hsame.built, hsame.failures, Table.sorted_filter, List.filter_map]
  congr 3
  refine congrArg (List.map Prod.snd) (List.filter_congr fun e he => ?_)
  rw [Function.comp_apply, (hlisted _ _ (Table.mem_sorted_iff.mp he)).1]

section Secrets

/-- The secret members of a resource; those of a resource that fails do not count. -/
def foundSecrets (api : Api) (r : Resource) : List (String × String) :=
  match r.secretMembers api with
  | .ok found => found
  | .error _ => []

/-- The failure of a resource whose secrets lead nowhere. -/
def secretFailure? (api : Api) (r : Resource) : Option Failure :=
  match r.secretMembers api with
  | .ok _ => none
  | .error e => some ⟨r.names.camel, .schema e⟩

theorem foundSecrets_failed {r : Resource} (h : secretFailure? api r ≠ none) :
    foundSecrets api r = [] := by
  unfold foundSecrets
  unfold secretFailure? at h
  cases hr : r.secretMembers api with
  | error e => rfl
  | ok found =>
    rw [hr] at h
    exact absurd rfl h

theorem secretFailure?_name {r : Resource} {f : Failure} (h : secretFailure? api r = some f) :
    f.name = r.names.camel := by
  unfold secretFailure? at h
  split at h
  · cases h
  · cases h
    rfl

/-- The secrets of the resources that have them, and the failures of the others. -/
theorem resolveSecrets_run {l : List Resource}
    (h : mode = .collect ∨ ∀ r ∈ l, secretFailure? api r = none) (s : List Record) :
    ∃ s', runFrom (resolveSecrets api l mode) s =
      (.ok ((l.flatMap (foundSecrets api)).foldl addSecret ∅, l.filterMap (secretFailure? api)),
        s') := by
  suffices hfrom : ∀ secrets failures s,
      ∃ s', runFrom (l.foldlM (secretStep api mode) (secrets, failures)) s =
        (.ok ((l.flatMap (foundSecrets api)).foldl addSecret secrets,
          failures ++ l.filterMap (secretFailure? api)), s') from hfrom ∅ [] s
  induction l with
  | nil =>
    intro secrets failures s
    exact ⟨s, by simp⟩
  | cons r l ih =>
    intro secrets failures s
    have hrest := ih (h.imp_right fun h r hr => h r (by simp [hr]))
    rw [List.foldlM_cons]
    cases hr : r.secretMembers api with
    | ok found =>
      have hfound : foundSecrets api r = found := by rw [foundSecrets, hr]
      have hnone : secretFailure? api r = none := by rw [secretFailure?, hr]
      obtain ⟨s', hrun⟩ := hrest (found.foldl addSecret secrets) failures s
      refine ⟨s', ?_⟩
      rw [runFrom_bind_eq (secretStep_found hr mode _ s), hrun]
      simp [hfound, hnone]
    | error e =>
      have hfound : foundSecrets api r = [] := by rw [foundSecrets, hr]
      have hsome : secretFailure? api r = some ⟨r.names.camel, .schema e⟩ := by
        rw [secretFailure?, hr]
      have hcollect : mode = .collect := h.resolve_right fun h => by
        rw [h r (by simp)] at hsome
        cases hsome
      subst hcollect
      obtain ⟨s₁, hstep⟩ := secretStep_failed hr (secrets, failures) s
      obtain ⟨s', hrun⟩ := hrest secrets (failures ++ [⟨r.names.camel, .schema e⟩]) s₁
      refine ⟨s', ?_⟩
      rw [runFrom_bind_eq hstep, hrun]
      simp [hfound, hsome]

/-- Resources that fail have no secrets that count. -/
theorem secrets_kept {l : List Resource} {keep : Resource → Bool}
    (hkeep : ∀ r ∈ l, keep r = true ↔ secretFailure? api r = none) :
    (l.filter keep).flatMap (foundSecrets api) = l.flatMap (foundSecrets api) := by
  induction l with
  | nil => rfl
  | cons r l ih =>
    have hrest := ih fun r hr => hkeep r (by simp [hr])
    by_cases hr : keep r = true
    · rw [List.filter_cons_of_pos hr, List.flatMap_cons, List.flatMap_cons, hrest]
    · have hfails := mt (hkeep r (by simp)).mpr hr
      rw [List.filter_cons_of_neg hr, List.flatMap_cons, foundSecrets_failed hfails, hrest,
        List.nil_append]

theorem resolveSecrets_ok {l : List Resource} {secrets : Table (List String)}
    {failures : List Failure} {s s' : List Record}
    (h : runFrom (resolveSecrets api l .collect) s = (.ok (secrets, failures), s')) :
    secrets = (l.flatMap (foundSecrets api)).foldl addSecret ∅ ∧
      failures = l.filterMap (secretFailure? api) := by
  obtain ⟨_, hrun⟩ := resolveSecrets_run (.inl rfl) s
  cases hrun.symm.trans h
  exact ⟨rfl, rfl⟩

/-- Only the resources are kept that fail in neither way. -/
theorem kept_iff (hdistinct : DistinctNames api config) {built : List Resource}
    {failures : List Failure} {s s' : List Record}
    (hbuilt : runFrom (buildAll api config mode) s = (.ok (built, failures), s')) :
    ∀ r ∈ built, (!((failures ++ built.filterMap (secretFailure? api)).map Failure.name).contains
      r.names.camel) = true ↔ secretFailure? api r = none := by
  have hapart := buildAll_apart hdistinct s _ s' hbuilt
  have hnodup := (buildAll_named config mode s _ s' hbuilt).nodup
  intro r hr
  simp only [Bool.not_eq_true', List.contains_eq_mem, decide_eq_false_iff_not, List.mem_map,
    List.mem_append, List.mem_filterMap]
  constructor
  · intro hkept
    cases hfails : secretFailure? api r with
    | none => rfl
    | some f =>
      exact absurd ⟨f, .inr ⟨r, hr, hfails⟩, secretFailure?_name hfails⟩ hkept
  · rintro hnone ⟨f, hf | ⟨r', hr', hfails⟩, hname⟩
    · exact hapart f hf r hr hname.symm
    · rw [secretFailure?_name hfails] at hname
      rw [List.inj_on_of_nodup_map hnodup hr' hr hname, hnone] at hfails
      cases hfails

end Secrets

/-- The configuration that leaves out the resources behind failures too. -/
def withoutFailing (config : Config) (api : Api) (failures : List Failure) : Config :=
  config.ignoring (originalNames api config (failures.map Failure.name))

end Resource

namespace VersionModel

variable {version : String} {api : Api} {config : Config} {group? : Option String}
  {m : VersionModel}

theorem ofExcept_run {α : Type} {r : Except Error α} {a : α} {s s' : List Record}
    (h : runFrom (Attempt.ofExcept r) s = (.ok a, s')) (t : List Record) :
    runFrom (Attempt.ofExcept r) t = (.ok a, t) := by
  cases h
  rfl

/-- A failing resource has no effect on what is built for the others: without the resources whose
failures have been collected, the same model is built, and nothing fails. -/
theorem build_isolated (hdistinct : Resource.DistinctNames api config) {s s' : List Record}
    (hrun : runFrom (build version api config group? .collect) s = (.ok m, s'))
    (mode : OnFailure) (t : List Record) :
    ∃ m' t', runFrom (build version api (Resource.withoutFailing config api m.failures) group?
        mode) t = (.ok m', t') ∧
      m'.failures = [] ∧ m'.resources = m.resources ∧ m'.typeDefs = m.typeDefs ∧
      m'.enumDefs = m.enumDefs ∧ m'.typeRenames = m.typeRenames ∧
      m'.secretMembers = m.secretMembers := by
  obtain ⟨⟨built, failures⟩, s₁, hbuilt, hrun⟩ := runFrom_bind_ok hrun
  obtain ⟨⟨secrets, failures'⟩, s₂, hsecrets, hrun⟩ := runFrom_bind_ok hrun
  obtain ⟨typeDefs, s₃, htypes, hrun⟩ := runFrom_bind_ok hrun
  obtain ⟨enumDefs, s₄, henums, hrun⟩ := runFrom_bind_ok hrun
  obtain ⟨_, s₅, hcheck, hrun⟩ := runFrom_bind_ok hrun
  obtain ⟨_, s₆, -, hrun⟩ := runFrom_bind_ok hrun
  cases hrun
  obtain ⟨rfl, rfl⟩ := Resource.resolveSecrets_ok hsecrets
  dsimp only at htypes henums ⊢
  have hkept := Resource.kept_iff hdistinct hbuilt
  obtain ⟨t₁, hbuilt'⟩ := Resource.buildAll_isolated
    ((failures ++ built.filterMap (Resource.secretFailure? api)).map Failure.name) mode t hbuilt
    fun f hf => List.mem_map_of_mem (List.mem_append_left _ hf)
  generalize hfailed :
    (failures ++ built.filterMap (Resource.secretFailure? api)).map Failure.name = failed at *
  have hclean : ∀ r ∈ built.filter (fun r => !failed.contains r.names.camel),
      Resource.secretFailure? api r = none := fun r hr =>
    (hkept r (List.mem_filter.mp hr).1).mp (List.mem_filter.mp hr).2
  obtain ⟨t₂, hsecrets'⟩ := Resource.resolveSecrets_run (Or.inr hclean : mode = .collect ∨ _) t₁
  rw [Resource.secrets_kept hkept, List.filterMap_eq_nil_iff.mpr hclean] at hsecrets'
  have hnone : ∀ l : List Resource, (l.filter fun r =>
      !((([] : List Failure) ++ []).map Failure.name).contains r.names.camel) = l :=
    fun l => List.filter_eq_self.mpr (by simp)
  have hchecked : runFrom (Attempt.schema (checkClassNames typeDefs enumDefs)) t₂ = (.ok (), t₂) :=
    ofExcept_run hcheck t₂
  unfold build
  rw [Resource.withoutFailing, hfailed, runFrom_bind_eq hbuilt']
  dsimp only
  rw [runFrom_bind_eq hsecrets']
  dsimp only
  rw [hnone, runFrom_bind_eq (ofExcept_run htypes t₂), runFrom_bind_eq (ofExcept_run henums t₂),
    runFrom_bind_eq hchecked]
  exact ⟨_, _, rfl, rfl, rfl, rfl, rfl, rfl, rfl⟩

namespace Sample

/-- Creates a resource from a payload. -/
def creation (resource payload : String) : Operation :=
  ⟨"Create" ++ resource, some ⟨payload, ""⟩, none⟩

/-- Of three resources, one has a payload that is not defined. -/
def workshop : Api where
  serviceId := "S"
  apiVersion := "1"
  shapes := .ofList [("Payload", ⟨.struct (.ofList []), [], false, ""⟩)]
  operations := .ofList [("CreateLamp", creation "Lamp" "Payload"),
    ("CreateMotor", creation "Motor" "Payload"), ("CreateRelay", creation "Relay" "Missing")]

/-- The secret of another one lies under a field that it does not have. -/
def workshopConfig : Config where
  resources := .ofList [
    ("Lamp", { fields := .ofList [("Tag", { isAttribute := true })], unpacksAttributes := true }),
    ("Motor", { fields := .ofList [("Drive.Key", { isSecret := true })] })]

theorem workshop_creates :
    (workshop.operationsOf workshopConfig.ignore.operations .create).sorted =
      [("Lamp", creation "Lamp" "Payload"), ("Motor", creation "Motor" "Payload"),
        ("Relay", creation "Relay" "Missing")] := by
  have hsorted : workshop.operations.sorted = workshop.operations.entries :=
    List.mergeSort_of_pairwise (by decide)
  unfold Api.operationsOf
  rw [hsorted]
  exact List.mergeSort_of_pairwise (by decide +kernel)

theorem workshop_distinct : Resource.DistinctNames workshop workshopConfig := by
  have hlisted : ∀ {given}, given ∈
      (workshop.operationsOf workshopConfig.ignore.operations .create).keys →
        given ∈ ["Lamp", "Motor", "Relay"] := by
    intro given hgiven
    rw [← Table.mem_sortedKeys_iff, ← Table.fst_sorted, workshop_creates] at hgiven
    exact hgiven
  have hnames : ∀ given ∈ ["Lamp", "Motor", "Relay"], ∀ other ∈ ["Lamp", "Motor", "Relay"],
      (Names.of given).map Names.camel = (Names.of other).map Names.camel → given = other := by
    decide +kernel
  rintro given other camel ⟨hgiven, -, names, hof, rfl⟩ ⟨hother, -, names', hof', hcamel⟩
  refine hnames given (hlisted hgiven) other (hlisted hother) ?_
  rw [hof, hof']
  exact congrArg Except.ok hcamel.symm

theorem ok_of_any {ε α : Type} {x : Except ε α} {p : α → Bool} (h : x.toOption.any p = true) :
    ∃ a, x = .ok a ∧ p a = true := by
  cases x with
  | error e => cases h
  | ok a => exact ⟨a, rfl, h⟩

def lampNames : Names := ⟨"Lamp", "Lamp", "lamp", "lamp"⟩
def motorNames : Names := ⟨"Motor", "Motor", "motor", "motor"⟩
def relayNames : Names := ⟨"Relay", "Relay", "relay", "relay"⟩

def relayFailure : Failure := ⟨"Relay", .schema (.undefinedShape "Missing")⟩
def motorFailure : Failure :=
  ⟨"Motor", .schema (.secretWithoutParent "Motor" "Drive.Key" "Drive")⟩

theorem lamp_built : ∃ r,
    (runFrom (Resource.build workshop workshopConfig lampNames (creation "Lamp" "Payload")) []).1 =
      .ok r ∧ r.names = lampNames ∧ r.secretMembers workshop = .ok [] ∧
        Resource.fieldShapes [r] = [] := by
  obtain ⟨r, hr, hall⟩ := ok_of_any (show ((runFrom (Resource.build workshop workshopConfig
    lampNames (creation "Lamp" "Payload")) []).1.toOption.any fun r => decide (r.names = lampNames ∧
      r.secretMembers workshop = .ok [] ∧ Resource.fieldShapes [r] = [])) = true by decide +kernel)
  exact ⟨r, hr, of_decide_eq_true hall⟩

theorem motor_built : ∃ r,
    (runFrom (Resource.build workshop workshopConfig motorNames (creation "Motor" "Payload")) []).1 =
      .ok r ∧ r.names = motorNames ∧
        r.secretMembers workshop = .error (.secretWithoutParent "Motor" "Drive.Key" "Drive") := by
  obtain ⟨r, hr, hall⟩ := ok_of_any (show ((runFrom (Resource.build workshop workshopConfig
    motorNames (creation "Motor" "Payload")) []).1.toOption.any fun r =>
      decide (r.names = motorNames ∧ r.secretMembers workshop =
        .error (.secretWithoutParent "Motor" "Drive.Key" "Drive"))) = true by decide +kernel)
  exact ⟨r, hr, of_decide_eq_true hall⟩

theorem relay_fails (s : List Record) : (runFrom (Resource.build workshop workshopConfig relayNames
    (creation "Relay" "Missing")) s).1 = .error (.schema (.undefinedShape "Missing")) := rfl

/-- Two of the resources are built, the first without secrets and the second with a lost one. -/
theorem workshop_resources : ∃ lamp motor s,
    runFrom (Resource.buildAll workshop workshopConfig .collect) [] =
      (.ok ([lamp, motor], [relayFailure]), s) ∧
    (lamp.names = lampNames ∧ lamp.secretMembers workshop = .ok [] ∧
      Resource.fieldShapes [lamp] = []) ∧
    motor.names = motorNames ∧
      motor.secretMembers workshop = .error (.secretWithoutParent "Motor" "Drive.Key" "Drive") := by
  obtain ⟨lamp, hlamp, hlampAs⟩ := lamp_built
  obtain ⟨motor, hmotor, hmotorAs⟩ := motor_built
  have hlampOf : Names.of "Lamp" = .ok lampNames := by decide +kernel
  have hmotorOf : Names.of "Motor" = .ok motorNames := by decide +kernel
  have hrelayOf : Names.of "Relay" = .ok relayNames := by decide +kernel
  have hlampAll : ∀ s, (runFrom (Resource.build workshop workshopConfig lampNames
      (creation "Lamp" "Payload")) s).1 = .ok lamp := fun s =>
    (Resource.build_steady workshop workshopConfig lampNames (creation "Lamp" "Payload") s []).trans
      hlamp
  have hmotorAll : ∀ s, (runFrom (Resource.build workshop workshopConfig motorNames
      (creation "Motor" "Payload")) s).1 = .ok motor := fun s =>
    (Resource.build_steady workshop workshopConfig motorNames (creation "Motor" "Payload") s
      []).trans hmotor
  have hadds₁ : Resource.Adds workshop workshopConfig .collect {}
      ("Lamp", creation "Lamp" "Payload") ⟨Table.insert ∅ lampNames.camel lamp, []⟩ :=
    .built (by decide) hlampOf (by decide) hlampAll
  have hadds₂ : Resource.Adds workshop workshopConfig .collect
      ⟨Table.insert ∅ lampNames.camel lamp, []⟩ ("Motor", creation "Motor" "Payload")
      ⟨(Table.insert ∅ lampNames.camel lamp).insert motorNames.camel motor, []⟩ :=
    .built (by decide) hmotorOf (show motorNames.camel ∉ ["Lamp"] by decide) hmotorAll
  have hadds₃ : Resource.Adds workshop workshopConfig .collect
      ⟨(Table.insert ∅ lampNames.camel lamp).insert motorNames.camel motor, []⟩
      ("Relay", creation "Relay" "Missing")
      ⟨(Table.insert ∅ lampNames.camel lamp).insert motorNames.camel motor,
        [⟨relayNames.camel, .schema (.undefinedShape "Missing")⟩]⟩ :=
    .failed (by decide) hrelayOf (show relayNames.camel ∉ ["Lamp", "Motor"] by decide) relay_fails
      rfl
  obtain ⟨s₁, h₁⟩ := hadds₁.run []
  obtain ⟨s₂, h₂⟩ := hadds₂.run s₁
  obtain ⟨s₃, h₃⟩ := hadds₃.run s₂
  have hsorted : ((Table.insert ∅ lampNames.camel lamp).insert motorNames.camel motor).sorted =
      [("Lamp", lamp), ("Motor", motor)] := by
    have hle : "Lamp" ≤ "Motor" := by decide
    exact List.mergeSort_of_pairwise (l := [("Lamp", lamp), ("Motor", motor)]) (by simp [hle])
  refine ⟨lamp, motor, s₃, ?_, hlampAs, hmotorAs⟩
  unfold Resource.buildAll
  rw [workshop_creates]
  dsimp only
  rw [List.foldlM_cons, bind_assoc, runFrom_bind_eq h₁, List.foldlM_cons, bind_assoc,
    runFrom_bind_eq h₂, List.foldlM_cons, bind_assoc, runFrom_bind_eq h₃, List.foldlM_nil,
    pure_bind, hsorted]
  rfl

/-- One resource is built, one fails with its payload, and one with its secret. -/
theorem workshop_built : ∃ m s, runFrom (build "v1" workshop workshopConfig none .collect) [] =
    (.ok m, s) ∧ (m.resources.map fun r => r.names.camel) = ["Lamp"] ∧
      m.failures.map Failure.name = ["Relay", "Motor"] := by
  obtain ⟨lamp, motor, s₃, hbuilt, ⟨hlampNames, hlampSecrets, hlampShapes⟩, hmotorNames,
    hmotorSecrets⟩ := workshop_resources
  obtain ⟨s₄, hsecrets⟩ := Resource.resolveSecrets_run (Or.inl rfl : OnFailure.collect = .collect ∨
    ∀ r ∈ [lamp, motor], Resource.secretFailure? workshop r = none) s₃
  have hfailures : [lamp, motor].filterMap (Resource.secretFailure? workshop) =
      [motorFailure] := by
    simp [Resource.secretFailure?, hlampSecrets, hmotorSecrets, hmotorNames, motorNames,
      motorFailure]
  have hkept : [lamp, motor].filter (fun r =>
      !(([relayFailure] ++ [motorFailure]).map Failure.name).contains r.names.camel) = [lamp] := by
    simp [hlampNames, hmotorNames, lampNames, motorNames, relayFailure, motorFailure]
  have htypes : Types.typeDefs workshop [lamp] ∅ = .ok [] := Types.typeDefs_none hlampShapes
  have henums : Types.enumDefs workshop [lamp] = .ok [] := by
    have hnone : (workshop.shapes.sorted.filter fun e => e.2.isEnum) = [] := by decide +kernel
    unfold Types.enumDefs
    rw [hnone]
    exact congrArg Except.ok (List.mergeSort_nil)
  have hfound : ([lamp, motor].flatMap (Resource.foundSecrets workshop)).foldl Resource.addSecret ∅ =
      ∅ := by
    simp [Resource.foundSecrets, hlampSecrets, hmotorSecrets]
  rw [hfound, hfailures] at hsecrets
  unfold build
  rw [runFrom_bind_eq hbuilt]
  dsimp only
  rw [runFrom_bind_eq hsecrets]
  dsimp only
  rw [hkept, htypes, henums]
  refine ⟨_, _, rfl, ?_, rfl⟩
  simp [hlampNames, lampNames]

end Sample

open Sample in
/-- Two resources fail, and the third one is built as without them. -/
theorem build_isolated_workshop : ∃ m s m' t,
    runFrom (build "v1" workshop workshopConfig none .collect) [] = (.ok m, s) ∧
      (m.resources.map fun r => r.names.camel) = ["Lamp"] ∧
      m.failures.map Failure.name = ["Relay", "Motor"] ∧
      runFrom (build "v1" workshop (Resource.withoutFailing workshopConfig workshop m.failures) none
        .stop) [] = (.ok m', t) ∧ m'.failures = [] ∧ m'.resources = m.resources := by
  obtain ⟨m, s, hrun, hresources, hfailures⟩ := workshop_built
  obtain ⟨m', t, hrun', hclean, hsame, -⟩ := build_isolated workshop_distinct hrun .stop []
  exact ⟨m, s, m', t, hrun, hresources, hfailures, hrun', hclean, hsame⟩

end VersionModel

end ResourceVersions
