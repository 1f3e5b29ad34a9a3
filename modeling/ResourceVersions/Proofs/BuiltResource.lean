import ResourceVersions.Proofs.Effects
import ResourceVersions.Proofs.Except
import ResourceVersions.Proofs.Table
import ResourceVersions.Resource.Build

/-! # Fields under their names

Whatever is added to a resource while it is built, the fields of its Spec and of its Status stay
under their own capitalised names, and the resource keeps its name. -/
namespace ResourceVersions.Resource

variable {names : Names} {api : Api} {r r' : Resource}

/-- Every field stands under its capitalised name. -/
def Keyed (fields : Table Field) : Prop :=
  ∀ name f, fields.get? name = some f → f.names.camel = name

/-- A resource of a given name with fields under their names. -/
structure Named (names : Names) (r : Resource) : Prop where
  names : r.names = names
  spec : Keyed r.spec
  status : Keyed r.status

theorem Keyed.insert {fields : Table Field} (h : Keyed fields) (f : Field) :
    Keyed (fields.insert f.names.camel f) := by
  intro name g hg
  rw [Table.get?_insert] at hg
  split at hg
  · rename_i hname
    cases hg
    exact hname.symm
  · exact h name g hg

theorem Named.addSpec (h : Named names r) (n : Names) (ref? : Option ShapeRef) :
    Named names (r.addSpec n ref?) :=
  ⟨h.names, h.spec.insert (r.newField n.camel n ref?), h.status⟩

theorem Named.addStatus (h : Named names r) (n : Names) (ref? : Option ShapeRef) :
    Named names (r.addStatus n ref?) :=
  ⟨h.names, h.spec, h.status.insert (r.newField n.camel n ref?)⟩

theorem Named.addNested (h : Named names r) (path : String) (n : Names) (ref : ShapeRef) :
    Named names (r.addNested path n ref) := ⟨h.names, h.spec, h.status⟩

section Keeping

/-- A property that a resource keeps whatever is added to its Spec and its Status. -/
structure Kept (P : Resource → Prop) : Prop where
  addSpec : ∀ {r given n} ref?, P r → Names.of given = .ok n → P (r.addSpec n ref?)
  addStatus : ∀ {r given n} ref?, P r → Names.of given = .ok n → P (r.addStatus n ref?)
  identify : ∀ {r} member, P r → P { r with identifier? := some member }

variable {P : Resource → Prop}

theorem Kept.addInputMember (hP : Kept P) (h : P r) {member : String × ShapeRef}
    (hr : r.addInputMember api member = .ok r') : P r' := by
  obtain ⟨-, -, hr⟩ := Fallible.bind_ok_iff.mp hr
  obtain ⟨n, hn, hr⟩ := Fallible.bind_ok_iff.mp hr
  cases hr
  exact hP.addSpec _ h hn

theorem Kept.unpackAttributes (hP : Kept P) (h : P r) (hr : r.unpackAttributes = .ok r') :
    P r' := by
  refine Fallible.foldlM_ok h (fun e _ a a' ha hstep => ?_) hr
  obtain ⟨n, hn, hstep⟩ := Fallible.bind_ok_iff.mp hstep
  cases hstep
  split
  · exact hP.addStatus none ha hn
  · exact hP.addSpec none ha hn

theorem Kept.addInputMembers (hP : Kept P) (h : P r) (hr : r.addInputMembers api = .ok r') :
    P r' := by
  unfold Resource.addInputMembers at hr
  split at hr
  · cases hr
    exact h
  · obtain ⟨shape, -, hr⟩ := Fallible.bind_ok_iff.mp hr
    obtain ⟨r₁, hr₁, hr⟩ := Fallible.bind_ok_iff.mp hr
    have h₁ : P r₁ := Fallible.foldlM_ok h (fun _ _ _ _ ha => hP.addInputMember ha) hr₁
    split at hr
    · exact hP.unpackAttributes h₁ hr
    · cases hr
      exact h₁

theorem Kept.addOutputMember (hP : Kept P) (h : P r) {member : String × ShapeRef}
    (hr : r.addOutputMember api member = .ok r') : P r' := by
  obtain ⟨name, ref⟩ := member
  simp only [Resource.addOutputMember] at hr
  split at hr
  · cases hr
    exact hP.identify name h
  · obtain ⟨n, hn, hr⟩ := Fallible.bind_ok_iff.mp hr
    split at hr
    · cases hr
      exact h
    · obtain ⟨-, -, hr⟩ := Fallible.bind_ok_iff.mp hr
      cases hr
      exact hP.addStatus _ h hn

theorem Kept.addOutputMembers (hP : Kept P) (h : P r) (hr : r.addOutputMembers api = .ok r') :
    P r' := by
  obtain ⟨members, -, hr⟩ := Fallible.bind_ok_iff.mp hr
  split at hr
  · cases hr
    exact h
  · exact Fallible.foldlM_ok h (fun _ _ _ _ ha => hP.addOutputMember ha) hr

theorem Kept.addConfiguredSpec (hP : Kept P) (h : P r) (entry : String × FieldConfig) :
    Yields P (r.addConfiguredSpec api entry) := by
  obtain ⟨path, fc⟩ := entry
  simp only [Resource.addConfiguredSpec]
  split
  · exact .pure h
  · split
    · split
      · exact .bind fun _ => .pure h
      · exact .pure h
    · split
      · refine .bind fun found => ?_
        split
        · exact .bind fun _ => .pure h
        · exact .pure h
      · split
        · exact .throw _ _
        · refine .bind fun _ => .bind_of (.except fun n hn => hn) fun n hn => ?_
          exact .pure (hP.addSpec _ h hn)

theorem Kept.addConfiguredStatus (hP : Kept P) (h : P r) (entry : String × FieldConfig) :
    Yields P (r.addConfiguredStatus api entry) := by
  obtain ⟨path, fc⟩ := entry
  simp only [Resource.addConfiguredStatus]
  split
  · exact .pure h
  · split
    · exact .bind fun _ => .pure h
    · split
      · exact .throw _ _
      · refine .bind fun _ => .bind_of (.except fun n hn => hn) fun n hn => ?_
        exact .pure (hP.addStatus _ h hn)

theorem Kept.addTopFields (hP : Kept P) (h : P r) : Yields P (r.addTopFields api) := by
  refine .bind_of (.except fun _ => hP.addInputMembers h) fun r₁ h₁ => ?_
  refine .bind_of (.foldlM h₁ fun e _ _ ha => hP.addConfiguredSpec ha e) fun r₂ h₂ => ?_
  refine .bind_of (.except fun _ => hP.addOutputMembers h₂) fun r₃ h₃ => ?_
  exact .foldlM h₃ fun e _ _ ha => hP.addConfiguredStatus ha e

theorem keeps_addNestedFields (hnested : ∀ {r} path n ref, P r → P (r.addNested path n ref))
    (h : P r) : Yields P (r.addNestedFields api) := by
  unfold addNestedFields
  refine .bind fun nested => .bind fun _ => .pure ?_
  induction nested generalizing r with
  | nil => exact h
  | cons f nested ih => exact ih (hnested f.path f.names f.ref h)

/-- What a resource without fields has, and keeps, every resource has that is built. -/
theorem Kept.build (hP : Kept P) (hnested : ∀ {r} path n ref, P r → P (r.addNested path n ref))
    {config : Config} {create : Operation}
    (h : P { names, ops := .ofApi api config.ignore.operations names.given create
             settings := config.resource names.given }) :
    Yields P (build api config names create) :=
  .bind_of (hP.addTopFields h) fun _ h => keeps_addNestedFields hnested h

end Keeping

theorem Named.kept (names : Names) : Kept (Named names) where
  addSpec ref? h _ := h.addSpec _ ref?
  addStatus ref? h _ := h.addStatus _ ref?
  identify _ h := ⟨h.names, h.spec, h.status⟩

theorem named_build (config : Config) (names : Names) (create : Operation) :
    Yields (Named names) (build api config names create) := by
  have hempty : Keyed ∅ := by
    intro name f hf
    cases hf
  exact (Named.kept names).build (fun path n ref h => h.addNested path n ref)
    ⟨rfl, hempty, hempty⟩

/-- Every field has the spellings of some text. -/
def Spelled (fields : Table Field) : Prop :=
  ∀ k f, fields.get? k = some f → ∃ given, Names.of given = .ok f.names

theorem Spelled.insert {fields : Table Field} (h : Spelled fields) {given : String} {f : Field}
    (hf : Names.of given = .ok f.names) : Spelled (fields.insert f.names.camel f) := by
  intro k g hg
  rw [Table.get?_insert] at hg
  split at hg
  · cases hg
    exact ⟨given, hf⟩
  · exact h k g hg

theorem spelled_kept : Kept fun r => Spelled r.spec ∧ Spelled r.status where
  addSpec ref? h hn := ⟨h.1.insert (f := Resource.newField _ _ _ ref?) hn, h.2⟩
  addStatus ref? h hn := ⟨h.1, h.2.insert (f := Resource.newField _ _ _ ref?) hn⟩
  identify _ h := h

theorem spelled_build (config : Config) (names : Names) (create : Operation) :
    Yields (fun r => Spelled r.spec ∧ Spelled r.status) (build api config names create) := by
  have hempty : Spelled ∅ := by
    intro name f hf
    cases hf
  exact spelled_kept.build (fun _ _ _ h => h) ⟨hempty, hempty⟩

/-- What becomes of the work on one resource: only a schema error can be collected. -/
theorem guard_run {α : Type} (mode : OnFailure) (name : String) (describe : String → String)
    (work : Attempt α) (s : List Record) :
    runFrom (mode.guard name describe work) s = match runFrom work s with
      | (.ok a, t) => (.ok (.ok a), t)
      | (.error (.schema e), t) =>
        match mode with
        | .stop => (.error (.schema e), t)
        | .collect => (.ok (.error ⟨name, .schema e⟩),
            t ++ [⟨.error, logger "builder", describe e.message⟩])
      | (.error e, t) => (.error e, t) := by
  unfold OnFailure.guard
  rw [runFrom_bind, runFrom_tryCatch, runFrom_bind]
  cases runFrom work s with
  | mk result t =>
    cases result with
    | ok a => rfl
    | error e => cases e <;> cases mode <;> rfl

theorem guard_built {α : Type} {work : Attempt α} {s : List Record} {a : α} (mode : OnFailure)
    (name : String) (describe : String → String) (h : (runFrom work s).1 = .ok a) :
    ∃ s', runFrom (mode.guard name describe work) s = (.ok (.ok a), s') := by
  rw [guard_run]
  cases hrun : runFrom work s with
  | mk result t =>
    rw [hrun] at h
    subst h
    exact ⟨t, rfl⟩

theorem guard_collected {α : Type} {work : Attempt α} {s : List Record} {e : SchemaError}
    (name : String) (describe : String → String) (h : (runFrom work s).1 = .error (.schema e)) :
    ∃ s', runFrom (OnFailure.collect.guard name describe work) s =
      (.ok (.error ⟨name, .schema e⟩), s') := by
  rw [guard_run]
  cases hrun : runFrom work s with
  | mk result t =>
    rw [hrun] at h
    subst h
    exact ⟨_, rfl⟩

theorem guard_yields {α : Type} {P : α → Prop} {mode : OnFailure} {name : String}
    {describe : String → String} {work : Attempt α} (h : Yields P work) :
    Yields (fun res => ∀ a, res = .ok a → P a) (mode.guard name describe work) := by
  intro s res s' hrun a hres
  rw [guard_run] at hrun
  subst hres
  cases hwork : runFrom work s with
  | mk result t =>
    rw [hwork] at hrun
    cases result with
    | ok b =>
      cases hrun
      exact h s _ _ hwork
    | error e => cases e <;> cases mode <;> cases hrun

/-- Every resource stands under its capitalised name. -/
def Listed (built : Table Resource) : Prop :=
  ∀ name r, built.get? name = some r →
    r.names.camel = name ∧ (∃ given, Names.of given = .ok r.names) ∧ Keyed r.spec ∧
      Keyed r.status

theorem listed_addResource {config : Config} {mode : OnFailure} {acc : Progress}
    (h : Listed acc.built) (entry : String × Operation) :
    Yields (fun acc => Listed acc.built) (addResource api config mode acc entry) := by
  obtain ⟨given, create⟩ := entry
  simp only [addResource]
  split
  · exact .pure h
  · refine .bind_of (Q := fun n => Names.of given = .ok n) (.except fun n hn => hn) fun n hn => ?_
    split
    · exact .pure h
    · refine .bind_of (guard_yields (named_build config n create)) fun res hres => ?_
      split
      · rename_i r
        have hr := hres r rfl
        refine .pure fun name r' hr' => ?_
        rw [Table.get?_insert] at hr'
        split at hr'
        · rename_i hname
          cases hr'
          exact ⟨by rw [hname, hr.names], ⟨given, by rw [hr.names, hn]⟩, hr.spec, hr.status⟩
        · exact h name r' hr'
      · exact .pure h

/-- What holds of every resource that is built holds of all resources of an API. -/
theorem buildAll_each {P : Resource → Prop} {config : Config} (mode : OnFailure)
    (hP : ∀ names create, Yields P (build api config names create)) :
    Yields (fun res => ∀ r ∈ res.1, P r) (buildAll api config mode) := by
  let Made (acc : Progress) : Prop := ∀ name r, acc.built.get? name = some r → P r
  have hempty : Made {} := by
    intro name r hr
    cases hr
  refine .bind_of (Q := Made) (.foldlM hempty fun e _ acc h => ?_) fun progress h => ?_
  · obtain ⟨given, create⟩ := e
    simp only [addResource]
    split
    · exact .pure h
    refine .bind fun n => ?_
    split
    · exact .pure h
    refine .bind_of (guard_yields (hP n create)) fun res hres => ?_
    split
    · rename_i r
      apply Yields.pure
      intro name r' hr'
      rw [Table.get?_insert] at hr'
      split at hr'
      · cases hr'
        exact hres r rfl
      · exact h name r' hr'
    · exact .pure h
  · apply Yields.pure
    intro r hr
    obtain ⟨e, he, rfl⟩ := List.mem_map.mp hr
    exact h e.1 e.2 (Table.mem_sorted_iff.mp he)

/-- What holds of the resources of a model: different names, and fields under theirs. -/
structure AllNamed (resources : List Resource) : Prop where
  nodup : (resources.map fun r => r.names.camel).Nodup
  names : ∀ r ∈ resources, ∃ given, Names.of given = .ok r.names
  spec : ∀ r ∈ resources, Keyed r.spec
  status : ∀ r ∈ resources, Keyed r.status

theorem buildAll_named (config : Config) (mode : OnFailure) :
    Yields (fun res => AllNamed res.1) (buildAll api config mode) := by
  have hempty : Listed (∅ : Table Resource) := by
    intro name r hr
    cases hr
  refine .bind_of (.foldlM hempty fun e _ _ h => listed_addResource h e) fun progress h => ?_
  have hmem : ∀ e ∈ progress.built.sorted, progress.built.get? e.1 = some e.2 :=
    fun e he => Table.mem_sorted_iff.mp he
  refine .pure ⟨?_, ?_, ?_, ?_⟩
  · have hkeys : (progress.built.sorted.map Prod.snd).map (fun r => r.names.camel) =
        progress.built.sortedKeys := by
      rw [← Table.fst_sorted, List.map_map]
      exact List.map_congr_left fun e he => (h _ _ (hmem e he)).1
    rw [hkeys]
    exact progress.built.sortedKeys_perm.nodup_iff.mpr progress.built.keys_nodup
  all_goals
    intro r hr
    obtain ⟨e, he, rfl⟩ := List.mem_map.mp hr
  · exact (h _ _ (hmem e he)).2.1
  · exact (h _ _ (hmem e he)).2.2.1
  · exact (h _ _ (hmem e he)).2.2.2

end ResourceVersions.Resource
