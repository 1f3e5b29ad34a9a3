import Mathlib.Data.List.Forall2
import ResourceVersions.Model.Build
import ResourceVersions.Proofs.BuiltResource
import ResourceVersions.Proofs.Spelling

/-! # Built models

What building a model guarantees: its classes are made of the members of its structures, the
names of its classes and resources are different, and fields stand under their own names. -/
namespace ResourceVersions

open Text

namespace VersionModel

/-- The model is the result of some build. -/
def Built (m : VersionModel) : Prop :=
  ∃ version api config group? mode, (build version api config group? mode).run.1 = .ok m

/-- The attribute that a class has for a member of its structure. -/
structure Declares (m : VersionModel) (x : String) (ms : Table ShapeRef) (member : String)
    (a : AttrDef) : Prop where
  names : Names.of member = .ok a.names
  ref : ms.get? member = some a.ref
  secret : a.isSecret = m.isSecretMember x member

/-- The classes of a model are made of the members of its structures, in order, and none takes
a name of the module. -/
structure Coherent (m : VersionModel) : Prop where
  members : ∀ x c, m.typeDef? x = some c → ∃ shape ms, m.api.shape? x = some shape ∧
    shape.form = .struct ms ∧ List.Forall₂ (m.Declares x ms) ms.sortedKeys c.attrs
  free : ∀ x c, m.typeDef? x = some c → c.className ∉ moduleNames

end VersionModel

namespace Types

variable {api : Api} {secrets : Table (List String)} {taken : List String}

/-- A class that stands for a structure of an API. -/
structure Describes (api : Api) (secrets : Table (List String)) (taken : List String)
    (d : TypeDef) : Prop where
  members : ∃ shape ms, api.shape? d.shape = some shape ∧ shape.form = .struct ms ∧
    List.Forall₂ (fun k a => Names.of k = .ok a.names ∧ ms.get? k = some a.ref ∧
      a.isSecret = (secrets.getD d.shape []).contains k) ms.sortedKeys d.attrs
  free : d.className ∉ taken
  chars : '.' ∉ d.className.toList

/-- Attributes are spelled after members. -/
theorem Describes.names {d : TypeDef} (h : Describes api secrets taken d) :
    ∀ a ∈ d.attrs, ∃ member, Names.of member = .ok a.names := by
  obtain ⟨shape, ms, -, -, hattrs⟩ := h.members
  intro a ha
  obtain ⟨member, -, hnames, -⟩ := Fallible.forall₂_mem_right hattrs ha
  exact ⟨member, hnames⟩

theorem attrsOf_ok {members : Table ShapeRef} {known : List String} {attrs : List AttrDef}
    (h : attrsOf members known = .ok attrs) :
    List.Forall₂ (fun k a => Names.of k = .ok a.names ∧ members.get? k = some a.ref ∧
      a.isSecret = known.contains k) members.sortedKeys attrs := by
  have hmem : ∀ e ∈ members.sorted, members.get? e.1 = some e.2 :=
    fun e he => Table.mem_sorted_iff.mp he
  have hstep := Fallible.mapM_ok_iff.mp h
  rw [← members.fst_sorted, List.forall₂_map_left_iff]
  clear h
  generalize members.sorted = entries at hmem hstep
  induction hstep with
  | nil => exact .nil
  | @cons e a _ _ he _ ih =>
    obtain ⟨names, hnames, he⟩ := Fallible.bind_ok_iff.mp he
    cases he
    exact .cons ⟨hnames, hmem e (by simp), rfl⟩ (ih fun e he => hmem e (by simp [he]))

theorem classNames_ok {shape : String} {names : Names} {suffixed : Bool}
    (hmodule : ∀ n ∈ taken, '_' ∉ n.toList) (h : classNames taken shape = .ok (names, suffixed)) :
    names.given = shape ∧ names.camel ∉ taken ∧ '.' ∉ names.camel.toList := by
  obtain ⟨n, hn, h⟩ := Fallible.bind_ok_iff.mp h
  have hchars : '.' ∉ n.camel.toList := by
    intro hdot
    have := Names.camel_alnum hn '.' hdot
    exact absurd this (by decide)
  have hgiven := Names.given_eq hn
  split at h
  · cases h
    refine ⟨hgiven, ?_, ?_⟩
    · intro hin
      exact hmodule _ hin (by simp [clashSuffix])
    · simp [hchars, clashSuffix]
  · rename_i hfree
    cases h
    exact ⟨hgiven, by simpa using hfree, hchars⟩

/-- Classes with different names, each of which stands for a structure. -/
structure AllDescribed (api : Api) (secrets : Table (List String)) (taken : List String)
    (defs : List TypeDef) : Prop where
  nodup : (defs.map TypeDef.className).Nodup
  each : ∀ d ∈ defs, Describes api secrets taken d

theorem described_addTypeDef {defs defs' : List TypeDef} {entry : String × Shape}
    (hmodule : ∀ n ∈ taken, '_' ∉ n.toList) (hdefs : AllDescribed api secrets taken defs)
    (hentry : api.shape? entry.1 = some entry.2) (hstruct : entry.2.form.isStruct = true)
    (h : addTypeDef taken secrets defs entry = .ok defs') :
    AllDescribed api secrets taken defs' := by
  obtain ⟨name, shape⟩ := entry
  obtain ⟨⟨names, suffixed⟩, hnames, h⟩ := Fallible.bind_ok_iff.mp h
  obtain ⟨rfl, hfree, hchars⟩ := classNames_ok hmodule hnames
  dsimp only at h
  split at h
  · cases h
  · rename_i hnone
    obtain ⟨attrs, hattrs, h⟩ := Fallible.bind_ok_iff.mp h
    cases h
    have hnew : ∀ d ∈ defs, d.className ≠ names.camel := by
      intro d hd
      simpa using List.find?_eq_none.mp hnone d hd
    cases hform : shape.form with
    | struct ms =>
      rw [hform] at hattrs
      refine ⟨?_, ?_⟩
      · rw [List.map_append, List.nodup_append]
        refine ⟨hdefs.nodup, by simp, ?_⟩
        rintro n hn k hk rfl
        obtain ⟨d, hd, rfl⟩ := List.mem_map.mp hn
        exact hnew d hd (by simpa [TypeDef.className] using hk)
      · intro d hd
        rcases List.mem_append.mp hd with hd | hd
        · exact hdefs.each d hd
        · obtain rfl := List.mem_singleton.mp hd
          exact ⟨⟨shape, ms, hentry, hform, attrsOf_ok hattrs⟩, hfree, hchars⟩
    | _ =>
      rw [hform] at hstruct
      cases hstruct

theorem reserved_underscore {resources : List Resource} (h : Resource.AllNamed resources) :
    ∀ n ∈ reserved resources, '_' ∉ n.toList := by
  intro n hn
  rcases List.mem_append.mp hn with hn | hn
  · have hall : ∀ n ∈ moduleNames, '_' ∉ n.toList := by decide
    exact hall n hn
  · obtain ⟨r, hr, hn⟩ := List.mem_flatMap.mp hn
    obtain ⟨given, hgiven⟩ := h.names r hr
    have hcamel : '_' ∉ r.names.camel.toList := by
      intro hin
      have := Names.camel_alnum hgiven '_' hin
      exact absurd this (by decide)
    rcases List.mem_cons.mp hn with rfl | hn
    · simp [hcamel]
    rcases List.mem_cons.mp hn with rfl | hn
    · simp [hcamel]
    · obtain rfl := List.mem_singleton.mp hn
      exact hcamel

theorem reachableStructures_ok {names : List String} {structures : Table Shape}
    (h : (api.reachableStructures names).mapError Error.schema = .ok structures) :
    ∀ e ∈ structures.sorted, api.shape? e.1 = some e.2 ∧ e.2.form.isStruct = true := by
  cases hr : api.reachableStructures names with
  | error e =>
    rw [hr] at h
    cases h
  | ok found =>
    rw [hr] at h
    cases h
    obtain ⟨reached, -, hr⟩ := Fallible.bind_ok_iff.mp hr
    cases hr
    intro e he
    have hin := Table.get?_eq_some_iff.mp (Table.mem_sorted_iff.mp he)
    obtain ⟨hin, hkeep⟩ := List.mem_filter.mp hin
    rw [Bool.and_eq_true] at hkeep
    exact ⟨Table.get?_eq_some_iff.mpr hin, hkeep.1⟩

theorem typeDefs_ok {resources : List Resource} {defs : List TypeDef}
    (hnamed : Resource.AllNamed resources) (h : typeDefs api resources secrets = .ok defs) :
    AllDescribed api secrets (reserved resources) defs := by
  obtain ⟨structures, hstructures, h⟩ := Fallible.bind_ok_iff.mp h
  obtain ⟨unsorted, hunsorted, h⟩ := Fallible.bind_ok_iff.mp h
  have hopen := reachableStructures_ok hstructures
  have hfold : AllDescribed api secrets (reserved resources) unsorted := by
    refine Fallible.foldlM_ok ⟨by simp, by simp⟩ (fun e he defs defs' hdefs hstep => ?_) hunsorted
    obtain ⟨hshape, hstruct⟩ := hopen e (List.mem_filter.mp he).1
    exact described_addTypeDef (reserved_underscore hnamed) hdefs hshape hstruct hstep
  cases h
  have hperm := List.mergeSort_perm unsorted fun a b => decide (a.className ≤ b.className)
  exact ⟨(hperm.map _).nodup_iff.mpr hfold.nodup, fun d hd => hfold.each d (hperm.mem_iff.mp hd)⟩

end Types

namespace VersionModel

variable {m : VersionModel}

section Steps

variable {version : String} {api : Api} {config : Config} {group? : Option String}
  {mode : OnFailure} {s s' : List Record}

/-- A model with the resources that were built, less those that have failed by then, and with the
classes for what is left. -/
structure MadeOf (m : VersionModel) (config : Config) (mode : OnFailure) (s : List Record)
    (built : List Resource) (failures failures' : List Failure) : Prop where
  runs : ∃ s₁ s₂, runFrom (Resource.buildAll m.api config mode) s = (.ok (built, failures), s₁) ∧
    runFrom (Resource.resolveSecrets m.api built mode) s₁ = (.ok (m.secretMembers, failures'), s₂)
  failures : m.failures = failures ++ failures'
  resources : m.resources =
    built.filter fun r => !(m.failures.map Failure.name).contains r.names.camel
  typeDefs : Types.typeDefs m.api m.resources m.secretMembers = .ok m.typeDefs

theorem build_made (hrun : runFrom (build version api config group? mode) s = (.ok m, s')) :
    ∃ built failures failures', m.MadeOf config mode s built failures failures' := by
  obtain ⟨⟨built, failures⟩, s₁, hbuilt, hrun⟩ := runFrom_bind_ok hrun
  obtain ⟨⟨secrets, failures'⟩, s₂, hsecrets, hrun⟩ := runFrom_bind_ok hrun
  obtain ⟨typeDefs, s₃, htypes, hrun⟩ := runFrom_bind_ok hrun
  obtain ⟨enumDefs, s₄, -, hrun⟩ := runFrom_bind_ok hrun
  obtain ⟨-, s₅, -, hrun⟩ := runFrom_bind_ok hrun
  obtain ⟨-, s₆, -, hrun⟩ := runFrom_bind_ok hrun
  cases hrun
  exact ⟨built, failures, failures', ⟨s₁, s₂, hbuilt, hsecrets⟩, rfl, rfl,
    (Prod.mk.inj htypes).1⟩

theorem Built.made (h : m.Built) : ∃ config mode built failures failures',
    m.MadeOf config mode [] built failures failures' := by
  obtain ⟨version, api, config, group?, mode, h⟩ := h
  have hrun : runFrom (build version api config group? mode) [] = (.ok m, _) := Prod.ext h rfl
  exact ⟨config, mode, build_made hrun⟩

/-- The parts that a build has put together. -/
theorem build_parts : Yields (fun m => Resource.AllNamed m.resources ∧
      Types.AllDescribed m.api m.secretMembers (Types.reserved m.resources) m.typeDefs)
      (build version api config group? mode) := by
  intro s m s' hrun
  obtain ⟨built, failures, failures', hmade⟩ := build_made hrun
  obtain ⟨s₁, s₂, hbuilt, -⟩ := hmade.runs
  have hall := Resource.buildAll_named config mode _ _ _ hbuilt
  have hsub : m.resources.Sublist built := hmade.resources ▸ List.filter_sublist
  have hnamed : Resource.AllNamed m.resources :=
    ⟨(hsub.map _).nodup hall.nodup, fun r hr => hall.names r (hsub.subset hr),
      fun r hr => hall.spec r (hsub.subset hr), fun r hr => hall.status r (hsub.subset hr)⟩
  exact ⟨hnamed, Types.typeDefs_ok hnamed hmade.typeDefs⟩

theorem Built.parts (h : m.Built) : Resource.AllNamed m.resources ∧
    Types.AllDescribed m.api m.secretMembers (Types.reserved m.resources) m.typeDefs := by
  obtain ⟨version, api, config, group?, mode, h⟩ := h
  exact build_parts [] m _ (Prod.ext h rfl)

/-- What holds of every resource that is built holds of the resources of a model. -/
theorem Built.each {P : Resource → Prop} (h : m.Built)
    (hP : ∀ config names create, Yields P (Resource.build m.api config names create)) :
    ∀ r ∈ m.resources, P r := by
  obtain ⟨config, mode, built, failures, failures', hmade⟩ := h.made
  obtain ⟨s₁, s₂, hbuilt, -⟩ := hmade.runs
  rw [hmade.resources]
  intro r hr
  exact Resource.buildAll_each mode (hP config) _ _ _ hbuilt r (List.mem_filter.mp hr).1

end Steps

theorem Built.coherent (h : m.Built) : m.Coherent where
  members x c hc := by
    obtain ⟨shape, ms, hs, hf, hall⟩ := (h.parts.2.each c (List.mem_of_find?_eq_some hc)).members
    have hx : c.shape = x := by simpa using List.find?_some hc
    rw [hx] at hs hall
    exact ⟨shape, ms, hs, hf, hall.imp fun k a h => ⟨h.1, h.2.1, h.2.2⟩⟩
  free x c hc hin :=
    (h.parts.2.each c (List.mem_of_find?_eq_some hc)).free (List.mem_append_left _ hin)

end VersionModel

end ResourceVersions
