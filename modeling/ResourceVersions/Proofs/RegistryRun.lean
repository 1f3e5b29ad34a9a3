import Mathlib
import ResourceVersions.Proofs.DeprecationPolicy
import ResourceVersions.Proofs.Effects
import ResourceVersions.Proofs.Except

/-! # Runs of a registry

What a registration does to a registry, also when it fails: an entry that was taken stays, and a
model is kept only when it was built. So the policy holds in every registry that is reached. -/
namespace ResourceVersions

theorem Version.parseAll_ok {texts : List String} {parsed : List (Version × String)}
    (h : Version.parseAll texts = .ok parsed) : ∀ text ∈ texts, ∃ v, Version.parse text = .ok v := by
  induction texts generalizing parsed with
  | nil => simp
  | cons text texts ih =>
    obtain ⟨v, hv, h⟩ := Fallible.bind_ok_iff.mp h
    obtain ⟨others, hothers, -⟩ := Fallible.bind_ok_iff.mp h
    exact List.forall_mem_cons.mpr ⟨⟨v, hv⟩, ih hothers⟩

namespace Registry

/-- A new entry is taken if it is for a version and the policy allows it. -/
def Takes (r : Registry) (version : String) (info : VersionInfo) : Prop :=
  (∃ v, Version.parse version = .ok v) ∧
    audit r.hubVersion (r.infos.insert version info) = .ok ()

/-- The policy holds, all versions are versions, and models are models of listed versions. -/
structure Sound (r : Registry) : Prop where
  hub_available : ∃ info, r.infos.get? r.hubVersion = some info ∧ info.isDeprecated = false
  parses : ∀ text ∈ r.infos.keys, ∃ v, Version.parse text = .ok v
  oldest_first : ∀ v w text text', text ∈ r.spokeVersions → text' ∈ r.spokeVersions →
    Version.parse text = .ok v → Version.parse text' = .ok w → Older (v, text) (w, text') →
    isDeprecated r.infos text' = true → isDeprecated r.infos text = true
  listed : ∀ text ∈ r.models.keys, text ∈ r.infos.keys

/-- The result of a registration and the registry that it leaves. -/
def registerFrom (r : Registry) (version : String) (api : Api) (config : Config)
    (info? : Option VersionInfo) (records : List Record) : Except Error VersionModel × Registry :=
  ((r.register version api config info?).run records).1

/-- What the constructor or some registrations after it lead to, failed ones included. -/
inductive Reached (hubVersion : String) (infos : Table VersionInfo) (group? : Option String) :
    Registry → Prop where
  | created {r} : create hubVersion infos group? = .ok r → Reached hubVersion infos group? r
  | registered {r} (version api config info? records) : Reached hubVersion infos group? r →
      Reached hubVersion infos group? (r.registerFrom version api config info? records).2

section Steps

variable {r r₁ : Registry} {version hubVersion : String} {api : Api} {config : Config}
  {info? : Option VersionInfo} {info : VersionInfo} {records : List Record} {e : Error}
  {infos : Table VersionInfo} {group? : Option String}

/-- Giving an entry succeeds exactly when the entry is taken. -/
theorem withEntry_some_iff : r.withEntry version (some info) = .ok r₁ ↔
    r.Takes version info ∧ r₁ = { r with infos := r.infos.insert version info } := by
  unfold withEntry
  dsimp only
  rw [Fallible.bind_ok_iff]
  constructor
  · rintro ⟨v, hv, h⟩
    obtain ⟨u, hu, h⟩ := Fallible.bind_ok_iff.mp h
    cases h
    exact ⟨⟨⟨v, hv⟩, Fallible.mapError_ok_iff.mp hu⟩, rfl⟩
  · rintro ⟨⟨⟨v, hv⟩, haudit⟩, rfl⟩
    refine ⟨v, hv, ?_⟩
    rw [haudit]
    rfl

/-- Without an entry the version has to be listed, and the registry stays as it is. -/
theorem withEntry_none_iff :
    r.withEntry version none = .ok r₁ ↔ version ∈ r.infos.keys ∧ r₁ = r := by
  unfold withEntry
  rw [← Table.contains_iff_mem_keys]
  dsimp only
  cases r.infos.contains version with
  | true => exact ⟨fun h => by cases h; exact ⟨rfl, rfl⟩, fun h => by rw [h.2]; rfl⟩
  | false => exact ⟨nofun, nofun⟩

/-- A registration makes sure of the entry first; the model is kept if it can be built. -/
theorem registerFrom_eq (r : Registry) (version : String) (api : Api) (config : Config)
    (info? : Option VersionInfo) (records : List Record) :
    r.registerFrom version api config info? records =
      match r.withEntry version info? with
      | .error e => (.error e, r)
      | .ok r₁ =>
        match (runFrom (VersionModel.build version api config r₁.group? .collect) records).1 with
        | .error e => (.error e, r₁)
        | .ok m => (.ok m, { r₁ with models := r₁.models.insert version m }) := by
  cases hentry : r.withEntry version info? with
  | error e =>
    simp only [registerFrom, register, hentry]
    rfl
  | ok r₁ =>
    simp only [registerFrom, register, hentry, StateT.run_bind]
    rw [show StateT.run (VersionModel.build version api config r₁.group? .collect).outcome records =
      runFrom (VersionModel.build version api config r₁.group? .collect) records from rfl]
    obtain ⟨result, written⟩ :=
      runFrom (VersionModel.build version api config r₁.group? .collect) records
    cases result <;> rfl

theorem register_cases (r : Registry) (version : String) (api : Api) (config : Config)
    (info? : Option VersionInfo) (records : List Record) :
    (∃ e, r.withEntry version info? = .error e ∧
      r.registerFrom version api config info? records = (.error e, r)) ∨
    ∃ r₁, r.withEntry version info? = .ok r₁ ∧
      ((∃ e, r.registerFrom version api config info? records = (.error e, r₁)) ∨
        ∃ m, r.registerFrom version api config info? records =
          (.ok m, { r₁ with models := r₁.models.insert version m })) := by
  rw [registerFrom_eq]
  cases r.withEntry version info? with
  | error e => exact .inl ⟨e, rfl, rfl⟩
  | ok r₁ =>
    refine .inr ⟨r₁, rfl, ?_⟩
    dsimp only
    cases (runFrom (VersionModel.build version api config r₁.group? .collect) records).1 with
    | error e => exact .inl ⟨e, rfl⟩
    | ok m => exact .inr ⟨m, rfl⟩

theorem sound_of_audit (hlisted : r.hubVersion ∈ r.infos.keys)
    (hparses : ∀ text ∈ r.infos.keys, ∃ v, Version.parse text = .ok v)
    (haudit : audit r.hubVersion r.infos = .ok ())
    (hmodels : ∀ text ∈ r.models.keys, text ∈ r.infos.keys) : r.Sound := by
  obtain ⟨hhub, hoverall⟩ := audit_ok_iff.mp haudit
  obtain ⟨info, hinfo⟩ := Table.mem_keys_iff.mp hlisted
  have hspoke : ∀ {v text}, text ∈ r.spokeVersions → Version.parse text = .ok v →
      (v, text) ∈ spokes r.hubVersion r.infos := by
    intro v text htext hv
    obtain ⟨hkey, -, hne⟩ := mem_spokeVersions.mp htext
    exact List.mem_filter.mpr ⟨mem_parsed.mpr ⟨hkey, hv⟩, by simpa using hne⟩
  refine ⟨⟨info, hinfo, ?_⟩, hparses, ?_, hmodels⟩
  · simpa [isDeprecated, hinfo] using hhub
  · intro v w text text' ht ht' hv hw hold
    exact hoverall _ (hspoke ht hv) _ (hspoke ht' hw) hold

/-- A new registry has no models, and its manifest has passed all checks. -/
theorem create_ok (h : create hubVersion infos group? = .ok r) :
    r = { hubVersion, group?, infos, models := ∅ } ∧ hubVersion ∈ infos.keys ∧
      (∃ parsed, Version.parseAll infos.keys = .ok parsed) ∧ audit hubVersion infos = .ok () := by
  unfold create at h
  dsimp only at h
  split at h
  · cases h
  rename_i hhub
  obtain ⟨parsed, hparsed, h⟩ := Fallible.bind_ok_iff.mp h
  obtain ⟨u, haudit, h⟩ := Fallible.bind_ok_iff.mp h
  cases h
  exact ⟨rfl, Table.contains_iff_mem_keys.mp (by simpa using hhub), ⟨parsed, hparsed⟩,
    Fallible.mapError_ok_iff.mp haudit⟩

theorem create_sound (h : create hubVersion infos group? = .ok r) : r.Sound := by
  obtain ⟨rfl, hhub, ⟨parsed, hparsed⟩, haudit⟩ := create_ok h
  exact sound_of_audit hhub (Version.parseAll_ok hparsed) haudit
    fun _ ht => absurd ht List.not_mem_nil

/-- A registry that is sound passes its audit. -/
theorem Sound.audit_ok (hr : r.Sound) : audit r.hubVersion r.infos = .ok () := by
  obtain ⟨info, hinfo, havailable⟩ := hr.hub_available
  refine audit_ok_iff.mpr ⟨by rw [isDeprecated, hinfo]; exact havailable, ?_⟩
  have hspoke : ∀ e ∈ spokes r.hubVersion r.infos,
      e.2 ∈ r.spokeVersions ∧ Version.parse e.2 = .ok e.1 := by
    intro e he
    obtain ⟨hin, hne⟩ := List.mem_filter.mp he
    obtain ⟨hkey, hparse⟩ := mem_parsed.mp hin
    exact ⟨mem_spokeVersions.mpr ⟨hkey, ⟨_, hparse⟩, by simpa using hne⟩, hparse⟩
  intro a ha b hb hold
  exact hr.oldest_first a.1 b.1 a.2 b.2 (hspoke a ha).1 (hspoke b hb).1 (hspoke a ha).2
    (hspoke b hb).2 hold

/-- Taking an entry keeps the registry sound: the audit has seen the new table. -/
theorem Sound.withEntry (hr : r.Sound) (h : r.withEntry version info? = .ok r₁) :
    r₁.Sound ∧ version ∈ r₁.infos.keys := by
  cases info? with
  | none =>
    obtain ⟨hlisted, rfl⟩ := withEntry_none_iff.mp h
    exact ⟨hr, hlisted⟩
  | some info =>
    obtain ⟨⟨hparse, haudit⟩, rfl⟩ := withEntry_some_iff.mp h
    obtain ⟨hubInfo, hhub, -⟩ := hr.hub_available
    refine ⟨sound_of_audit ?_ ?_ haudit ?_, Table.mem_keys_insert.mpr (.inl rfl)⟩
    · exact Table.mem_keys_insert.mpr (.inr (Table.mem_keys_of_get? hhub))
    · intro text ht
      rcases Table.mem_keys_insert.mp ht with rfl | ht
      · exact hparse
      · exact hr.parses text ht
    · exact fun text ht => Table.mem_keys_insert.mpr (.inr (hr.listed text ht))

theorem Sound.withModel (hr : r.Sound) (hversion : version ∈ r.infos.keys) (m : VersionModel) :
    Sound { r with models := r.models.insert version m } where
  hub_available := hr.hub_available
  parses := hr.parses
  oldest_first := hr.oldest_first
  listed text ht := by
    rcases Table.mem_keys_insert.mp ht with rfl | ht
    · exact hversion
    · exact hr.listed text ht

theorem Sound.registerFrom (hr : r.Sound) (version : String) (api : Api) (config : Config)
    (info? : Option VersionInfo) (records : List Record) :
    (r.registerFrom version api config info? records).2.Sound := by
  rcases register_cases r version api config info? records with
    ⟨e, -, hrun⟩ | ⟨r₁, hentry, ⟨e, hrun⟩ | ⟨m, hrun⟩⟩
  · rw [hrun]
    exact hr
  · rw [hrun]
    exact (hr.withEntry hentry).1
  · rw [hrun]
    obtain ⟨hsound, hversion⟩ := hr.withEntry hentry
    exact hsound.withModel hversion m

/-- Every registry that is reached is sound, whatever was registered and whatever failed. -/
theorem reached_sound (h : Reached hubVersion infos group? r) : r.Sound := by
  induction h with
  | created h => exact create_sound h
  | registered version api config info? records _ ih =>
    exact ih.registerFrom version api config info? records

end Steps

namespace Sample

/-- A manifest with the hub alone. -/
def hubOnly : Table VersionInfo := .ofList [("v1", {})]

/-- An enumeration with two values that give one identifier. -/
def clashing : Api where
  serviceId := ""
  apiVersion := ""
  shapes := .ofList [("Color", ⟨.scalar .string, ["a-b", "a_b"], false, ""⟩)]
  operations := ∅

def start : Registry := { hubVersion := "v1", group? := none, infos := hubOnly, models := ∅ }

theorem start_created : create "v1" hubOnly none = .ok start := by
  cbv

theorem start_usable (models : Table VersionModel) :
    usableVersions { start with models } = ["v1"] := by
  have hparsed : parsed start.infos = [(⟨1, .ga, 0⟩, "v1")] := by decide
  have husable : usableVersions start = ["v1"] := by
    unfold usableVersions versions
    rw [hparsed, List.mergeSort_singleton]
    decide
  exact husable

theorem start_takes : start.Takes "v2" {} :=
  ⟨⟨⟨2, .ga, 0⟩, by cbv⟩, by cbv⟩

def clash : Error := .schema (.enumClash "Color" "a-b" "a_b" "a_b")

/-- No enumeration can have both values. -/
theorem enumDefs_fail : Types.enumDefs clashing [] = .error clash := by
  have hdash : Name.sanitize "a-b" = "a_b" := by decide
  have hunderscore : Name.sanitize "a_b" = "a_b" := by decide
  have hvalues : ["a-b", "a_b"].foldlM (Types.addEnumValue "Color") [] =
      .error (.enumClash "Color" "a-b" "a_b" "a_b") := by
    simp [Types.addEnumValue, hdash, hunderscore, bind, Except.bind]
  have hnames : Types.classNames (Types.reserved []) "Color" =
      .ok (⟨"Color", "Color", "color", "color"⟩, false) := by
    have hof : Names.of "Color" = .ok ⟨"Color", "Color", "color", "color"⟩ := by cbv
    have hfree : (Types.reserved []).contains "Color" = false := by decide
    unfold Types.classNames
    rw [hof]
    dsimp only [bind, Except.bind]
    rw [hfree]
    rfl
  have hdef : Types.enumDef (Types.reserved [])
      ("Color", ⟨.scalar .string, ["a-b", "a_b"], false, ""⟩) = .error clash := by
    unfold Types.enumDef
    dsimp only
    rw [hnames, hvalues]
    rfl
  have hsorted : clashing.shapes.sorted = clashing.shapes.entries := List.mergeSort_singleton _
  unfold Types.enumDefs
  rw [hsorted]
  simp [show clashing.shapes.entries = [("Color", ⟨.scalar .string, ["a-b", "a_b"], false, ""⟩)]
    from rfl, Shape.isEnum, hdef, bind, Except.bind]

/-- There is nothing to build but the enumeration. -/
theorem clashing_fails :
    runFrom (VersionModel.build "v2" clashing {} none .collect) [] = (.error clash, []) := by
  have hcreates : (clashing.operationsOf [] .create).sorted = [] := by
    simp [Api.operationsOf, clashing, Table.sorted, show (∅ : Table Operation).entries = [] from rfl]
  have hbuilt : runFrom (Resource.buildAll clashing {} .collect) [] = (.ok ([], []), []) := by
    unfold Resource.buildAll
    rw [show ({} : Config).ignore.operations = [] from rfl, hcreates]
    simp [Table.sorted, show (∅ : Table Resource).entries = [] from rfl]
  have hsecrets : runFrom (Resource.resolveSecrets clashing [] .collect) [] =
      (.ok (∅, []), []) := rfl
  have htypes : Types.typeDefs clashing [] ∅ = .ok [] := by
    have hreach : clashing.reachableStructures (Resource.fieldShapes []) = .ok ∅ := by cbv
    unfold Types.typeDefs
    rw [hreach]
    simp [Except.mapError, Table.sorted, show (∅ : Table Shape).entries = [] from rfl, bind,
      Except.bind, pure, Except.pure]
  unfold VersionModel.build
  rw [runFrom_bind_eq hbuilt]
  dsimp only
  rw [runFrom_bind_eq hsecrets]
  dsimp only [List.append_nil, List.map_nil, List.filter_nil]
  rw [htypes, enumDefs_fail]
  rfl

/-- The registration of the enumeration fails with its entry taken. -/
theorem register_fails : start.registerFrom "v2" clashing {} (some {}) [] =
    (.error clash, { start with infos := start.infos.insert "v2" {} }) := by
  have hentry := withEntry_some_iff.mpr ⟨start_takes, rfl⟩
  simp only [registerFrom, register, hentry, StateT.run_bind]
  rw [show StateT.run (VersionModel.build "v2" clashing {} start.group? .collect).outcome [] =
    (.error clash, []) from clashing_fails]
  rfl

end Sample

open Sample in
/-- A registry stays sound when a registration fails behind the audit. -/
theorem reached_sound_after_failure :
    (start.registerFrom "v2" clashing {} (some {}) []).2.Sound :=
  reached_sound (.registered "v2" clashing {} (some {}) [] (.created start_created))

section Failures

variable {r : Registry} {version : String} {api : Api} {config : Config}
  {info? : Option VersionInfo} {records : List Record} {e : Error}

/-- A registration that fails changes no model. It changes nothing at all unless a new entry was
taken for the version; such an entry stays. -/
theorem failed_registration_unchanged_iff
    (h : (r.registerFrom version api config info? records).1 = .error e) :
    (r.registerFrom version api config info? records).2.models = r.models ∧
    ((r.registerFrom version api config info? records).2 = r ↔
      ∀ info, info? = some info → r.Takes version info → r.infos.get? version = some info) := by
  rcases register_cases r version api config info? records with
    ⟨e', hentry, hrun⟩ | ⟨r₁, hentry, ⟨e', hrun⟩ | ⟨m, hrun⟩⟩
  · rw [hrun]
    refine ⟨rfl, fun _ info hinfo htakes => ?_, fun _ => rfl⟩
    rw [hinfo, withEntry_some_iff.mpr ⟨htakes, rfl⟩] at hentry
    cases hentry
  · rw [hrun]
    cases info? with
    | none =>
      obtain ⟨-, rfl⟩ := withEntry_none_iff.mp hentry
      exact ⟨rfl, fun _ info hinfo => (nomatch hinfo), fun _ => rfl⟩
    | some info =>
      obtain ⟨htakes, rfl⟩ := withEntry_some_iff.mp hentry
      refine ⟨rfl, fun hsame info' hinfo _ => ?_, fun hsame => ?_⟩
      · cases hinfo
        exact Table.insert_eq_self_iff.mp (congrArg Registry.infos hsame)
      · have hinsert := Table.insert_eq_self_iff.mpr (hsame info rfl htakes)
        dsimp only
        rw [hinsert]
  · rw [hrun] at h
    cases h

end Failures

open Sample in
/-- The hub cannot be deprecated, and the attempt changes nothing. -/
theorem failed_registration_hub_deprecated :
    (start.registerFrom "v1" clashing {} (some { status := .deprecated }) []).2 = start := by
  have haudit : audit "v1" (hubOnly.insert "v1" { status := .deprecated }) =
      .error (.hubDeprecated "v1") := rfl
  have hentry : start.withEntry "v1" (some { status := .deprecated }) =
      .error (.policy (.hubDeprecated "v1")) := by
    unfold withEntry
    dsimp only [start]
    rw [show Version.parse "v1" = .ok ⟨1, .ga, 0⟩ by cbv, haudit]
    rfl
  have herror : (start.registerFrom "v1" clashing {} (some { status := .deprecated }) []).1 =
      .error (.policy (.hubDeprecated "v1")) := by
    simp only [registerFrom, register, hentry]
    rfl
  refine (failed_registration_unchanged_iff herror).2.mpr fun info hinfo htakes => ?_
  cases hinfo
  rw [withEntry_some_iff.mpr ⟨htakes, rfl⟩] at hentry
  cases hentry

open Sample in
/-- A registration whose model cannot be built leaves its new version behind. -/
theorem failed_registration_lists_version : create "v1" hubOnly none = .ok start ∧
    (start.registerFrom "v2" clashing {} (some {}) []).1 = .error clash ∧
    start.versions = ["v1"] ∧
    (start.registerFrom "v2" clashing {} (some {}) []).2.versions = ["v1", "v2"] := by
  rw [register_fails]
  exact ⟨start_created, rfl, by cbv, by cbv⟩

end Registry

end ResourceVersions
