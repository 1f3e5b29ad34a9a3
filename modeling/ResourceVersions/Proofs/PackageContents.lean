import ResourceVersions.Proofs.CompleteModel
import ResourceVersions.Proofs.HelperTable
import ResourceVersions.Proofs.PackageOutcome

/-! # Contents of a package

A package that is generated lacks nothing: all usable versions have their modules, no version has
recorded a failure, and the conversions of a spoke cover all resources of the hub. -/
namespace ResourceVersions

open Fallible

namespace Registry

variable {r : Registry} {version : String} {spoke hub : VersionModel} {pairs : List ResourcePair}

end Registry

namespace Conversion

variable {c : Converter} {h h' : Helpers} {way : Way} {spoke hub : Resource}
  {delta : ResourceDelta} {f : Code.Func}

/-- Code that asks for no helpers leaves them as they are. -/
theorem emit_plain {d : Direction} {work : Emit (List Code.Stmt)} {code : List Code.Stmt}
    (hwork : work.run = (.ok code, [])) (h : Helpers) : d.emit h work = (.ok code, h) :=
  Direction.emit_of_serve hwork (by rw [List.map_nil, Direction.serve])

theorem functions_plain (hδ : delta.unsupported = []) (h : Helpers)
    (hbody : ∀ way : Way, ∃ code, ((c.direction way).functionBody way
      (way.back.pick spoke hub).names.camel delta).run = (.ok code, [])) :
    ∃ functions, c.functions h spoke hub delta = (.ok functions, h) := by
  obtain ⟨toCode, hto⟩ := hbody .toHub
  obtain ⟨fromCode, hfrom⟩ := hbody .fromHub
  obtain ⟨toHub, hto, -⟩ := function_of_emit (emit_plain hto h)
  obtain ⟨fromHub, hfrom, -⟩ := function_of_emit (emit_plain hfrom h)
  exact ⟨[toHub, fromHub], functions_of_function hδ hto hfrom⟩

end Conversion

namespace Package

open Registry Conversion

/-- The modules of a version. The hub needs no conversions. -/
def modules (r : Registry) (version : String) : List String :=
  if version = r.hubVersion then ["types", "__init__"] else ["types", "conversion", "__init__"]

/-- The paths of all files of a package. -/
def paths (r : Registry) (package : String) : List String :=
  r.usableVersions.flatMap (fun version => (modules r version).map (modulePath package version)) ++
    [s!"{package}/__init__.py"]

section Paths

variable {package version version' module module' : String} {r : Registry}

end Paths

section Contents

variable {r : Registry} {package version hubVersion : String} {m spoke hub : VersionModel}
  {infos : Table VersionInfo} {group? : Option String} {out : Output} {c : Conversions}
  {files : List (String × String)} {f : Code.Func} {style? : Option String}

/-- The functions of a pair are among those that have been collected, unless something failed. -/
def Covers (spoke hub : VersionModel) (acc : Conversions) (p : ResourcePair) : Prop :=
  acc.failures = [] → ∃ delta helpers helpers' functions,
    ResourceDelta.between ⟨spoke.api, p.src⟩ ⟨hub.api, p.dst⟩ = .ok delta ∧
    Converter.functions { spoke, hub } helpers p.src p.dst delta = (.ok functions, helpers') ∧
    functions ⊆ acc.functions

/-- What a version without failures adds to the package. -/
structure Contributes (r : Registry) (package : String) (hub : VersionModel) (version : String)
    (m : VersionModel) (out : Output) : Prop where
  paths : out.files.map Prod.fst = (modules r version).map (modulePath package version)
  built : m.failures = []
  typed : ∃ types, Source.typesModule m = .ok types ∧
    (modulePath package version "types", types) ∈ out.files
  converted : version ≠ r.hubVersion → ∃ c, conversionsOf version m hub = .ok c ∧
    c.failures = [] ∧ (modulePath package version "conversion", conversionSource m hub c) ∈ out.files

theorem versionOutput_contributes (hout : versionOutput r package hub version = .ok out)
    (hclean : out.failures = []) :
    ∃ m, r.models.get? version = some m ∧ Contributes r package hub version m out := by
  obtain ⟨m, hm, -⟩ := bind_ok_iff.mp hout
  have hm := mapError_ok_iff.mp (mapError_ok_iff.mp hm)
  refine ⟨m, (model_ok_iff.mp hm).2, ?_⟩
  rcases versionOutput_cases package hub hm with ⟨e, -, hrun⟩ |
    ⟨types, htypes, ⟨hself, hrun⟩ | ⟨hspoke, ⟨x, -, hrun⟩ | ⟨c, hc, hrun⟩⟩⟩
  · cases hrun.symm.trans hout
  · cases hrun.symm.trans hout
    exact ⟨by simp [modules, hself], List.map_eq_nil_iff.mp hclean, ⟨types, htypes, by simp⟩,
      fun h => absurd hself h⟩
  · cases hrun.symm.trans hout
  · cases hrun.symm.trans hout
    obtain ⟨hown, hconv⟩ := List.append_eq_nil_iff.mp hclean
    exact ⟨by simp [modules, hspoke], List.map_eq_nil_iff.mp hown, ⟨types, htypes, by simp⟩,
      fun _ => ⟨c, hc, hconv, by simp⟩⟩

/-- The paths of versions without failures are those of their modules. -/
theorem outputs_contribute {versions : List String} {outs : List Output}
    (houts : versions.mapM (versionOutput r package hub) = .ok outs)
    (hclean : ∀ out ∈ outs, out.failures = []) :
    (outs.flatMap Output.files).map Prod.fst =
        versions.flatMap (fun version => (modules r version).map (modulePath package version)) ∧
      ∀ version ∈ versions, ∃ m, r.models.get? version = some m ∧
        ∃ out ∈ outs, Contributes r package hub version m out := by
  induction mapM_ok_iff.mp houts with
  | nil => simp
  | @cons version out versions outs hout hrest ih =>
    obtain ⟨m, hm, hself⟩ := versionOutput_contributes hout (hclean out (by simp))
    obtain ⟨hpaths, hothers⟩ := ih (mapM_ok_iff.mpr hrest) fun o ho => hclean o (by simp [ho])
    constructor
    · rw [List.flatMap_cons, List.flatMap_cons, List.map_append, hself.paths, hpaths]
    · intro v hv
      rcases List.mem_cons.mp hv with rfl | hv
      · exact ⟨m, hm, out, by simp, hself⟩
      · obtain ⟨m', hm', o, ho, hcontributes⟩ := hothers v hv
        exact ⟨m', hm', o, by simp [ho], hcontributes⟩

/-- A run that generates a package has put it together from the outputs of all versions. -/
theorem generate_parts (hrun : (generate r package style?).run.1 = .ok files) :
    ∃ hub outs root, r.models.get? r.hubVersion = some hub ∧
      r.usableVersions.mapM (versionOutput r package hub) = .ok outs ∧
      (∀ out ∈ outs, out.failures = []) ∧
      files = (Table.ofList (outs.flatMap Output.files ++
        [(s!"{package}/__init__.py", root)])).sorted := by
  rw [generate_run] at hrun
  obtain ⟨-, -, hrun⟩ := bind_ok_iff.mp hrun
  obtain ⟨-, -, hrun⟩ := bind_ok_iff.mp hrun
  obtain ⟨hub, hhub, hrun⟩ := bind_ok_iff.mp hrun
  obtain ⟨outs, houts, hrun⟩ := bind_ok_iff.mp hrun
  have hget := (model_ok_iff.mp (mapError_ok_iff.mp (mapError_ok_iff.mp hhub))).2
  unfold assemble at hrun
  split at hrun
  · cases hrun
  · rename_i hclean
    cases hrun
    have hnone : outs.flatMap Output.failures = [] := by simpa [Output.total] using hclean
    exact ⟨hub, outs, _, hget, houts, List.flatMap_eq_nil_iff.mp hnone, rfl⟩

/-- Both functions of a pair can be written, and neither needs a helper. -/
def isPlainPair (spoke hub : VersionModel) (p : ResourcePair) : Bool :=
  match ResourceDelta.between ⟨spoke.api, p.src⟩ ⟨hub.api, p.dst⟩ with
  | .error _ => false
  | .ok delta => delta.unsupported.isEmpty && [Way.toHub, Way.fromHub].all fun way =>
    match ((({ spoke, hub } : Converter).direction way).functionBody way
      (way.back.pick p.src p.dst).names.camel delta).run with
    | (.ok _, []) => true
    | _ => false

theorem withPair_plain {p : ResourcePair} (hp : isPlainPair spoke hub p = true)
    (version : String) (acc : Conversions) :
    ∃ acc', withPair version { spoke, hub } acc p = .ok acc' ∧ acc'.failures = acc.failures := by
  unfold isPlainPair at hp
  split at hp
  · cases hp
  · rename_i delta hdelta
    rw [Bool.and_eq_true, List.isEmpty_iff, List.all_eq_true] at hp
    have hbody : ∀ way : Way, ∃ code, ((({ spoke, hub } : Converter).direction way).functionBody
        way (way.back.pick p.src p.dst).names.camel delta).run = (.ok code, []) := by
      intro way
      have hway := hp.2 way (by cases way <;> simp)
      split at hway
      · rename_i code hrun
        exact ⟨code, hrun⟩
      · cases hway
    obtain ⟨functions, hcode⟩ := functions_plain hp.1 acc.helpers hbody
    have hpair : pairCode { spoke, hub } acc.helpers p = (.ok functions, acc.helpers) := by
      unfold pairCode
      dsimp only
      rw [hdelta]
      exact hcode
    unfold withPair
    rw [hpair]
    exact ⟨_, rfl, rfl⟩

/-- Pairs that need no helpers are converted without failures. -/
theorem conversionsOf_plain {pairs : List ResourcePair} (version : String)
    (hpairs : pairModels spoke hub = .ok pairs) (hplain : pairs.all (isPlainPair spoke hub) = true) :
    ∃ c, conversionsOf version spoke hub = .ok c ∧ c.failures = [] := by
  have hall : ∀ acc : Conversions, ∃ c, pairs.foldlM (withPair version { spoke, hub }) acc = .ok c ∧
      c.failures = acc.failures := by
    clear hpairs
    induction pairs with
    | nil => exact fun acc => ⟨acc, rfl, rfl⟩
    | cons p rest ih =>
      intro acc
      rw [List.all_cons, Bool.and_eq_true] at hplain
      obtain ⟨acc', hstep, hsame⟩ := withPair_plain hplain.1 version acc
      obtain ⟨c, hrest, hkept⟩ := ih hplain.2 acc'
      rw [List.foldlM_cons, hstep]
      exact ⟨c, hrest, hkept.trans hsame⟩
  unfold conversionsOf
  rw [hpairs]
  exact hall {}

end Contents

namespace Sample

/-- The payload of the only resource has a map of attributes. -/
def lamps : Api where
  serviceId := "S"
  apiVersion := "1"
  shapes := .ofList [("Payload", ⟨.struct (.ofList []), [], false, ""⟩)]
  operations := .ofList [("CreateLamp", ⟨"CreateLamp", some ⟨"Payload", ""⟩, none⟩)]

/-- The attributes are unpacked, and one of them is a field. -/
def lampConfig : Config where
  resources := .ofList [("Lamp", { fields := .ofList [("Tag", { isAttribute := true })]
                                   unpacksAttributes := true })]

def lampResources : List Resource :=
  Resource.cleanResources (runFrom (Resource.buildAll lamps lampConfig .collect) [])

/-- The model of a version of the API: its only field needs no class. -/
def lampModel (version : String) : VersionModel :=
  { version, api := lamps, config := lampConfig, group? := none, resources := lampResources
    typeDefs := [], enumDefs := [], secretMembers := ∅, failures := [] }

theorem lamps_built (version : String) :
    (runFrom (VersionModel.build version lamps lampConfig none .collect) []).1 =
      .ok (lampModel version) := by
  have hsome : lampResources ≠ [] := List.ne_nil_of_length_pos (by decide +kernel)
  have hsecrets : ∀ r ∈ lampResources, r.secretMembers lamps = .ok [] := by decide +kernel
  have htypes : Types.typeDefs lamps lampResources ∅ = .ok [] :=
    Types.typeDefs_none (by decide +kernel)
  have henums : Types.enumDefs lamps lampResources = .ok [] := by decide +kernel
  exact VersionModel.build_clean (Resource.of_cleanResources hsome) hsecrets htypes henums rfl

def twoVersions : Table VersionInfo := .ofList [("v1", {}), ("v2", {})]

/-- Two versions, of which some have been registered. -/
def lampShop (models : Table VersionModel) : Registry :=
  { hubVersion := "v1", group? := none, infos := twoVersions, models }

theorem lampShop_created : create "v1" twoVersions none = .ok (lampShop ∅) := by
  cbv

theorem lamps_registered (models : Table VersionModel) {version : String}
    (hv : version ∈ twoVersions.keys) :
    ((lampShop models).registerFrom version lamps lampConfig none []).2 =
      lampShop (models.insert version (lampModel version)) := by
  have hlisted : version ∈ (lampShop models).infos.keys := hv
  have hbuild : (runFrom (VersionModel.build version lamps lampConfig (lampShop models).group?
      .collect) []).1 = .ok (lampModel version) := lamps_built version
  rw [registerFrom_built hlisted hbuild]
  rfl

/-- Both versions have been registered with the same API. -/
def lit : Registry := lampShop ((Table.insert ∅ "v1" (lampModel "v1")).insert "v2" (lampModel "v2"))

theorem lit_reached : Reached "v1" twoVersions none lit := by
  have hfirst : Reached "v1" twoVersions none
      ((lampShop ∅).registerFrom "v1" lamps lampConfig none []).2 :=
    .registered "v1" lamps lampConfig none [] (.created lampShop_created)
  rw [lamps_registered ∅ (by decide)] at hfirst
  have hsecond := hfirst.registered "v2" lamps lampConfig none []
  rwa [lamps_registered _ (by decide)] at hsecond

theorem lit_usable : lit.usableVersions = ["v1", "v2"] := by
  have hparsed : parsed lit.infos = [(⟨1, .ga, 0⟩, "v1"), (⟨2, .ga, 0⟩, "v2")] := by
    decide
  unfold usableVersions versions
  rw [hparsed, List.mergeSort_of_pairwise (by decide)]
  decide

theorem lit_ready : lit.Ready := by
  intro version hv
  rw [lit_usable] at hv
  rcases List.mem_pair.mp hv with rfl | rfl <;> decide

/-- The resource in both versions. -/
def lampPairs : List ResourcePair :=
  match pairModels (lampModel "v2") (lampModel "v1") with
  | .ok pairs => pairs
  | .error _ => []

theorem lampPairs_eq : pairModels (lampModel "v2") (lampModel "v1") = .ok lampPairs := by
  have hok : (pairModels (lampModel "v2") (lampModel "v1")).isOk = true := by decide +kernel
  unfold lampPairs
  cases hpairs : pairModels (lampModel "v2") (lampModel "v1") with
  | ok pairs => rfl
  | error e =>
    rw [hpairs] at hok
    cases hok

/-- The conversions of the spoke need no helpers. -/
theorem lamps_converted :
    ∃ c, conversionsOf "v2" (lampModel "v2") (lampModel "v1") = .ok c ∧ c.failures = [] :=
  conversionsOf_plain "v2" lampPairs_eq (by decide +kernel)

theorem lamps_typed : ∀ version ∈ ["v1", "v2"],
    (Source.typesModule (lampModel version)).isOk = true := by decide +kernel

theorem lit_models {version : String} (hv : version ∈ lit.usableVersions) :
    lit.models.get? version = some (lampModel version) := by
  rw [lit_usable] at hv
  rcases List.mem_pair.mp hv with rfl | rfl <;> rfl

theorem lit_generated (package : String) :
    ∃ files, (generate lit package none).run.1 = .ok files := by
  obtain ⟨c, hc, hclean⟩ := lamps_converted
  have hhub : lit.models.get? lit.hubVersion = some (lampModel "v1") := rfl
  have hfinishes : Finishes lit := by
    intro version hv e hhalts
    have hm := lit_models hv
    rw [lit_usable] at hv
    cases hhalts with
    | types hget htypes =>
      cases hm.symm.trans hget
      have hok := lamps_typed version hv
      rw [htypes] at hok
      cases hok
    | name hget _ hspoke hget' hfails =>
      cases hm.symm.trans hget
      cases hhub.symm.trans hget'
      rcases List.mem_pair.mp hv with rfl | rfl
      · exact hspoke rfl
      · cases hc.symm.trans hfails
  have hnone : lit.usableVersions.flatMap (versionFailures lit) = [] := by
    rw [lit_usable, List.flatMap_eq_nil_iff]
    intro version hv
    rcases List.mem_pair.mp hv with rfl | rfl
    · rfl
    · rw [versionFailures_spoke rfl hhub (by decide) hc]
      exact hclean
  have hstyle : checkStyle none = .ok () := rfl
  rcases generate_finished lit_reached.stocked.sound lit_ready package hstyle hfinishes with
    ⟨-, hfiles⟩ | ⟨hsome, -⟩
  · exact hfiles
  · exact absurd hnone hsome

end Sample

end Package

end ResourceVersions
