import ResourceVersions.Proofs.ConversionErrors
import ResourceVersions.Proofs.RegisteredModel

/-! # Outcomes of the generator

With all usable versions registered, failures of resources are collected over all versions and
reported together. A run stops before that at the first version whose types cannot be written, or
in whose conversions a name without words turns up. -/
namespace ResourceVersions

open Fallible

namespace Registry

variable {r : Registry} {version : String} {m : VersionModel}

/-- Every version that is not deprecated has been registered. -/
def Ready (r : Registry) : Prop := ∀ version ∈ r.usableVersions, version ∈ r.models.keys

theorem mem_usableVersions : version ∈ r.usableVersions ↔
    version ∈ r.versions ∧ isDeprecated r.infos version = false := by
  simp [usableVersions]

/-- A model may be used if its version is listed and not deprecated. -/
theorem model_ok_iff : r.model version = .ok m ↔
    (∃ info, r.infos.get? version = some info ∧ info.isDeprecated = false) ∧
      r.models.get? version = some m := by
  unfold model
  split
  · rename_i hnone
    simp [hnone]
  · rename_i info hinfo
    cases hdeprecated : info.isDeprecated with
    | true => simp [hinfo, hdeprecated]
    | false =>
      simp only [Bool.false_eq_true, if_false, hinfo]
      split <;> simp_all

theorem Sound.hub_usable (hr : r.Sound) : r.hubVersion ∈ r.usableVersions := by
  obtain ⟨info, hinfo, havailable⟩ := hr.hub_available
  have hlisted := Table.mem_keys_of_get? hinfo
  refine mem_usableVersions.mpr ⟨mem_versions.mpr ⟨hlisted, hr.parses _ hlisted⟩, ?_⟩
  rw [isDeprecated, hinfo]
  exact havailable

/-- A usable version that has been registered has a model that may be used. -/
theorem Ready.model (hready : r.Ready) (hv : version ∈ r.usableVersions) :
    ∃ m, r.models.get? version = some m ∧ r.model version = .ok m := by
  obtain ⟨m, hm⟩ := Table.mem_keys_iff.mp (hready version hv)
  obtain ⟨hversion, havailable⟩ := mem_usableVersions.mp hv
  obtain ⟨info, hinfo⟩ := Table.mem_keys_iff.mp (mem_versions.mp hversion).1
  rw [isDeprecated, hinfo] at havailable
  exact ⟨m, hm, model_ok_iff.mpr ⟨⟨info, hinfo, havailable⟩, hm⟩⟩

theorem Ready.verify (hready : r.Ready) : r.verify r.usableVersions = .ok () := by
  have hall : ∀ versions ⊆ r.usableVersions, r.verify versions = .ok () := by
    intro versions
    induction versions with
    | nil => exact fun _ => rfl
    | cons v rest ih =>
      intro hsub
      obtain ⟨m, -, hm⟩ := hready.model (hsub (List.mem_cons_self ..))
      have hrest := ih fun u hu => hsub (List.mem_cons_of_mem v hu)
      unfold Registry.verify at hrest ⊢
      change (discard (r.model v) >>= fun _ => rest.forM _) = _
      rw [hrest, hm]
      rfl
  exact hall _ fun _ h => h

end Registry

namespace Package

open Registry

/-- What stops a run at a version: its types cannot be written, or they can and there is no
identifier for a name in its conversions. -/
inductive Halts (r : Registry) (version : String) : Error → Prop where
  | types {m e} : r.models.get? version = some m → Source.typesModule m = .error e →
      Halts r version (.schema e)
  | name {m hub types text} : r.models.get? version = some m →
      Source.typesModule m = .ok types → version ≠ r.hubVersion →
      r.models.get? r.hubVersion = some hub →
      conversionsOf version m hub = .error (.fault (.config (.noWords text))) →
      Halts r version (.config (.noWords text))

/-- The failures of a version: those of its registration, then those of its conversions. -/
def versionFailures (r : Registry) (version : String) : List Failure :=
  match r.models.get? version, r.models.get? r.hubVersion with
  | some m, some hub =>
    if version = r.hubVersion then ownFailures version m
    else
      match conversionsOf version m hub with
      | .ok c => ownFailures version m ++ c.failures
      | .error _ => ownFailures version m
  | _, _ => []

theorem versionFailures_spoke {r : Registry} {version : String} {m hub : VersionModel}
    {c : Conversions} (hget : r.models.get? version = some m)
    (hhub : r.models.get? r.hubVersion = some hub) (hspoke : version ≠ r.hubVersion)
    (hc : conversionsOf version m hub = .ok c) :
    versionFailures r version = ownFailures version m ++ c.failures := by
  unfold versionFailures
  rw [hget, hhub]
  dsimp only
  rw [if_neg hspoke, hc]

section Version

variable {r : Registry} {version package : String} {m hub : VersionModel} {x : RunError}
  {out : Output}

/-- The work on a version ends with what halts it. -/
theorem versionOutput_error_iff (package : String) (hm : r.model version = .ok m)
    (hget : r.models.get? version = some m) (hhub : r.models.get? r.hubVersion = some hub) :
    versionOutput r package hub version = .error x ↔ ∃ e, x = .fault e ∧ Halts r version e := by
  rcases versionOutput_cases package hub hm with ⟨e, htypes, hout⟩ | ⟨types, htypes, hcases⟩
  · rw [hout]
    constructor
    · rintro ⟨⟩
      exact ⟨_, rfl, .types hget htypes⟩
    · rintro ⟨e', rfl, hhalts⟩
      cases hhalts with
      | types hget' htypes' =>
        cases hget.symm.trans hget'
        cases htypes.symm.trans htypes'
        rfl
      | name hget' htypes' =>
        cases hget.symm.trans hget'
        cases htypes.symm.trans htypes'
  · -- the types are there, so only the conversions can halt the version
    have hname : ∀ e, Halts r version e → version ≠ r.hubVersion ∧
        conversionsOf version m hub = .error (.fault e) := by
      intro e hhalts
      cases hhalts with
      | types hget' htypes' =>
        cases hget.symm.trans hget'
        cases htypes.symm.trans htypes'
      | name hget' _ hspoke hhub' hc =>
        cases hget.symm.trans hget'
        cases hhub.symm.trans hhub'
        exact ⟨hspoke, hc⟩
    rcases hcases with ⟨hself, hout⟩ | ⟨hspoke, ⟨x', hc, hout⟩ | ⟨c, hc, hout⟩⟩ <;> rw [hout]
    · refine ⟨nofun, ?_⟩
      rintro ⟨e, -, hhalts⟩
      exact absurd hself (hname e hhalts).1
    · constructor
      · rintro ⟨⟩
        obtain ⟨text, rfl⟩ := conversionsOf_fails version m hub x hc
        exact ⟨_, rfl, .name hget htypes hspoke hhub hc⟩
      · rintro ⟨e, rfl, hhalts⟩
        cases hc.symm.trans (hname e hhalts).2
        rfl
    · refine ⟨nofun, ?_⟩
      rintro ⟨e, -, hhalts⟩
      cases hc.symm.trans (hname e hhalts).2

theorem versionOutput_failures (hm : r.model version = .ok m)
    (hget : r.models.get? version = some m) (hhub : r.models.get? r.hubVersion = some hub)
    (hout : versionOutput r package hub version = .ok out) :
    out.failures = versionFailures r version := by
  rcases versionOutput_cases package hub hm with ⟨e, -, hrun⟩ |
    ⟨types, -, ⟨hself, hrun⟩ | ⟨hspoke, ⟨x, -, hrun⟩ | ⟨c, hc, hrun⟩⟩⟩
  · cases hrun.symm.trans hout
  · cases hrun.symm.trans hout
    unfold versionFailures
    rw [hget, hhub]
    dsimp only
    rw [if_pos hself]
  · cases hrun.symm.trans hout
  · cases hrun.symm.trans hout
    exact (versionFailures_spoke hget hhub hspoke hc).symm

end Version

section Outcome

variable {r : Registry} {package : String} {style? : Option String}

/-- All versions have been worked on. -/
def Finishes (r : Registry) : Prop := ∀ version ∈ r.usableVersions, ∀ e, ¬ Halts r version e

/-- With all usable versions registered, a run is the work on them, one after the other. -/
theorem generate_ready (hr : r.Sound) (hready : r.Ready) (package : String)
    (hstyle : checkStyle style? = .ok ()) : ∃ hub, r.models.get? r.hubVersion = some hub ∧
      (generate r package style?).run.1 = (do
        let outs ← r.usableVersions.mapM (versionOutput r package hub)
        assemble r package (.total outs)) := by
  obtain ⟨hub, hget, hhub⟩ := hready.model hr.hub_usable
  refine ⟨hub, hget, ?_⟩
  rw [generate_run, outcome, hstyle, hready.verify, hhub]
  rfl

/-- If no version halts the run, every version has an output with its failures. -/
theorem outputs_of_finishes {hub : VersionModel} (hready : r.Ready) (hfinishes : Finishes r)
    (package : String) (hhub : r.models.get? r.hubVersion = some hub) :
    ∃ outs, r.usableVersions.mapM (versionOutput r package hub) = .ok outs ∧
      outs.flatMap Output.failures = r.usableVersions.flatMap (versionFailures r) := by
  cases houts : r.usableVersions.mapM (versionOutput r package hub) with
  | error x =>
    obtain ⟨before, v, after, hsplit, -, hfails⟩ := mapM_first_error.mp houts
    have hv : v ∈ r.usableVersions := by simp [hsplit]
    obtain ⟨m, hget, hm⟩ := hready.model hv
    obtain ⟨e, -, hhalts⟩ := (versionOutput_error_iff package hm hget hhub).mp hfails
    exact absurd hhalts (hfinishes v hv e)
  | ok outs =>
    refine ⟨outs, rfl, ?_⟩
    have hall : ∀ versions ⊆ r.usableVersions, ∀ outs, List.Forall₂ (fun v out =>
        versionOutput r package hub v = .ok out) versions outs →
        outs.flatMap Output.failures = versions.flatMap (versionFailures r) := by
      intro versions hsub outs houts
      induction houts with
      | nil => rfl
      | @cons v out _ _ hout _ ih =>
        obtain ⟨m, hget, hm⟩ := hready.model (hsub (List.mem_cons_self ..))
        rw [List.flatMap_cons, List.flatMap_cons, versionOutput_failures hm hget hhub hout,
          ih fun u hu => hsub (List.mem_cons_of_mem v hu)]
    exact hall _ (fun _ h => h) _ (mapM_ok_iff.mp houts)

/-- If no version halts the run, its outcome depends on whether there are failures. -/
theorem generate_finished (hr : r.Sound) (hready : r.Ready) (package : String)
    (hstyle : checkStyle style? = .ok ()) (hfinishes : Finishes r) :
    (r.usableVersions.flatMap (versionFailures r) = [] ∧
      ∃ files, (generate r package style?).run.1 = .ok files) ∨
    (r.usableVersions.flatMap (versionFailures r) ≠ [] ∧ (generate r package style?).run.1 =
      .error (.failures (r.usableVersions.flatMap (versionFailures r)))) := by
  obtain ⟨hub, hhub, hrun⟩ := generate_ready hr hready package hstyle
  obtain ⟨outs, houts, hfailures⟩ := outputs_of_finishes hready hfinishes package hhub
  rw [hrun, houts]
  change (_ ∧ ∃ files, assemble r package (.total outs) = _) ∨
    (_ ∧ assemble r package (.total outs) = _)
  unfold assemble Output.total
  rw [← hfailures]
  dsimp only
  cases outs.flatMap Output.failures with
  | nil => exact .inl ⟨rfl, _, rfl⟩
  | cons f rest => exact .inr ⟨nofun, rfl⟩

end Outcome

namespace Sample

end Sample

end Package

end ResourceVersions
