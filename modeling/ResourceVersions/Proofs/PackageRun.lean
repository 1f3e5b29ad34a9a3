import Mathlib.Tactic.Common
import ResourceVersions.Package.Generate
import ResourceVersions.Proofs.Except

/-! # Runs of the generator

The log of a run has no influence on its result. Apart from the log, a run works on one version
after the other and puts together what each of them comes to. -/
namespace ResourceVersions

/-- Work gives a result, whatever has been written before. -/
def Gives {ε σ α : Type} (work : ExceptT ε (StateM σ) α) (r : Except ε α) : Prop :=
  ∀ s, (StateT.run (ExceptT.run work) s).1 = r

namespace Gives

variable {ε σ α β : Type} {x : ExceptT ε (StateM σ) α} {r : Except ε α}

protected theorem pure (a : α) : Gives (Pure.pure a : ExceptT ε (StateM σ) α) (.ok a) :=
  fun _ => rfl

protected theorem throw (e : ε) : Gives (throw e : ExceptT ε (StateM σ) α) (.error e) :=
  fun _ => rfl

theorem except (r : Except ε α) : Gives (ExceptT.mk (Pure.pure r) : ExceptT ε (StateM σ) α) r :=
  fun _ => rfl

theorem lift {work : StateM σ α} {a : α} (h : ∀ s, (work.run s).1 = a) :
    Gives (ExceptT.lift work : ExceptT ε (StateM σ) α) (.ok a) := by
  intro s
  rw [← h s]
  rfl

/-- What follows a step needs to be known for its result alone. -/
theorem bind_of {f : α → ExceptT ε (StateM σ) β} {g : α → Except ε β} (hx : Gives x r)
    (hf : ∀ a, r = .ok a → Gives (f a) (g a)) : Gives (x >>= f) (r >>= g) := by
  intro s
  have hstep : StateT.run (ExceptT.run (x >>= f)) s = match StateT.run (ExceptT.run x) s with
      | (.ok a, t) => StateT.run (ExceptT.run (f a)) t
      | (.error e, t) => (.error e, t) := by
    unfold ExceptT.run StateT.run
    simp only [bind, ExceptT.bind, ExceptT.mk, StateT.bind, ExceptT.bindCont]
    cases x s with
    | mk r t => cases r <;> rfl
  have hresult := hx s
  rw [hstep]
  cases hrun : StateT.run (ExceptT.run x) s with
  | mk result t =>
    rw [hrun] at hresult
    cases hresult
    cases result with
    | error e => rfl
    | ok a => exact hf a rfl t

protected theorem bind {f : α → ExceptT ε (StateM σ) β} {g : α → Except ε β} (hx : Gives x r)
    (hf : ∀ a, Gives (f a) (g a)) : Gives (x >>= f) (r >>= g) :=
  hx.bind_of fun a _ => hf a

theorem bind_ok {f : α → ExceptT ε (StateM σ) β} {a : α} {r : Except ε β}
    (hx : Gives x (.ok a)) (hf : Gives (f a) r) : Gives (x >>= f) r :=
  hx.bind_of (g := fun _ => r) fun b hb => by cases hb; exact hf

protected theorem foldlM {f : α → β → ExceptT ε (StateM σ) α} {g : α → β → Except ε α}
    (h : ∀ a b, Gives (f a b) (g a b)) (l : List β) (a : α) :
    Gives (l.foldlM f a) (l.foldlM g a) := by
  induction l generalizing a with
  | nil => exact .pure a
  | cons b l ih =>
    rw [List.foldlM_cons, List.foldlM_cons]
    exact (h a b).bind ih

end Gives

namespace ResourceDelta

/-- The deltas of all fields of a resource. -/
def between (spoke hub : ResourceSide) : Except Error ResourceDelta := do
  let renames := (← hub.resource.renames).newOf
  let diff := fun a b => (diffFields (classify spoke hub) renames a b).mapError Error.rename
  let spec ← diff spoke.resource.spec hub.resource.spec
  let status ← diff spoke.resource.status hub.resource.status
  return { spec, status }

theorem compute_gives (spoke hub : ResourceSide) : Gives (compute spoke hub) (between spoke hub) := by
  refine (Gives.except _).bind fun renames => ?_
  refine (Gives.except _).bind fun spec => ?_
  refine (Gives.except _).bind fun status => ?_
  have hlog : ∀ (name part : String) (l : List FieldDelta),
      Gives (ExceptT.lift (logSection name part l) : Attempt Unit) (.ok ()) :=
    fun _ _ _ => .lift fun _ => rfl
  exact (hlog _ _ _).bind_ok ((hlog _ _ _).bind_ok (.pure _))

end ResourceDelta

namespace Package

/-- The functions for one pair, and the helpers after them. -/
def pairCode (c : Conversion.Converter) (helpers : Conversion.Helpers) (p : ResourcePair) :
    Except Error (List Code.Func) × Conversion.Helpers :=
  match ResourceDelta.between ⟨c.spoke.api, p.src⟩ ⟨c.hub.api, p.dst⟩ with
  | .error e => (.error e, helpers)
  | .ok delta => c.functions helpers p.src p.dst delta

/-- Adds what one pair comes to. Only an error that does not concern a resource ends the work. -/
def withPair (version : String) (c : Conversion.Converter) (acc : Conversions)
    (p : ResourcePair) : Except RunError Conversions :=
  match pairCode c acc.helpers p with
  | (.ok functions, helpers) => .ok { acc with functions := acc.functions ++ functions, helpers }
  | (.error e, helpers) =>
    if e.isResourceError then
      .ok { acc with helpers, failures := acc.failures ++ [⟨s!"{version}/{p.name}", e⟩] }
    else .error (.fault e)

/-- What the conversions of a spoke version come to. -/
def conversionsOf (version : String) (spoke hub : VersionModel) : Except RunError Conversions :=
  match Registry.pairModels spoke hub with
  | .error e => .ok { failures := [⟨version, .schema e⟩] }
  | .ok pairs => pairs.foldlM (withPair version { spoke, hub }) {}

/-- The failures that the registration of a version has recorded. -/
def ownFailures (version : String) (m : VersionModel) : List Failure :=
  m.failures.map fun f => { f with name := s!"{version}/{f.name}" }

/-- The path of a module of a version. -/
def modulePath (package version module : String) : String :=
  s!"{package}/{version}" ++ s!"/{module}.py"

/-- The source of the conversions of a spoke version. -/
def conversionSource (spoke hub : VersionModel) (c : Conversions) : String :=
  Source.conversionModule spoke hub "hub" c.functions c.helpers.toList

/-- The files of one version, and its failures. -/
def versionOutput (r : Registry) (package : String) (hub : VersionModel) (version : String) :
    Except RunError Output := do
  let m ← ((r.model version).mapError Error.version).mapError RunError.fault
  let types ← ((Source.typesModule m).mapError Error.schema).mapError RunError.fault
  if version == r.hubVersion then
    return ⟨[(modulePath package version "types", types),
      (modulePath package version "__init__", versionInit true)], ownFailures version m⟩
  else
    let c ← conversionsOf version m hub
    return ⟨[(modulePath package version "types", types),
      (modulePath package version "conversion", conversionSource m hub c),
      (modulePath package version "__init__", versionInit false)],
      ownFailures version m ++ c.failures⟩

/-- All files and failures together. -/
def Output.total (outs : List Output) : Output :=
  ⟨outs.flatMap Output.files, outs.flatMap Output.failures⟩

/-- The package, or all failures if there are some. -/
def assemble (r : Registry) (package : String) (out : Output) :
    Except RunError (List (String × String)) :=
  if !out.failures.isEmpty then .error (.failures out.failures)
  else
    let root := (s!"{package}/__init__.py", rootInit r.hubVersion r.usableVersions)
    .ok (Table.ofList (out.files ++ [root])).sorted

/-- What a run comes to. -/
def outcome (r : Registry) (package : String) (style? : Option String) :
    Except RunError (List (String × String)) := do
  ((checkStyle style?).mapError Error.config).mapError RunError.fault
  ((r.verify r.usableVersions).mapError Error.version).mapError RunError.fault
  let hub ← ((r.model r.hubVersion).mapError Error.version).mapError RunError.fault
  let outs ← r.usableVersions.mapM (versionOutput r package hub)
  assemble r package (.total outs)

section Results

variable {version : String} {c : Conversion.Converter}

theorem convertPair_result (helpers : Conversion.Helpers) (p : ResourcePair)
    (records : List Record) :
    ((convertPair c helpers p).run records).1 = pairCode c helpers p := by
  unfold convertPair pairCode Attempt.outcome
  rw [StateT.run_bind]
  have hdelta := ResourceDelta.compute_gives ⟨c.spoke.api, p.src⟩ ⟨c.hub.api, p.dst⟩ records
  rw [← hdelta]
  cases StateT.run (ExceptT.run
      (ResourceDelta.compute ⟨c.spoke.api, p.src⟩ ⟨c.hub.api, p.dst⟩)) records with
  | mk result written => cases result <;> rfl

theorem addPair_gives (acc : Conversions) (p : ResourcePair) :
    Gives (addPair version c acc p) (withPair version c acc p) := by
  have hpair : Gives (ExceptT.lift (convertPair c acc.helpers p) : Run _)
      (.ok (pairCode c acc.helpers p)) := .lift (convertPair_result acc.helpers p)
  refine hpair.bind_ok ?_
  unfold withPair
  obtain ⟨result, helpers⟩ := pairCode c acc.helpers p
  cases result with
  | ok functions => exact .pure _
  | error e =>
    cases he : e.isResourceError with
    | false =>
      simp only [he]
      exact .throw _
    | true =>
      simp only [he]
      have hlog : ∀ text, Gives (ExceptT.lift (log .error "generate" text) : Run Unit)
          (.ok ()) := fun _ => .lift fun _ => rfl
      exact (hlog _).bind_ok (.pure _)

theorem conversions_gives (version : String) (spoke hub : VersionModel) :
    Gives (conversions version spoke hub) (conversionsOf version spoke hub) := by
  unfold conversions conversionsOf
  cases Registry.pairModels spoke hub with
  | error e => exact .pure _
  | ok pairs => exact .foldlM addPair_gives pairs {}

/-- Adds the files and failures of one version. -/
def Output.add (out other : Output) : Output :=
  ⟨out.files ++ other.files, out.failures ++ other.failures⟩

theorem addVersion_gives (r : Registry) (package : String) (hub : VersionModel) (out : Output)
    (version : String) : Gives (addVersion r package hub out version)
      (out.add <$> versionOutput r package hub version) := by
  unfold addVersion versionOutput
  rw [map_eq_pure_bind, bind_assoc]
  refine (Gives.except _).bind fun m => ?_
  rw [bind_assoc]
  refine (Gives.except _).bind fun types => ?_
  dsimp only
  cases hhub : version == r.hubVersion with
  | true =>
    simp only [if_true, pure_bind, Output.add, List.append_assoc, List.append_nil,
      List.cons_append, List.nil_append]
    exact .pure _
  | false =>
    simp only [Bool.false_eq_true, if_false, bind_assoc, pure_bind]
    refine (conversions_gives version m hub).bind fun c => ?_
    simp only [Output.add, List.append_assoc, List.cons_append, List.nil_append]
    exact .pure _

/-- Adding what every step comes to is going through the steps and adding in the end. -/
theorem foldlM_add (f : String → Except RunError Output) (versions : List String) (out : Output) :
    versions.foldlM (fun out v => out.add <$> f v) out =
      (out.add ∘ Output.total) <$> versions.mapM f := by
  induction versions generalizing out with
  | nil => simp [Output.add, Output.total]
  | cons v rest ih =>
    rw [List.foldlM_cons, List.mapM_cons]
    cases hv : f v with
    | error e => rfl
    | ok o =>
      change rest.foldlM _ (out.add o) = _
      rw [ih]
      cases rest.mapM f with
      | error e => rfl
      | ok outs =>
        simp [Output.add, Output.total, bind, Except.bind, pure, Except.pure, Functor.map,
          Except.map]

/-- Everything that the work on a version can come to. -/
theorem versionOutput_cases {r : Registry} {m : VersionModel} (package : String)
    (hub : VersionModel) (hm : r.model version = .ok m) :
    (∃ e, Source.typesModule m = .error e ∧
      versionOutput r package hub version = .error (.fault (.schema e))) ∨
    ∃ types, Source.typesModule m = .ok types ∧
      ((version = r.hubVersion ∧ versionOutput r package hub version =
          .ok ⟨[(modulePath package version "types", types),
            (modulePath package version "__init__", versionInit true)], ownFailures version m⟩) ∨
        version ≠ r.hubVersion ∧
          ((∃ x, conversionsOf version m hub = .error x ∧
            versionOutput r package hub version = .error x) ∨
          ∃ c, conversionsOf version m hub = .ok c ∧ versionOutput r package hub version =
            .ok ⟨[(modulePath package version "types", types),
              (modulePath package version "conversion", conversionSource m hub c),
              (modulePath package version "__init__", versionInit false)],
              ownFailures version m ++ c.failures⟩)) := by
  have hmodel : versionOutput r package hub version = (do
      let types ← ((Source.typesModule m).mapError Error.schema).mapError RunError.fault
      if version == r.hubVersion then
        return ⟨[(modulePath package version "types", types),
          (modulePath package version "__init__", versionInit true)], ownFailures version m⟩
      else
        let c ← conversionsOf version m hub
        return ⟨[(modulePath package version "types", types),
          (modulePath package version "conversion", conversionSource m hub c),
          (modulePath package version "__init__", versionInit false)],
          ownFailures version m ++ c.failures⟩) := by
    unfold versionOutput
    rw [hm]
    rfl
  rw [hmodel]
  cases htypes : Source.typesModule m with
  | error e => exact .inl ⟨e, rfl, rfl⟩
  | ok types =>
    refine .inr ⟨types, rfl, ?_⟩
    by_cases hhub : version = r.hubVersion
    · subst hhub
      refine .inl ⟨rfl, ?_⟩
      simp [Except.mapError, bind, Except.bind, pure, Except.pure]
    · refine .inr ⟨hhub, ?_⟩
      have hspoke : (version == r.hubVersion) = false := by simpa using hhub
      cases hc : conversionsOf version m hub with
      | error x =>
        refine .inl ⟨x, rfl, ?_⟩
        simp [hspoke, Except.mapError, bind, Except.bind]
      | ok c =>
        refine .inr ⟨c, rfl, ?_⟩
        simp [hspoke, Except.mapError, bind, Except.bind, pure, Except.pure]

/-- The result of a run, apart from the log. -/
theorem generate_run (r : Registry) (package : String) (style? : Option String) :
    (generate r package style?).run.1 = outcome r package style? := by
  have hgives : Gives (generate r package style?) (outcome r package style?) := by
    unfold generate outcome
    refine (Gives.except _).bind fun _ => ?_
    refine (Gives.except _).bind fun _ => ?_
    refine (Gives.except _).bind fun hub => ?_
    have hall := Gives.foldlM (addVersion_gives r package hub) r.usableVersions {}
    rw [foldlM_add] at hall
    have hend := hall.bind (g := assemble r package) (f := fun out => do
      if !out.failures.isEmpty then throw (.failures out.failures)
      let root := (s!"{package}/__init__.py", rootInit r.hubVersion r.usableVersions)
      return (Table.ofList (out.files ++ [root])).sorted) fun out => by
        unfold assemble
        cases out.failures.isEmpty with
        | true => exact .pure _
        | false => exact .throw _
    rw [bind_map_left] at hend
    exact hend
  exact hgives []

end Results

end Package

end ResourceVersions
