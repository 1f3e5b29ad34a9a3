import ResourceVersions.Proofs.ConfigOrder
import ResourceVersions.Proofs.ModelOrder
import ResourceVersions.Proofs.RegisteredModel

/-! # Submitted documents

A version is submitted as two documents, its API description and its configuration, which are read
and then registered. What becomes of a submission is settled by its documents and the entries of
the registry alone, so that submissions can come in any order. -/
namespace ResourceVersions

open Fallible

/-- The documents of a version, and its entry where it has a new one. -/
structure Submission where
  version : String
  api : Json
  config : Json
  info? : Option VersionInfo := none

namespace Submission

/-- The configuration is read first: it says what to ignore in the API. -/
def read (s : Submission) : Attempt (Api × Config) := do
  let config ← Attempt.ofExcept ((Config.read (Document.ofJson s.config)).mapError Error.config)
  let api ← Api.ofDocument s.api config.ignore.shapes config.ignore.paths
  return (api, config)

/-- The model that the documents describe. -/
def model (s : Submission) (group? : Option String) : Attempt VersionModel := do
  let (api, config) ← s.read
  VersionModel.build s.version api config group? .collect

/-- The same submission up to the order of the entries of its documents. -/
structure Same (s s' : Submission) : Prop where
  version : s.version = s'.version
  api : s.api.Same s'.api
  config : s.config.Same s'.config
  info? : s.info? = s'.info?

variable {s s' : Submission}

/-- A model without failures is described in every order of the documents, unless a name without
words is met. -/
theorem model_follows (h : s.Same s') (group? : Option String) :
    FollowsIf (fun m => m.failures = []) VersionModel.Same (s.model group?) (s'.model group?) := by
  have hconfig : Keeps Config.Same ((Config.read (Document.ofJson s.config)).mapError Error.config)
      ((Config.read (Document.ofJson s'.config)).mapError Error.config) :=
    (Config.read_same ⟨s.config, s'.config, rfl, rfl, h.config⟩).mapError
  have hread : Follows (fun a b => a.1.Same b.1 ∧ a.2.Same b.2) s.read s'.read := by
    refine (Follows.except hconfig).bind fun config config' hc => ?_
    rw [← hc.ignore]
    exact (Api.ofDocument_follows h.api _ _).bind fun api api' ha => .pure ⟨ha, hc⟩
  unfold model
  rw [← h.version]
  exact hread.bind_if fun a b hab => VersionModel.build_follows hab.1 hab.2 s.version group?

end Submission

namespace Registry

def submit (r : Registry) (s : Submission) : Logged (Except Error VersionModel × Registry) := do
  match ← s.read.outcome with
  | .error e => return (.error e, r)
  | .ok (api, config) => r.register s.version api config s.info?

/-- The result of a submission and the registry that it leaves. -/
def submitFrom (r : Registry) (s : Submission) (records : List Record) :
    Except Error VersionModel × Registry :=
  ((r.submit s).run records).1

/-- What the constructor and some submissions lead to, and the results of these. -/
inductive Submitted (hubVersion : String) (infos : Table VersionInfo) (group? : Option String) :
    List Submission → List (String × Except Error VersionModel) → Registry → Prop where
  | created {r} : create hubVersion infos group? = .ok r → Submitted hubVersion infos group? [] [] r
  | submitted {l results r} (s : Submission) (records : List Record) :
      Submitted hubVersion infos group? l results r →
      Submitted hubVersion infos group? (l ++ [s])
        (results ++ [(s.version, (r.submitFrom s records).1)]) (r.submitFrom s records).2

/-- What a submission leaves as it is. -/
structure Frames (r r' : Registry) (version : String) : Prop where
  hubVersion : r'.hubVersion = r.hubVersion
  group? : r'.group? = r.group?
  infos : ∀ name, name ≠ version → r'.infos.get? name = r.infos.get? name
  models : ∀ name, name ≠ version → r'.models.get? name = r.models.get? name

/-- A model comes from a submission, whose entry has been taken. -/
def Stems (r : Registry) (s : Submission) (m : VersionModel) : Prop :=
  (∃ records, (runFrom (s.model r.group?) records).1 = .ok m) ∧
    ∀ info, s.info? = some info → r.infos.get? s.version = some info

/-- What has become of a submission can be told from the registry and the results. -/
inductive Settled (r : Registry) (results : List (String × Except Error VersionModel))
    (s : Submission) : Prop where
  | kept {m records} : (runFrom (s.model r.group?) records).1 = .ok m →
      r.models.get? s.version = some m → Settled r results s
  | failed {e records} : (runFrom (s.model r.group?) records).1 = .error e →
      (s.version, .error e) ∈ results → Settled r results s
  | refused : (s.info? = none → s.version ∉ r.infos.keys) →
      (∀ info, s.info? = some info → r.infos.get? s.version ≠ some info) → Settled r results s

variable {r r₁ : Registry} {s : Submission} {records : List Record} {hubVersion : String}
  {infos : Table VersionInfo} {group? : Option String} {l : List Submission}
  {results : List (String × Except Error VersionModel)} {version : String} {m : VersionModel}

theorem submitFrom_eq (r : Registry) (s : Submission) (records : List Record) :
    r.submitFrom s records = match runFrom s.read records with
      | (.error e, _) => (.error e, r)
      | (.ok a, written) => r.registerFrom s.version a.1 a.2 s.info? written := by
  unfold submitFrom submit registerFrom
  rw [StateT.run_bind]
  rw [show StateT.run s.read.outcome records = runFrom s.read records from rfl]
  cases runFrom s.read records with
  | mk result written => cases result <;> rfl

/-- What can become of a submission: its documents cannot be read, its entry is refused, or its
model is kept if it can be built. -/
theorem submitFrom_cases (r : Registry) (s : Submission) (records : List Record) :
    (∃ e, (runFrom (s.model r.group?) records).1 = .error e ∧
      r.submitFrom s records = (.error e, r)) ∨
    (∃ e, r.withEntry s.version s.info? = .error e ∧ r.submitFrom s records = (.error e, r)) ∨
    ∃ r₁, r.withEntry s.version s.info? = .ok r₁ ∧
      ((∃ e, (runFrom (s.model r.group?) records).1 = .error e ∧
          r.submitFrom s records = (.error e, r₁)) ∨
        ∃ m, (runFrom (s.model r.group?) records).1 = .ok m ∧ r.submitFrom s records =
          (.ok m, { r₁ with models := r₁.models.insert s.version m })) := by
  unfold Submission.model
  rw [runFrom_bind]
  rw [submitFrom_eq]
  cases runFrom s.read records with
  | mk result written =>
    cases result with
    | error e => exact .inl ⟨e, rfl, rfl⟩
    | ok a =>
      right
      dsimp only
      rw [registerFrom_eq]
      cases hentry : r.withEntry s.version s.info? with
      | error e => exact .inl ⟨e, rfl, rfl⟩
      | ok r₁ =>
        refine .inr ⟨r₁, rfl, ?_⟩
        obtain ⟨-, hgroup, -⟩ := withEntry_frame hentry
        dsimp only
        rw [hgroup]
        cases hbuild : (runFrom (VersionModel.build s.version a.1 a.2 r.group? .collect)
            written).1 with
        | error e => exact .inl ⟨e, rfl, rfl⟩
        | ok m => exact .inr ⟨m, rfl, rfl⟩

theorem Frames.refl (r : Registry) (version : String) : Frames r r version :=
  ⟨rfl, rfl, fun _ _ => rfl, fun _ _ => rfl⟩

theorem withEntry_frames {info? : Option VersionInfo} (h : r.withEntry version info? = .ok r₁) :
    Frames r r₁ version := by
  obtain ⟨hhub, hgroup, hmodels⟩ := withEntry_frame h
  refine ⟨hhub, hgroup, fun name hne => ?_, fun name _ => by rw [hmodels]⟩
  cases info? with
  | none =>
    obtain ⟨-, rfl⟩ := withEntry_none_iff.mp h
    rfl
  | some info =>
    obtain ⟨-, rfl⟩ := withEntry_some_iff.mp h
    exact (Table.get?_insert ..).trans (if_neg hne)

theorem submitFrom_frames (r : Registry) (s : Submission) (records : List Record) :
    Frames r (r.submitFrom s records).2 s.version := by
  rcases submitFrom_cases r s records with ⟨e, -, hrun⟩ | ⟨e, -, hrun⟩ |
    ⟨r₁, hentry, ⟨e, -, hrun⟩ | ⟨m, -, hrun⟩⟩
  · rw [hrun]
    exact .refl r _
  · rw [hrun]
    exact .refl r _
  · rw [hrun]
    exact withEntry_frames hentry
  · rw [hrun]
    obtain ⟨hhub, hgroup, hinfos, hmodels⟩ := withEntry_frames hentry
    refine ⟨hhub, hgroup, hinfos, fun name hne => ?_⟩
    exact ((Table.get?_insert ..).trans (if_neg hne)).trans (hmodels name hne)

theorem submitFrom_infos (hnone : s.info? = none) (records : List Record) :
    (r.submitFrom s records).2.infos = r.infos := by
  rcases submitFrom_cases r s records with ⟨e, -, hrun⟩ | ⟨e, -, hrun⟩ |
    ⟨r₁, hentry, ⟨e, -, hrun⟩ | ⟨m, -, hrun⟩⟩
  · rw [hrun]
  · rw [hrun]
  all_goals
    rw [hnone] at hentry
    obtain ⟨-, rfl⟩ := withEntry_none_iff.mp hentry
    rw [hrun]

theorem Sound.submitFrom (hr : r.Sound) (s : Submission) (records : List Record) :
    (r.submitFrom s records).2.Sound := by
  rcases submitFrom_cases r s records with ⟨e, -, hrun⟩ | ⟨e, -, hrun⟩ |
    ⟨r₁, hentry, ⟨e, -, hrun⟩ | ⟨m, -, hrun⟩⟩
  · rw [hrun]
    exact hr
  · rw [hrun]
    exact hr
  · rw [hrun]
    exact (hr.withEntry hentry).1
  · rw [hrun]
    obtain ⟨hsound, hlisted⟩ := hr.withEntry hentry
    exact hsound.withModel hlisted m

theorem Submitted.sound (h : Submitted hubVersion infos group? l results r) : r.Sound := by
  induction h with
  | created h => exact create_sound h
  | submitted s records _ ih => exact ih.submitFrom s records

theorem Submitted.made_for (h : Submitted hubVersion infos group? l results r) :
    r.hubVersion = hubVersion ∧ r.group? = group? := by
  induction h with
  | created h =>
    rw [(create_ok h).1]
    exact ⟨rfl, rfl⟩
  | @submitted l results r s records _ ih =>
    have hframe := submitFrom_frames r s records
    exact ⟨hframe.hubVersion.trans ih.1, hframe.group?.trans ih.2⟩

/-- Where no submission has a new entry, the manifest is the one of the constructor. -/
theorem Submitted.infos_eq (h : Submitted hubVersion infos group? l results r)
    (hnone : ∀ s ∈ l, s.info? = none) : r.infos = infos := by
  induction h with
  | created h => rw [(create_ok h).1]
  | @submitted l results r s records _ ih =>
    rw [submitFrom_infos (hnone s (by simp))]
    exact ih fun s₀ hs₀ => hnone s₀ (by simp [hs₀])

theorem versions_apart {s₀ : Submission} (hnodup : ((l ++ [s]).map Submission.version).Nodup)
    (hs₀ : s₀ ∈ l) : s₀.version ≠ s.version := by
  rw [List.map_append, List.nodup_append] at hnodup
  exact hnodup.2.2 _ (List.mem_map_of_mem hs₀) _ (by simp)

theorem versions_before (hnodup : ((l ++ [s]).map Submission.version).Nodup) :
    (l.map Submission.version).Nodup := by
  rw [List.map_append] at hnodup
  exact hnodup.of_append_left

/-- Every model stems from the submission for its version. -/
theorem Submitted.stems (h : Submitted hubVersion infos group? l results r)
    (hnodup : (l.map Submission.version).Nodup) (hm : r.models.get? version = some m) :
    ∃ s ∈ l, s.version = version ∧ r.Stems s m := by
  induction h with
  | created h =>
    rw [(create_ok h).1] at hm
    cases hm
  | @submitted l results r s records _ ih =>
    have ih := ih (versions_before hnodup)
    by_cases hv : version = s.version
    · subst hv
      have hnew : r.models.get? s.version ≠ some m := by
        intro hold
        obtain ⟨s₀, hs₀, hversion, -⟩ := ih hold
        exact versions_apart hnodup hs₀ hversion
      rcases submitFrom_cases r s records with ⟨e, -, hrun⟩ | ⟨e, -, hrun⟩ |
        ⟨r₁, hentry, ⟨e, -, hrun⟩ | ⟨m', hmodel, hrun⟩⟩
      · rw [hrun] at hm
        exact (hnew hm).elim
      · rw [hrun] at hm
        exact (hnew hm).elim
      · rw [hrun] at hm
        exact (hnew ((withEntry_frame hentry).2.2 ▸ hm)).elim
      · rw [hrun] at hm ⊢
        dsimp only at hm
        rw [Table.get?_insert, if_pos rfl] at hm
        cases hm
        refine ⟨s, by simp, rfl, ⟨records, ?_⟩, fun info hinfo => ?_⟩
        · rw [← (withEntry_frame hentry).2.1] at hmodel
          exact hmodel
        · rw [hinfo] at hentry
          obtain ⟨-, rfl⟩ := withEntry_some_iff.mp hentry
          exact (Table.get?_insert ..).trans (if_pos rfl)
    · have hframe := submitFrom_frames r s records
      rw [hframe.models version hv] at hm
      obtain ⟨s₀, hs₀, rfl, ⟨records', hmodel⟩, hinfo⟩ := ih hm
      refine ⟨s₀, by simp [hs₀], rfl, ⟨records', ?_⟩, fun info h => ?_⟩
      · rw [hframe.group?]
        exact hmodel
      · rw [hframe.infos _ hv]
        exact hinfo info h

/-- Later submissions for other versions change nothing about it. -/
theorem Settled.frame {r' : Registry} (h : Settled r results s) (hframe : Frames r r' version)
    (hne : s.version ≠ version) (more : List (String × Except Error VersionModel)) :
    Settled r' (results ++ more) s := by
  cases h with
  | kept hmodel hget =>
    rw [← hframe.group?] at hmodel
    exact .kept hmodel ((hframe.models _ hne).trans hget)
  | failed hmodel hin =>
    rw [← hframe.group?] at hmodel
    exact .failed hmodel (List.mem_append_left _ hin)
  | refused hnone hsome =>
    have hinfos := hframe.infos s.version hne
    refine .refused (fun h => ?_) fun info h => ?_
    · rw [← Table.get?_eq_none_iff, hinfos, Table.get?_eq_none_iff]
      exact hnone h
    · rw [hinfos]
      exact hsome info h

theorem Sound.takes (hr : r.Sound) {info : VersionInfo} (h : r.infos.get? version = some info) :
    r.Takes version info := by
  refine ⟨hr.parses version (Table.mem_keys_of_get? h), ?_⟩
  rw [Table.insert_eq_self_iff.mpr h]
  exact hr.audit_ok

theorem Submitted.settled (h : Submitted hubVersion infos group? l results r)
    (hnodup : (l.map Submission.version).Nodup) (hs : s ∈ l) : Settled r results s := by
  induction h with
  | created h => cases hs
  | @submitted l results r s₀ records hr ih =>
    rcases List.mem_append.mp hs with hs | hs
    · exact (ih (versions_before hnodup) hs).frame (submitFrom_frames r s₀ records)
        (versions_apart hnodup hs) _
    · cases List.mem_singleton.mp hs
      have hgroup := (submitFrom_frames r s records).group?
      rcases submitFrom_cases r s records with ⟨e, hmodel, hrun⟩ | ⟨e, hentry, hrun⟩ |
        ⟨r₁, hentry, ⟨e, hmodel, hrun⟩ | ⟨m, hmodel, hrun⟩⟩
      · rw [← hgroup] at hmodel
        exact .failed hmodel (by simp [hrun])
      · rw [hrun]
        refine .refused (fun hnone hlisted => ?_) fun info hinfo hget => ?_
        · rw [hnone, withEntry_none_iff.mpr ⟨hlisted, rfl⟩] at hentry
          cases hentry
        · rw [hinfo, withEntry_some_iff.mpr ⟨hr.sound.takes hget, rfl⟩] at hentry
          cases hentry
      · rw [← hgroup] at hmodel
        exact .failed hmodel (by simp [hrun])
      · rw [← hgroup] at hmodel
        refine .kept hmodel ?_
        rw [hrun]
        exact (Table.get?_insert ..).trans (if_pos rfl)

end Registry

end ResourceVersions
