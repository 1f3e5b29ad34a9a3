import ResourceVersions.Proofs.ConversionOrder
import ResourceVersions.Proofs.PackageContents
import ResourceVersions.Proofs.SubmissionOrder

/-! # Packages in another order

Two registries for which the same documents have been submitted, with their entries in other orders
and the versions in another order, generate the same package. Orders can be told apart by a name
without words alone: in one of them the model of a version may meet it, and in the other not. -/
namespace ResourceVersions

open Fallible

namespace Registry

variable {r r' : Registry} {infos infos' : Table VersionInfo}

/-- Different names are different versions. -/
def Distinct (infos : Table VersionInfo) : Prop :=
  ∀ text ∈ infos.keys, ∀ text' ∈ infos.keys, Version.parse text = Version.parse text' → text = text'

theorem isDeprecated_eq (h : Table.Same infos infos') (version : String) :
    isDeprecated infos version = isDeprecated infos' version := by
  unfold isDeprecated
  rw [h version]

/-- The order of versions is the one of their names where these are different versions. -/
theorem versions_eq (h : Table.Same r.infos r'.infos) (hdistinct : Distinct r.infos) :
    r.versions = r'.versions := by
  have hkeys : r.infos.keys.Perm r'.infos.keys := h.entries_perm.map _
  have hperm : (parsed r.infos).Perm (parsed r'.infos) := hkeys.filterMap _
  refine congrArg (List.map Prod.snd) (Version.oldestFirst_eq hperm ?_)
  rintro ⟨v, text⟩ ha ⟨v', text'⟩ hb hv
  obtain ⟨hin, hparse⟩ := mem_parsed.mp ha
  obtain ⟨hin', hparse'⟩ := mem_parsed.mp hb
  dsimp only at hv
  subst hv
  rw [hdistinct text hin text' hin' (hparse.trans hparse'.symm)]

theorem usableVersions_eq (h : Table.Same r.infos r'.infos) (hdistinct : Distinct r.infos) :
    r.usableVersions = r'.usableVersions := by
  unfold usableVersions
  rw [versions_eq h hdistinct, funext (isDeprecated_eq h)]

end Registry

namespace Package

open Registry

variable {r r' : Registry} {package version : String} {m m' hub hub' : VersionModel}
  {files : List (String × String)}

theorem versionOutput_eq (hm : r.model version = .ok m) (hm' : r'.model version = .ok m')
    (hsame : m.Same m') (hh : hub.Same hub') (hhub : r.hubVersion = r'.hubVersion) :
    versionOutput r package hub version = versionOutput r' package hub' version := by
  have hown : ownFailures version m = ownFailures version m' := by
    unfold ownFailures
    rw [hsame.clean, hsame.clean']
  unfold versionOutput
  rw [hm, hm']
  dsimp only [Except.mapError, bind, Except.bind]
  rw [Source.typesModule_eq hsame, hhub, hown, conversionsOf_eq hsame hh]
  simp only [conversionSource_eq hsame hh]

/-- Registries with the same entries whose models are the same generate the same package. -/
theorem generate_same (hr : r.Sound) (hhub : r.hubVersion = r'.hubVersion)
    (hentries : Table.Same r.infos r'.infos) (hdistinct : Distinct r.infos)
    (hmodels : ∀ version ∈ r.usableVersions, ∀ m, r.models.get? version = some m →
      m.failures = [] → ∃ m', r'.models.get? version = some m' ∧ m.Same m')
    (hrun : (generate r package none).run.1 = .ok files) :
    (generate r' package none).run.1 = .ok files := by
  have husable := usableVersions_eq hentries hdistinct
  obtain ⟨hub₀, outs₀, _, hget₀, houts₀, hclean, -⟩ := generate_parts hrun
  obtain ⟨-, hall⟩ := outputs_contribute houts₀ hclean
  -- every usable version has models in both registries
  have hboth : ∀ version ∈ r.usableVersions, ∃ m m', r.model version = .ok m ∧
      r'.model version = .ok m' ∧ m.Same m' := by
    intro version hv
    obtain ⟨m, hm, _, -, hcontributes⟩ := hall version hv
    obtain ⟨m', hm', hsame⟩ := hmodels version hv m hm hcontributes.built
    obtain ⟨hversion, havailable⟩ := mem_usableVersions.mp hv
    obtain ⟨info, hinfo⟩ := Table.mem_keys_iff.mp (mem_versions.mp hversion).1
    rw [isDeprecated, hinfo] at havailable
    exact ⟨m, m', model_ok_iff.mpr ⟨⟨info, hinfo, havailable⟩, hm⟩,
      model_ok_iff.mpr ⟨⟨info, hentries version ▸ hinfo, havailable⟩, hm'⟩, hsame⟩
  have hready : r.Ready := by
    intro version hv
    obtain ⟨m, -, hm, -, -⟩ := hboth version hv
    exact Table.mem_keys_of_get? (model_ok_iff.mp hm).2
  have hready' : r'.Ready := by
    intro version hv
    obtain ⟨-, m', -, hm', -⟩ := hboth version (husable ▸ hv)
    exact Table.mem_keys_of_get? (model_ok_iff.mp hm').2
  obtain ⟨hub, hub', hmodel, hmodel', hsame⟩ := hboth _ hr.hub_usable
  have houtputs : r.usableVersions.mapM (versionOutput r package hub) =
      r.usableVersions.mapM (versionOutput r' package hub') := by
    refine mapM_same (R := fun v w => v = w ∧ v ∈ r.usableVersions)
      (List.forall₂_same.mpr fun v hv => ⟨rfl, hv⟩) fun v w hvw => ?_
    obtain ⟨rfl, hv⟩ := hvw
    obtain ⟨m, m', hm, hm', hmm⟩ := hboth v hv
    exact versionOutput_eq hm hm' hmm hsame hhub
  rw [generate_run] at hrun ⊢
  rw [← hrun]
  unfold outcome assemble
  rw [hready.verify, hready'.verify, ← hhub, hmodel, hmodel', ← husable]
  dsimp only [Except.mapError, bind, Except.bind]
  rw [houtputs]

/-- The same submissions in another order, each with its entries in other orders. -/
def Resubmitted (l l' : List Submission) : Prop :=
  ∃ l₀, List.Forall₂ Submission.Same l l₀ ∧ l₀.Perm l'

theorem Resubmitted.mem {l l' : List Submission} (h : Resubmitted l l') {s : Submission}
    (hs : s ∈ l) : ∃ s' ∈ l', s.Same s' := by
  obtain ⟨l₀, hall, hperm⟩ := h
  obtain ⟨s', hs', hsame⟩ : ∃ s' ∈ l₀, s.Same s' := by
    clear hperm
    induction hall with
    | nil => cases hs
    | @cons t t' _ _ ht _ ih =>
      rcases List.mem_cons.mp hs with rfl | hs
      · exact ⟨t', by simp, ht⟩
      · obtain ⟨s', hs', hsame⟩ := ih hs
        exact ⟨s', by simp [hs'], hsame⟩
  exact ⟨s', hperm.mem_iff.mp hs', hsame⟩

theorem Resubmitted.versions {l l' : List Submission} (h : Resubmitted l l') :
    (l.map Submission.version).Perm (l'.map Submission.version) := by
  obtain ⟨l₀, hall, hperm⟩ := h
  have heq : l.map Submission.version = l₀.map Submission.version := by
    clear hperm
    induction hall with
    | nil => rfl
    | cons ht _ ih => rw [List.map_cons, List.map_cons, ht.version, ih]
  rw [heq]
  exact hperm.map _

section Runs

variable {hubVersion : String} {infos infos' : Table VersionInfo} {group? : Option String}
  {l l' : List Submission} {results results' : List (String × Except Error VersionModel)}

/-- A package that can be generated does not depend on any order: not on that of the entries of the
documents or the manifest, and not on that in which the versions are submitted. The one way in which
an order can show is that the model of a version cannot be built in it, because a name without words
is met. -/
theorem generate_order (hr : Submitted hubVersion infos group? l results r)
    (hr' : Submitted hubVersion infos' group? l' results' r') (hl : Resubmitted l l')
    (hnodup : (l.map Submission.version).Nodup) (hentries : Table.Same r.infos r'.infos)
    (hdistinct : Distinct r.infos) (hrun : (generate r package none).run.1 = .ok files) :
    (generate r' package none).run.1 = .ok files ∨
      ∃ version ∈ r.usableVersions, ∃ text,
        (version, .error (.config (.noWords text))) ∈ results' := by
  by_contra hnot
  push Not at hnot
  obtain ⟨hother, hworded⟩ := hnot
  refine hother (generate_same hr.sound (hr.made_for.1.trans hr'.made_for.1.symm) hentries hdistinct
    (fun version hv m hm hclean => ?_) hrun)
  obtain ⟨s, hs, rfl, ⟨records, hmodel⟩, hinfo⟩ := hr.stems hnodup hm
  obtain ⟨s', hs', hsame⟩ := hl.mem hs
  have hlisted := (mem_versions.mp (mem_usableVersions.mp hv).1).1
  have hgroup : r.group? = r'.group? := hr.made_for.2.trans hr'.made_for.2.symm
  have hfollows := fun t =>
    s.model_follows hsame r.group? records m _ t (Prod.ext hmodel rfl) hclean
  rw [hgroup] at hfollows
  cases hr'.settled (hl.versions.nodup_iff.mp hnodup) hs' with
  | @kept m' records' hmodel' hget' =>
    rcases hfollows records' with ⟨m'', _, hrun', hmm⟩ | ⟨e, _, hrun', -⟩
    · rw [hrun'] at hmodel'
      cases hmodel'
      exact ⟨m', hsame.version ▸ hget', hmm⟩
    · rw [hrun'] at hmodel'
      cases hmodel'
  | @failed e' records' hmodel' hin =>
    rcases hfollows records' with ⟨m'', _, hrun', -⟩ | ⟨e, _, hrun', text, rfl⟩
    · rw [hrun'] at hmodel'
      cases hmodel'
    · rw [hrun'] at hmodel'
      cases hmodel'
      rw [← hsame.version] at hin
      exact (hworded s.version hv text hin).elim
  | refused hnone hsome =>
    rw [← hsame.version, ← hsame.info?] at hnone hsome
    cases hentry : s.info? with
    | none => exact (hnone hentry (hentries.alike.mem_keys.mp hlisted)).elim
    | some info =>
      exact (hsome info hentry ((hentries s.version).symm.trans (hinfo info hentry))).elim

end Runs

namespace Sample

def lampEntries : List (String × Json) :=
  [("metadata", .obj [("serviceId", .str "S"), ("apiVersion", .str "1")]),
   ("operations", .obj [("CreateLamp", .obj [("input", .obj [("shape", .str "Payload")])])]),
   ("shapes", .obj [("Payload", .obj [("type", .str "structure"), ("members", .obj [])])])]

def lampSettings : Json :=
  .obj [("resources", .obj [("Lamp", .obj [("fields", .obj [("Tag",
      .obj [("is_attribute", .bool true)])]),
    ("unpack_attributes_map", .bool true)])])]

def lampSubmission (entries : List (String × Json)) (version : String) : Submission :=
  { version, api := .obj entries, config := lampSettings }

theorem lamps_read (version : String) :
    runFrom (lampSubmission lampEntries version).read [] = (.ok (lamps, lampConfig), []) := by
  rfl

theorem lamps_reread (version : String) :
    runFrom (lampSubmission lampEntries.reverse version).read [] =
      (.ok (lamps, lampConfig), []) := by
  rfl

theorem lamps_submitted (models : Table VersionModel) {s : Submission}
    (hread : runFrom s.read [] = (.ok (lamps, lampConfig), [])) (hnone : s.info? = none)
    (hv : s.version ∈ twoVersions.keys) :
    (lampShop models).submitFrom s [] =
      (.ok (lampModel s.version), lampShop (models.insert s.version (lampModel s.version))) := by
  rw [submitFrom_eq, hread, hnone]
  exact registerFrom_built (r := lampShop models) hv (lamps_built s.version)

def relit : Registry :=
  lampShop ((Table.insert ∅ "v2" (lampModel "v2")).insert "v1" (lampModel "v1"))

theorem lit_submitted : Submitted "v1" twoVersions none
    [lampSubmission lampEntries "v1", lampSubmission lampEntries "v2"]
    [("v1", .ok (lampModel "v1")), ("v2", .ok (lampModel "v2"))] lit := by
  have hfirst := (Submitted.created lampShop_created).submitted (lampSubmission lampEntries "v1") []
  rw [lamps_submitted ∅ (lamps_read "v1") rfl (by decide)] at hfirst
  have hsecond := hfirst.submitted (lampSubmission lampEntries "v2") []
  rwa [lamps_submitted _ (lamps_read "v2") rfl (by decide)] at hsecond

theorem relit_submitted : Submitted "v1" twoVersions none
    [lampSubmission lampEntries.reverse "v2", lampSubmission lampEntries.reverse "v1"]
    [("v2", .ok (lampModel "v2")), ("v1", .ok (lampModel "v1"))] relit := by
  have hfirst := (Submitted.created lampShop_created).submitted
    (lampSubmission lampEntries.reverse "v2") []
  rw [lamps_submitted ∅ (lamps_reread "v2") rfl (by decide)] at hfirst
  have hsecond := hfirst.submitted (lampSubmission lampEntries.reverse "v1") []
  rwa [lamps_submitted _ (lamps_reread "v1") rfl (by decide)] at hsecond

theorem lamps_resubmitted : Resubmitted
    [lampSubmission lampEntries "v1", lampSubmission lampEntries "v2"]
    [lampSubmission lampEntries.reverse "v2", lampSubmission lampEntries.reverse "v1"] := by
  have hentries : (Json.obj lampEntries).Same (.obj lampEntries.reverse) := by
    refine Json.same_of_perm ?_ (List.reverse_perm _).symm
    simp [Json.WellFormed, Json.WellFormedFields, lampEntries]
  have hsettings : lampSettings.Same lampSettings := by
    refine .refl ?_
    simp [Json.WellFormed, Json.WellFormedFields, lampSettings]
  have hsame : ∀ version, (lampSubmission lampEntries version).Same
      (lampSubmission lampEntries.reverse version) := fun version => ⟨rfl, hentries, hsettings, rfl⟩
  exact ⟨_, .cons (hsame "v1") (.cons (hsame "v2") .nil), .swap ..⟩

theorem twoVersions_distinct : Distinct twoVersions := by
  have hfirst : Version.parse "v1" = .ok ⟨1, .ga, 0⟩ := by cbv
  have hsecond : Version.parse "v2" = .ok ⟨2, .ga, 0⟩ := by cbv
  intro text htext text' htext' heq
  rcases List.mem_pair.mp htext with rfl | rfl <;> rcases List.mem_pair.mp htext' with rfl | rfl
  · rfl
  · rw [hfirst, hsecond] at heq
    cases heq
  · rw [hfirst, hsecond] at heq
    cases heq
  · rfl

end Sample

open Sample in
/-- The other order of the documents and the versions gives the same package. -/
theorem generate_order_lit : ∃ files, (generate lit "apis" none).run.1 = .ok files ∧
    (generate relit "apis" none).run.1 = .ok files := by
  obtain ⟨files, hfiles⟩ := lit_generated "apis"
  refine ⟨files, hfiles, ?_⟩
  rcases generate_order lit_submitted relit_submitted lamps_resubmitted (by decide) (.refl _)
    twoVersions_distinct hfiles with hsame | ⟨version, -, text, hin⟩
  · exact hsame
  · simp at hin

namespace Sample

/-- The create output holds the attributes of a badge and a member whose name has no words. -/
def badges (members : Table ShapeRef) : Api where
  serviceId := "S"
  apiVersion := "1"
  shapes := .ofList [("Out", ⟨.struct members, [], false, ""⟩),
    ("String", ⟨.scalar .string, [], false, ""⟩)]
  operations := .ofList [("CreateBadge", ⟨"CreateBadge", none, some ⟨"Out", ""⟩⟩)]

/-- The member without words is the identifier, so that it never becomes a field. -/
def badgeConfig : Config where
  resources := .ofList [("Badge", { fields := .ofList [("Attributes", {})]
                                    unpacksAttributes := true
                                    primaryIdentifier? := some "-" })]

def attributesFirst : Table ShapeRef :=
  .ofList [("Attributes", ⟨"String", ""⟩), ("-", ⟨"String", ""⟩)]

def wordlessFirst : Table ShapeRef :=
  .ofList [("-", ⟨"String", ""⟩), ("Attributes", ⟨"String", ""⟩)]

theorem wordlessFirst_same : Table.Same attributesFirst wordlessFirst :=
  Table.same_of_perm (by decide) (.swap ..)

def createBadge : Operation := ⟨"CreateBadge", none, some ⟨"Out", ""⟩⟩

/-- The badge before anything is read from the API. -/
def bareBadge : Resource :=
  { names := ⟨"Badge", "Badge", "badge", "badge"⟩
    ops := ⟨createBadge, none, none, none, none, none, none⟩
    settings := badgeConfig.resource "Badge" }

def badge : Resource := { bareBadge with identifier? := some "-" }

theorem badge_configured : bareBadge.settings.fields.sorted = [("Attributes", {})] :=
  List.mergeSort_singleton _

/-- The attributes are found before the name without words. -/
theorem badge_spec : runFrom (bareBadge.settings.fields.sorted.foldlM
    (Resource.addConfiguredSpec (badges attributesFirst)) bareBadge) [] = (.ok bareBadge, []) := by
  rw [badge_configured]
  rfl

theorem badge_outputs : bareBadge.addOutputMembers (badges attributesFirst) = .ok badge := by
  have hsorted : wordlessFirst.sorted = wordlessFirst.entries :=
    List.mergeSort_of_pairwise (by decide)
  have hmembers : bareBadge.payloadMembers attributesFirst = [("-", ⟨"String", ""⟩)] := by
    unfold Resource.payloadMembers
    rw [wordlessFirst_same.sorted_eq, hsorted]
    decide
  have hout : bareBadge.outputMembers? (badges attributesFirst) = .ok (some attributesFirst) := rfl
  unfold Resource.addOutputMembers
  rw [hout]
  dsimp only [Except.mapError, bind, Except.bind]
  rw [hmembers]
  rfl

theorem badge_nested :
    runFrom (badge.addNestedFields (badges attributesFirst)) [] = (.ok badge, []) := by
  have hkeys : badge.settings.fields.sortedKeys = ["Attributes"] :=
    List.mergeSort_singleton _
  have hnone : badge.nestedFields (badges attributesFirst) = .ok [] := by
    unfold Resource.nestedFields
    rw [show badge.spec.sorted = [] from List.mergeSort_nil,
      show badge.status.sorted = [] from List.mergeSort_nil]
    rfl
  unfold Resource.addNestedFields
  rw [hnone]
  refine (runFrom_bind_eq (a := []) (t := []) rfl).trans ?_
  dsimp only [List.foldl_nil]
  rw [hkeys]
  rfl

/-- The badge is the only resource, and it has no other operations. -/
theorem badge_operations :
    ((badges attributesFirst).operationsOf badgeConfig.ignore.operations .create).sorted =
      [("Badge", createBadge)] ∧
    ResourceOps.ofApi (badges attributesFirst) badgeConfig.ignore.operations
      bareBadge.names.given createBadge = bareBadge.ops := by
  decide +kernel

theorem badge_built : runFrom (Resource.build (badges attributesFirst) badgeConfig bareBadge.names
    createBadge) [] = (.ok badge, []) := by
  have htop : runFrom (bareBadge.addTopFields (badges attributesFirst)) [] = (.ok badge, []) := by
    unfold Resource.addTopFields
    refine (runFrom_bind_eq (a := bareBadge) (t := []) rfl).trans ?_
    refine (runFrom_bind_eq badge_spec).trans ?_
    refine (runFrom_bind_eq (a := badge) (t := []) (congrArg (·, []) badge_outputs)).trans ?_
    rw [show badge.settings.fields.sorted = _ from badge_configured]
    rfl
  unfold Resource.build
  rw [badge_operations.2]
  exact (runFrom_bind_eq htop).trans badge_nested

theorem badges_built :
    runFrom (Resource.buildAll (badges attributesFirst) badgeConfig .collect) [] =
      (.ok ([badge], []), []) := by
  have hnames : Names.of "Badge" = .ok bareBadge.names := by cbv
  have hstep : runFrom (Resource.addResource (badges attributesFirst) badgeConfig .collect {}
      ("Badge", createBadge)) [] = (.ok ⟨Table.insert ∅ "Badge" badge, []⟩, []) := by
    unfold Resource.addResource
    dsimp only
    rw [if_neg (by decide)]
    refine (runFrom_bind_eq (a := bareBadge.names) (t := []) (congrArg (·, []) hnames)).trans ?_
    rw [if_neg (by decide)]
    refine (runFrom_bind_eq (a := .ok badge) (t := []) ?_).trans rfl
    rw [Resource.guard_run, badge_built]
  unfold Resource.buildAll
  dsimp only
  rw [badge_operations.1, List.foldlM_cons]
  refine (runFrom_bind_eq (a := ⟨Table.insert ∅ "Badge" badge, []⟩) (t := [])
    ((runFrom_bind_eq hstep).trans rfl)).trans ?_
  rw [show (Table.insert ∅ "Badge" badge).sorted = [("Badge", badge)] from
    List.mergeSort_singleton _]
  rfl

def badgeModel : VersionModel :=
  { version := "v1", api := badges attributesFirst, config := badgeConfig, group? := none
    resources := [badge], typeDefs := [], enumDefs := [], secretMembers := ∅, failures := [] }

theorem badgeModel_built : (runFrom (VersionModel.build "v1" (badges attributesFirst) badgeConfig
    none .collect) []).1 = .ok badgeModel := by
  have hsecrets : ∀ r ∈ [badge], r.secretMembers (badges attributesFirst) = .ok [] := by
    decide +kernel
  have hsorted : (badges attributesFirst).shapes.sorted = (badges attributesFirst).shapes.entries :=
    List.mergeSort_of_pairwise (by decide)
  have hplain : (badges attributesFirst).shapes.entries.filter (fun e => e.2.isEnum) = [] := rfl
  have henums : Types.enumDefs (badges attributesFirst) [badge] = .ok [] := by
    unfold Types.enumDefs
    dsimp only
    rw [hsorted, hplain]
    exact congrArg Except.ok List.mergeSort_nil
  exact VersionModel.build_clean badges_built hsecrets (Types.typeDefs_none (by decide +kernel))
    henums rfl

/-- In the other order the name without words comes first. -/
theorem badges_fail : (runFrom (VersionModel.build "v1" (badges wordlessFirst) badgeConfig none
    .collect) []).1 = .error (.config (.noWords "-")) := by
  have hfail : (match (runFrom (Resource.buildAll (badges wordlessFirst) badgeConfig .collect)
      []).1 with
      | .error e => some e
      | .ok _ => none) = some (Error.config (.noWords "-")) := by decide +kernel
  unfold VersionModel.build
  rw [runFrom_bind]
  cases hrun : runFrom (Resource.buildAll (badges wordlessFirst) badgeConfig .collect) [] with
  | mk result written =>
    rw [hrun] at hfail
    cases result with
    | ok built => cases hfail
    | error e =>
      cases hfail
      rfl

def badgeEntries (members : List (String × Json)) : List (String × Json) :=
  [("metadata", .obj [("serviceId", .str "S"), ("apiVersion", .str "1")]),
   ("operations", .obj [("CreateBadge",
     .obj [("name", .str "CreateBadge"), ("output", .obj [("shape", .str "Out")])])]),
   ("shapes", .obj [("Out", .obj [("type", .str "structure"), ("members", .obj members)]),
     ("String", .obj [("type", .str "string")])])]

def badgeSettings : Json :=
  .obj [("resources", .obj [("Badge", .obj [("fields", .obj [("Attributes", .obj [])]),
    ("primary_identifier", .str "-"), ("unpack_attributes_map", .bool true)])])]

def badgeMembers : List (String × Json) :=
  [("-", .obj [("shape", .str "String")]), ("Attributes", .obj [("shape", .str "String")])]

def badgeSubmission (members : List (String × Json)) : Submission :=
  { version := "v1", api := .obj (badgeEntries members), config := badgeSettings }

open Registry.Sample

def badgeShop : Registry := { start with models := Table.insert ∅ "v1" badgeModel }

theorem badges_kept : Submitted "v1" hubOnly none [badgeSubmission badgeMembers.reverse]
    [("v1", .ok badgeModel)] badgeShop := by
  have hrun := (Submitted.created start_created).submitted (badgeSubmission badgeMembers.reverse) []
  have hread : runFrom (badgeSubmission badgeMembers.reverse).read [] =
      (.ok (badges attributesFirst, badgeConfig), []) := rfl
  have hstep : start.submitFrom (badgeSubmission badgeMembers.reverse) [] =
      (.ok badgeModel, badgeShop) := by
    rw [submitFrom_eq, hread]
    exact registerFrom_built (r := start) (by decide) badgeModel_built
  rwa [hstep] at hrun

theorem badges_refused : Submitted "v1" hubOnly none [badgeSubmission badgeMembers]
    [("v1", .error (.config (.noWords "-")))] start := by
  have hrun := (Submitted.created start_created).submitted (badgeSubmission badgeMembers) []
  have hread : runFrom (badgeSubmission badgeMembers).read [] =
      (.ok (badges wordlessFirst, badgeConfig), []) := rfl
  have hlisted : "v1" ∈ start.infos.keys := by decide
  have hstep : start.submitFrom (badgeSubmission badgeMembers) [] =
      (.error (.config (.noWords "-")), start) := by
    rw [submitFrom_eq, hread]
    dsimp only
    rw [registerFrom_eq, show (badgeSubmission badgeMembers).info? = none from rfl,
      show (badgeSubmission badgeMembers).version = "v1" from rfl,
      withEntry_none_iff.mpr ⟨hlisted, rfl⟩]
    dsimp only
    rw [show start.group? = none from rfl, badges_fail]
  rwa [hstep] at hrun

theorem badges_resubmitted :
    Resubmitted [badgeSubmission badgeMembers.reverse] [badgeSubmission badgeMembers] := by
  have hmembers : (Json.obj badgeMembers.reverse).Same (.obj badgeMembers) := by
    refine Json.same_of_perm ?_ (List.reverse_perm _)
    simp [Json.WellFormed, Json.WellFormedFields, badgeMembers]
  have hdoc : (Json.obj (badgeEntries badgeMembers.reverse)).Same
      (.obj (badgeEntries badgeMembers)) := by
    refine ⟨?_, ?_, ?_⟩
    · simp [Json.WellFormed, Json.WellFormedFields, badgeEntries, badgeMembers]
    · simp [Json.WellFormed, Json.WellFormedFields, badgeEntries, badgeMembers]
    · simp only [badgeEntries, Json.ordered, Json.orderedFields]
      rw [show byKey (Json.orderedFields badgeMembers.reverse) =
        byKey (Json.orderedFields badgeMembers) from Json.obj.inj hmembers.agree]
  have hsettings : badgeSettings.Same badgeSettings := by
    refine .refl ?_
    simp [Json.WellFormed, Json.WellFormedFields, badgeSettings]
  have hsame : (badgeSubmission badgeMembers.reverse).Same (badgeSubmission badgeMembers) :=
    ⟨rfl, hdoc, hsettings, rfl⟩
  exact ⟨_, .cons hsame .nil, .refl _⟩

theorem badges_generated : ∃ files, (generate badgeShop "apis" none).run.1 = .ok files := by
  have husable : badgeShop.usableVersions = ["v1"] := start_usable _
  have htyped : (Source.typesModule badgeModel).isOk = true := by decide +kernel
  have hready : badgeShop.Ready := by
    intro version hv
    rw [husable] at hv
    cases List.mem_singleton.mp hv
    decide
  have hfinishes : Finishes badgeShop := by
    intro version hv e hhalts
    rw [husable] at hv
    cases List.mem_singleton.mp hv
    cases hhalts with
    | types hget htypes =>
      cases hget
      rw [htypes] at htyped
      cases htyped
    | name _ _ hspoke => exact hspoke rfl
  have hstyle : checkStyle none = .ok () := rfl
  rcases generate_finished badges_kept.sound hready "apis" hstyle hfinishes with
    ⟨-, hfiles⟩ | ⟨hsome, -⟩
  · exact hfiles
  · rw [husable] at hsome
    exact absurd rfl hsome

end Sample

open Sample Registry.Sample in
/-- The order of the members of the create output shows: in one order the package is generated, in
the other the version cannot be registered. -/
theorem order_shows_badges : ∃ files,
    Submitted "v1" hubOnly none [badgeSubmission badgeMembers.reverse]
      [("v1", .ok badgeModel)] badgeShop ∧
    Submitted "v1" hubOnly none [badgeSubmission badgeMembers]
      [("v1", .error (.config (.noWords "-")))] start ∧
    Resubmitted [badgeSubmission badgeMembers.reverse] [badgeSubmission badgeMembers] ∧
    Table.Same badgeShop.infos start.infos ∧ Distinct badgeShop.infos ∧
    (generate badgeShop "apis" none).run.1 = .ok files ∧
    (generate start "apis" none).run.1 ≠ .ok files := by
  obtain ⟨files, hfiles⟩ := badges_generated
  refine ⟨files, badges_kept, badges_refused, badges_resubmitted, .refl _, ?_, hfiles,
    fun hrun => ?_⟩
  · intro text htext text' htext' _
    rw [List.mem_singleton.mp htext, List.mem_singleton.mp htext']
  · obtain ⟨hub, _, _, hget, -⟩ := generate_parts hrun
    cases hget

end Package

end ResourceVersions
