import ResourceVersions.Proofs.CopyRounds
import ResourceVersions.Proofs.HelperRun
import ResourceVersions.Proofs.SectionOrder

/-! # Conversions in another order

The code that converts between two versions, and with it the helpers that it needs, is the same
for every order of the APIs and settings of the two. -/
namespace ResourceVersions

namespace Conversion

open Code

/-- The same direction between models that are the same. -/
structure Direction.Same (d d' : Direction) : Prop where
  src : d.src.Same d'.src
  dst : d.dst.Same d'.dst
  srcAlias? : d.srcAlias? = d'.srcAlias?
  dstAlias? : d.dstAlias? = d'.dstAlias?
  suffix : d.suffix = d'.suffix

namespace Direction

variable {d d' : Direction}

theorem Same.helperName_eq (h : d.Same d') : d.helperName = d'.helperName := by
  unfold helperName
  rw [h.suffix]

theorem Same.memberCopy_eq (h : d.Same d') (src dst : String) {ms ms' : Table ShapeRef}
    (hms : Table.Same ms ms') (entry : String × ShapeRef) :
    d.memberCopy src dst ms entry = d'.memberCopy src dst ms' entry := by
  unfold memberCopy
  dsimp only
  rw [hms entry.1]
  simp only [h.src.isSecretMember_eq, h.dst.isSecretMember_eq]

theorem Same.collectionNames_eq (h : d.Same d') (src dst : String) :
    d.collectionNames src dst = d'.collectionNames src dst := by
  unfold collectionNames
  rw [h.src.api.innermost_eq, h.dst.api.innermost_eq]

theorem schema_shape_some {api : Api} {name : String} {s : Shape}
    (hs : api.shapes.get? name = some s) : Emit.schema (api.shape name) = pure s := by
  rw [Api.shape, Api.shape?, hs]
  rfl

theorem schema_shape_none {api : Api} {name : String} (hs : api.shapes.get? name = none) :
    Emit.schema (api.shape name) = throw (.schema (.undefinedShape name)) := by
  rw [Api.shape, Api.shape?, hs]
  rfl

/-- A round of a copy goes through members in their sorted order. -/
theorem Same.copyRound_eq (h : d.Same d') : d.copyRound = d'.copyRound := by
  funext g call
  unfold copyRound
  cases hs : d.src.api.shapes.get? call.src with
  | none => rw [h.src.api.shapes.get?_none hs]
  | some s =>
    obtain ⟨s', hs', hss⟩ := h.src.api.shapes.get?_some hs
    rw [hs']
    dsimp only
    rcases h.dst.api.shape call.dst with ⟨t, t', ht, ht', htt⟩ | ⟨ht, ht'⟩
    · rw [schema_shape_some ht, schema_shape_some ht', pure_bind, pure_bind, h.src.api.isPlain_eq]
      have hform := hss.form
      have hform' := htt.form
      generalize s.form = form at hform
      generalize s'.form = form' at hform
      generalize t.form = dstForm at hform'
      generalize t'.form = dstForm' at hform'
      cases hform with
      | scalar _ => rfl
      | struct hms =>
        cases hform' with
        | struct hns =>
          dsimp only
          rw [h.helperName_eq, h.dst.typeName_eq, h.dstAlias?, hms.sorted_eq]
          simp only [h.memberCopy_eq call.src call.dst hns]
        | _ => rfl
      | list e =>
        cases hform' with
        | list e' => rw [h.collectionNames_eq]
        | _ => rfl
      | map k v =>
        cases hform' with
        | map k' v' => rw [h.collectionNames_eq]
        | _ => rfl
    · rw [schema_shape_none ht, schema_shape_none ht']
      rfl

/-- Copies have the same rounds, and so the same code. -/
theorem Same.copyFrom_eq (h : d.Same d') (active passed : List String) (value : Expr)
    (src dst : String) (depth : Nat) (target : Target) (keepNone : Bool) :
    d.copyFrom active passed value src dst depth target keepNone =
      d'.copyFrom active passed value src dst depth target keepNone := by
  have hends := d'.copy_ends
  rw [← h.copyRound_eq] at hends
  exact congrFun (d.copy_ends.unique hends)
    ⟨active, passed, value, src, dst, depth, target, keepNone⟩

theorem Same.helperBody_eq (h : d.Same d') (r : HelperRequest) :
    d.helperBody r = d'.helperBody r := by
  unfold helperBody
  rw [h.copyFrom_eq]

/-- The tasks are done in the same way. -/
theorem Same.serve_eq (h : d.Same d') (helpers : Helpers) (tasks : List HelperTask) :
    d.serve helpers tasks = d'.serve helpers tasks := by
  have hname : ∀ shape, d.helperName? shape = d'.helperName? shape := by
    intro shape
    unfold helperName?
    rw [h.helperName_eq]
  induction helpers, tasks using serve.induct d with
  | case1 helpers => rw [serve, serve]
  | case2 helpers e rest => rw [serve, serve]
  | case3 helpers f rest ih => rw [serve, serve, ih]
  | case4 helpers r rest name s hrname hs hin ih =>
    obtain ⟨s', hs', -⟩ := h.src.api.shapes.get?_some hs
    rw [serve_known hrname hs hin, serve_known (hname _ ▸ hrname) hs' hin, ih]
  | case5 helpers r rest name s hrname hs hin ih =>
    obtain ⟨s', hs', -⟩ := h.src.api.shapes.get?_some hs
    rw [serve_new hrname hs hin, serve_new (hname _ ▸ hrname) hs' hin, ← h.helperBody_eq, ih]
  | case6 helpers r rest hnone ih =>
    rw [serve_none hnone, serve_none fun name s' hrname hs' => ?_, ih]
    cases hs : d.src.api.shapes.get? r.src with
    | none => cases (h.src.api.shapes.get?_none hs).symm.trans hs'
    | some s => exact hnone name s ((hname _).trans hrname) hs

theorem Same.emit_eq (h : d.Same d') (helpers : Helpers) (work : Emit (List Stmt)) :
    d.emit helpers work = d'.emit helpers work := by
  unfold emit
  simp only [h.serve_eq]

theorem Same.deltaCode_eq (h : d.Same d') (way : Way) (p : Part) (dstResource : String)
    (owner : TypeRef) (delta : FieldDelta) :
    d.deltaCode way p dstResource owner delta = d'.deltaCode way p dstResource owner delta := by
  have hfield : ∀ f g, d.copyField p dstResource f g = d'.copyField p dstResource f g := by
    intro f g
    unfold copyField
    simp only [h.src.api.sameStructure_eq h.dst.api, h.copyFrom_eq]
  unfold deltaCode
  simp only [hfield]

theorem Same.functionBody_eq (h : d.Same d') (way : Way) (dstResource : String)
    (delta : ResourceDelta) :
    d.functionBody way dstResource delta = d'.functionBody way dstResource delta := by
  unfold functionBody partCode
  simp only [h.dstAlias?, funext (h.deltaCode_eq way _ dstResource _)]

end Direction

/-- The same pair of versions. -/
structure Converter.Same (c c' : Converter) : Prop where
  spoke : c.spoke.Same c'.spoke
  hub : c.hub.Same c'.hub
  hubAlias : c.hubAlias = c'.hubAlias

namespace Converter

variable {c c' : Converter} {spoke spoke' hub hub' : Resource}

theorem Same.direction (h : c.Same c') (way : Way) : (c.direction way).Same (c'.direction way) := by
  cases way with
  | toHub => exact ⟨h.spoke, h.hub, rfl, congrArg some h.hubAlias, rfl⟩
  | fromHub => exact ⟨h.hub, h.spoke, congrArg some h.hubAlias, rfl, rfl⟩

theorem Same.function_eq (h : c.Same c') (hs : spoke.Same spoke') (hh : hub.Same hub')
    (helpers : Helpers) (way : Way) (delta : ResourceDelta) :
    c.function helpers way spoke hub delta = c'.function helpers way spoke' hub' delta := by
  have hd := h.direction way
  obtain ⟨hc⟩ := hs
  obtain ⟨hc'⟩ := hh
  unfold function functionName functionDoc
  cases way
  all_goals
    dsimp only at hd ⊢
    rw [hd.functionBody_eq, hd.emit_eq, hd.srcAlias?, hd.dstAlias?, h.spoke.version, h.hub.version]

theorem Same.functions_eq (h : c.Same c') (hs : spoke.Same spoke') (hh : hub.Same hub')
    (helpers : Helpers) (delta : ResourceDelta) :
    c.functions helpers spoke hub delta = c'.functions helpers spoke' hub' delta := by
  have hnames : hub.names = hub'.names := by cases hh; rfl
  unfold functions
  simp only [h.function_eq hs hh, hnames]

end Converter

end Conversion

namespace Package

variable {m m' hub hub' : VersionModel}

theorem withPair_eq {c c' : Conversion.Converter} (h : c.Same c') (version : String)
    (acc : Conversions) {p p' : ResourcePair} (hp : Registry.SamePair p p') :
    withPair version c acc p = withPair version c' acc p' := by
  have hcode : pairCode c acc.helpers p = pairCode c' acc.helpers p' := by
    have hspoke : ResourceDelta.SameSide ⟨c.spoke.api, p.src⟩ ⟨c'.spoke.api, p'.src⟩ :=
      ⟨h.spoke.api, hp.src⟩
    have hhub : ResourceDelta.SameSide ⟨c.hub.api, p.dst⟩ ⟨c'.hub.api, p'.dst⟩ :=
      ⟨h.hub.api, hp.dst⟩
    unfold pairCode
    rw [ResourceDelta.between_eq hspoke hhub]
    simp only [h.functions_eq hp.src hp.dst]
  unfold withPair
  rw [hcode, hp.name]

/-- The conversions of a version are the same in every order. -/
theorem conversionsOf_eq (h : m.Same m') (hh : hub.Same hub') (version : String) :
    conversionsOf version m hub = conversionsOf version m' hub' := by
  unfold conversionsOf
  rcases Registry.pairModels_same h hh with ⟨e, he, he'⟩ | ⟨pairs, pairs', hok, hok', hall⟩
  · rw [he, he']
  · have hsame : Conversion.Converter.Same { spoke := m, hub } { spoke := m', hub := hub' } :=
      ⟨h, hh, rfl⟩
    rw [hok, hok']
    exact foldlM_same hall fun acc p p' hp => withPair_eq hsame version acc hp

theorem conversionSource_eq (h : m.Same m') (hh : hub.Same hub') (c : Conversions) :
    conversionSource m hub c = conversionSource m' hub' c := by
  unfold conversionSource Source.conversionModule Source.conversionHead
  rw [h.api.serviceId, h.version, hh.version]

end Package

end ResourceVersions
