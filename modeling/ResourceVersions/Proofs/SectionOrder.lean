import ResourceVersions.Proofs.FieldCodec
import ResourceVersions.Proofs.ModelOrder
import ResourceVersions.Proofs.PackageRun

/-! # Types and deltas in another order

The module of types, the pairs of resources of two versions and the deltas between them are the
same for models that differ in their orders only. -/
namespace ResourceVersions

open Fallible

namespace VersionModel

variable {m m' : VersionModel}

theorem Same.typeName_eq (h : m.Same m') (shape : String) :
    m.typeName shape = m'.typeName shape := by
  unfold typeName typeDef?
  rw [h.typeDefs, h.version]

theorem Same.hintFrom_eq (h : m.Same m') (seen : List String) (name : String) :
    m.hintFrom seen name = m'.hintFrom seen name := by
  -- one step, given that what follows the shape agrees
  have hstep : ∀ {seen name s}, m.api.shapes.get? name = some s →
      (∀ ref ∈ s.form.refs, s.form.isStruct = false → name ∉ seen →
        m.hintFrom (name :: seen) ref.2.target = m'.hintFrom (name :: seen) ref.2.target) →
      m.hintFrom seen name = m'.hintFrom seen name := by
    intro seen name s hs ih
    obtain ⟨s', hs', hss⟩ := h.api.shapes.get?_some hs
    rw [Side.hintFrom_eq (s := ⟨m, none⟩) hs, Side.hintFrom_eq (s := ⟨m', none⟩) hs']
    have hform := hss.form
    generalize s.form = form at hform ih
    generalize s'.form = form' at hform
    cases hform with
    | scalar t => rfl
    | struct _ =>
      dsimp only
      rw [h.typeName_eq]
    | list e =>
      dsimp only
      split
      · rfl
      · rename_i hin
        rw [ih ("member", e) (by simp [Form.refs]) rfl hin]
    | map k v =>
      dsimp only
      split
      · rfl
      · rename_i hin
        rw [ih ("key", k) (by simp [Form.refs]) rfl hin,
          ih ("value", v) (by simp [Form.refs]) rfl hin]
  induction seen, name using hintFrom.induct m with
  | case1 seen name hs =>
    rw [hintFrom_undefined hs, hintFrom_undefined (h.api.shapes.get?_none hs)]
  | case2 seen name s hs t hform => exact hstep hs (by simp [hform, Form.refs])
  | case3 seen name s hs ms hform => exact hstep hs (by simp [hform, Form.isStruct])
  | case4 seen name s hs e hform hin => exact hstep hs fun _ _ _ hnot => absurd hin hnot
  | case5 seen name s hs e hform hin ih =>
    refine hstep hs fun ref href _ _ => ?_
    rw [hform] at href
    rw [List.mem_singleton.mp href]
    exact ih
  | case6 seen name s hs k v hform hin => exact hstep hs fun _ _ _ hnot => absurd hin hnot
  | case7 seen name s hs k v hform hin ihk ihv =>
    refine hstep hs fun ref href _ _ => ?_
    rw [hform] at href
    rcases List.mem_pair.mp href with rfl | rfl
    · exact ihk
    · exact ihv

theorem Same.hint_eq (h : m.Same m') (shape? : Option String) (isSecret : Bool) :
    m.hint shape? isSecret = m'.hint shape? isSecret := by
  unfold hint
  split
  · rfl
  · cases shape? with
    | none => rfl
    | some shape => exact h.hintFrom_eq [] shape

theorem Same.apiVersion_eq (h : m.Same m') : m.apiVersion = m'.apiVersion := by
  unfold apiVersion
  rw [h.group?, h.version]

theorem Same.isSecretMember_eq (h : m.Same m') (shape member : String) :
    m.isSecretMember shape member = m'.isSecretMember shape member := by
  unfold isSecretMember
  rw [h.secretMembers]

end VersionModel

namespace Source

variable {m m' : VersionModel} {r r' : Resource}

theorem fieldAttrs_eq (h : m.Same m') (fields : Table Field) :
    fieldAttrs m fields = fieldAttrs m' fields := by
  unfold fieldAttrs
  refine congrArg (List.mapM · _) (funext fun e => ?_)
  dsimp only
  rw [h.hint_eq]

theorem typeClass_eq (h : m.Same m') (d : TypeDef) : typeClass m d = typeClass m' d := by
  unfold typeClass
  refine congrArg (· >>= _) (congrArg (List.mapM · _) (funext fun a => ?_))
  rw [h.hint_eq]

theorem classes_eq (h : m.Same m') : classes m = classes m' := by
  unfold classes
  rw [h.typeDefs, h.enumDefs, funext (typeClass_eq h)]
  refine congrArg _ (funext fun types => congrArg (· >>= _) ?_)
  refine mapM_same h.resources fun r r' hr => ?_
  obtain ⟨hc⟩ := hr
  unfold specClass statusClass resourceClass
  rw [fieldAttrs_eq h, fieldAttrs_eq h, h.apiVersion_eq]

/-- The order shows nowhere in the module of types. -/
theorem typesModule_eq (h : m.Same m') : typesModule m = typesModule m' := by
  unfold typesModule typesHead
  rw [classes_eq h, h.api.serviceId, h.version]

end Source

namespace Registry

variable {m m' hub hub' : VersionModel}

/-- Pairs of resources up to the order of their settings. -/
structure SamePair (p p' : ResourcePair) : Prop where
  name : p.name = p'.name
  src : p.src.Same p'.src
  dst : p.dst.Same p'.dst

theorem resourcesWithout_same (h : m.Same m') :
    Table.Alike Resource.Same (resourcesWithout m []) (resourcesWithout m' []) := by
  unfold resourcesWithout
  refine Table.Alike.ofList ?_
  have hkeep : ∀ l : List Resource,
      l.filter (fun r => !([] : List String).contains r.names.camel) = l :=
    fun l => List.filter_eq_self.mpr (by simp)
  rw [hkeep, hkeep, List.forall₂_map_left_iff, List.forall₂_map_right_iff]
  refine h.resources.imp fun r r' hr => ⟨?_, hr⟩
  cases hr
  rfl

/-- Resources are paired in the same way, or the same are missing. -/
theorem pairModels_same (h : m.Same m') (hh : hub.Same hub') :
    (∃ e, pairModels m hub = .error e ∧ pairModels m' hub' = .error e) ∨
      ∃ pairs pairs', pairModels m hub = .ok pairs ∧ pairModels m' hub' = .ok pairs' ∧
        List.Forall₂ SamePair pairs pairs' := by
  have hsrcs := resourcesWithout_same h
  have hdsts := resourcesWithout_same hh
  unfold pairModels
  rw [h.clean, h.clean', hh.clean, hh.clean']
  dsimp only
  rw [show List.map Failure.name ([] ++ []) = [] from rfl]
  generalize resourcesWithout m [] = srcs at hsrcs ⊢
  generalize resourcesWithout m' [] = srcs' at hsrcs ⊢
  generalize resourcesWithout hub [] = dsts at hdsts ⊢
  generalize resourcesWithout hub' [] = dsts' at hdsts ⊢
  rw [hsrcs.sortedKeys_eq, hdsts.sortedKeys_eq, funext hsrcs.contains_eq, funext hdsts.contains_eq,
    h.version, hh.version]
  split
  · refine .inr ⟨_, _, rfl, rfl, ?_⟩
    have hsorted := hsrcs.sorted
    generalize srcs.sorted = l at hsorted ⊢
    generalize srcs'.sorted = l' at hsorted ⊢
    induction hsorted with
    | nil => exact .nil
    | @cons e e' _ _ he _ ih =>
      obtain ⟨hname, hr⟩ := he
      rw [List.filterMap_cons, List.filterMap_cons, ← hname]
      rcases rel_cases (hdsts e.1) with ⟨hx, hy⟩ | ⟨x, y, hx, hy, hxy⟩
      · rw [hx, hy]
        exact ih
      · rw [hx, hy]
        exact .cons ⟨rfl, hr, hxy⟩ ih
  · exact .inl ⟨_, rfl, rfl⟩

end Registry

namespace ResourceDelta

variable {spoke spoke' hub hub' : ResourceSide}

/-- The same resource of the same API. -/
structure SameSide (s s' : ResourceSide) : Prop where
  api : s.api.Same s'.api
  resource : s.resource.Same s'.resource

theorem renames_eq {r r' : Resource} (h : r.Same r') : r.renames = r'.renames := by
  have hpairs : r.renamePairs = r'.renamePairs := by
    have hops : r.ops = r'.ops := by cases h; rfl
    unfold Resource.renamePairs
    rw [hops]
    exact List.flatMap_congr fun op _ => (h.renamesOf op.name).sorted_eq
  have hnames : r.names = r'.names := by cases h; rfl
  unfold Resource.renames
  rw [hpairs, hnames]

theorem classify_eq (h : SameSide spoke spoke') (hh : SameSide hub hub') (f g : Field) :
    classify spoke hub f g = classify spoke' hub' f g := by
  have htails : ∀ {s s' : ResourceSide}, SameSide s s' → ∀ f,
      secretTails s.resource f = secretTails s'.resource f := by
    intro s s' hs f
    obtain ⟨api, r⟩ := s
    obtain ⟨api', r'⟩ := s'
    obtain ⟨-, hr⟩ := hs
    dsimp only at hr ⊢
    obtain ⟨hc⟩ := hr
    rfl
  unfold classify
  simp only [htails h, htails hh, h.api.sameStructure_eq hh.api]

/-- Nothing in the deltas depends on the order. -/
theorem between_eq (h : SameSide spoke spoke') (hh : SameSide hub hub') :
    between spoke hub = between spoke' hub' := by
  have hclassify : classify spoke hub = classify spoke' hub' :=
    funext fun f => funext fun g => classify_eq h hh f g
  have hfields : ∀ {r r' : Resource}, r.Same r' → r.spec = r'.spec ∧ r.status = r'.status := by
    rintro r _ ⟨hc⟩
    exact ⟨rfl, rfl⟩
  unfold between
  rw [renames_eq hh.resource, hclassify, (hfields h.resource).1, (hfields h.resource).2,
    (hfields hh.resource).1, (hfields hh.resource).2]

end ResourceDelta

end ResourceVersions
