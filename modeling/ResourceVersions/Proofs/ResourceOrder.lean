import ResourceVersions.Proofs.ApiOrder
import ResourceVersions.Proofs.RelatedRuns
import ResourceVersions.Resource.Build

/-! # Resources in another order

A resource is built from sorted members and settings, so that it comes out the same for every order
of its API and its settings. Only whether a configured field is an output member is looked up in
the order of the members, which shows where a name on the way has no words. -/
namespace ResourceVersions

open Fallible

namespace Resource

/-- The same resource up to the order of its settings. -/
inductive Same (r : Resource) : Resource → Prop where
  | mk {c : ResourceConfig} : r.settings.Same c → Same r { r with settings := c }

variable {api api' : Api} {r r' : Resource} {ms ms' : Table ShapeRef}

theorem Same.newField_eq (h : r.Same r') (path : String) (names : Names) (ref? : Option ShapeRef) :
    r.newField path names ref? = r'.newField path names ref? := by
  obtain ⟨hc⟩ := h
  unfold newField
  rw [hc.fields path]

theorem Same.addSpec (h : r.Same r') (names : Names) (ref? : Option ShapeRef) :
    (r.addSpec names ref?).Same (r'.addSpec names ref?) := by
  have hfield := h.newField_eq names.camel names ref?
  obtain ⟨hc⟩ := h
  unfold Resource.addSpec
  rw [← hfield]
  exact .mk hc

theorem Same.addStatus (h : r.Same r') (names : Names) (ref? : Option ShapeRef) :
    (r.addStatus names ref?).Same (r'.addStatus names ref?) := by
  have hfield := h.newField_eq names.camel names ref?
  obtain ⟨hc⟩ := h
  unfold Resource.addStatus
  rw [← hfield]
  exact .mk hc

theorem Same.addNested (h : r.Same r') (path : String) (names : Names) (ref : ShapeRef) :
    (r.addNested path names ref).Same (r'.addNested path names ref) := by
  have hfield := h.newField_eq path names (some ref)
  obtain ⟨hc⟩ := h
  unfold Resource.addNested
  rw [← hfield]
  exact .mk hc

theorem Same.renamesOf (h : r.Same r') (operation : String) :
    Table.Same (r.settings.renamesOf operation) (r'.settings.renamesOf operation) := by
  obtain ⟨hc⟩ := h
  unfold ResourceConfig.renamesOf Table.getD
  rcases rel_cases (hc.renames operation) with ⟨hx, hy⟩ | ⟨x, y, hx, hy, hxy⟩
  · rw [hx, hy]
    exact .refl _
  · rw [hx, hy]
    exact hxy

theorem Same.inputRename_eq (h : r.Same r') (operation member : String) :
    r.inputRename operation member = r'.inputRename operation member :=
  (h.renamesOf operation).getD_eq member member

theorem Same.isIdentifier_eq (h : r.Same r') (member : String) :
    r.isIdentifier member = r'.isIdentifier member := by
  obtain ⟨hc⟩ := h
  unfold isIdentifier
  rw [hc.primaryIdentifier?]

theorem Same.payloadMembers_eq (h : r.Same r') (hms : Table.Same ms ms') :
    r.payloadMembers ms = r'.payloadMembers ms' := by
  obtain ⟨hc⟩ := h
  unfold payloadMembers
  rw [hms.sorted_eq, hc.unpacksAttributes]

theorem Same.configured (h : r.Same r') :
    r.settings.fields.sorted = r'.settings.fields.sorted := by
  obtain ⟨hc⟩ := h
  exact hc.fields.sorted_eq

theorem Same.unpacks_eq (h : r.Same r') :
    r.settings.unpacksAttributes = r'.settings.unpacksAttributes := by
  obtain ⟨hc⟩ := h
  exact hc.unpacksAttributes

end Resource

theorem Api.Same.shape_keeps {api api' : Api} (h : api.Same api') (name : String) :
    Keeps Shape.Same (api.shape name) (api'.shape name) := by
  unfold Api.shape shape?
  rcases rel_cases (h.shapes name) with ⟨hx, hy⟩ | ⟨x, y, hx, hy, hxy⟩
  · rw [hx, hy]
    exact .error _ _ _
  · rw [hx, hy]
    exact .pure hxy

theorem Table.Same.values_cases {α : Type} {s s' : Table α} (h : Table.Same s s') :
    (∃ only, s.values = [only] ∧ s'.values = [only]) ∨
      (∀ only, s.values ≠ [only]) ∧ ∀ only, s'.values ≠ [only] := by
  by_cases hone : ∃ only, s.values = [only]
  · obtain ⟨only, honly⟩ := hone
    exact .inl ⟨only, honly, List.perm_singleton.mp (honly ▸ h.values_perm.symm)⟩
  · refine .inr ⟨fun only honly => hone ⟨only, honly⟩, fun only honly => hone ⟨only, ?_⟩⟩
    exact List.perm_singleton.mp (honly ▸ h.values_perm)

namespace Resource

variable {api api' : Api} {r r' : Resource} {ms ms' : Table ShapeRef}

/-- The members of the create output are found in every order. -/
theorem outputMembers?_keeps (h : api.Same api') (hr : r.Same r') :
    Keeps (Option.Rel Table.Same) (r.outputMembers? api) (r'.outputMembers? api') := by
  obtain ⟨hc⟩ := hr
  unfold outputMembers?
  cases r.ops.create.output? with
  | none => exact .pure .none
  | some ref =>
    refine (h.shape_keeps ref.target).bind fun s s' hs => ?_
    have hms := hs.form.members
    rcases hms.values_cases with ⟨only, hone, hone'⟩ | ⟨hnone, hnone'⟩
    · dsimp only
      rw [hone, hone']
      refine (h.shape_keeps only.target).bind fun t t' ht => ?_
      have hform := ht.form
      generalize t.form = form at hform
      generalize t'.form = form' at hform
      cases hform with
      | struct hinner => exact .pure (.some hinner)
      | _ => exact .pure (.some hms)
    · dsimp only
      split
      · rename_i hone
        exact (hnone _ hone).elim
      · exact .pure (.some hms)

/-- A search through the names of the members meets a name without words in one order only. -/
theorem isOutputMember_follows (h : api.Same api') (hr : r.Same r') (path : String) :
    Follows Eq (Attempt.ofExcept (r.isOutputMember api path))
      (Attempt.ofExcept (r'.isOutputMember api' path)) := by
  intro s found s' t hrun _
  rw [Attempt.ofExcept, runFrom_except] at hrun ⊢
  have hmembers : Keeps (Option.Rel Table.Same) ((r.outputMembers? api).mapError Error.schema)
      ((r'.outputMembers? api').mapError Error.schema) := (outputMembers?_keeps h hr).mapError
  obtain ⟨ms?, hms, hfound⟩ := bind_ok_iff.mp (Prod.mk.inj hrun).1
  obtain ⟨ms'?, hms', hrel⟩ := hmembers ms? hms
  unfold isOutputMember
  rw [hms']
  rcases rel_cases hrel with ⟨rfl, rfl⟩ | ⟨ms, ms', rfl, rfl, hsame⟩
  · cases hfound
    exact .inl ⟨false, t, rfl, rfl⟩
  · obtain ⟨names, hnames, hfound⟩ := bind_ok_iff.mp hfound
    dsimp only [bind, Except.bind]
    rw [hnames]
    rcases anyM_order (fun _ => hsame.alike.mem_keys) hfound with hfound' | ⟨m, -, e, he, hfail⟩
    · exact .inl ⟨found, t, congrArg (·, t) hfound', rfl⟩
    · refine .inr ⟨e, t, congrArg (·, t) hfail, ?_⟩
      cases hm : Names.of m with
      | ok n =>
        rw [hm] at he
        cases he
      | error e' =>
        rw [hm] at he
        cases he
        exact Names.of_wordless m _ hm

/-- A new field with the shape that a reference leads to. -/
theorem withShape_follows (h : api.Same api') (ref : ShapeRef) (path : String)
    {f g : Names → Resource} (hfg : ∀ names, (f names).Same (g names)) :
    Follows Same
      (do
        Attempt.schema (api.requireDefined ref)
        return f (← Attempt.ofExcept (Names.of path)))
      (do
        Attempt.schema (api'.requireDefined ref)
        return g (← Attempt.ofExcept (Names.of path))) := by
  rw [h.requireDefined_eq]
  refine (Follows.except (.of_eq rfl)).bind fun _ _ _ => ?_
  refine (Follows.except (.of_eq rfl)).bind fun names names' heq => .pure ?_
  subst heq
  exact hfg names

theorem addInputMember_keeps (h : api.Same api') (hr : r.Same r') (member : String × ShapeRef) :
    Keeps Same (addInputMember api r member) (addInputMember api' r' member) := by
  have hnames := hr.inputRename_eq r.ops.create.name member.1
  have hadd := fun names => hr.addSpec names (some member.2)
  obtain ⟨hc⟩ := hr
  unfold addInputMember
  rw [h.requireDefined_eq, hnames]
  refine (Keeps.of_eq rfl).bind fun _ _ _ => ?_
  refine (Keeps.of_eq rfl).bind fun names names' heq => ?_
  subst heq
  exact .pure (hadd names)

theorem unpackAttributes_keeps (hr : r.Same r') :
    Keeps Same r.unpackAttributes r'.unpackAttributes := by
  unfold unpackAttributes
  rw [hr.configured]
  refine Keeps.foldlM (forall₂_eq_self _) hr fun s s' a b hs hab => ?_
  subst hab
  refine (Keeps.of_eq rfl).bind fun names names' heq => .pure ?_
  subst heq
  split
  · exact hs.addStatus names none
  · exact hs.addSpec names none

theorem addInputMembers_keeps (h : api.Same api') (hr : r.Same r') :
    Keeps Same (r.addInputMembers api) (r'.addInputMembers api') := by
  have hops : r.ops = r'.ops := by cases hr; rfl
  unfold addInputMembers
  rw [← hops]
  cases r.ops.create.input? with
  | none => exact .pure hr
  | some ref =>
    refine (h.shape_keeps ref.target).mapError.bind fun s s' hs => ?_
    rw [hr.payloadMembers_eq hs.form.members]
    refine (Keeps.foldlM (forall₂_eq_self _) hr fun t t' a b ht hab => ?_).bind
      fun t t' ht => ?_
    · subst hab
      exact addInputMember_keeps h ht a
    · rw [ht.unpacks_eq]
      split
      · exact unpackAttributes_keeps ht
      · exact .pure ht

theorem addConfiguredSpec_follows (h : api.Same api') (hr : r.Same r')
    (entry : String × FieldConfig) :
    Follows Same (addConfiguredSpec api r entry) (addConfiguredSpec api' r' entry) := by
  have hadd := fun names ref? => hr.addSpec names ref?
  have hfound := isOutputMember_follows h hr entry.1
  have hsame := hr
  obtain ⟨hc⟩ := hr
  obtain ⟨path, fc⟩ := entry
  unfold addConfiguredSpec
  dsimp only
  rw [← hc.unpacksAttributes]
  split
  · exact .pure hsame
  · split
    · split
      · exact (Follows.log _ _ _ _).bind fun _ _ _ => .pure hsame
      · exact .pure hsame
    · split
      · refine hfound.bind fun found found' heq => ?_
        subst heq
        split
        · exact (Follows.log _ _ _ _).bind fun _ _ _ => .pure hsame
        · exact .pure hsame
      · rename_i source hsource
        rw [← h.inputRef?_eq]
        split
        · exact .throw _ _ _
        · exact withShape_follows h _ path fun names => hadd names _

theorem addOutputMember_keeps (h : api.Same api') (hr : r.Same r') (member : String × ShapeRef) :
    Keeps Same (addOutputMember api r member) (addOutputMember api' r' member) := by
  have hadd := fun names ref? => hr.addStatus names ref?
  have hidentifier := hr.isIdentifier_eq member.1
  have hrename := hr.inputRename_eq r.ops.create.name member.1
  have hsame := hr
  obtain ⟨hc⟩ := hr
  obtain ⟨name, ref⟩ := member
  unfold addOutputMember
  dsimp only
  rw [h.requireDefined_eq, ← hidentifier, ← hrename]
  split
  · exact .pure (.mk hc)
  · refine (Keeps.of_eq rfl).bind fun names names' heq => ?_
    subst heq
    split
    · exact .pure hsame
    · exact (Keeps.of_eq rfl).bind fun _ _ _ => .pure (hadd names _)

theorem addOutputMembers_keeps (h : api.Same api') (hr : r.Same r') :
    Keeps Same (r.addOutputMembers api) (r'.addOutputMembers api') := by
  refine (outputMembers?_keeps h hr).mapError.bind fun ms? ms'? hms => ?_
  rcases rel_cases hms with ⟨rfl, rfl⟩ | ⟨ms, ms', rfl, rfl, hsame⟩
  · exact .pure hr
  · dsimp only
    rw [hr.payloadMembers_eq hsame]
    refine Keeps.foldlM (forall₂_eq_self _) hr fun s s' a b hs hab => ?_
    subst hab
    exact addOutputMember_keeps h hs a

theorem addConfiguredStatus_follows (h : api.Same api') (hr : r.Same r')
    (entry : String × FieldConfig) :
    Follows Same (addConfiguredStatus api r entry) (addConfiguredStatus api' r' entry) := by
  have hadd := fun names ref? => hr.addStatus names ref?
  have hsame := hr
  obtain ⟨hc⟩ := hr
  obtain ⟨path, fc⟩ := entry
  unfold addConfiguredStatus
  dsimp only
  split
  · exact .pure hsame
  · split
    · exact (Follows.log _ _ _ _).bind fun _ _ _ => .pure hsame
    · rename_i source hsource
      rw [← h.outputRef?_eq]
      split
      · exact .throw _ _ _
      · exact withShape_follows h _ path fun names => hadd names _

theorem addTopFields_follows (h : api.Same api') (hr : r.Same r') :
    Follows Same (r.addTopFields api) (r'.addTopFields api') := by
  refine (Follows.except (addInputMembers_keeps h hr)).bind fun s s' hs => ?_
  rw [hs.configured]
  refine (Follows.foldlM (forall₂_eq_self _) hs fun t t' a b ht hab => ?_).bind
    fun t t' ht => ?_
  · subst hab
    exact addConfiguredSpec_follows h ht a
  refine (Follows.except (addOutputMembers_keeps h ht)).bind fun u u' hu => ?_
  rw [hu.configured]
  refine Follows.foldlM (forall₂_eq_self _) hu fun v v' a b hv hab => ?_
  subst hab
  exact addConfiguredStatus_follows h hv a

/-- The fields below a path, one step of the way. -/
theorem nestedFrom_eq (api : Api) (active : List String) (path shape : String) :
    nestedFrom api active path shape = (do
      let inner ← (api.innermost shape).mapError Error.schema
      match (api.shapes.get? inner).map Shape.form with
      | some (.struct members) =>
        if inner ∈ active then return []
        else
          let fields ← members.sorted.mapM fun (member, ref) => do
            (api.requireDefined ref).mapError Error.schema
            let path := FieldPath.child path (api.isCollection shape) member
            let names ← Names.of member
            return ⟨path, names, ref⟩ :: (← nestedFrom api (inner :: active) path ref.target)
          return fields.flatten
      | _ => return []) := by
  rw [nestedFrom]
  refine congrArg _ (funext fun inner => ?_)
  split
  · rename_i hs
    rw [hs]
    rfl
  · rename_i hno
    cases hs : api.shapes.get? inner with
    | none => rfl
    | some s =>
      obtain ⟨form, enum, isException, documentation⟩ := s
      cases form with
      | struct ms => exact (hno ms enum isException documentation hs).elim
      | _ => rfl

theorem nestedFrom_same (h : api.Same api') (active : List String) (path shape : String) :
    nestedFrom api active path shape = nestedFrom api' active path shape := by
  induction active, path, shape using nestedFrom.induct api with
  | case1 active path shape ih =>
    rw [nestedFrom_eq, nestedFrom_eq, h.innermost_eq, h.isCollection_eq]
    refine congrArg _ (funext fun inner => ?_)
    rcases h.shape inner with ⟨s, s', hs, hs', hss⟩ | ⟨hs, hs'⟩
    · rw [hs, hs', Option.map_some, Option.map_some]
      obtain ⟨form, enum, isException, documentation⟩ := s
      obtain ⟨form', enum', isException', documentation'⟩ := s'
      have hform := hss.form
      dsimp only at hform ⊢
      cases hform with
      | @struct ms ms' hms =>
        dsimp only
        split
        · rfl
        · rename_i hin
          rw [hms.sorted_eq]
          refine congrArg (· >>= _) (congrArg (List.mapM · _) (funext fun e => ?_))
          rw [h.requireDefined_eq, ← h.isCollection_eq,
            ih inner ms enum isException documentation hs hin e.1 e.2]
      | _ => rfl
    · rw [hs, hs']
      rfl

theorem nestedFields_same (h : api.Same api') (hr : r.Same r') :
    r.nestedFields api = r'.nestedFields api' := by
  obtain ⟨hc⟩ := hr
  unfold nestedFields
  dsimp only
  refine congrArg (· >>= _) (congrArg (List.mapM · _) (funext fun f => ?_))
  cases f.shape? with
  | none => rfl
  | some shape => exact nestedFrom_same h [] f.path shape

theorem addNested_all (nested : List NestedField) (hr : r.Same r') :
    (nested.foldl (fun r f => r.addNested f.path f.names f.ref) r).Same
      (nested.foldl (fun r f => r.addNested f.path f.names f.ref) r') := by
  induction nested generalizing r r' with
  | nil => exact hr
  | cons f rest ih => exact ih (hr.addNested f.path f.names f.ref)

theorem addNestedFields_follows (h : api.Same api') (hr : r.Same r') :
    Follows Same (r.addNestedFields api) (r'.addNestedFields api') := by
  unfold addNestedFields
  rw [nestedFields_same h hr]
  refine (Follows.except (.of_eq rfl)).bind fun nested nested' heq => ?_
  subst heq
  have hall := addNested_all nested hr
  dsimp only
  generalize nested.foldl (fun r f => r.addNested f.path f.names f.ref) r = s at hall ⊢
  generalize nested.foldl (fun r f => r.addNested f.path f.names f.ref) r' = s' at hall ⊢
  rw [show s.settings.fields.sortedKeys = s'.settings.fields.sortedKeys by
    rw [← Table.fst_sorted, ← Table.fst_sorted, hall.configured]]
  refine (Follows.forIn_unit fun path => ?_).bind fun _ _ _ => .pure hall
  have hfields : s.fields = s'.fields := by cases hall; rfl
  rw [hfields]
  split
  · exact (Follows.log _ _ _ _).bind fun _ _ _ => .pure ⟨rfl, rfl⟩
  · exact .pure ⟨rfl, rfl⟩

theorem operations_eq (h : api.Same api') (ignored : List String) (resource : String)
    (create : Operation) :
    ResourceOps.ofApi api ignored resource create =
      ResourceOps.ofApi api' ignored resource create := by
  simp only [ResourceOps.ofApi, h.operationsOf_eq]

/-- A resource is built in every order, except that a name without words may be met. -/
theorem build_follows {config config' : Config} (h : api.Same api') (hconfig : config.Same config')
    (names : Names) (create : Operation) :
    Follows Same (build api config names create) (build api' config' names create) := by
  have hsettings : (config.resource names.given).Same (config'.resource names.given) := by
    unfold Config.resource Table.getD
    rcases rel_cases (hconfig.resources names.given) with ⟨hx, hy⟩ | ⟨x, y, hx, hy, hxy⟩
    · rw [hx, hy]
      exact ⟨.refl _, Table.alike_empty _, rfl, rfl⟩
    · rw [hx, hy]
      exact hxy
  unfold build
  rw [← hconfig.ignore, operations_eq h]
  exact (addTopFields_follows h (.mk hsettings)).bind fun s s' hs => addNestedFields_follows h hs

end Resource

end ResourceVersions
