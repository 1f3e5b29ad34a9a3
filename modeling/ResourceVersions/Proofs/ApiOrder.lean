import ResourceVersions.Api.Equality
import ResourceVersions.Api.Ignore
import ResourceVersions.Api.Kind
import ResourceVersions.Config.Basic
import ResourceVersions.Proofs.Conforming
import ResourceVersions.Proofs.RegisteredModel
import ResourceVersions.Proofs.TableOrder

/-! # APIs in another order

Shapes, members and operations can be listed in any order: whatever walks through an API finds the
same, and ignoring shapes leaves the same behind. -/
namespace ResourceVersions

/-- The same form up to the order of members. -/
inductive Form.Same : Form → Form → Prop where
  | scalar (type) : Same (.scalar type) (.scalar type)
  | struct {ms ms'} : Table.Same ms ms' → Same (.struct ms) (.struct ms')
  | list (element) : Same (.list element) (.list element)
  | map (key value) : Same (.map key value) (.map key value)

structure Shape.Same (s s' : Shape) : Prop where
  form : s.form.Same s'.form
  enum : s.enum = s'.enum
  isException : s.isException = s'.isException
  documentation : s.documentation = s'.documentation

/-- The same API up to the order of shapes, members and operations. -/
structure Api.Same (api api' : Api) : Prop where
  serviceId : api.serviceId = api'.serviceId
  apiVersion : api.apiVersion = api'.apiVersion
  shapes : Table.Alike Shape.Same api.shapes api'.shapes
  operations : Table.Same api.operations api'.operations

/-- The same settings up to the order of fields and renames. -/
structure ResourceConfig.Same (c c' : ResourceConfig) : Prop where
  fields : Table.Same c.fields c'.fields
  renames : Table.Alike Table.Same c.renames c'.renames
  unpacksAttributes : c.unpacksAttributes = c'.unpacksAttributes
  primaryIdentifier? : c.primaryIdentifier? = c'.primaryIdentifier?

structure Config.Same (c c' : Config) : Prop where
  ignore : c.ignore = c'.ignore
  resources : Table.Alike ResourceConfig.Same c.resources c'.resources

namespace Form.Same

variable {form form' : Form}

theorem isStruct_eq (h : form.Same form') : form.isStruct = form'.isStruct := by
  cases h <;> rfl

theorem element?_eq (h : form.Same form') : form.element? = form'.element? := by
  cases h <;> rfl

theorem members (h : form.Same form') : Table.Same form.members form'.members := by
  cases h with
  | struct h => exact h
  | _ => exact .refl _

theorem refs_eq (h : form.Same form') : form.refs = form'.refs := by
  cases h with
  | struct h => exact h.sorted_eq
  | _ => rfl

theorem targets_eq (h : form.Same form') : form.targets = form'.targets := by
  rw [Form.targets, Form.targets, h.refs_eq]

theorem symm (h : form.Same form') : form'.Same form := by
  cases h with
  | struct h => exact .struct fun name => (h name).symm
  | scalar t => exact .scalar t
  | list e => exact .list e
  | map k v => exact .map k v

end Form.Same

theorem Shape.Same.symm {s s' : Shape} (h : s.Same s') : s'.Same s :=
  ⟨h.form.symm, h.enum.symm, h.isException.symm, h.documentation.symm⟩

namespace Api

section Steps

variable {api a b : Api} {seen rest : List String} {name x y : String} {s t : Shape}
  {met todo : List (String × String)}

theorem innermostFrom_eq (hs : api.shapes.get? name = some s) :
    api.innermostFrom seen name = match s.form.element? with
      | none => .ok name
      | some ref => if name ∈ seen then .error (.selfContaining name)
          else api.innermostFrom (name :: seen) ref.target := by
  rw [innermostFrom]
  split
  · rename_i hnone
    cases hs.symm.trans hnone
  · rename_i s' hs'
    cases hs.symm.trans hs'
    cases s.form.element? <;> rfl

theorem innermostFrom_undefined (hs : api.shapes.get? name = none) :
    api.innermostFrom seen name = .error (.undefinedShape name) := by
  rw [innermostFrom]
  split
  · rfl
  · rename_i hsome
    cases hs.symm.trans hsome

theorem isPlainFrom_undefined (hs : api.shapes.get? name = none) :
    api.isPlainFrom seen name = false := by
  rw [isPlainFrom]
  split
  · rfl
  · rename_i hsome
    cases hs.symm.trans hsome

theorem agreeFrom_undefined (hs : a.shapes.get? x = none) (ht : b.shapes.get? y = none) :
    agreeFrom a b met ((x, y) :: todo) = agreeFrom a b met todo := by
  rw [agreeFrom]
  split <;> simp_all

theorem agreeFrom_defined (hs : a.shapes.get? x = some s) (ht : b.shapes.get? y = some t) :
    agreeFrom a b met ((x, y) :: todo) = if (x, y) ∈ met then agreeFrom a b met todo else
      match links? s.form t.form with
      | none => false
      | some pairs => agreeFrom a b ((x, y) :: met) (pairs ++ todo) := by
  rw [agreeFrom]
  split
  · rename_i hnone _
    cases hs.symm.trans hnone
  · rename_i s' t' hs' ht'
    cases hs.symm.trans hs'
    cases ht.symm.trans ht'
    split <;> rfl
  · rename_i hno
    exact (hno s t hs ht).elim

theorem agreeFrom_one_undefined (h : (a.shapes.get? x).isSome ≠ (b.shapes.get? y).isSome) :
    agreeFrom a b met ((x, y) :: todo) = false := by
  rw [agreeFrom]
  split <;> simp_all

end Steps

variable {api api' hub hub' : Api}

theorem Same.shape (h : api.Same api') (name : String) :
    (∃ s s', api.shapes.get? name = some s ∧ api'.shapes.get? name = some s' ∧ s.Same s') ∨
      api.shapes.get? name = none ∧ api'.shapes.get? name = none :=
  (rel_cases (h.shapes name)).symm

theorem Same.requireDefined_eq (h : api.Same api') (ref : ShapeRef) :
    api.requireDefined ref = api'.requireDefined ref := by
  unfold requireDefined isDefined
  rw [h.shapes.contains_eq]

theorem Same.isCollection_eq (h : api.Same api') (name : String) :
    api.isCollection name = api'.isCollection name := by
  unfold isCollection shape?
  rcases h.shape name with ⟨s, s', hs, hs', hss⟩ | ⟨hs, hs'⟩
  · rw [hs, hs', Option.any_some, Option.any_some, hss.form.element?_eq]
  · rw [hs, hs']

theorem Same.refAt?_eq (h : api.Same api') (parts : List String) (ref : ShapeRef) :
    api.refAt? parts ref = api'.refAt? parts ref := by
  induction parts generalizing ref with
  | nil => rfl
  | cons part parts ih =>
    unfold refAt? shape?
    rcases h.shape ref.target with ⟨s, s', hs, hs', hss⟩ | ⟨hs, hs'⟩
    · rw [hs, hs', Option.map_some, Option.map_some]
      have hform := hss.form
      generalize s.form = form at hform
      generalize s'.form = form' at hform
      cases hform with
      | struct hms =>
        dsimp only
        rw [hms part]
        exact congrArg _ (funext fun ref => ih ref)
      | _ => rfl
    · rw [hs, hs']
      rfl

theorem Same.inputRef?_eq (h : api.Same api') (operation path : String) :
    api.inputRef? operation path = api'.inputRef? operation path := by
  unfold inputRef?
  rw [h.operations operation, funext fun ref => h.refAt?_eq (Text.split '.' path) ref]

theorem Same.outputRef?_eq (h : api.Same api') (operation path : String) :
    api.outputRef? operation path = api'.outputRef? operation path := by
  unfold outputRef?
  rw [h.operations operation, funext fun ref => h.refAt?_eq (Text.split '.' path) ref]

theorem Same.operationsOf_eq (h : api.Same api') (ignored : List String) (kind : OpKind) :
    api.operationsOf ignored kind = api'.operationsOf ignored kind := by
  unfold operationsOf
  rw [h.operations.sorted_eq]

theorem Same.payloads_contains (h : api.Same api') (name : String) :
    api.payloads.contains name = api'.payloads.contains name := by
  unfold payloads
  rw [Bool.eq_iff_iff, List.contains_iff_mem, List.contains_iff_mem, List.mem_eraseDups,
    List.mem_eraseDups]
  exact (h.operations.values_perm.flatMap_right _).mem_iff

theorem Same.innermostFrom_eq (h : api.Same api') (seen : List String) (name : String) :
    api.innermostFrom seen name = api'.innermostFrom seen name := by
  induction seen, name using innermostFrom.induct api with
  | case1 seen name hs =>
    rw [innermostFrom_undefined hs, innermostFrom_undefined (h.shapes.get?_none hs)]
  | case2 seen name s hs hend =>
    obtain ⟨s', hs', hss⟩ := h.shapes.get?_some hs
    rw [Api.innermostFrom_eq hs, Api.innermostFrom_eq hs', ← hss.form.element?_eq, hend]
  | case3 seen name s hs ref href hin =>
    obtain ⟨s', hs', hss⟩ := h.shapes.get?_some hs
    rw [Api.innermostFrom_eq hs, Api.innermostFrom_eq hs', ← hss.form.element?_eq, href]
    dsimp only
    rw [if_pos hin, if_pos hin]
  | case4 seen name s hs ref href hin ih =>
    obtain ⟨s', hs', hss⟩ := h.shapes.get?_some hs
    rw [Api.innermostFrom_eq hs, Api.innermostFrom_eq hs', ← hss.form.element?_eq, href]
    dsimp only
    rw [if_neg hin, if_neg hin, ih]

theorem Same.innermost_eq (h : api.Same api') (name : String) :
    api.innermost name = api'.innermost name := h.innermostFrom_eq [] name

theorem Same.isPlainFrom_eq (h : api.Same api') (seen : List String) (name : String) :
    api.isPlainFrom seen name = api'.isPlainFrom seen name := by
  -- one step, given that what follows the shape agrees
  have hstep : ∀ {seen name s}, api.shapes.get? name = some s →
      (∀ ref, s.form.element? = some ref → name ∉ seen →
        api.isPlainFrom (name :: seen) ref.target = api'.isPlainFrom (name :: seen) ref.target) →
      api.isPlainFrom seen name = api'.isPlainFrom seen name := by
    intro seen name s hs ih
    obtain ⟨s', hs', hss⟩ := h.shapes.get?_some hs
    rw [Side.isPlainFrom_eq hs, Side.isPlainFrom_eq hs']
    split
    · rfl
    · rename_i hin
      have hform := hss.form
      generalize s.form = form at hform ih
      generalize s'.form = form' at hform
      cases hform with
      | scalar _ => rfl
      | struct _ => rfl
      | list e => exact ih e rfl hin
      | map k v => exact ih v rfl hin
  induction seen, name using isPlainFrom.induct api with
  | case1 seen name hs =>
    rw [isPlainFrom_undefined hs, isPlainFrom_undefined (h.shapes.get?_none hs)]
  | case2 seen name s hs hin => exact hstep hs fun _ _ hnot => absurd hin hnot
  | case3 seen name s hs hin t hform =>
    refine hstep hs fun ref href _ => ?_
    rw [hform] at href
    cases href
  | case4 seen name s hs hin ms hform =>
    refine hstep hs fun ref href _ => ?_
    rw [hform] at href
    cases href
  | case5 seen name s hs hin e hform ih =>
    refine hstep hs fun ref href _ => ?_
    rw [hform] at href
    cases href
    exact ih
  | case6 seen name s hs hin k v hform ih =>
    refine hstep hs fun ref href _ => ?_
    rw [hform] at href
    cases href
    exact ih

theorem Same.isPlain_eq (h : api.Same api') (name : String) :
    api.isPlain name = api'.isPlain name := h.isPlainFrom_eq [] name

theorem Same.endsFrom_eq (h : api.Same api') (passed : List String) (name : String) :
    api.endsFrom passed name = api'.endsFrom passed name := by
  induction passed, name using endsFrom.induct api with
  | case1 passed name hs =>
    rw [endsFrom_undefined hs, endsFrom_undefined (h.shapes.get?_none hs)]
  | case2 passed name s hs hend =>
    obtain ⟨s', hs', hss⟩ := h.shapes.get?_some hs
    rw [Api.endsFrom_eq hs, Api.endsFrom_eq hs', ← hss.form.element?_eq, if_pos hend, if_pos hend]
  | case3 passed name s hs hend hin =>
    obtain ⟨s', hs', hss⟩ := h.shapes.get?_some hs
    rw [Api.endsFrom_eq hs, Api.endsFrom_eq hs', ← hss.form.element?_eq, if_neg hend, if_neg hend,
      if_pos hin, if_pos hin]
  | case4 passed name s hs hend hin ih =>
    obtain ⟨s', hs', hss⟩ := h.shapes.get?_some hs
    rw [Api.endsFrom_eq hs, Api.endsFrom_eq hs', ← hss.form.element?_eq, if_neg hend, if_neg hend,
      if_neg hin, if_neg hin, ← hss.form.targets_eq]
    exact congrArg (List.flatMap · s.form.targets) (funext ih)

theorem Same.ends_eq (h : api.Same api') : api.ends = api'.ends :=
  funext (h.endsFrom_eq [])

theorem Same.reachFrom_eq (h : api.Same api') (seen todo : List String) :
    api.reachFrom seen todo = api'.reachFrom seen todo := by
  induction seen, todo using reachFrom.induct api with
  | case1 seen => rw [reachFrom, reachFrom]
  | case2 seen name rest hs =>
    rw [reachFrom_undefined hs, reachFrom_undefined (h.shapes.get?_none hs)]
  | case3 seen name rest s hs hplain ih =>
    obtain ⟨s', hs', hss⟩ := h.shapes.get?_some hs
    rw [Api.reachFrom_eq hs, Api.reachFrom_eq hs', ← hss.form.isStruct_eq, if_pos hplain,
      if_pos hplain, ih]
  | case4 seen name rest s hs hstruct hin ih =>
    obtain ⟨s', hs', -⟩ := h.shapes.get?_some hs
    rw [reachFrom_seen hs hin, reachFrom_seen hs' hin, ih]
  | case5 seen name rest s hs hstruct hin ih =>
    obtain ⟨s', hs', hss⟩ := h.shapes.get?_some hs
    rw [Api.reachFrom_eq hs, Api.reachFrom_eq hs', ← hss.form.isStruct_eq, if_neg hstruct,
      if_neg hstruct, if_neg hin, if_neg hin, ← hss.form.targets_eq, ← h.ends_eq, ih]

theorem links?_eq {form form' other other' : Form} (h : form.Same form')
    (ho : other.Same other') : links? form other = links? form' other' := by
  cases h with
  | struct hms =>
    cases ho with
    | struct hns =>
      simp only [links?, hms.sortedKeys_eq, hns.sortedKeys_eq, hms.sorted_eq, hns _]
    | _ => rfl
  | _ => cases ho <;> rfl

theorem Same.agreeFrom_eq (h : api.Same api') (hh : hub.Same hub')
    (met todo : List (String × String)) :
    agreeFrom api hub met todo = agreeFrom api' hub' met todo := by
  induction met, todo using agreeFrom.induct api hub with
  | case1 met => rw [agreeFrom, agreeFrom]
  | case2 met x y rest hs ht ih =>
    rw [agreeFrom_undefined hs ht,
      agreeFrom_undefined (h.shapes.get?_none hs) (hh.shapes.get?_none ht), ih]
  | case3 met x y rest s t hs ht hin ih =>
    obtain ⟨s', hs', -⟩ := h.shapes.get?_some hs
    obtain ⟨t', ht', -⟩ := hh.shapes.get?_some ht
    rw [agreeFrom_defined hs ht, agreeFrom_defined hs' ht', if_pos hin, if_pos hin, ih]
  | case4 met x y rest s t hs ht hin hlinks =>
    obtain ⟨s', hs', hss⟩ := h.shapes.get?_some hs
    obtain ⟨t', ht', htt⟩ := hh.shapes.get?_some ht
    rw [agreeFrom_defined hs ht, agreeFrom_defined hs' ht', if_neg hin, if_neg hin,
      ← links?_eq hss.form htt.form, hlinks]
  | case5 met x y rest s t hs ht hin pairs hlinks ih =>
    obtain ⟨s', hs', hss⟩ := h.shapes.get?_some hs
    obtain ⟨t', ht', htt⟩ := hh.shapes.get?_some ht
    rw [agreeFrom_defined hs ht, agreeFrom_defined hs' ht', if_neg hin, if_neg hin,
      ← links?_eq hss.form htt.form, hlinks]
    exact ih
  | case6 met x y rest hnone hsome =>
    have hone : ∀ {s? t? : Option Shape}, (s? = none → t? = none → False) →
        (∀ s t, s? = some s → t? = some t → False) → s?.isSome ≠ t?.isSome := by
      rintro (_ | s) (_ | t) hnone hsome
      · exact (hnone rfl rfl).elim
      · simp
      · simp
      · exact (hsome s t rfl rfl).elim
    rw [agreeFrom_one_undefined (hone hnone hsome), agreeFrom_one_undefined]
    change api'.shapes.contains x ≠ hub'.shapes.contains y
    rw [← h.shapes.contains_eq, ← hh.shapes.contains_eq]
    exact hone hnone hsome

theorem Same.sameStructure_eq (h : api.Same api') (hh : hub.Same hub') (x y : String) :
    sameStructure api hub x y = sameStructure api' hub' x y := h.agreeFrom_eq hh [] [(x, y)]

section Ignored

variable {shapes shapes' : Table Shape} {ignored ignored' : List String}

/-- With the elements of a collection the collection has a property. -/
def Collects (shapes : Table Shape) (P : String → Prop) : Prop :=
  ∀ name s ref, shapes.get? name = some s → s.form.element? = some ref → P ref.target → P name

theorem closeIgnored_superset : ignored ⊆ closeIgnored shapes ignored := by
  fun_induction closeIgnored shapes ignored with
  | case1 ignored => exact List.Subset.refl _
  | case2 ignored name s _ ih => exact fun n hn => ih (List.mem_cons_of_mem _ hn)

theorem closeIgnored_collects : Collects shapes (· ∈ closeIgnored shapes ignored) := by
  fun_induction closeIgnored shapes ignored with
  | case1 ignored hnone =>
    intro name s ref hs href hin
    have hnot := List.find?_eq_none.mp hnone (name, s) (Table.get?_eq_some_iff.mp hs)
    simpa [href, hin] using hnot
  | case2 ignored name s _ ih => exact ih

/-- No more is ignored than has to be. -/
theorem closeIgnored_least {P : String → Prop} (hnamed : ∀ x ∈ ignored, P x)
    (hcollects : Collects shapes P) : ∀ x ∈ closeIgnored shapes ignored, P x := by
  fun_induction closeIgnored shapes ignored with
  | case1 ignored => exact hnamed
  | case2 ignored name s hnext ih =>
    have hfound := List.find?_some hnext
    have hs := Table.get?_eq_some_iff.mpr (List.mem_of_find?_eq_some hnext)
    simp only [Bool.and_eq_true, Option.any_eq_true, List.contains_iff_mem] at hfound
    obtain ⟨-, ref, href, hin⟩ := hfound
    exact ih (List.forall_mem_cons.mpr
      ⟨hcollects name s ref hs href (hnamed _ hin), hnamed⟩)

theorem Collects.alike (h : Table.Alike Shape.Same shapes shapes') {P : String → Prop}
    (hc : Collects shapes' P) : Collects shapes P := by
  intro name s ref hs href hin
  obtain ⟨s', hs', hss⟩ := h.get?_some hs
  exact hc name s' ref hs' (hss.form.element?_eq ▸ href) hin

theorem closeIgnored_subset (h : Table.Alike Shape.Same shapes shapes') :
    closeIgnored shapes ignored ⊆ closeIgnored shapes' ignored := by
  have hnamed : ∀ x ∈ ignored, x ∈ closeIgnored shapes' ignored := fun _ hx =>
    closeIgnored_superset hx
  exact closeIgnored_least hnamed (closeIgnored_collects.alike h)

end Ignored

theorem filterMembers_same {form form' : Form} (keep : String → ShapeRef → Bool)
    (h : form.Same form') :
    (Form.filterMembers keep form).Same (Form.filterMembers keep form') := by
  cases h with
  | struct hms => exact .struct (hms.filter keep)
  | scalar t => exact .scalar t
  | list e => exact .list e
  | map k v => exact .map k v

theorem Same.dropIgnored (h : api.Same api') {ignored ignored' : List String}
    (hignored : ∀ name, ignored.contains name = ignored'.contains name) :
    (api.dropIgnored ignored).Same (api'.dropIgnored ignored') where
  serviceId := h.serviceId
  apiVersion := h.apiVersion
  shapes := by
    have hkept : Table.Alike Shape.Same (api.shapes.filter fun name _ => !ignored.contains name)
        (api'.shapes.filter fun name _ => !ignored'.contains name) :=
      h.shapes.filter fun name _ _ _ => by rw [hignored]
    refine hkept.map fun name s s' hss => ⟨?_, hss.enum, hss.isException, hss.documentation⟩
    dsimp only
    simp only [hignored]
    exact filterMembers_same _ hss.form
  operations := by
    intro name
    unfold Api.dropIgnored
    dsimp only
    rw [Table.get?_map, Table.get?_map, h.operations name]
    simp only [hignored]

theorem Same.ignoreShapes (h : api.Same api') (names : List String) :
    (api.ignoreShapes names).Same (api'.ignoreShapes names) := by
  unfold Api.ignoreShapes
  split
  · exact h
  · refine h.dropIgnored fun name => ?_
    rw [Bool.eq_iff_iff, List.contains_iff_mem, List.contains_iff_mem]
    exact ⟨fun hin => closeIgnored_subset h.shapes hin,
      fun hin => closeIgnored_subset (h.shapes.symm fun _ _ hss => hss.symm) hin⟩

theorem Same.dropMember? (h : api.Same api') (path : String) :
    Option.Rel Same (api.dropMember? path) (api'.dropMember? path) := by
  unfold Api.dropMember? shape?
  dsimp only
  rcases h.shape (memberPath path).1 with ⟨s, s', hs, hs', hss⟩ | ⟨hs, hs'⟩
  · rw [hs, hs']
    dsimp only
    split
    · exact .none
    · refine .some ⟨h.serviceId, h.apiVersion, ?_, h.operations⟩
      exact h.shapes.insert _ ⟨filterMembers_same _ hss.form, hss.enum, hss.isException,
        hss.documentation⟩
  · rw [hs, hs']
    exact .none

theorem Same.dropMembers (h : api.Same api') (paths : List String) (s s' : List Record) :
    (((Api.dropMembers paths api).run s).1).Same (((Api.dropMembers paths api').run s').1) := by
  induction paths generalizing api api' s s' with
  | nil => exact h
  | cons path rest ih =>
    have hdrop := h.dropMember? path
    unfold Api.dropMembers
    generalize api.dropMember? path = dropped at hdrop
    generalize api'.dropMember? path = dropped' at hdrop
    cases hdrop with
    | some hsame => exact ih hsame s s'
    | none =>
      rw [StateT.run_bind, StateT.run_bind]
      exact ih h _ _

end Api

end ResourceVersions
