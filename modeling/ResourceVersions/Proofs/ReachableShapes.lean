import Mathlib.Data.List.Basic
import Mathlib.Logic.Relation
import ResourceVersions.Model.Reach

/-! # What leads where among shapes

A shape refers to others, and a list or a map holds what it refers to. Where no lists and maps hold
one another in a circle, what is behind them is what they lead to through lists and maps alone. A
search that succeeds has found the structures that can be reached, and no shape on the way is
undefined. -/
namespace ResourceVersions

namespace Form

variable {form : Form}

theorem targets_list (element : ShapeRef) : (list element).targets = [element.target] := rfl

theorem targets_map (key value : ShapeRef) :
    (map key value).targets = [value.target, key.target] := rfl

/-- A list or a map refers to something. -/
theorem of_collection (h : form.element?.isSome = true) :
    form.isStruct = false ∧ ∃ t ts, form.targets = t :: ts := by
  cases form with
  | scalar type => cases h
  | struct members => cases h
  | list element => exact ⟨rfl, _, _, rfl⟩
  | map key value => exact ⟨rfl, _, _, rfl⟩

theorem element?_struct (h : form.isStruct = true) : form.element? = none := by
  cases form with
  | struct members => rfl
  | _ => cases h

/-- A scalar refers to nothing. -/
theorem targets_plain (hend : form.element? = none) (hplain : form.isStruct = false) :
    form.targets = [] := by
  cases form with
  | scalar type => rfl
  | struct members => cases hplain
  | list element => cases hend
  | map key value => cases hend

end Form

namespace Api

open Relation (ReflTransGen TransGen)

variable {api : Api} {passed seen rest names found : List String} {name x y : String}
  {shape : Shape}

section Equations

theorem endsFrom_undefined (hs : api.shapes.get? name = none) :
    api.endsFrom passed name = [name] := by
  rw [endsFrom]
  split
  · rfl
  · rename_i hsome
    cases hs.symm.trans hsome

theorem endsFrom_eq (hs : api.shapes.get? name = some shape) :
    api.endsFrom passed name =
      if shape.form.element?.isNone then [name]
      else if name ∈ passed then []
      else shape.form.targets.flatMap (api.endsFrom (name :: passed)) := by
  rw [endsFrom]
  split
  · rename_i hnone
    cases hs.symm.trans hnone
  · rename_i s hsome
    cases hs.symm.trans hsome
    simp only [dite_eq_ite]

theorem ends_undefined (hs : api.shapes.get? name = none) : api.ends name = [name] :=
  endsFrom_undefined hs

/-- What is no list and no map has nothing in front of it. -/
theorem ends_end (hs : api.shapes.get? name = some shape) (hend : shape.form.element? = none) :
    api.ends name = [name] := by
  rw [ends, endsFrom_eq hs, hend]
  rfl

theorem reachFrom_undefined (hs : api.shapes.get? name = none) :
    api.reachFrom seen (name :: rest) = .error (.undefinedShape name) := by
  rw [reachFrom]
  split
  · rfl
  · rename_i hsome
    cases hs.symm.trans hsome

theorem reachFrom_eq (hs : api.shapes.get? name = some shape) :
    api.reachFrom seen (name :: rest) =
      if !shape.form.isStruct then api.reachFrom seen rest
      else if name ∈ seen then api.reachFrom seen rest
      else api.reachFrom (name :: seen) (shape.form.targets.flatMap api.ends ++ rest) := by
  rw [reachFrom]
  split
  · rename_i hnone
    cases hs.symm.trans hnone
  · rename_i s hsome
    cases hs.symm.trans hsome
    simp only [dite_eq_ite]

/-- A structure that is visited first leads on to what is behind its members. -/
theorem reachFrom_new (hs : api.shapes.get? name = some shape)
    (hstruct : shape.form.isStruct = true) (hn : name ∉ seen) :
    api.reachFrom seen (name :: rest) =
      api.reachFrom (name :: seen) (shape.form.targets.flatMap api.ends ++ rest) := by
  rw [reachFrom_eq hs, hstruct, if_neg (by simp), if_neg hn]

theorem reachFrom_seen (hs : api.shapes.get? name = some shape) (hn : name ∈ seen) :
    api.reachFrom seen (name :: rest) = api.reachFrom seen rest := by
  rw [reachFrom_eq hs, if_pos hn, ite_self]

theorem reachFrom_plain (hs : api.shapes.get? name = some shape)
    (hplain : shape.form.isStruct = false) :
    api.reachFrom seen (name :: rest) = api.reachFrom seen rest := by
  rw [reachFrom_eq hs, hplain]
  rfl

end Equations

/-- A shape refers to its members, to its element, or to its key and its value. -/
def Refers (api : Api) (x y : String) : Prop :=
  ∃ shape, api.shapes.get? x = some shape ∧ y ∈ shape.form.targets

/-- A list or a map holds what it refers to. -/
def Holds (api : Api) (x y : String) : Prop :=
  ∃ shape, api.shapes.get? x = some shape ∧ shape.form.element?.isSome ∧ y ∈ shape.form.targets

/-- Some of the names lead to a shape. -/
def Reached (api : Api) (names : List String) (x : String) : Prop :=
  ∃ name ∈ names, ReflTransGen api.Refers name x

/-- Every circle of references from a name on passes through a structure. -/
def Guarded (api : Api) (name : String) : Prop :=
  ∀ x, ReflTransGen api.Refers name x → ¬TransGen api.Holds x x

theorem Holds.refers (h : api.Holds x y) : api.Refers x y := by
  obtain ⟨shape, hs, -, hy⟩ := h
  exact ⟨shape, hs, hy⟩

theorem Holds.leads (h : ReflTransGen api.Holds x y) : ReflTransGen api.Refers x y :=
  h.lift id fun _ _ => Holds.refers

theorem Guarded.reached (h : api.Guarded x) (hxy : ReflTransGen api.Refers x y) :
    api.Guarded y := fun z hz => h z (hxy.trans hz)

theorem Guarded.step (h : api.Guarded x) (hxy : api.Refers x y) : api.Guarded y :=
  h.reached (.single hxy)

theorem Guarded.not_back (h : api.Guarded x) (hxy : api.Holds x y) :
    ¬ReflTransGen api.Holds y x := fun hyx => h x .refl (TransGen.head' hxy hyx)

/-- Only a list or a map holds something. -/
theorem not_holds_undefined (hs : api.shapes.get? x = none) : ¬api.Holds x y := by
  rintro ⟨shape, hshape, -⟩
  cases hs.symm.trans hshape

theorem not_holds_end (hs : api.shapes.get? x = some shape) (hend : shape.form.element? = none) :
    ¬api.Holds x y := by
  rintro ⟨s, hshape, hsome, -⟩
  cases hs.symm.trans hshape
  rw [hend] at hsome
  cases hsome

/-- No list or map refers to another one. -/
theorem guarded_of_entries (h : ∀ e ∈ api.shapes.entries, e.2.form.element?.isSome = true →
    ∀ y ∈ e.2.form.targets, ∀ f ∈ api.shapes.entries, f.1 = y → f.2.form.element?.isSome = false)
    (name : String) : api.Guarded name := by
  have hnone : ∀ {x y z}, api.Holds x y → ¬api.Holds y z := by
    rintro x y z ⟨s, hs, hsome, hy⟩ ⟨t, ht, hsome', -⟩
    have hplain := h _ (Table.lookup_eq_some_mem hs) hsome y hy _ (Table.lookup_eq_some_mem ht) rfl
    cases hsome'.symm.trans hplain
  intro x _ hcycle
  obtain ⟨y, hxy, hback⟩ := TransGen.head'_iff.mp hcycle
  rcases hback.cases_head with rfl | ⟨z, hyz, -⟩
  · exact hnone hxy hxy
  · exact hnone hxy hyz

section Ends

/-- The lists and maps passed on the way to a name hold it, so none of them can come again. -/
theorem Guarded.acc_of_passed (h : api.Guarded name)
    (hpassed : ∀ x ∈ passed, TransGen api.Holds x name) :
    Acc (fun y x => api.Holds x y) name := by
  induction passed, name using endsFrom.induct api with
  | case1 passed name hs => exact .intro _ fun y hy => absurd hy (not_holds_undefined hs)
  | case2 passed name shape hs hend =>
    exact .intro _ fun y hy => absurd hy (not_holds_end hs (Option.isNone_iff_eq_none.mp hend))
  | case3 passed name shape hs hend hin =>
    exact absurd (hpassed name hin) (h name .refl)
  | case4 passed name shape hs hend hin ih =>
    refine .intro _ fun y hy => ih y (h.step hy.refers) ?_
    intro x hx
    rcases List.mem_cons.mp hx with rfl | hx
    · exact .single hy
    · exact (hpassed x hx).tail hy

theorem Guarded.acc (h : api.Guarded name) : Acc (fun y x => api.Holds x y) name := by
  have hnone : ∀ x ∈ [], TransGen api.Holds x name := by simp
  exact h.acc_of_passed hnone

/-- What was passed before makes no difference if it does not come again. -/
theorem Guarded.endsFrom_eq_ends (h : api.Guarded name)
    (hpassed : ∀ x ∈ passed, ¬ReflTransGen api.Holds name x) :
    api.endsFrom passed name = api.ends name := by
  have hacc := h.acc
  induction hacc generalizing passed with
  | intro name _ ih =>
    cases hs : api.shapes.get? name with
    | none => rw [ends_undefined hs, endsFrom_undefined hs]
    | some shape =>
      rw [ends, endsFrom_eq hs, endsFrom_eq hs, if_neg fun hin => hpassed name hin .refl,
        if_neg List.not_mem_nil]
      by_cases hend : shape.form.element?.isNone
      · rw [if_pos hend, if_pos hend]
      · have hinner : ∀ passed, (∀ x ∈ passed, ¬ReflTransGen api.Holds name x) →
            ∀ y ∈ shape.form.targets, api.endsFrom (name :: passed) y = api.ends y := by
          intro passed hpassed y hy
          have hin : api.Holds name y := ⟨shape, hs, by simpa [← Option.isSome_iff_ne_none] using hend, hy⟩
          refine ih y hin (h.step hin.refers) fun x hx => ?_
          rcases List.mem_cons.mp hx with rfl | hx
          · exact h.not_back hin
          · exact fun hyx => hpassed x hx (.head hin hyx)
        rw [if_neg hend, if_neg hend, List.flatMap_congr (hinner passed hpassed),
          List.flatMap_congr (hinner [] (by simp))]

/-- What is behind a list or a map is behind what it refers to. -/
theorem Guarded.ends_collection (h : api.Guarded name) (hs : api.shapes.get? name = some shape)
    (hsome : shape.form.element?.isSome = true) :
    api.ends name = shape.form.targets.flatMap api.ends := by
  have hend : ¬shape.form.element?.isNone = true := by simp [Option.isSome_iff_ne_none.mp hsome]
  rw [ends, endsFrom_eq hs, if_neg hend, if_neg List.not_mem_nil]
  refine List.flatMap_congr fun y hy => ?_
  have hin : api.Holds name y := ⟨shape, hs, hsome, hy⟩
  refine (h.step hin.refers).endsFrom_eq_ends fun x hx => ?_
  obtain rfl := List.mem_singleton.mp hx
  exact h.not_back hin

theorem leads_of_mem_endsFrom (h : x ∈ api.endsFrom passed name) :
    ReflTransGen api.Holds name x := by
  induction passed, name using endsFrom.induct api with
  | case1 passed name hs =>
    rw [endsFrom_undefined hs, List.mem_singleton] at h
    rw [h]
  | case2 passed name shape hs hend =>
    rw [endsFrom_eq hs, if_pos hend, List.mem_singleton] at h
    rw [h]
  | case3 passed name shape hs hend hin =>
    rw [endsFrom_eq hs, if_neg hend, if_pos hin] at h
    cases h
  | case4 passed name shape hs hend hin ih =>
    rw [endsFrom_eq hs, if_neg hend, if_neg hin] at h
    obtain ⟨y, hy, hx⟩ := List.mem_flatMap.mp h
    refine .head ⟨shape, hs, ?_, hy⟩ (ih y hx)
    simpa [Option.isSome_iff_ne_none] using hend

end Ends

section Search

/-- A search that has found some structures is done with a shape. -/
def Done (api : Api) (found : List String) (x : String) : Prop :=
  ∃ shape, api.shapes.get? x = some shape ∧ (shape.form.isStruct = true → x ∈ found)

def IsStruct (api : Api) (x : String) : Prop :=
  ∃ shape, api.shapes.get? x = some shape ∧ shape.form.isStruct = true

/-- What a search finds on top of what it has seen. -/
structure Finds (api : Api) (seen todo found : List String) : Prop where
  kept : ∀ x ∈ seen, x ∈ found
  done : ∀ x ∈ todo, api.Done found x
  isStruct : ∀ x ∈ found, x ∉ seen → api.IsStruct x
  reached : ∀ x ∈ found, x ∉ seen → api.Reached todo x
  opened : ∀ x ∈ found, x ∉ seen → ∀ y, api.Refers x y → ∀ e ∈ api.ends y, api.Done found e

theorem Finds.skip (h : api.Finds seen rest found) (hdone : api.Done found name) :
    api.Finds seen (name :: rest) found where
  kept := h.kept
  done x hx := by
    rcases List.mem_cons.mp hx with rfl | hx
    · exact hdone
    · exact h.done x hx
  isStruct := h.isStruct
  reached x hx hn := by
    obtain ⟨e, he, hex⟩ := h.reached x hx hn
    exact ⟨e, List.mem_cons_of_mem _ he, hex⟩
  opened := h.opened

theorem Finds.visit (hs : api.shapes.get? name = some shape)
    (hstruct : shape.form.isStruct = true)
    (h : api.Finds (name :: seen) (shape.form.targets.flatMap api.ends ++ rest) found) :
    api.Finds seen (name :: rest) found where
  kept x hx := h.kept x (List.mem_cons_of_mem _ hx)
  done x hx := by
    rcases List.mem_cons.mp hx with rfl | hx
    · exact ⟨shape, hs, fun _ => h.kept x List.mem_cons_self⟩
    · exact h.done x (List.mem_append_right _ hx)
  isStruct x hx hn := by
    by_cases hname : x = name
    · exact ⟨shape, hname ▸ hs, hstruct⟩
    · exact h.isStruct x hx (by simp [hname, hn])
  reached x hx hn := by
    by_cases hname : x = name
    · exact ⟨name, List.mem_cons_self, hname ▸ .refl⟩
    · obtain ⟨e, he, hex⟩ := h.reached x hx (by simp [hname, hn])
      rcases List.mem_append.mp he with he | he
      · obtain ⟨y, hy, he⟩ := List.mem_flatMap.mp he
        have hye := Holds.leads (leads_of_mem_endsFrom he)
        exact ⟨name, List.mem_cons_self, .head ⟨shape, hs, hy⟩ (hye.trans hex)⟩
      · exact ⟨e, List.mem_cons_of_mem _ he, hex⟩
  opened x hx hn y hxy e he := by
    by_cases hname : x = name
    · subst hname
      obtain ⟨s, hs', hy⟩ := hxy
      cases hs.symm.trans hs'
      exact h.done e (List.mem_append_left _ (List.mem_flatMap.mpr ⟨y, hy, he⟩))
    · exact h.opened x hx (by simp [hname, hn]) y hxy e he

/-- A search that succeeds has opened every structure that it has found. -/
theorem reachFrom_finds {todo : List String} (h : api.reachFrom seen todo = .ok found) :
    api.Finds seen todo found := by
  induction seen, todo using reachFrom.induct api with
  | case1 seen =>
    rw [reachFrom] at h
    cases h
    exact ⟨fun x hx => hx, by simp, fun x hx hn => absurd hx hn, fun x hx hn => absurd hx hn,
      fun x hx hn => absurd hx hn⟩
  | case2 seen name rest hs =>
    rw [reachFrom_undefined hs] at h
    cases h
  | case3 seen name rest shape hs hplain ih =>
    have hplain : shape.form.isStruct = false := by simpa using hplain
    rw [reachFrom_plain hs hplain] at h
    exact (ih h).skip ⟨shape, hs, fun hstruct => absurd hstruct (by simp [hplain])⟩
  | case4 seen name rest shape hs hstruct hin ih =>
    rw [reachFrom_seen hs hin] at h
    exact (ih h).skip ⟨shape, hs, fun _ => (ih h).kept name hin⟩
  | case5 seen name rest shape hs hstruct hin ih =>
    have hstruct : shape.form.isStruct = true := by simpa using hstruct
    rw [reachFrom_new hs hstruct hin] at h
    exact .visit hs hstruct (ih h)

variable (hguard : ∀ n ∈ names, api.Guarded n)
  (hfound : api.reachFrom [] (names.flatMap api.ends) = .ok found)
include hguard hfound

/-- The search is done with whatever is behind a shape that can be reached. -/
theorem Reached.done (h : api.Reached names x) : ∀ e ∈ api.ends x, api.Done found e := by
  have hfinds := reachFrom_finds hfound
  obtain ⟨name, hname, hleads⟩ := h
  induction hleads with
  | refl =>
    intro e he
    exact hfinds.done e (List.mem_flatMap.mpr ⟨name, hname, he⟩)
  | @tail x y hx hxy ih =>
    obtain ⟨shape, hs, hy⟩ := hxy
    cases hform : shape.form.element? with
    | some ref =>
      rw [((hguard name hname).reached hx).ends_collection hs (by rw [hform]; rfl)] at ih
      exact fun e he => ih e (List.mem_flatMap.mpr ⟨y, hy, he⟩)
    | none =>
      rw [ends_end hs hform] at ih
      obtain ⟨s, hs', hin⟩ := ih x List.mem_cons_self
      cases hs.symm.trans hs'
      cases hstruct : shape.form.isStruct with
      | true => exact hfinds.opened x (hin hstruct) List.not_mem_nil y ⟨shape, hs, hy⟩
      | false =>
        rw [Form.targets_plain hform hstruct] at hy
        cases hy

/-- No shape that can be reached is undefined. -/
theorem Reached.defined (h : api.Reached names x) : ∃ shape, api.shapes.get? x = some shape := by
  cases hs : api.shapes.get? x with
  | some shape => exact ⟨shape, rfl⟩
  | none =>
    have hdone := h.done hguard hfound
    rw [ends_undefined hs] at hdone
    obtain ⟨shape, hshape, -⟩ := hdone x List.mem_cons_self
    cases hs.symm.trans hshape

/-- The search finds the structures that can be reached. -/
theorem mem_reachFrom_iff : x ∈ found ↔ api.IsStruct x ∧ api.Reached names x := by
  have hfinds := reachFrom_finds hfound
  constructor
  · intro hx
    refine ⟨hfinds.isStruct x hx List.not_mem_nil, ?_⟩
    obtain ⟨e, he, hex⟩ := hfinds.reached x hx List.not_mem_nil
    obtain ⟨name, hname, he⟩ := List.mem_flatMap.mp he
    exact ⟨name, hname, (Holds.leads (leads_of_mem_endsFrom he)).trans hex⟩
  · rintro ⟨⟨shape, hs, hstruct⟩, hx⟩
    have hdone := hx.done hguard hfound
    rw [ends_end hs (Form.element?_struct hstruct)] at hdone
    obtain ⟨s, hs', hin⟩ := hdone x List.mem_cons_self
    cases hs.symm.trans hs'
    exact hin hstruct

end Search

end Api

end ResourceVersions
