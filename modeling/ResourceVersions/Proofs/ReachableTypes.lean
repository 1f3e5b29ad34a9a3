import ResourceVersions.Proofs.DeepCopy
import ResourceVersions.Proofs.FieldCodec
import ResourceVersions.Proofs.ReachableShapes
import ResourceVersions.Proofs.Rounds

/-! # Classes for what can be reached

A search for structures can put lists and maps back onto its stack like anything else and remember
structures alone. It ends if every circle of references passes through a structure. Then every
structure that can be reached has one class, payloads and exceptions apart, and a type is missing
only where one of these is mentioned. -/
namespace ResourceVersions

open Fallible
open Relation (ReflTransGen TransGen)

namespace Api

variable {api : Api} {found rest names : List String} {name x y : String} {shape : Shape}

/-- A search takes one shape from its stack. It remembers structures only. -/
def visitRound (api : Api)
    (search : List String × List String → Except SchemaError (List String)) :
    List String × List String → Except SchemaError (List String)
  | (found, []) => .ok found
  | (found, name :: rest) =>
    match api.shapes.get? name with
    | none => .error (.undefinedShape name)
    | some shape =>
      if !shape.form.isStruct then search (found, shape.form.targets ++ rest)
      else if name ∈ found then search (found, rest)
      else search (name :: found, shape.form.targets ++ rest)

section Search

/-- Lists and maps are opened until something else is on top of the stack, the first of what is
behind them. -/
theorem visit_first (h : api.Guarded name) :
    ∃ e more, (∀ n ∈ e :: more, api.Guarded n) ∧ api.ends name = e :: more.flatMap api.ends ∧
      (∀ shape, api.shapes.get? e = some shape → shape.form.element? = none) ∧
      ∀ found rest result, EndsAt api.visitRound (found, e :: (more ++ rest)) result →
        EndsAt api.visitRound (found, name :: rest) result := by
  have hacc := h.acc
  induction hacc with
  | intro name _ ih =>
    cases hs : api.shapes.get? name with
    | none =>
      exact ⟨name, [], by simpa using h, ends_undefined hs, by simp [hs],
        fun found rest result => id⟩
    | some shape =>
      by_cases hsome : shape.form.element?.isSome
      · obtain ⟨hplain, t, ts, htargets⟩ := Form.of_collection hsome
        have hheld : ∀ y ∈ t :: ts, api.Holds name y :=
          fun y hy => ⟨shape, hs, hsome, htargets ▸ hy⟩
        obtain ⟨e, more, hmore, hends, hlast, hvisit⟩ :=
          ih t (hheld t List.mem_cons_self) (h.step (hheld t List.mem_cons_self).refers)
        refine ⟨e, more ++ ts, ?_, ?_, hlast, ?_⟩
        · intro n hn
          rcases List.mem_append.mp (List.cons_append ▸ hn) with hn | hn
          · exact hmore n hn
          · exact h.step (hheld n (List.mem_cons_of_mem _ hn)).refers
        · rw [h.ends_collection hs hsome, htargets, List.flatMap_cons, hends, List.cons_append,
            List.flatMap_append]
        · intro found rest result hrest
          rw [List.append_assoc] at hrest
          refine (hvisit found (ts ++ rest) result hrest).next fun g => ?_
          simp only [visitRound, hs, hplain, htargets, Bool.not_false, if_true, List.cons_append]
      · have hend : shape.form.element? = none := by simpa using hsome
        refine ⟨name, [], by simpa using h, ends_end hs hend, ?_, fun found rest result => id⟩
        intro s hs'
        cases hs.symm.trans hs'
        exact hend

/-- What is behind all lists and maps of a stack comes to its top in the order of the search. -/
theorem visit_next {pending : List String} (hguard : ∀ n ∈ pending, api.Guarded n)
    (hnext : pending.flatMap api.ends = name :: rest) :
    ∃ more, (∀ n ∈ name :: more, api.Guarded n) ∧ more.flatMap api.ends = rest ∧
      (∀ shape, api.shapes.get? name = some shape → shape.form.element? = none) ∧
      ∀ found result, EndsAt api.visitRound (found, name :: more) result →
        EndsAt api.visitRound (found, pending) result := by
  cases pending with
  | nil => cases hnext
  | cons p ps =>
    obtain ⟨e, more, hmore, hends, hlast, hvisit⟩ := visit_first (hguard p List.mem_cons_self)
    rw [List.flatMap_cons, hends, List.cons_append] at hnext
    cases hnext
    refine ⟨more ++ ps, ?_, List.flatMap_append, hlast, fun found => hvisit found ps⟩
    intro n hn
    rcases List.mem_append.mp (List.cons_append ▸ hn) with hn | hn
    · exact hmore n hn
    · exact hguard n (List.mem_cons_of_mem _ hn)

/-- The search ends with the structures that are found behind all lists and maps. -/
theorem visit_ends (found todo pending : List String) (hguard : ∀ n ∈ pending, api.Guarded n)
    (htodo : pending.flatMap api.ends = todo) :
    EndsAt api.visitRound (found, pending) (api.reachFrom found todo) := by
  induction found, todo using reachFrom.induct api generalizing pending with
  | case1 found =>
    rw [reachFrom]
    cases pending with
    | nil => exact .stop fun g => rfl
    | cons p ps =>
      obtain ⟨e, more, -, hends, -⟩ := visit_first (hguard p List.mem_cons_self)
      rw [List.flatMap_cons, hends] at htodo
      cases htodo
  | case2 found name rest hs =>
    obtain ⟨more, -, -, -, hvisit⟩ := visit_next hguard htodo
    refine hvisit found _ (.stop fun g => ?_)
    rw [reachFrom_undefined hs]
    simp only [visitRound, hs]
  | case3 found name rest shape hs hplain ih =>
    obtain ⟨more, hmore, hrest, hlast, hvisit⟩ := visit_next hguard htodo
    have hplain : shape.form.isStruct = false := by simpa using hplain
    rw [reachFrom_plain hs hplain]
    refine hvisit found _ ((ih more (fun n hn => hmore n (by simp [hn])) hrest).next fun g => ?_)
    simp only [visitRound, hs, hplain, Form.targets_plain (hlast shape hs) hplain, Bool.not_false,
      if_true, List.nil_append]
  | case4 found name rest shape hs hstruct hin ih =>
    obtain ⟨more, hmore, hrest, -, hvisit⟩ := visit_next hguard htodo
    rw [reachFrom_seen hs hin]
    refine hvisit found _ ((ih more (fun n hn => hmore n (by simp [hn])) hrest).next fun g => ?_)
    simp only [visitRound, hs, if_neg hstruct, if_pos hin]
  | case5 found name rest shape hs hstruct hin ih =>
    obtain ⟨more, hmore, hrest, -, hvisit⟩ := visit_next hguard htodo
    rw [reachFrom_new hs (by simpa using hstruct) hin]
    have hstep := ih (shape.form.targets ++ more) ?_ (by rw [List.flatMap_append, hrest])
    · refine hvisit found _ (hstep.next fun g => ?_)
      simp only [visitRound, hs, if_neg hstruct, if_neg hin]
    · intro n hn
      rcases List.mem_append.mp hn with hn | hn
      · exact (hmore name List.mem_cons_self).step ⟨shape, hs, hn⟩
      · exact hmore n (List.mem_cons_of_mem _ hn)

end Search

/-- A structure that gets no class. -/
def Withheld (api : Api) (x : String) : Prop :=
  x ∈ api.payloads ∨ ∃ shape, api.shapes.get? x = some shape ∧ shape.isException = true

/-- A structure that the type of a shape mentions. -/
def Mentions (api : Api) (x y : String) : Prop :=
  ReflTransGen api.Holds x y ∧ api.IsStruct y

/-- Behind a name no shape is undefined, and no list or map comes again. -/
structure Clear (api : Api) (seen : List String) (x : String) : Prop where
  guarded : api.Guarded x
  defined : ∀ y, ReflTransGen api.Holds x y → ∃ shape, api.shapes.get? y = some shape
  fresh : ∀ y ∈ seen, ¬ReflTransGen api.Holds x y

theorem Clear.step {seen : List String} (h : api.Clear seen x) (hxy : api.Holds x y) :
    api.Clear (x :: seen) y where
  guarded := h.guarded.step hxy.refers
  defined z hz := h.defined z (.head hxy hz)
  fresh z hz := by
    rcases List.mem_cons.mp hz with rfl | hz
    · exact h.guarded.not_back hxy
    · exact fun hyz => h.fresh z hz (.head hxy hyz)

theorem Reached.guarded (hguard : ∀ n ∈ names, api.Guarded n) (h : api.Reached names x) :
    api.Guarded x := by
  obtain ⟨n, hn, hleads⟩ := h
  exact (hguard n hn).reached hleads

theorem Reached.clear (hguard : ∀ n ∈ names, api.Guarded n)
    (hfound : api.reachFrom [] (names.flatMap api.ends) = .ok found) (h : api.Reached names x) :
    api.Clear [] x where
  guarded := h.guarded hguard
  defined y hy := by
    obtain ⟨n, hn, hleads⟩ := h
    exact Reached.defined hguard hfound ⟨n, hn, hleads.trans (Holds.leads hy)⟩
  fresh := by simp

end Api

namespace Types

variable {api : Api} {resources : List Resource} {taken : List String}
  {secrets : Table (List String)} {defs defs' : List TypeDef}

/-- A class for a structure, with attributes for what the structure refers to. -/
structure StandsFor (e : String × Shape) (d : TypeDef) : Prop where
  shape : d.shape = e.1
  attrs : ∀ a ∈ d.attrs, a.ref.target ∈ e.2.form.targets

theorem target_of_member {form : Form} {member : String} {ref : ShapeRef}
    (h : (member, ref) ∈ form.members.sorted) : ref.target ∈ form.targets := by
  cases form with
  | struct members => exact List.mem_map.mpr ⟨(member, ref), List.mem_reverse.mpr h, rfl⟩
  | _ =>
    have hnone := Table.mem_sorted_iff.mp h
    cases hnone

theorem classNames_given {shape : String} {names : Names} {suffixed : Bool}
    (h : classNames taken shape = .ok (names, suffixed)) : names.given = shape := by
  obtain ⟨n, hn, h⟩ := bind_ok_iff.mp h
  have hgiven := Names.given_eq hn
  split at h
  all_goals
    cases h
    exact hgiven

theorem addTypeDef_ok {e : String × Shape} (h : addTypeDef taken secrets defs e = .ok defs') :
    ∃ d, defs' = defs ++ [d] ∧ StandsFor e d := by
  obtain ⟨name, shape⟩ := e
  obtain ⟨⟨names, suffixed⟩, hnames, h⟩ := bind_ok_iff.mp h
  dsimp only at h
  split at h
  · cases h
  · obtain ⟨attrs, hattrs, h⟩ := bind_ok_iff.mp h
    cases h
    refine ⟨_, rfl, classNames_given hnames, ?_⟩
    intro a ha
    obtain ⟨⟨member, ref⟩, hmember, ha⟩ := mapM_ok_result hattrs ha
    obtain ⟨memberNames, -, ha⟩ := bind_ok_iff.mp ha
    cases ha
    exact target_of_member hmember

theorem addTypeDefs_ok {entries : List (String × Shape)}
    (h : entries.foldlM (addTypeDef taken secrets) defs = .ok defs') :
    ∃ new, defs' = defs ++ new ∧ new.map TypeDef.shape = entries.map Prod.fst ∧
      ∀ d ∈ new, ∃ e ∈ entries, StandsFor e d := by
  induction entries generalizing defs with
  | nil =>
    cases h
    exact ⟨[], by simp, rfl, by simp⟩
  | cons e entries ih =>
    rw [List.foldlM_cons] at h
    obtain ⟨next, hnext, h⟩ := bind_ok_iff.mp h
    obtain ⟨d, rfl, hd⟩ := addTypeDef_ok hnext
    obtain ⟨new, rfl, hshapes, hnew⟩ := ih h
    refine ⟨d :: new, by simp, by rw [List.map_cons, List.map_cons, hd.shape, hshapes], ?_⟩
    intro d' hd'
    rcases List.mem_cons.mp hd' with rfl | hd'
    · exact ⟨e, List.mem_cons_self, hd⟩
    · obtain ⟨e', he', hstands⟩ := hnew d' hd'
      exact ⟨e', List.mem_cons_of_mem _ he', hstands⟩

/-- The structures among those found that get a class. -/
def needed (api : Api) (found : List String) : List (String × Shape) :=
  (api.shapes.filter fun name s => s.form.isStruct && found.contains name).sorted.filter fun e =>
    !(api.payloads.contains e.1 || e.2.isException)

theorem mem_needed_iff {found : List String} {e : String × Shape} :
    e ∈ needed api found ↔ api.shapes.get? e.1 = some e.2 ∧ e.2.form.isStruct = true ∧
      e.1 ∈ found ∧ ¬api.Withheld e.1 := by
  obtain ⟨x, shape⟩ := e
  rw [needed, List.mem_filter, Table.mem_sorted_iff, Table.get?_eq_some_iff, Table.filter,
    List.mem_filter, ← Table.get?_eq_some_iff]
  dsimp only
  simp only [Bool.and_eq_true, Bool.not_eq_true', Bool.or_eq_false_iff, List.contains_eq_mem,
    decide_eq_true_eq, decide_eq_false_iff_not, and_assoc]
  refine and_congr_right fun hs => and_congr_right fun _ => and_congr_right fun _ => ?_
  have hexception : shape.isException = false ↔
      ¬∃ s, api.shapes.get? x = some s ∧ s.isException = true := by simp [hs]
  rw [Api.Withheld, not_or, hexception]

theorem needed_nodup (api : Api) (found : List String) :
    ((needed api found).map Prod.fst).Nodup := by
  refine (List.filter_sublist.map Prod.fst).nodup ?_
  exact (((Table.sorted_perm _).map _).nodup_iff).mpr (Table.nodup _)

/-- The classes stand for the structures that a search has found, each for one. -/
theorem typeDefs_needed (h : typeDefs api resources secrets = .ok defs) :
    ∃ found, api.reachFrom [] ((Resource.fieldShapes resources).flatMap api.ends) = .ok found ∧
      (defs.map TypeDef.shape).Perm ((needed api found).map Prod.fst) ∧
      ∀ d ∈ defs, ∃ e ∈ needed api found, StandsFor e d := by
  obtain ⟨structures, hstructures, hrest⟩ := bind_ok_iff.mp h
  obtain ⟨unsorted, hunsorted, hsorted⟩ := bind_ok_iff.mp hrest
  obtain ⟨found, hfound, hfilter⟩ := bind_ok_iff.mp (mapError_ok_iff.mp hstructures)
  obtain ⟨new, hnew, hshapes, hstands⟩ := addTypeDefs_ok hunsorted
  rw [List.nil_append] at hnew
  subst hnew
  cases hfilter
  cases hsorted
  have hperm := List.mergeSort_perm unsorted fun a b => decide (a.className ≤ b.className)
  refine ⟨found, hfound, (hperm.map _).trans (.of_eq hshapes), ?_⟩
  intro d hd
  exact hstands d (hperm.mem_iff.mp hd)

end Types

namespace VersionModel

variable {m : VersionModel} {seen : List String} {x : String} {shape : Shape}

theorem typeDef?_none_iff : m.typeDef? x = none ↔ x ∉ m.typeDefs.map TypeDef.shape := by
  rw [typeDef?, List.find?_eq_none]
  simp

/-- A structure without a class that is behind lists and maps only. -/
def Gap (m : VersionModel) (x y : String) : Prop := m.api.Mentions x y ∧ m.typeDef? y = none

theorem gap_end (hs : m.api.shapes.get? x = some shape) (hend : shape.form.element? = none) :
    (∃ y, m.Gap x y) ↔ shape.form.isStruct = true ∧ m.typeDef? x = none := by
  constructor
  · rintro ⟨y, ⟨hleads, hstruct⟩, hnone⟩
    cases hleads.cases_head with
    | inl heq =>
      subst heq
      obtain ⟨s, hs', hstruct⟩ := hstruct
      cases hs.symm.trans hs'
      exact ⟨hstruct, hnone⟩
    | inr hstep =>
      obtain ⟨z, hz, -⟩ := hstep
      exact absurd hz (Api.not_holds_end hs hend)
  · rintro ⟨hstruct, hnone⟩
    exact ⟨x, ⟨.refl, shape, hs, hstruct⟩, hnone⟩

theorem gap_collection (hs : m.api.shapes.get? x = some shape)
    (hsome : shape.form.element?.isSome = true) :
    (∃ y, m.Gap x y) ↔ ∃ t ∈ shape.form.targets, ∃ y, m.Gap t y := by
  constructor
  · rintro ⟨y, ⟨hleads, hstruct⟩, hnone⟩
    cases hleads.cases_head with
    | inl heq =>
      subst heq
      obtain ⟨s, hs', hs''⟩ := hstruct
      cases hs.symm.trans hs'
      rw [(Form.of_collection hsome).1] at hs''
      cases hs''
    | inr hstep =>
      obtain ⟨t, ⟨s, hs', -, ht⟩, hleads⟩ := hstep
      cases hs.symm.trans hs'
      exact ⟨t, ht, y, ⟨hleads, hstruct⟩, hnone⟩
  · rintro ⟨t, ht, y, ⟨hleads, hstruct⟩, hnone⟩
    exact ⟨y, ⟨.head ⟨shape, hs, hsome, ht⟩ hleads, hstruct⟩, hnone⟩

/-- Where lists and maps end, a type fails exactly if a class is missing. -/
theorem hintFrom_error_iff (h : m.api.Clear seen x) :
    (∃ e, m.hintFrom seen x = .error e) ↔ ∃ y, m.Gap x y := by
  induction seen, x using hintFrom.induct m with
  | case1 seen x hs =>
    obtain ⟨shape, hshape⟩ := h.defined x .refl
    cases hs.symm.trans hshape
  | case2 seen x shape hs t hform =>
    rw [Side.hintFrom_eq (s := ⟨m, none⟩) hs, gap_end hs (by rw [hform]; rfl), hform]
    simp [Form.isStruct]
  | case3 seen x shape hs ms hform =>
    rw [Side.hintFrom_eq (s := ⟨m, none⟩) hs, gap_end hs (by rw [hform]; rfl), hform]
    dsimp only
    rw [bind_error_iff, typeName]
    cases hd : m.typeDef? x <;> simp [Form.isStruct, pure, Except.pure]
  | case4 seen x shape hs e hform hin | case6 seen x shape hs k v hform hin =>
    exact absurd .refl (h.fresh x hin)
  | case5 seen x shape hs e hform hin ih =>
    have hheld : m.api.Holds x e.target :=
      ⟨shape, hs, by rw [hform]; rfl, by simp [hform, Form.targets_list]⟩
    rw [Side.hintFrom_eq (s := ⟨m, none⟩) hs, gap_collection hs (by rw [hform]; rfl), hform]
    dsimp only
    rw [if_neg hin, bind_error_iff, ih (h.step hheld)]
    simp [pure, Except.pure, Form.targets_list]
  | case7 seen x shape hs k v hform hin ihk ihv =>
    have hkey : m.api.Holds x k.target :=
      ⟨shape, hs, by rw [hform]; rfl, by simp [hform, Form.targets_map]⟩
    have hvalue : m.api.Holds x v.target :=
      ⟨shape, hs, by rw [hform]; rfl, by simp [hform, Form.targets_map]⟩
    rw [Side.hintFrom_eq (s := ⟨m, none⟩) hs, gap_collection hs (by rw [hform]; rfl), hform]
    dsimp only
    rw [if_neg hin, bind_error_iff, ihk (h.step hkey), Form.targets_map]
    constructor
    · rintro (hgap | ⟨key, -, hfails⟩)
      · exact ⟨k.target, by simp, hgap⟩
      · rw [bind_error_iff, ihv (h.step hvalue)] at hfails
        exact ⟨v.target, by simp, hfails.resolve_right (by simp [pure, Except.pure])⟩
    · rintro ⟨t, ht, hgap⟩
      cases hk : m.hintFrom (x :: seen) k.target with
      | error e => exact .inl ((ihk (h.step hkey)).mp ⟨e, hk⟩)
      | ok key =>
        rcases List.mem_pair.mp ht with rfl | rfl
        · exact .inr ⟨key, rfl, bind_error_iff.mpr (.inl ((ihv (h.step hvalue)).mpr hgap))⟩
        · exact .inl hgap

/-- A value for which the classes of a module have an attribute, by its shape and whether it is a
secret. -/
inductive HasValue (defs : List TypeDef) (resources : List Resource) :
    Option String → Bool → Prop where
  | attr {d a} : d ∈ defs → a ∈ d.attrs → HasValue defs resources (some a.ref.target) a.isSecret
  | spec {r f} : r ∈ resources → f ∈ r.spec.values → HasValue defs resources f.shape? f.isSecret
  | status {r f} : r ∈ resources → f ∈ r.status.values →
      HasValue defs resources f.shape? f.isSecret

end VersionModel

section Classes

variable {api : Api} {resources : List Resource} {secrets : Table (List String)}
  {defs : List TypeDef}

theorem Resource.mem_fieldShapes {r : Resource} {f : Field} {x : String} (hr : r ∈ resources)
    (hf : f ∈ r.spec.values ∨ f ∈ r.status.values) (hx : f.shape? = some x) :
    x ∈ Resource.fieldShapes resources := by
  refine List.mem_reverse.mpr (List.mem_filterMap.mpr ⟨f, ?_, hx⟩)
  refine List.mem_flatMap.mpr ⟨r, hr, ?_⟩
  have hsorted : ∀ t : Table Field, f ∈ t.values → f ∈ t.sorted.map Prod.snd :=
    fun t hin => ((t.sorted_perm.map Prod.snd).mem_iff).mpr hin
  rw [List.map_append, List.mem_append]
  exact hf.imp (hsorted r.spec) (hsorted r.status)

section Reach

variable (hguard : ∀ n ∈ Resource.fieldShapes resources, api.Guarded n)
  (hdefs : Types.typeDefs api resources secrets = .ok defs)
include hguard hdefs

/-- The structures that have a class are those that can be reached, each once. -/
theorem Types.shapes_typeDefs :
    (defs.map TypeDef.shape).Nodup ∧ ∀ x, x ∈ defs.map TypeDef.shape ↔
      api.IsStruct x ∧ api.Reached (Resource.fieldShapes resources) x ∧ ¬api.Withheld x := by
  obtain ⟨found, hfound, hperm, -⟩ := typeDefs_needed hdefs
  refine ⟨hperm.nodup_iff.mpr (needed_nodup api found), fun x => ?_⟩
  rw [hperm.mem_iff, List.mem_map]
  constructor
  · rintro ⟨e, he, rfl⟩
    obtain ⟨hs, hstruct, hin, hgiven⟩ := mem_needed_iff.mp he
    exact ⟨⟨e.2, hs, hstruct⟩, ((Api.mem_reachFrom_iff hguard hfound).mp hin).2, hgiven⟩
  · rintro ⟨⟨shape, hs, hstruct⟩, hreached, hgiven⟩
    have hin := (Api.mem_reachFrom_iff hguard hfound).mpr ⟨⟨shape, hs, hstruct⟩, hreached⟩
    exact ⟨(x, shape), mem_needed_iff.mpr ⟨hs, hstruct, hin, hgiven⟩, rfl⟩

/-- What an attribute stands for can be reached. -/
theorem VersionModel.HasValue.reached {x : String} {isSecret : Bool}
    (h : HasValue defs resources (some x) isSecret) :
    api.Reached (Resource.fieldShapes resources) x := by
  generalize hshape : some x = shape? at h
  cases h with
  | attr hd ha =>
    cases hshape
    obtain ⟨found, hfound, -, hstands⟩ := Types.typeDefs_needed hdefs
    obtain ⟨e, he, hstands⟩ := hstands _ hd
    obtain ⟨hs, -, hin, -⟩ := Types.mem_needed_iff.mp he
    obtain ⟨-, name, hname, hleads⟩ := (Api.mem_reachFrom_iff hguard hfound).mp hin
    exact ⟨name, hname, hleads.tail ⟨e.2, hs, hstands.attrs _ ha⟩⟩
  | spec hr hf => exact ⟨x, Resource.mem_fieldShapes hr (.inl hf) hshape.symm, .refl⟩
  | status hr hf => exact ⟨x, Resource.mem_fieldShapes hr (.inr hf) hshape.symm, .refl⟩

end Reach

/-- If every circle of references passes through a structure, the search for structures ends, every
structure that can be reached has one class, payloads and exceptions apart, and a value has no type
exactly if it is no secret and its type mentions a payload or an exception. -/
theorem reachable_structures_typed
    (hguard : ∀ n ∈ Resource.fieldShapes resources, api.Guarded n) :
    EndsAt api.visitRound ([], Resource.fieldShapes resources)
        (api.reachFrom [] ((Resource.fieldShapes resources).flatMap api.ends)) ∧
      ∀ secrets defs, Types.typeDefs api resources secrets = .ok defs →
        (defs.map TypeDef.shape).Nodup ∧
        (∀ x, x ∈ defs.map TypeDef.shape ↔
          api.IsStruct x ∧ api.Reached (Resource.fieldShapes resources) x ∧ ¬api.Withheld x) ∧
        ∀ m : VersionModel, m.api = api → m.typeDefs = defs → ∀ shape? isSecret,
          VersionModel.HasValue defs resources shape? isSecret →
            ((∃ e, m.hint shape? isSecret = .error e) ↔ isSecret = false ∧
              ∃ x y, shape? = some x ∧ api.Mentions x y ∧ api.Withheld y) := by
  refine ⟨Api.visit_ends _ _ _ hguard rfl, ?_⟩
  intro secrets defs hdefs
  obtain ⟨hnodup, hmem⟩ := Types.shapes_typeDefs hguard hdefs
  refine ⟨hnodup, hmem, ?_⟩
  rintro m rfl rfl shape? isSecret hvalue
  cases isSecret with
  | true => simp [VersionModel.hint]
  | false =>
    cases shape? with
    | none => simp [VersionModel.hint]
    | some x =>
      have hreached := hvalue.reached hguard hdefs
      obtain ⟨found, hfound, -⟩ := Types.typeDefs_needed hdefs
      have hclear : m.api.Clear [] x := hreached.clear hguard hfound
      have hgap : ∀ y, m.Gap x y ↔ m.api.Mentions x y ∧ m.api.Withheld y := by
        intro y
        refine and_congr_right fun ⟨hheld, hstruct⟩ => ?_
        have hy : m.api.Reached (Resource.fieldShapes resources) y := by
          obtain ⟨n, hn, hleads⟩ := hreached
          exact ⟨n, hn, hleads.trans (Api.Holds.leads hheld)⟩
        rw [VersionModel.typeDef?_none_iff, hmem]
        simp only [hstruct, hy, true_and, not_not]
      rw [VersionModel.hint, if_neg Bool.false_ne_true, VersionModel.hintFrom_error_iff hclear,
        exists_congr hgap]
      simp

end Classes

namespace Types.Sample

open Conversion.Sample (ref plainShape create names)

/-- A tree has trees below it, and holds the payload of the operation that created it. -/
def tree : Shape := plainShape (.struct (.ofList [("Kids", ref "Trees"), ("Last", ref "In")]))

def grove : Api where
  serviceId := ""
  apiVersion := ""
  shapes := .ofList [("In", plainShape (.struct (.ofList [("Tree", ref "Tree")]))),
    ("Tree", tree),
    ("Trees", plainShape (.list (ref "Tree")))]
  operations := .ofList [("CreateA", create)]

def groveResource : Resource :=
  Resource.addSpec { names := names "A" "a", ops := .ofApi grove [] "A" create, settings := {} }
    (names "Tree" "tree") (some (ref "Tree"))

def treeAttrs : List AttrDef :=
  [⟨names "Kids" "kids", ref "Trees", false⟩, ⟨names "Last" "last", ref "In", false⟩]

def treeDef : TypeDef := ⟨names "Tree" "tree", false, "", treeAttrs⟩

def groveModel : VersionModel :=
  { version := "v1", api := grove, config := {}, group? := none, resources := [groveResource]
    typeDefs := [treeDef], enumDefs := [], secretMembers := ∅, failures := [] }

theorem grove_guarded (x : String) : grove.Guarded x :=
  Api.guarded_of_entries (by decide +kernel) x

theorem grove_found : grove.reachableStructures (Resource.fieldShapes [groveResource]) =
    .ok (grove.shapes.filter fun name _ => name != "Trees") := by
  cbv

theorem grove_typeDefs : Types.typeDefs grove [groveResource] ∅ = .ok [treeDef] := by
  have hneeded : ((grove.shapes.filter fun name _ => name != "Trees").sorted.filter fun e =>
      !(grove.payloads.contains e.1 || e.2.isException)) = [("Tree", tree)] := by
    cbv
  have hnames : Names.of "Tree" = .ok (names "Tree" "tree") := by cbv
  have hattrs : attrsOf tree.form.members [] = .ok treeAttrs := by cbv
  have hfree : (reserved [groveResource]).contains "Tree" = false := by decide
  have hdef : addTypeDef (reserved [groveResource]) ∅ [] ("Tree", tree) = .ok [treeDef] := by
    unfold addTypeDef classNames
    dsimp only
    rw [hnames]
    dsimp only [bind, Except.bind, names]
    rw [hfree]
    exact congrArg (Except.map fun attrs => [{ treeDef with attrs }]) hattrs
  unfold Types.typeDefs
  rw [grove_found]
  dsimp only [Except.mapError, bind, Except.bind]
  rw [hneeded, List.foldlM_cons, hdef]
  exact congrArg Except.ok (List.mergeSort_singleton _)

/-- The payload has no class, so the member of a tree that holds it has no type. -/
theorem reachable_structures_typed_grove :
    (∀ n ∈ Resource.fieldShapes [groveResource], grove.Guarded n) ∧
      Types.typeDefs grove [groveResource] ∅ = .ok [treeDef] ∧
      ∃ e, groveModel.hint (some "In") false = .error e := by
  have hguarded : ∀ n ∈ Resource.fieldShapes [groveResource], grove.Guarded n :=
    fun n _ => grove_guarded n
  obtain ⟨-, htyped⟩ := reachable_structures_typed hguarded
  obtain ⟨-, -, hhint⟩ := htyped ∅ [treeDef] grove_typeDefs
  have hvalue : VersionModel.HasValue [treeDef] [groveResource] (some "In") false :=
    .attr (d := treeDef) (a := ⟨names "Last" "last", ref "In", false⟩) (by simp)
      (by simp [treeDef, treeAttrs])
  have hpayload : grove.Withheld "In" := .inl (by decide)
  have hmentions : grove.Mentions "In" "In" := ⟨.refl, _, rfl, rfl⟩
  refine ⟨hguarded, grove_typeDefs, ?_⟩
  exact (hhint groveModel rfl rfl _ _ hvalue).mpr ⟨rfl, "In", "In", rfl, hmentions, hpayload⟩

end Types.Sample

end ResourceVersions
