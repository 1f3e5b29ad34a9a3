import ResourceVersions.Proofs.FieldCodec
import ResourceVersions.Proofs.ModuleClasses

/-! # Values that fit their types

The types that attributes of generated classes have, and the values that fit them. Only a type that
is a choice with null takes null; an integer does where a decimal is asked for, and a boolean where
an integer is, as they do in the generated language. -/
namespace ResourceVersions

open Fallible Code

/-- The types of attributes of generated classes, and those of what is in them. -/
inductive Hint.Carried (classes : Classes) : Hint → Prop where
  | any : Carried classes .any
  | bool : Carried classes .bool
  | int : Carried classes .int
  | float : Carried classes .float
  | str : Carried classes .str
  | datetime : Carried classes .datetime
  | list {element} : Carried classes element → Carried classes (.list element)
  | dict {key element} : Carried classes key → Carried classes element →
      Carried classes (.dict key element)
  | named {c decls} : classes.get? c = some decls → Carried classes (.named c)
  | optional {h} : h.Definite → Carried classes h → Carried classes (.union [h, .none])

namespace Value

/-- The value fits a type. An object has the attributes that its class declares, each with a value
that fits. -/
inductive Fits (classes : Classes) : Hint → Value → Prop where
  | any (v) : Fits classes .any v
  | none : Fits classes .none .null
  | bool (b) : Fits classes .bool (.bool b)
  | int (n) : Fits classes .int (.int n)
  | boolAsInt (b) : Fits classes .int (.bool b)
  | float (x) : Fits classes .float (.float x)
  | intAsFloat (n) : Fits classes .float (.int n)
  | boolAsFloat (b) : Fits classes .float (.bool b)
  | str (s) : Fits classes .str (.str s)
  | datetime (t) : Fits classes .datetime (.datetime t)
  | anyList (items) : Fits classes .anyList (.list items)
  | anyDict (entries) : Fits classes .anyDict (.dict entries)
  | list {element items} : (∀ v ∈ items, Fits classes element v) →
      Fits classes (.list element) (.list items)
  | dict {key element entries} : (∀ e ∈ entries, Fits classes key (.str e.1)) →
      (∀ e ∈ entries, Fits classes element e.2) → Fits classes (.dict key element) (.dict entries)
  | object {c} {parts : List (AttrDecl × Value)} : classes.get? c = some (parts.map Prod.fst) →
      (∀ p ∈ parts, Fits classes p.1.hint p.2) →
      Fits classes (.named c) (.object c (parts.map fun p => (p.1.name, p.2)))
  | choice {choices h v} : h ∈ choices → Fits classes h v → Fits classes (.union choices) v

variable {classes : Classes} {hint h key element : Hint} {v : Value} {items : List Value}
  {entries attrs : List (String × Value)} {c : String} {decls : List AttrDecl}

theorem fits_object_iff (hclass : classes.get? c = some decls) :
    Fits classes (.named c) (.object c attrs) ↔
      List.Forall₂ (fun a u => u.1 = a.name ∧ Fits classes a.hint u.2) decls attrs := by
  constructor
  · intro hv
    cases hv with
    | object hclass' hparts =>
      cases hclass.symm.trans hclass'
      rw [List.forall₂_map_left_iff, List.forall₂_map_right_iff, List.forall₂_same]
      exact fun p hp => ⟨rfl, hparts p hp⟩
  · intro hall
    have hparts : ∃ parts : List (AttrDecl × Value), decls = parts.map Prod.fst ∧
        attrs = parts.map (fun p => (p.1.name, p.2)) ∧ ∀ p ∈ parts, Fits classes p.1.hint p.2 := by
      clear hclass
      induction hall with
      | nil => exact ⟨[], rfl, rfl, nofun⟩
      | @cons a u _ _ hu _ ih =>
        obtain ⟨parts, rfl, rfl, hparts⟩ := ih
        refine ⟨(a, u.2) :: parts, rfl, ?_, List.forall_mem_cons.mpr ⟨hu.2, hparts⟩⟩
        rw [List.map_cons, ← hu.1]
    obtain ⟨parts, rfl, rfl, hparts⟩ := hparts
    exact .object hclass hparts

theorem fits_optional_iff : Fits classes (.union [h, .none]) v ↔ Fits classes h v ∨ v = .null := by
  constructor
  · intro hv
    cases hv with
    | choice hin hv =>
      rcases List.mem_pair.mp hin with rfl | rfl
      · exact .inl hv
      · cases hv
        exact .inr rfl
  · rintro (hv | rfl)
    · exact .choice (List.mem_cons_self ..) hv
    · exact .choice (by simp) .none

end Value

/-- The declarations of a class have names of their own and types as generated classes have them,
and their defaults fit. -/
structure Classes.Declared (classes : Classes) (decls : List AttrDecl) : Prop where
  distinct : (decls.map AttrDecl.name).Nodup
  carried : ∀ a ∈ decls, a.hint.Carried classes
  defaults : ∀ a ∈ decls, ∀ v, a.default? = some v → Value.Fits classes a.hint v

/-- Every class is declared as generated classes and those they build on are. -/
def Classes.Generated (classes : Classes) : Prop :=
  ∀ c decls, classes.get? c = some decls → classes.Declared decls

namespace Classes

open Value

variable {classes : Classes}

theorem carried_optionalText : optionalText.Carried classes := .optional trivial .str

theorem null_optionalText : Fits classes optionalText .null := fits_optional_iff.mpr (.inr rfl)

/-- What generated modules build on is declared like them, where it stands for itself. -/
theorem builtin_declared
    (hbuiltin : ∀ c decls, builtin.get? c = some decls → classes.get? c = some decls) :
    ∀ c decls, builtin.get? c = some decls → classes.Declared decls := by
  have hmeta : classes.get? "ObjectMeta" = some metaAttrs := hbuiltin _ _ rfl
  have hempty : Fits classes (.dict .str .str) (.dict []) := .dict nofun nofun
  have hdefaults : ∀ a ∈ metaAttrs, ∀ v, a.default? = some v → Fits classes a.hint v := by
    simp only [metaAttrs, List.forall_mem_cons, Option.some.injEq, forall_eq']
    exact ⟨null_optionalText, null_optionalText, hempty, hempty, nofun⟩
  have hemptyMeta : Fits classes (.named "ObjectMeta") emptyMeta := by
    have hsome : ∀ a ∈ metaAttrs, a.default?.isSome = true := by decide
    rw [emptyMeta, fits_object_iff hmeta, List.forall₂_map_right_iff, List.forall₂_same]
    intro a ha
    obtain ⟨d, hd⟩ := Option.isSome_iff_exists.mp (hsome a ha)
    rw [hd]
    exact ⟨rfl, hdefaults a ha d hd⟩
  intro c decls hc
  have hin := Table.mem_of_get?_ofList hc
  simp only [List.mem_cons, Prod.mk.injEq, List.not_mem_nil, or_false] at hin
  rcases hin with ⟨-, rfl⟩ | ⟨-, rfl⟩ | ⟨-, rfl⟩ | ⟨-, rfl⟩
  · refine ⟨by decide, ?_, hdefaults⟩
    simp only [metaAttrs, List.forall_mem_cons]
    exact ⟨carried_optionalText, carried_optionalText, .dict .str .str, .dict .str .str, nofun⟩
  · constructor
    case distinct => decide
    all_goals simp only [List.forall_mem_cons, Option.some.injEq, forall_eq']
    · exact ⟨carried_optionalText, carried_optionalText, carried_optionalText, nofun⟩
    · exact ⟨null_optionalText, null_optionalText, null_optionalText, nofun⟩
  · constructor
    case distinct => decide
    all_goals simp only [List.forall_mem_cons, Option.some.injEq, forall_eq']
    · exact ⟨.str, .str, carried_optionalText, nofun⟩
    · exact ⟨nofun, nofun, null_optionalText, nofun⟩
  · constructor
    case distinct => decide
    all_goals simp only [List.forall_mem_cons, Option.some.injEq, forall_eq']
    · exact ⟨.str, .str, .named hmeta, nofun⟩
    · exact ⟨.str "", .str "", hemptyMeta, nofun⟩

end Classes

namespace Side

variable {classes : Classes} {s : Side} {h : Hint} {x : String} {seen : List String}

/-- A type that shapes have stays one in another module, where all classes of structures are. -/
theorem carried_hintFrom (htypes : ∀ d ∈ s.model.typeDefs,
      ((Hint.named d.className).within s.alias?).Carried classes)
    (hx : s.model.hintFrom seen x = .ok h) :
    (h.within s.alias?).Carried classes ∧ (h.within s.alias?).Definite := by
  induction seen, x using VersionModel.hintFrom.induct s.model generalizing h with
  | case1 seen x hs =>
    rw [VersionModel.hintFrom_undefined hs] at hx
    cases hx
  | case2 seen x shape hs t hform =>
    rw [hintFrom_eq hs, hform] at hx
    cases hx
    cases t <;> exact ⟨by constructor, trivial⟩
  | case3 seen x shape hs ms hform =>
    rw [hintFrom_eq hs, hform] at hx
    obtain ⟨name, hname, hx⟩ := bind_ok_iff.mp hx
    cases hx
    unfold VersionModel.typeName at hname
    split at hname
    · rename_i d hd
      cases hname
      exact ⟨htypes d (List.mem_of_find?_eq_some hd), trivial⟩
    · cases hname
  | case4 seen x shape hs e hform hin | case6 seen x shape hs k v hform hin =>
    rw [hintFrom_eq hs, hform] at hx
    dsimp only at hx
    rw [if_pos hin] at hx
    cases hx
  | case5 seen x shape hs e hform hin ih =>
    rw [hintFrom_eq hs, hform] at hx
    dsimp only at hx
    rw [if_neg hin] at hx
    obtain ⟨element, helement, hx⟩ := bind_ok_iff.mp hx
    cases hx
    exact ⟨.list (ih helement).1, trivial⟩
  | case7 seen x shape hs k v hform hin ihk ihv =>
    rw [hintFrom_eq hs, hform] at hx
    dsimp only at hx
    rw [if_neg hin] at hx
    obtain ⟨key, hkey, hx⟩ := bind_ok_iff.mp hx
    obtain ⟨element, helement, hx⟩ := bind_ok_iff.mp hx
    cases hx
    exact ⟨.dict (ihk hkey).1 (ihv helement).1, trivial⟩

/-- What is in the declaration of an attribute, whatever its type. -/
theorem carried_attrDecl (htypes : ∀ d ∈ s.model.typeDefs,
      ((Hint.named d.className).within s.alias?).Carried classes)
    (hsecret : Hint.secret.Carried classes) (name : String) (shape? : Option String)
    (isSecret : Bool) :
    (s.model.attrDecl s.alias? name shape? isSecret).hint.Carried classes := by
  have hinner : ∀ h, s.model.hint shape? isSecret = .ok h →
      (h.within s.alias?).Carried classes ∧ (h.within s.alias?).Definite := by
    intro h hh
    unfold VersionModel.hint at hh
    split at hh
    · cases hh
      exact ⟨hsecret, trivial⟩
    · split at hh
      · cases hh
        exact ⟨.str, trivial⟩
      · exact carried_hintFrom htypes hh
  unfold VersionModel.attrDecl
  dsimp only
  split
  · rename_i h hh
    obtain ⟨hcarried, hdefinite⟩ := hinner h hh
    exact .optional hdefinite hcarried
  · exact .optional trivial .any

end Side

namespace Conversion.Converter

variable {c : Converter}

theorem builtin_kept (hspoke : c.spoke.Built) (hhub : c.hub.Built) {name : String}
    {decls : List AttrDecl} (h : Classes.builtin.get? name = some decls) :
    c.classes.get? name = some decls := by
  apply Table.get?_ofList (classNames_nodup hspoke hhub)
  exact List.mem_append_left _ (Table.get?_eq_some_iff.mp h)

/-- A class of a structure has one name wherever it is referred to. -/
theorem carried_className (hspoke : c.spoke.Built) (hhub : c.hub.Built) {s : Side}
    (hs : s = ⟨c.spoke, none⟩ ∨ s = ⟨c.hub, some c.hubAlias⟩) :
    ∀ d ∈ s.model.typeDefs, ((Hint.named d.className).within s.alias?).Carried c.classes := by
  intro d hd
  have hbuilt : s.model.Built := by rcases hs with rfl | rfl <;> assumption
  have hplain : d.className ∈ s.model.plainNames :=
    List.mem_append_left _ (List.mem_map_of_mem hd)
  have hfree : Classes.builtin.contains d.className = false := by
    rw [Bool.eq_false_iff]
    exact fun hin => VersionModel.plainNames_builtin hbuilt _ hplain
      (Table.contains_iff_mem_keys.mp hin)
  have hin : (TypeRef.qualified ⟨d.className, s.alias?⟩, s.model.typeDecls s.alias? d) ∈
      s.model.moduleClasses s.alias? :=
    List.mem_append_left _ (List.mem_map.mpr ⟨d, hd, rfl⟩)
  rw [Hint.within, hfree]
  exact .named (moduleClass_get? hspoke hhub hs hin)

/-- Every attribute of a generated class is optional. -/
theorem carried_moduleClasses (hspoke : c.spoke.Built) (hhub : c.hub.Built) {s : Side}
    (hs : s = ⟨c.spoke, none⟩ ∨ s = ⟨c.hub, some c.hubAlias⟩) :
    ∀ e ∈ s.model.moduleClasses s.alias?, ∀ a ∈ e.2, a.hint.Carried c.classes ∧
      a.default? = some .null ∧ Value.Fits c.classes a.hint .null := by
  have hsecret : Hint.secret.Carried c.classes := .named (builtin_kept hspoke hhub rfl)
  have hdecl : ∀ name shape? isSecret,
      let a := s.model.attrDecl s.alias? name shape? isSecret
      a.hint.Carried c.classes ∧ a.default? = some .null ∧ Value.Fits c.classes a.hint .null :=
    fun name shape? isSecret =>
      ⟨Side.carried_attrDecl (carried_className hspoke hhub hs) hsecret name shape? isSecret, rfl,
        Value.fits_optional_iff.mpr (.inr rfl)⟩
  have hfields : ∀ fields : Table Field, ∀ a ∈ s.model.fieldDecls s.alias? fields,
      a.hint.Carried c.classes ∧ a.default? = some .null ∧
        Value.Fits c.classes a.hint .null := by
    intro fields a ha
    obtain ⟨f, -, rfl⟩ := List.mem_map.mp ha
    exact hdecl _ _ _
  intro e he a ha
  rcases List.mem_append.mp he with he | he
  · obtain ⟨d, -, rfl⟩ := List.mem_map.mp he
    obtain ⟨attr, -, rfl⟩ := List.mem_map.mp ha
    exact hdecl _ _ _
  · obtain ⟨r, -, he⟩ := List.mem_flatMap.mp he
    rcases List.mem_pair.mp he with rfl | rfl
    · exact hfields r.spec a ha
    · rcases List.mem_cons.mp ha with rfl | ha
      · exact ⟨.optional trivial (.named (builtin_kept hspoke hhub rfl)), rfl,
          Value.fits_optional_iff.mpr (.inr rfl)⟩
      · exact hfields r.status a ha

/-- All classes that conversions refer to are declared as generated classes are, if the attributes
of each have names of their own. -/
theorem classes_generated (hspoke : c.spoke.Built) (hhub : c.hub.Built)
    (hdistinct : ∀ s : Side, s = ⟨c.spoke, none⟩ ∨ s = ⟨c.hub, some c.hubAlias⟩ →
      ∀ e ∈ s.model.moduleClasses s.alias?, (e.2.map AttrDecl.name).Nodup) :
    c.classes.Generated := by
  have hmodule : ∀ s : Side, s = ⟨c.spoke, none⟩ ∨ s = ⟨c.hub, some c.hubAlias⟩ →
      ∀ e ∈ s.model.moduleClasses s.alias?, c.classes.Declared e.2 := by
    intro s hs e he
    have hdecls := carried_moduleClasses hspoke hhub hs e he
    refine ⟨hdistinct s hs e he, fun a ha => (hdecls a ha).1, fun a ha v hv => ?_⟩
    obtain ⟨-, hdefault, hnull⟩ := hdecls a ha
    cases hdefault.symm.trans hv
    exact hnull
  intro name decls hget
  rcases List.mem_append.mp (Table.mem_of_get?_ofList hget) with hin | hin
  · exact Classes.builtin_declared (fun _ _ => builtin_kept hspoke hhub) name decls
      (Table.get?_eq_some_iff.mpr hin)
  · rcases List.mem_append.mp hin with hin | hin
    · exact hmodule ⟨c.spoke, none⟩ (.inl rfl) _ hin
    · exact hmodule ⟨c.hub, some c.hubAlias⟩ (.inr rfl) _ hin

end Conversion.Converter

end ResourceVersions
