import Mathlib.Data.List.Perm.Basic
import ResourceVersions.Proofs.ModuleClasses
import ResourceVersions.Source.TypesModule

/-! # Names of generated classes

Building a model keeps the classes of structures apart from one another and from all other classes,
and the classes of enumerations from those of structures and resources and from the names that the
module uses itself. It compares no two enumerations, and no resource with the Spec and the Status of
another one or with the names of the module; what is defined twice is defined twice there. -/
namespace ResourceVersions

open Fallible Text

/-- The capitalised spelling of a name. -/
def Name.camelOf (given : String) : String := String.ofList (camel (wordsOf given.toList))

theorem Names.camel_eq {given : String} {names : Names} (h : Names.of given = .ok names) :
    names.camel = Name.camelOf given := by
  rw [Names.of_ok h]
  rfl

theorem Name.camelOf_underscore (given : String) : '_' ∉ (Name.camelOf given).toList := by
  intro hin
  have hin : '_' ∈ camel (wordsOf given.toList) := by simpa [camelOf] using hin
  have := camel_alnum alnum_of_mem_wordsOf '_' hin
  exact absurd this (by decide)

/-- The names of the enumerations of an API. -/
def Api.enumNames (api : Api) : List String :=
  (api.shapes.sorted.filter fun e => e.2.isEnum).map Prod.fst

theorem Api.enumNames_nodup (api : Api) : api.enumNames.Nodup := by
  have hsorted : (api.shapes.sorted.map Prod.fst).Nodup := by
    rw [Table.fst_sorted]
    exact api.shapes.sortedKeys_perm.nodup_iff.mpr api.shapes.keys_nodup
  exact (List.filter_sublist.map Prod.fst).nodup hsorted

namespace Types

variable {api : Api} {resources : List Resource} {taken : List String}

/-- The name of a class whose capitalised spelling may be taken. -/
def className (taken : List String) (camel : String) : String :=
  if taken.contains camel then camel ++ clashSuffix else camel

theorem className_free (htaken : ∀ n ∈ taken, '_' ∉ n.toList) (camel : String) :
    className taken camel ∉ taken := by
  unfold className
  split
  · intro hin
    exact htaken _ hin (by simp [clashSuffix])
  · rename_i hfree
    simpa using hfree

/-- The suffix does not make two spellings one: only a class with the suffix has an underscore. -/
theorem className_inj {s t : String} (hs : '_' ∉ s.toList) (ht : '_' ∉ t.toList)
    (h : className taken s = className taken t) : s = t := by
  have hsuffix : ∀ u : String, '_' ∈ (u ++ clashSuffix).toList := by simp [clashSuffix]
  unfold className at h
  split at h <;> split at h
  · exact (String.append_left_inj _).mp h
  · rw [← h] at ht
    exact absurd (hsuffix s) ht
  · rw [h] at hs
    exact absurd (hsuffix t) hs
  · exact h

end Types

namespace VersionModel

variable {m : VersionModel}

/-- The classes of enumerations in a model. -/
structure EnumsNamed (m : VersionModel) : Prop where
  spelled : (m.enumDefs.map EnumDef.className).Perm (m.api.enumNames.map fun x =>
    Types.className (Types.reserved m.resources) (Name.camelOf x))
  apart : ∀ e ∈ m.enumDefs, ∀ d ∈ m.typeDefs, d.className ≠ e.className

theorem EnumsNamed.nodup (h : m.EnumsNamed) : (m.enumDefs.map EnumDef.className).Nodup ↔
    ∀ x ∈ m.api.enumNames, ∀ y ∈ m.api.enumNames, Name.camelOf x = Name.camelOf y → x = y := by
  rw [h.spelled.nodup_iff, List.nodup_map_iff_inj_on m.api.enumNames_nodup]
  constructor
  · intro hall x hx y hy heq
    exact hall x hx y hy (by rw [heq])
  · intro hall x hx y hy heq
    exact hall x hx y hy
      (Types.className_inj (Name.camelOf_underscore x) (Name.camelOf_underscore y) heq)

theorem EnumsNamed.free (h : m.EnumsNamed) (hnamed : Resource.AllNamed m.resources) :
    ∀ e ∈ m.enumDefs, e.className ∉ Types.reserved m.resources := by
  intro e he
  obtain ⟨x, -, hx⟩ := List.mem_map.mp (h.spelled.mem_iff.mp (List.mem_map_of_mem he))
  rw [← hx]
  exact Types.className_free (Types.reserved_underscore hnamed) _

end VersionModel

namespace Source

variable {m : VersionModel} {defs : List ClassDef}

end Source

end ResourceVersions
