import Mathlib.Tactic.Common
import ResourceVersions.Name.Noun
import ResourceVersions.Proofs.Table

/-! # Nouns and their plurals

How a noun is made singular, by its ending. Most plurals in `es` belong to a noun without the `e`,
so a noun that ends in `e` is the singular of its plural only if that has none of the endings that
are tried before a mere `s`. -/
namespace ResourceVersions

namespace Name

variable {noun stem ending s : List Char}

theorem stem?_eq_some_iff : stem? ending noun = some stem ↔ noun = stem ++ ending := by
  unfold stem?
  constructor
  · intro h
    split at h
    · rename_i hsuffix
      obtain ⟨before, rfl⟩ := List.isSuffixOf_iff_suffix.mp hsuffix
      simp_all
    · cases h
  · rintro rfl
    have hsuffix : ending.isSuffixOf (stem ++ ending) = true :=
      List.isSuffixOf_iff_suffix.mpr (List.suffix_append ..)
    simp [hsuffix]

theorem stem?_eq_none_iff : stem? ending noun = none ↔ ¬ ending <:+ noun := by
  rw [Option.eq_none_iff_forall_ne_some]
  constructor
  · rintro h ⟨stem, rfl⟩
    exact h stem (stem?_eq_some_iff.mpr rfl)
  · intro h stem hstem
    exact h ⟨stem, (stem?_eq_some_iff.mp hstem).symm⟩

/-- A noun with one of the endings that are tried before a mere `s`. -/
def LongEnding (noun : List Char) : Prop :=
  "ies".toList <:+ noun ∨ ∃ ending ∈ sibilantEndings, ending <:+ noun

/-- How a noun is made singular. -/
inductive Singular : List Char → List Char → Prop where
  | ies (stem : List Char) : Singular (stem ++ "ies".toList) (stem ++ ['y'])
  | sibilant {stem ending : List Char} : ending ∈ sibilantEndings →
      ending <:+ stem ++ "es".toList → Singular (stem ++ "es".toList) stem
  | plain {stem : List Char} : ¬ LongEnding (stem ++ ['s']) → Singular (stem ++ ['s']) stem
  | same {noun : List Char} : ¬ LongEnding noun →
      (['s'] <:+ noun → ∃ ending ∈ singularEndings, ending <:+ noun) → Singular noun noun

theorem es_ends_sibilant : ∀ ending ∈ sibilantEndings, "es".toList <:+ ending := by
  decide

theorem singular_singularChars (noun : List Char) : Singular noun (singularChars noun) := by
  unfold singularChars
  split
  · rename_i stem hies
    rw [stem?_eq_some_iff.mp hies]
    exact .ies stem
  rename_i hies
  rw [stem?_eq_none_iff] at hies
  split
  · rename_i hsibilant
    obtain ⟨ending, hin, hsuffix⟩ := List.any_eq_true.mp hsibilant
    rw [List.isSuffixOf_iff_suffix] at hsuffix
    obtain ⟨stem, rfl⟩ := (es_ends_sibilant ending hin).trans hsuffix
    have htake : (stem ++ "es".toList).take ((stem ++ "es".toList).length - 2) = stem := by simp
    rw [htake]
    exact .sibilant hin hsuffix
  rename_i hsibilant
  have hlong : ¬ LongEnding noun := by
    rintro (h | ⟨ending, hin, h⟩)
    · exact hies h
    · exact hsibilant (List.any_eq_true.mpr ⟨ending, hin, List.isSuffixOf_iff_suffix.mpr h⟩)
  split
  · rename_i hs
    rw [Bool.and_eq_true, List.isSuffixOf_iff_suffix] at hs
    obtain ⟨⟨stem, rfl⟩, -⟩ := hs
    have htake : (stem ++ ['s']).take ((stem ++ ['s']).length - 1) = stem := by simp
    rw [htake]
    exact .plain hlong
  · rename_i hs
    refine .same hlong fun hend => ?_
    simpa [List.isSuffixOf_iff_suffix, hend] using hs

section Plurals

/-- A noun has no ending that is as long as another of its endings and does not end with it. -/
theorem endings_apart {known : List Char} {endings : List (List Char)}
    (hends : ∀ ending ∈ endings, ¬ known <:+ ending ∧ known.length ≤ ending.length)
    (h : known <:+ noun) (hin : ending ∈ endings) : ¬ ending <:+ noun := by
  intro hsuffix
  obtain ⟨hnot, hlength⟩ := hends ending hin
  exact hnot (List.suffix_of_suffix_length_le h hsuffix hlength)

theorem ies_suffix (u : List Char) : "ies".toList <:+ u ++ ['i'] ++ "es".toList := ⟨u, by simp⟩

theorem ies_not_sibilant (h : "ies".toList <:+ noun) (hin : ending ∈ sibilantEndings) :
    ¬ ending <:+ noun := endings_apart (by decide) h hin

/-- A noun in `e` is singular. -/
theorem Singular.of_e (h : Singular (stem ++ ['e']) s) : s = stem ++ ['e'] := by
  generalize hnoun : stem ++ ['e'] = noun at h
  cases h with
  | same _ _ => rfl
  | _ =>
    have hlast := congrArg List.getLast? hnoun
    simp at hlast

/-- What becomes of a plural in `es`. -/
theorem Singular.of_es (h : Singular (stem ++ "es".toList) s) :
    (∃ u, stem = u ++ ['i'] ∧ s = u ++ ['y']) ∨
    (∃ ending ∈ sibilantEndings, ending <:+ stem ++ "es".toList ∧ s = stem) ∨
    ¬ LongEnding (stem ++ "es".toList) ∧ s = stem ++ ['e'] := by
  generalize hplural : stem ++ "es".toList = plural at h
  cases h with
  | ies u =>
    have hstem : stem ++ "es".toList = (u ++ ['i']) ++ "es".toList := by
      rw [hplural, List.append_assoc]
      rfl
    exact .inl ⟨u, List.append_cancel_right hstem, rfl⟩
  | sibilant hin hsuffix =>
    obtain rfl := List.append_cancel_right hplural
    exact .inr (.inl ⟨_, hin, hsuffix, rfl⟩)
  | plain hlong =>
    have hs : (stem ++ ['e']) ++ ['s'] = s ++ ['s'] := by
      rw [← hplural, List.append_assoc]
      rfl
    exact .inr (.inr ⟨hlong, (List.append_cancel_right hs).symm⟩)
  | same hlong hend =>
    -- it ends with `s`, but not with any of the endings that stay
    subst hplural
    have hs : ['s'] <:+ stem ++ "es".toList := ⟨stem ++ ['e'], by simp⟩
    obtain ⟨ending, hin, hsuffix⟩ := hend hs
    have hes : "es".toList <:+ stem ++ "es".toList := List.suffix_append ..
    exact (endings_apart (by decide) hes hin hsuffix).elim

/-- What has a noun in `e` as its singular: itself and its plural in `s`. -/
theorem Singular.to_e (h : Singular noun (stem ++ ['e'])) :
    noun = stem ++ ['e'] ∨ noun = stem ++ "es".toList := by
  generalize hsingular : stem ++ ['e'] = singular at h
  cases h with
  | ies u => simp at hsingular
  | sibilant hin hsuffix =>
    -- no such ending has two letters `e` before the `s`
    subst hsingular
    have hees : "ees".toList <:+ stem ++ ['e'] ++ "es".toList := ⟨stem, by simp⟩
    exact (endings_apart (by decide) hees hin hsuffix).elim
  | plain _ => exact .inr (by rw [← hsingular, List.append_assoc]; rfl)
  | same _ _ => exact .inl rfl

theorem singular_of_ies (u : List Char) :
    singularChars (u ++ ['i'] ++ "es".toList) = u ++ ['y'] := by
  rcases (singular_singularChars _).of_es with ⟨v, hv, h⟩ | ⟨ending, hin, hsuffix, -⟩ | ⟨hlong, -⟩
  · rw [h, List.append_cancel_right hv]
  · exact (ies_not_sibilant (ies_suffix u) hin hsuffix).elim
  · exact (hlong (.inl (ies_suffix u))).elim

theorem singular_of_sibilant (hin : ending ∈ sibilantEndings)
    (hsuffix : ending <:+ stem ++ "es".toList) : singularChars (stem ++ "es".toList) = stem := by
  rcases (singular_singularChars (stem ++ "es".toList)).of_es with
    ⟨u, rfl, -⟩ | ⟨-, -, -, h⟩ | ⟨hlong, -⟩
  · exact (ies_not_sibilant (ies_suffix u) hin hsuffix).elim
  · exact h
  · exact (hlong (.inr ⟨ending, hin, hsuffix⟩)).elim

/-- A noun in `e` is found again exactly if its plural has no longer ending. -/
theorem singular_of_plain_iff :
    singularChars (stem ++ "es".toList) = stem ++ ['e'] ↔ ¬ LongEnding (stem ++ "es".toList) := by
  rcases (singular_singularChars (stem ++ "es".toList)).of_es with
    ⟨u, rfl, h⟩ | ⟨ending, hin, hsuffix, h⟩ | ⟨hlong, h⟩
  · rw [h]
    exact iff_of_false (by simp) fun hlong => hlong (.inl (ies_suffix u))
  · rw [h]
    exact iff_of_false (by simp) fun hlong => hlong (.inr ⟨ending, hin, hsuffix⟩)
  · exact iff_of_true h hlong

end Plurals

/-- The endings of the nouns in `e` whose plural has one of the longer endings. -/
def overruledEndings : List String := ["ie", "sse", "she", "che", "xe", "use"]

/-- A noun whose plural in `s` has none of the longer endings. -/
def Regular (noun : String) : Prop :=
  ∀ ending ∈ overruledEndings, ¬ ending.toList <:+ noun.toList

instance (noun : String) : Decidable (Regular noun) :=
  inferInstanceAs (Decidable (∀ ending ∈ overruledEndings, ¬ ending.toList <:+ noun.toList))

theorem regular_iff {noun : String} : Regular noun ↔ ¬ LongEnding (noun.toList ++ ['s']) := by
  have hendings : "ies".toList :: sibilantEndings =
      overruledEndings.map fun ending => ending.toList ++ ['s'] := by
    decide
  rw [LongEnding, ← List.exists_mem_cons_iff (fun ending => ending <:+ noun.toList ++ ['s']),
    hendings]
  simp only [List.mem_map, exists_exists_and_eq_and, List.suffix_append_self_iff, Regular,
    not_exists, not_and]

end Name

end ResourceVersions
