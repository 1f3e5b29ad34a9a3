import Mathlib.Data.List.Chain
import ResourceVersions.Proofs.ClassNames

/-! # Capitalised spellings are normal forms

In a capitalised spelling no small letter starts a word: words begin with a capital or a digit, and
between two characters a word begins with a small letter only behind a digit. To split the spelling
again may give other words, but they are spelled the same. -/
namespace ResourceVersions

open Text

namespace Name

/-- A small letter does not follow a digit. -/
def Flows (a b : Char) : Prop := isAsciiDigit a = true → isAsciiLower b = false

/-- A text in which no small letter starts a word. -/
structure Capitalized (s : List Char) : Prop where
  alnum : ∀ c ∈ s, isAsciiAlnum c = true
  flows : s.IsChain Flows
  start : ∀ c ∈ s.head?, isAsciiLower c = false

variable {c d : Char} {word rest s : List Char} {words : List (List Char)}

theorem lower_not_upper (h : isAsciiLower c = true) : isAsciiUpper c = false :=
  forall_lower h (by decide)

theorem lower_not_digit (h : isAsciiLower c = true) : isAsciiDigit c = false :=
  forall_lower h (by decide)

/-- A capital is neither a small letter nor a digit. -/
theorem upperChar_of_lower (h : isAsciiLower c = true) :
    isAsciiLower (upperChar c) = false ∧ isAsciiDigit (upperChar c) = false :=
  forall_lower h (by decide)

theorem upperChar_of_not_lower (h : isAsciiLower c = false) : upperChar c = c := by
  unfold upperChar
  rw [if_neg (by simp [h])]

theorem upperChar_not_lower (c : Char) : isAsciiLower (upperChar c) = false := by
  by_cases h : isAsciiLower c = true
  · exact (upperChar_of_lower h).1
  · have h : isAsciiLower c = false := by simpa using h
    rw [upperChar_of_not_lower h, h]

theorem Flows.upperChar (h : Flows c d) : Flows (upperChar c) d := by
  intro hdigit
  by_cases hlower : isAsciiLower c = true
  · rw [(upperChar_of_lower hlower).2] at hdigit
    cases hdigit
  · rw [upperChar_of_not_lower (by simpa using hlower)] at hdigit
    exact h hdigit

/-- Between letters and digits a word ends. -/
theorem flows_of_not_endsBetween {behind : Option Char} (h : endsBetween c d behind = false) :
    Flows c d := by
  intro hdigit
  by_contra hlower
  have hlower : isAsciiLower d = true := by simpa using hlower
  simp [endsBetween, hdigit, lower_not_digit hlower] at h

/-- Where a word ends and a small letter follows, it follows a digit. -/
theorem endsBetween_lower {behind : Option Char} (h : endsBetween c d behind = true)
    (hlower : isAsciiLower d = true) : isAsciiDigit c = true := by
  simpa [endsBetween, lower_not_digit hlower, lower_not_upper hlower] using h

theorem ne_nil_of_mem_wordsFrom : ∀ w ∈ wordsFrom word s, w ≠ [] := by
  induction s generalizing word with
  | nil => simp [wordsFrom]
  | cons c rest ih =>
    rw [wordsFrom]
    split
    · exact ih
    split
    · rw [List.forall_mem_cons]
      exact ⟨by simp, ih⟩
    · exact ih

/-- Whatever ties two characters between which no word ends ties all neighbours in a word. -/
theorem chain_of_mem_wordsFrom {R : Char → Char → Prop}
    (hR : ∀ a b behind, endsBetween a b behind = false → R a b)
    (h : ∀ c ∈ s.head?, (c :: word).IsChain fun a b => R b a) :
    ∀ w ∈ wordsFrom word s, w.IsChain R := by
  induction s generalizing word with
  | nil => simp [wordsFrom]
  | cons c rest ih =>
    have hword : (c :: word).IsChain fun a b => R b a := h c rfl
    have hfresh : ∀ d ∈ rest.head?, [d].IsChain fun a b => R b a := by simp
    rw [wordsFrom]
    split
    · exact ih hfresh
    split
    · rw [List.forall_mem_cons]
      exact ⟨List.isChain_reverse.mpr hword, ih hfresh⟩
    · rename_i hends
      apply ih
      intro d hd
      cases rest with
      | nil => cases hd
      | cons d' rest =>
        obtain rfl : d' = d := Option.some.inj hd
        have hends : endsBetween c d' rest.head? = false := by
          simp only [endsBehind, Bool.or_eq_true, not_or, Bool.not_eq_true] at hends
          exact hends.2
        exact List.isChain_cons_cons.mpr ⟨hR _ _ _ hends, hword⟩

theorem flows_of_mem_wordsOf : ∀ w ∈ wordsOf s, w.IsChain Flows :=
  chain_of_mem_wordsFrom (fun _ _ _ => flows_of_not_endsBetween) (by simp)

theorem capitalized_capitalize (halnum : ∀ c ∈ word, isAsciiAlnum c = true)
    (hflows : word.IsChain Flows) : Capitalized (capitalize word) := by
  cases word with
  | nil => exact ⟨by simp [capitalize], .nil, by simp [capitalize]⟩
  | cons c rest =>
    obtain ⟨hc, hrest⟩ := List.forall_mem_cons.mp halnum
    constructor
    · exact List.forall_mem_cons.mpr ⟨upperChar_alnum hc, hrest⟩
    · exact hflows.imp_head fun h => h.upperChar
    · intro d hd
      obtain rfl : upperChar c = d := Option.some.inj hd
      exact upperChar_not_lower c

theorem Capitalized.append (hs : Capitalized s) (hrest : Capitalized rest) :
    Capitalized (s ++ rest) := by
  constructor
  · intro c hc
    rcases List.mem_append.mp hc with hc | hc
    · exact hs.alnum c hc
    · exact hrest.alnum c hc
  · apply List.isChain_append.mpr
    refine ⟨hs.flows, hrest.flows, ?_⟩
    intro a _ b hb _
    exact hrest.start b hb
  · intro c hc
    cases s with
    | nil => exact hrest.start c hc
    | cons d s => exact hs.start c hc

/-- What is spelled with capitals is capitalised. -/
theorem capitalized_camel (h : ∀ w ∈ words, (∀ c ∈ w, isAsciiAlnum c = true) ∧ w.IsChain Flows) :
    Capitalized (camel words) := by
  induction words with
  | nil => exact ⟨by simp [camel], .nil, by simp [camel]⟩
  | cons w words ih =>
    obtain ⟨hw, hwords⟩ := List.forall_mem_cons.mp h
    exact (capitalized_capitalize hw.1 hw.2).append (ih hwords)

theorem capitalized_camelOf (given : String) : Capitalized (camelOf given).toList := by
  have h : Capitalized (camel (wordsOf given.toList)) := by
    apply capitalized_camel
    intro w hw
    exact ⟨alnum_of_mem_wordsOf w hw, flows_of_mem_wordsOf w hw⟩
  simpa [camelOf] using h

theorem capitalize_of_not_lower (h : ∀ c ∈ word.head?, isAsciiLower c = false) :
    capitalize word = word := by
  cases word with
  | nil => rfl
  | cons c rest => rw [capitalize, upperChar_of_not_lower (h c rfl)]

/-- The words of a capitalised text, which may have begun before it, spell it as it is. -/
theorem camel_wordsFrom (word : List Char) (hrest : s = [] → word = [])
    (h : Capitalized (word.reverse ++ s)) : camel (wordsFrom word s) = word.reverse ++ s := by
  induction s generalizing word with
  | nil =>
    rw [hrest rfl]
    rfl
  | cons c rest ih =>
    have hc : isAsciiAlnum c = true := h.alnum c (by simp)
    have hshift : (c :: word).reverse ++ rest = word.reverse ++ c :: rest := by simp
    rw [← hshift] at h ⊢
    rw [wordsFrom, if_neg (by simp [hc])]
    split
    · rename_i hends
      obtain ⟨hword, htail, hjoin⟩ := List.isChain_append.mp h.flows
      have hfresh : Capitalized rest := by
        constructor
        · intro d hd
          exact h.alnum d (List.mem_append_right _ hd)
        · exact htail
        · intro d hd
          cases rest with
          | nil => cases hd
          | cons d' rest =>
            obtain rfl : d' = d := Option.some.inj hd
            have hd : isAsciiAlnum d' = true := h.alnum d' (by simp)
            by_contra hlower
            have hlower : isAsciiLower d' = true := by simpa using hlower
            have hends : endsBetween c d' rest.head? = true := by
              simpa [endsBehind, hd] using hends
            -- the word would have ended behind a digit, with a small letter behind it
            have hflow : Flows c d' := hjoin c (by simp) d' rfl
            rw [hflow (endsBetween_lower hends hlower)] at hlower
            cases hlower
      have hstart : ∀ d ∈ (c :: word).reverse.head?, isAsciiLower d = false := by
        intro d hd
        apply h.start
        rw [List.head?_append, hd]
        rfl
      have hspelled := ih [] (fun _ => rfl) hfresh
      rw [camel, List.flatMap_cons, capitalize_of_not_lower hstart]
      exact congrArg _ hspelled
    · rename_i hends
      apply ih
      · rintro rfl
        exact (hends rfl).elim
      · exact h

theorem camel_wordsOf (h : Capitalized s) : camel (wordsOf s) = s :=
  camel_wordsFrom [] (fun _ => rfl) h

/-- A capitalised spelling is spelled like itself. -/
theorem camelOf_camelOf (given : String) : camelOf (camelOf given) = camelOf given := by
  rw [camelOf, camel_wordsOf (capitalized_camelOf given), String.ofList_toList]

end Name

/-- A text with spellings holds a word. -/
theorem Names.words_ne_nil {given : String} {names : Names} (h : Names.of given = .ok names) :
    Name.wordsOf given.toList ≠ [] := by
  intro hnone
  rw [Names.of, Names.of?, hnone] at h
  cases h

theorem Names.given_ne_empty {given : String} {names : Names} (h : Names.of given = .ok names) :
    given ≠ "" := by
  rintro rfl
  exact Names.words_ne_nil h rfl

theorem Names.camel_ne_empty {given : String} {names : Names} (h : Names.of given = .ok names) :
    names.camel ≠ "" := by
  intro hempty
  rw [Names.camel_eq h, Name.camelOf, String.ofList_eq_empty_iff] at hempty
  cases hwords : Name.wordsOf given.toList with
  | nil => exact Names.words_ne_nil h hwords
  | cons w ws =>
    rw [hwords, Name.camel, List.flatMap_cons] at hempty
    cases w with
    | nil => exact Name.ne_nil_of_mem_wordsFrom [] (hwords ▸ List.mem_cons_self) rfl
    | cons c w => cases hempty

end ResourceVersions
