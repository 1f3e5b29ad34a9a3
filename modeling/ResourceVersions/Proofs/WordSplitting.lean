import ResourceVersions.Proofs.AttributeNames

/-! # Words that are split again

The words of a text hold its letters and digits and nothing else. In the spelling with underscores
every word is a number or consists of small letters. No word ends inside such a word, so this
spelling is split where it was joined, and to spell it once more changes nothing. -/
namespace ResourceVersions

open Text

namespace Name

variable {c d : Char} {word w s rest gap : List Char} {words : List (List Char)}

/-- A word inside which no word ends, whatever comes behind it. -/
structure Solid (w : List Char) : Prop where
  ne_nil : w ≠ []
  alnum : ∀ c ∈ w, isAsciiAlnum c = true
  joined : ∀ a ∈ w, ∀ b ∈ w, ∀ behind, endsBetween a b behind = false

/-- A text in small letters. -/
def lowerText (text : String) : String := String.ofList (lower text.toList)

theorem Solid.tail (h : Solid (c :: d :: w)) : Solid (d :: w) where
  ne_nil := by simp
  alnum := (List.forall_mem_cons.mp h.alnum).2
  joined a ha b hb := h.joined a (List.mem_cons_of_mem _ ha) b (List.mem_cons_of_mem _ hb)

theorem underscore_not_alnum : isAsciiAlnum '_' = false := by decide

section Split

/-- A word that has begun goes on. -/
theorem flatten_wordsFrom (h : word = [] ∨ ∃ c ∈ s.head?, isAsciiAlnum c = true) :
    (wordsFrom word s).flatten = word.reverse ++ s.filter isAsciiAlnum := by
  induction s generalizing word with
  | nil =>
    obtain rfl : word = [] := by simpa using h
    rfl
  | cons c rest ih =>
    rw [wordsFrom]
    by_cases hc : isAsciiAlnum c = true
    · rw [if_neg (by simp [hc]), List.filter_cons_of_pos hc]
      split
      · rw [List.flatten_cons, ih (.inl rfl)]
        simp
      · rename_i hends
        rw [ih]
        · simp
        · cases rest with
          | nil => exact absurd rfl hends
          | cons d rest =>
            simp only [endsBehind, Bool.or_eq_true, not_or, Bool.not_eq_true,
              Bool.not_eq_false'] at hends
            exact .inr ⟨d, rfl, hends.1⟩
    · obtain rfl : word = [] := by simpa [hc] using h
      rw [if_pos (by simp [hc]), List.filter_cons_of_neg hc, ih (.inl rfl)]

/-- The words of a text together are its letters and digits. -/
theorem flatten_wordsOf (s : List Char) : (wordsOf s).flatten = s.filter isAsciiAlnum :=
  flatten_wordsFrom (.inl rfl)

theorem wordsOf_ne_nil (hin : c ∈ s) (hc : isAsciiAlnum c = true) : wordsOf s ≠ [] := by
  intro hnone
  have hflat := flatten_wordsOf s
  rw [hnone] at hflat
  exact List.ne_nil_of_mem (List.mem_filter.mpr ⟨hin, hc⟩) hflat.symm

theorem wordsOf_gap (h : ∀ c ∈ gap, isAsciiAlnum c = false) : wordsOf gap = [] := by
  unfold wordsOf
  induction gap with
  | nil => rfl
  | cons c gap ih =>
    obtain ⟨hc, hgap⟩ := List.forall_mem_cons.mp h
    rw [wordsFrom, if_pos (by simp [hc]), ih hgap]

/-- A solid word is split off as a whole where a separator follows it. -/
theorem wordsFrom_solid (hw : Solid w) (hrest : ∀ c ∈ rest.head?, isAsciiAlnum c = false) :
    wordsFrom word (w ++ rest) = (word.reverse ++ w) :: wordsFrom [] rest := by
  induction w generalizing word with
  | nil => exact absurd rfl hw.ne_nil
  | cons c w ih =>
    have hc : isAsciiAlnum c = true := hw.alnum c List.mem_cons_self
    rw [List.cons_append, wordsFrom, if_neg (by simp [hc])]
    cases w with
    | nil =>
      have hends : endsBehind c rest = true := by
        cases rest with
        | nil => rfl
        | cons d rest => simp [endsBehind, hrest d rfl]
      rw [List.nil_append, if_pos hends, List.reverse_cons]
    | cons d w =>
      have hends : endsBehind c (d :: w ++ rest) = false := by
        simp [endsBehind, hw.alnum d (by simp), hw.joined c (by simp) d (by simp)]
      rw [hends, if_neg Bool.false_ne_true, ih hw.tail]
      simp

/-- Solid words are found again where they have been joined with underscores. -/
theorem wordsOf_intercalate (h : ∀ w ∈ words, Solid w)
    (hgap : ∀ c ∈ gap, isAsciiAlnum c = false) :
    wordsOf (['_'].intercalate words ++ gap) = words := by
  induction words with
  | nil => exact wordsOf_gap hgap
  | cons w words ih =>
    obtain ⟨hw, hwords⟩ := List.forall_mem_cons.mp h
    cases words with
    | nil =>
      have hrest : ∀ c ∈ gap.head?, isAsciiAlnum c = false :=
        fun c hc => hgap c (List.mem_of_mem_head? hc)
      rw [List.intercalate_singleton, wordsOf, wordsFrom_solid hw hrest]
      exact congrArg _ (wordsOf_gap hgap)
    | cons v words =>
      have hrest : ∀ c ∈ ('_' :: (['_'].intercalate (v :: words) ++ gap)).head?,
          isAsciiAlnum c = false := by
        simp [underscore_not_alnum]
      rw [List.intercalate_cons_cons, List.append_assoc, List.append_assoc, List.singleton_append,
        wordsOf, wordsFrom_solid hw hrest, wordsFrom,
        if_pos (by simp [underscore_not_alnum])]
      exact congrArg _ (ih hwords)

end Split

section Lower

theorem lowerChar_lowerChar (c : Char) : lowerChar (lowerChar c) = lowerChar c := by
  cases hupper : isAsciiUpper c with
  | false => rw [lowerChar_of_not_upper hupper, lowerChar_of_not_upper hupper]
  | true =>
    have hdigit : isAsciiDigit c = false := by
      by_contra h
      rw [digit_not_upper (by simpa using h)] at hupper
      cases hupper
    have hsmall : isAsciiLower (lowerChar c) = true :=
      lowerChar_lower (by simp [isAsciiAlnum, hupper]) hdigit
    exact lowerChar_of_not_upper (lower_not_upper hsmall)

theorem lower_lower (w : List Char) : lower (lower w) = lower w := by
  simp [lower, Function.comp_def, lowerChar_lowerChar]

/-- A word in small letters is a number or has small letters only. -/
theorem solid_lower (h : w ∈ wordsOf s) : Solid (lower w) := by
  have halnum := alnum_of_mem_wordsOf w h
  constructor
  case ne_nil => simpa [lower] using ne_nil_of_mem_wordsFrom w h
  case alnum =>
    intro c hc
    obtain ⟨d, hd, rfl⟩ := List.mem_map.mp hc
    exact lowerChar_alnum (halnum d hd)
  case joined =>
    intro a ha b hb behind
    rcases digits_of_mem_wordsOf w h with hdigits | hletters
    · rw [lower_of_digits hdigits] at ha hb
      have hsmall : isAsciiLower a = false := by
        by_contra hsmall
        have hdigit := hdigits a ha
        rw [lower_not_digit (by simpa using hsmall)] at hdigit
        cases hdigit
      simp [endsBetween, hdigits a ha, hdigits b hb, hsmall, digit_not_upper (hdigits a ha)]
    · have hsmall := lower_small halnum hletters
      simp [endsBetween, lower_not_digit (hsmall a ha), lower_not_digit (hsmall b hb),
        lower_not_upper (hsmall a ha), lower_not_upper (hsmall b hb)]

/-- Nothing but an underscore is put behind a keyword. -/
theorem toList_safe (name : String) :
    ∃ gap, (safe name).toList = name.toList ++ gap ∧ ∀ c ∈ gap, isAsciiAlnum c = false := by
  unfold safe
  split
  · exact ⟨['_'], by simp, by simp [underscore_not_alnum]⟩
  · exact ⟨[], by simp, by simp⟩

/-- The spelling with underscores has the words that it is made of. -/
theorem wordsOf_snake (given : String) :
    wordsOf (safe (String.ofList (snake (wordsOf given.toList)))).toList =
      (wordsOf given.toList).map lower := by
  obtain ⟨gap, hsafe, hgap⟩ := toList_safe (String.ofList (snake (wordsOf given.toList)))
  rw [hsafe, String.toList_ofList, snake]
  apply wordsOf_intercalate _ hgap
  intro w hw
  obtain ⟨v, hv, rfl⟩ := List.mem_map.mp hw
  exact solid_lower hv

end Lower

end Name

theorem Names.snake_eq {given : String} {names : Names} (h : Names.of given = .ok names) :
    names.snake = Name.safe (String.ofList (Name.snake (Name.wordsOf given.toList))) := by
  rw [Names.of_ok h]
  rfl

namespace Name

/-- Splitting a text loses nothing but what separates its words. The capitalised spelling and the
one with underscores are spelled like themselves, and the words of the latter are the words of the
text in small letters. -/
theorem spellings_normal (given : String) :
    String.join (splitWords given) = String.ofList (given.toList.filter isAsciiAlnum) ∧
    (∀ w ∈ splitWords given, w ≠ "") ∧
    ∀ names, Names.of given = .ok names →
      (∃ again, Names.of names.camel = .ok again ∧ again.camel = names.camel) ∧
      splitWords names.snake = (splitWords given).map lowerText ∧
      ∃ again, Names.of names.snake = .ok again ∧ again.snake = names.snake := by
  refine ⟨?_, ?_, ?_⟩
  · rw [String.join_eq, splitWords, List.map_map, ← flatten_wordsOf]
    simp [Function.comp_def]
  · intro w hw
    obtain ⟨v, hv, rfl⟩ := List.mem_map.mp hw
    rw [ne_eq, String.ofList_eq_empty_iff]
    exact ne_nil_of_mem_wordsFrom v hv
  · intro names h
    have hwords := Names.words_ne_nil h
    have hcamel : splitWords names.camel ≠ [] := by
      cases hchars : names.camel.toList with
      | nil => exact absurd (String.toList_eq_nil_iff.mp hchars) (Names.camel_ne_empty h)
      | cons c rest =>
        have hin : c ∈ names.camel.toList := hchars ▸ List.mem_cons_self
        simpa [splitWords] using wordsOf_ne_nil hin (Names.camel_alnum h c hin)
    have hsnake : splitWords names.snake = (splitWords given).map lowerText := by
      rw [splitWords, Names.snake_eq h, wordsOf_snake, splitWords]
      simp [lowerText, Function.comp_def]
    refine ⟨?_, hsnake, ?_⟩
    · obtain ⟨again, hagain⟩ := exists_names_of_words hcamel
      refine ⟨again, hagain, ?_⟩
      rw [Names.camel_eq hagain, Names.camel_eq h, camelOf_camelOf]
    · have hsome : splitWords names.snake ≠ [] := by
        rw [hsnake]
        simpa [splitWords] using hwords
      obtain ⟨again, hagain⟩ := exists_names_of_words hsome
      refine ⟨again, hagain, ?_⟩
      rw [Names.snake_eq hagain, Names.snake_eq h, wordsOf_snake, snake, snake, List.map_map]
      simp [Function.comp_def, lower_lower]

/-- The capitalised spelling `IsAURL` has other words than the text, but they are spelled alike. -/
theorem spellings_normal_acronym : ∃ names, Names.of "is_aURL" = .ok names ∧
    (∃ again, Names.of names.camel = .ok again ∧ again.camel = names.camel) ∧
    splitWords names.snake = ["is", "a", "url"] ∧ splitWords names.camel = ["Is", "AURL"] ∧
    ∃ again, Names.of names.snake = .ok again ∧ again.snake = names.snake := by
  have hnames : Names.of "is_aURL" = .ok ⟨"is_aURL", "IsAURL", "isAURL", "is_a_url"⟩ := by
    decide +kernel
  obtain ⟨-, -, hspelled⟩ := spellings_normal "is_aURL"
  obtain ⟨hcamel, hsnake, hagain⟩ := hspelled _ hnames
  refine ⟨_, hnames, hcamel, ?_, by decide +kernel, hagain⟩
  rw [hsnake]
  decide +kernel

end Name

end ResourceVersions
