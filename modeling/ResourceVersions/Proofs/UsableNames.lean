import ResourceVersions.Proofs.WordSplitting

/-! # Names that generated code can define

All spellings of a name consist of letters, digits and underscores, and the attribute and variable
spellings step aside for keywords. But nothing is put in front of a digit, so no spelling of a text
that starts with a number can be defined, and the capitalised spelling does not step aside for the
three keywords that are capitalised. -/
namespace ResourceVersions

open Text

namespace Name

variable {c d : Char} {w s : List Char} {ws words : List (List Char)} {name given : String}

/-- Letters, digits and underscores, at least one. -/
structure Lettered (name : String) : Prop where
  ne_empty : name ≠ ""
  chars : ∀ c ∈ name.toList, isAsciiAlnum c = true ∨ c = '_'

/-- A name that can be defined. -/
structure Usable (name : String) : Prop extends Lettered name where
  start : ∀ c ∈ name.toList.head?, isAsciiDigit c = false
  free : name ∉ keywords

/-- The first letter or digit of a text is a digit. -/
def Numbered (given : String) : Prop :=
  (given.toList.filter isAsciiAlnum).head?.any isAsciiDigit = true

/-- A single word that is a keyword with a capital in front. -/
def Constant (given : String) : Prop :=
  splitWords given ∈ [["False"], ["false"], ["None"], ["none"], ["True"], ["true"]]

/-- A spelling begins with a digit exactly if the text does. -/
structure Spelling (first : Char) (name : String) : Prop extends Lettered name where
  start : ∃ d ∈ name.toList.head?, isAsciiDigit d = isAsciiDigit first

section Letters

theorem upperChar_digit (c : Char) : isAsciiDigit (upperChar c) = isAsciiDigit c := by
  cases hlower : isAsciiLower c with
  | false => rw [upperChar_of_not_lower hlower]
  | true => rw [(upperChar_of_lower hlower).2, lower_not_digit hlower]

theorem lowerChar_digit (h : isAsciiAlnum c = true) :
    isAsciiDigit (lowerChar c) = isAsciiDigit c := by
  cases hdigit : isAsciiDigit c with
  | false => exact lower_not_digit (lowerChar_lower h hdigit)
  | true => rw [lowerChar_of_not_upper (digit_not_upper hdigit), hdigit]

/-- A small letter is found again behind its capital. -/
theorem lowerChar_upperChar (h : isAsciiLower c = true) : lowerChar (upperChar c) = c :=
  forall_lower h (by decide)

theorem upperChar_lowerChar (h : isAsciiUpper c = true) : upperChar (lowerChar c) = c :=
  forall_upper h (by decide)

theorem mem_intercalate (h : c ∈ ['_'].intercalate words) : c = '_' ∨ ∃ w ∈ words, c ∈ w := by
  induction words with
  | nil => cases h
  | cons w words ih =>
    cases words with
    | nil =>
      rw [List.intercalate_singleton] at h
      exact .inr ⟨w, List.mem_cons_self, h⟩
    | cons v words =>
      rw [List.intercalate_cons_cons, List.mem_append, List.mem_append, List.mem_singleton] at h
      rcases h with (h | h) | h
      · exact .inr ⟨w, List.mem_cons_self, h⟩
      · exact .inl h
      · rcases ih h with h | ⟨u, hu, h⟩
        · exact .inl h
        · exact .inr ⟨u, List.mem_cons_of_mem _ hu, h⟩

/-- A word is put in front of the others. -/
theorem snake_cons (w : List Char) (ws : List (List Char)) :
    ∃ rest, snake (w :: ws) = lower w ++ rest := by
  unfold snake
  cases ws with
  | nil => exact ⟨[], by simp⟩
  | cons v ws =>
    rw [List.map_cons, List.map_cons, List.intercalate_cons_cons, List.append_assoc]
    exact ⟨_, rfl⟩

end Letters

section Keywords

/-- No keyword has an underscore, so none is left behind one. -/
theorem safe_free (name : String) : safe name ∉ keywords := by
  have hplain : ∀ k ∈ keywords, '_' ∉ k.toList := by decide +kernel
  unfold safe
  split
  · intro hin
    exact hplain _ hin (by simp)
  · rename_i hfree
    simpa using hfree

/-- The keywords that do not begin with a small letter. -/
theorem capital_keyword (hin : name ∈ keywords)
    (h : ∀ c ∈ name.toList.head?, isAsciiLower c = false) : name ∈ ["False", "None", "True"] := by
  have hall : ∀ k ∈ keywords, k.toList.head?.all (!isAsciiLower ·) = true →
      k ∈ ["False", "None", "True"] := by decide +kernel
  apply hall name hin
  simpa [Option.all_eq_true] using h

/-- Only a single word is spelled with one capital and small letters behind it. -/
theorem camel_eq_iff (hne : ∀ v ∈ words, v ≠ []) (hd : isAsciiUpper d = true)
    (hs : ∀ c ∈ s, isAsciiLower c = true) :
    camel words = d :: s ↔ words = [d :: s] ∨ words = [lowerChar d :: s] := by
  have hcapital : isAsciiLower d = false := by
    by_contra h
    rw [lower_not_upper (by simpa using h)] at hd
    cases hd
  constructor
  · intro h
    match words with
    | [] => cases h
    | [] :: _ => exact absurd rfl (hne [] List.mem_cons_self)
    | (c :: w) :: [] :: _ => exact absurd rfl (hne [] (by simp))
    | (c :: w) :: (e :: v) :: ws =>
      -- the second word would bring another capital
      obtain ⟨-, hrest⟩ := List.cons.inj h
      have hin : upperChar e ∈ s := by
        rw [← hrest]
        simp [capitalize]
      have hsmall := hs _ hin
      rw [upperChar_not_lower] at hsmall
      cases hsmall
    | [c :: w] =>
      obtain ⟨hhead, hrest⟩ := List.cons.inj h
      obtain rfl : w = s := by simpa using hrest
      cases hlower : isAsciiLower c with
      | false =>
        rw [upperChar_of_not_lower hlower] at hhead
        exact .inl (by rw [hhead])
      | true => exact .inr (by rw [← hhead, lowerChar_upperChar hlower])
  · rintro (rfl | rfl)
    · simp [camel, capitalize, upperChar_of_not_lower hcapital]
    · simp [camel, capitalize, upperChar_lowerChar hd]

theorem camelOf_eq_iff (given : String) (hd : isAsciiUpper d = true)
    (hs : ∀ c ∈ s, isAsciiLower c = true) : camelOf given = String.ofList (d :: s) ↔
      splitWords given = [String.ofList (d :: s)] ∨
        splitWords given = [String.ofList (lowerChar d :: s)] := by
  have hsingle : ∀ w, splitWords given = [String.ofList w] ↔ wordsOf given.toList = [w] := by
    intro w
    rw [splitWords, List.map_eq_singleton_iff]
    simp [String.ofList_inj]
  rw [hsingle, hsingle, camelOf, String.ofList_inj]
  exact camel_eq_iff ne_nil_of_mem_wordsFrom hd hs

/-- Six words are capitalised to a keyword. -/
theorem camelOf_keyword_iff (given : String) : camelOf given ∈ keywords ↔ Constant given := by
  have hfalse : camelOf given = "False" ↔
      splitWords given = ["False"] ∨ splitWords given = ["false"] :=
    camelOf_eq_iff given (by decide) (List.all_eq_true.mp (by decide))
  have hnone : camelOf given = "None" ↔
      splitWords given = ["None"] ∨ splitWords given = ["none"] :=
    camelOf_eq_iff given (by decide) (List.all_eq_true.mp (by decide))
  have htrue : camelOf given = "True" ↔
      splitWords given = ["True"] ∨ splitWords given = ["true"] :=
    camelOf_eq_iff given (by decide) (List.all_eq_true.mp (by decide))
  have hlisted : camelOf given ∈ ["False", "None", "True"] ↔ Constant given := by
    simp only [Constant, List.mem_cons, List.not_mem_nil, or_false, hfalse, hnone, htrue, or_assoc]
  rw [← hlisted]
  constructor
  · intro hin
    exact capital_keyword hin (capitalized_camelOf given).start
  · have hkeywords : ∀ k ∈ ["False", "None", "True"], k ∈ keywords := by decide +kernel
    exact hkeywords _

end Keywords

section Spellings

theorem Spelling.of_cons (hstart : isAsciiDigit d = isAsciiDigit c)
    (hchars : ∀ e ∈ d :: s, isAsciiAlnum e = true ∨ e = '_') :
    Spelling c (String.ofList (d :: s)) where
  ne_empty := by simp
  chars := by simpa using hchars
  start := ⟨d, by simp, hstart⟩

theorem Spelling.safe (h : Spelling c name) : Spelling c (safe name) := by
  unfold Name.safe
  split
  · obtain ⟨d, hd, hdigit⟩ := h.start
    refine ⟨⟨by simp, ?_⟩, d, ?_, hdigit⟩
    · intro e he
      rw [String.toList_append, List.mem_append] at he
      rcases he with he | he
      · exact h.chars e he
      · exact .inr (by simpa using he)
    · rw [String.toList_append, List.head?_append, hd]
      rfl
  · exact h

theorem Spelling.usable_iff (h : Spelling c name) :
    Usable name ↔ isAsciiDigit c = false ∧ name ∉ keywords := by
  obtain ⟨d, hd, hdigit⟩ := h.start
  rw [← hdigit]
  constructor
  · intro husable
    exact ⟨husable.start d hd, husable.free⟩
  · rintro ⟨hletter, hfree⟩
    refine ⟨h.toLettered, ?_, hfree⟩
    intro d' hd'
    cases Option.mem_unique hd hd'
    exact hletter

/-- A word of letters and digits begins all spellings. -/
theorem spellings_of_words (hwords : ∀ v ∈ (c :: w) :: ws, ∀ e ∈ v, isAsciiAlnum e = true) :
    Spelling c (String.ofList (camel ((c :: w) :: ws))) ∧
    Spelling c (Name.safe (String.ofList (camelLower ((c :: w) :: ws)))) ∧
    Spelling c (Name.safe (String.ofList (snake ((c :: w) :: ws)))) := by
  have hc : isAsciiAlnum c = true := hwords _ List.mem_cons_self c List.mem_cons_self
  obtain ⟨hfirst, hrest⟩ := List.forall_mem_cons.mp hwords
  refine ⟨?_, Spelling.safe ?_, Spelling.safe ?_⟩
  · apply Spelling.of_cons (upperChar_digit c)
    intro e he
    exact .inl (camel_alnum hwords e he)
  · apply Spelling.of_cons (lowerChar_digit hc)
    intro e he
    left
    rcases List.mem_append.mp (show e ∈ lower (c :: w) ++ camel ws from he) with he | he
    · obtain ⟨e', he', rfl⟩ := List.mem_map.mp he
      exact lowerChar_alnum (hfirst e' he')
    · exact camel_alnum hrest e he
  · obtain ⟨rest, hsnake⟩ := snake_cons (c :: w) ws
    rw [hsnake]
    apply Spelling.of_cons (lowerChar_digit hc)
    intro e he
    rcases mem_intercalate (show e ∈ snake ((c :: w) :: ws) from hsnake ▸ he) with he | ⟨v, hv, he⟩
    · exact .inr he
    · obtain ⟨u, hu, rfl⟩ := List.mem_map.mp hv
      obtain ⟨e', he', rfl⟩ := List.mem_map.mp he
      exact .inl (lowerChar_alnum (hwords u hu e' he'))

/-- The first letter or digit of a text begins its first word. -/
theorem numbered_iff (h : wordsOf given.toList = (c :: w) :: ws) :
    Numbered given ↔ isAsciiDigit c = true := by
  have hflat := flatten_wordsOf given.toList
  rw [h] at hflat
  rw [Numbered, ← hflat]
  simp

/-- What the first letter or digit of a text says of all spellings. -/
theorem exists_spelling {names : Names} (h : Names.of given = .ok names) :
    ∃ c, (Numbered given ↔ isAsciiDigit c = true) ∧ Spelling c names.camel ∧
      Spelling c names.camelLower ∧ Spelling c names.snake := by
  have halnum : ∀ v ∈ wordsOf given.toList, ∀ e ∈ v, isAsciiAlnum e = true := alnum_of_mem_wordsOf
  rw [Names.of_ok h]
  match hwords : wordsOf given.toList with
  | [] => exact absurd hwords (Names.words_ne_nil h)
  | [] :: ws => exact absurd rfl (ne_nil_of_mem_wordsFrom [] (hwords ▸ List.mem_cons_self))
  | (c :: w) :: ws => exact ⟨c, numbered_iff hwords, spellings_of_words (hwords ▸ halnum)⟩

end Spellings

/-- All spellings consist of letters, digits and underscores, and those for attributes and
variables are no keywords. These two can be defined exactly if the text does not start with a
number, and the capitalised one if, besides, the text is not one of the words that become a
keyword. -/
theorem usable_spellings_iff {given : String} {names : Names} (h : Names.of given = .ok names) :
    (∀ name ∈ [names.camel, names.camelLower, names.snake], Lettered name) ∧
    (names.camelLower ∉ keywords ∧ names.snake ∉ keywords) ∧
    (Usable names.camel ↔ ¬Numbered given ∧ ¬Constant given) ∧
    (Usable names.camelLower ↔ ¬Numbered given) ∧ (Usable names.snake ↔ ¬Numbered given) := by
  obtain ⟨c, hnumbered, hcamel, hattr, hsnake⟩ := exists_spelling h
  have hkeyword : names.camel ∈ keywords ↔ Constant given := by
    rw [Names.camel_eq h, camelOf_keyword_iff]
  have hattrfree : names.camelLower ∉ keywords := by
    rw [Names.of_ok h]
    exact safe_free _
  have hsnakefree : names.snake ∉ keywords := by
    rw [Names.snake_eq h]
    exact safe_free _
  refine ⟨?_, ⟨hattrfree, hsnakefree⟩, ?_, ?_, ?_⟩
  · intro name hname
    simp only [List.mem_cons, List.not_mem_nil, or_false] at hname
    rcases hname with rfl | rfl | rfl
    · exact hcamel.toLettered
    · exact hattr.toLettered
    · exact hsnake.toLettered
  · rw [hcamel.usable_iff, hkeyword, hnumbered, Bool.not_eq_true]
  · rw [hattr.usable_iff, hnumbered, Bool.not_eq_true, and_iff_left hattrfree]
  · rw [hsnake.usable_iff, hnumbered, Bool.not_eq_true, and_iff_left hsnakefree]

theorem none_spelled : Names.of "none" = .ok ⟨"none", "None", "none", "none"⟩ := by
  decide +kernel

/-- The attribute `none` can be defined, but no class `None`. -/
theorem usable_spellings_none : ∃ names, Names.of "none" = .ok names ∧
    ¬Usable names.camel ∧ Usable names.camelLower ∧ Usable names.snake := by
  obtain ⟨-, -, hcamel, hattr, hsnake⟩ := usable_spellings_iff none_spelled
  have hletter : ¬Numbered "none" := by
    unfold Numbered
    decide +kernel
  have hconstant : Constant "none" := by
    unfold Constant
    decide +kernel
  exact ⟨_, none_spelled, fun h => (hcamel.mp h).2 hconstant, hattr.mpr hletter, hsnake.mpr hletter⟩

/-- The class for `none` is a keyword, and every spelling of `3az` starts with a digit. -/
theorem spellings_unusable :
    (∃ names, Names.of "none" = .ok names ∧ ¬Usable names.camel) ∧
    ∃ names, Names.of "3az" = .ok names ∧
      ¬Usable names.camel ∧ ¬Usable names.camelLower ∧ ¬Usable names.snake := by
  have hnumber : Names.of "3az" = .ok ⟨"3az", "3Az", "3Az", "3_az"⟩ := by decide +kernel
  have hdigit : isAsciiDigit '3' ≠ false := by decide
  refine ⟨⟨_, none_spelled, ?_⟩, _, hnumber, ?_, ?_, ?_⟩
  · intro husable
    exact husable.free (by decide +kernel)
  · intro husable
    exact hdigit (husable.start '3' rfl)
  · intro husable
    exact hdigit (husable.start '3' rfl)
  · intro husable
    exact hdigit (husable.start '3' rfl)

end Name

end ResourceVersions
