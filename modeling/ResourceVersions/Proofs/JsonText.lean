import Mathlib.Data.List.TakeWhile
import ResourceVersions.Json.Ordered
import ResourceVersions.Json.Printer
import ResourceVersions.Json.Reader
import ResourceVersions.Proofs.IntegerText
import ResourceVersions.Proofs.Table

/-! # Reading what was printed

The text of a document is read back as the document with its mappings in the order of their
keys. A decimal has to be the one that its text stands for, and an integer may have too many
digits to be read. -/
namespace ResourceVersions

section ByKey

variable {α β : Type} {l : List (String × α)}

theorem byKey_perm (l : List (String × α)) : (byKey l).Perm l := List.mergeSort_perm _ _

theorem map_byKey (f : α → β) (l : List (String × α)) :
    (byKey l).map (fun e => (e.1, f e.2)) = byKey (l.map fun e => (e.1, f e.2)) :=
  List.map_mergeSort fun _ _ _ _ => rfl

theorem byKey_byKey (l : List (String × α)) : byKey (byKey l) = byKey l := by
  refine List.mergeSort_of_pairwise (List.pairwise_mergeSort ?_ ?_ l)
  · intro a b c hab hbc
    simp only [decide_eq_true_eq] at *
    exact String.le_trans hab hbc
  · intro a b
    simpa using String.le_total a.1 b.1

/-- Where keys are different, their order does not matter to a search. -/
theorem lookup_byKey (hl : (l.map Prod.fst).Nodup) (name : String) :
    (byKey l).lookup name = l.lookup name := by
  cases h : l.lookup name with
  | none =>
    rw [List.lookup_eq_none_iff] at h ⊢
    intro e he
    exact h e ((byKey_perm l).mem_iff.mp he)
  | some v =>
    apply Table.lookup_of_mem
    · exact (((byKey_perm l).map Prod.fst).nodup_iff).mpr hl
    · exact (byKey_perm l).mem_iff.mpr (Table.lookup_eq_some_mem h)

end ByKey

namespace Json

theorem orderedItems_eq (items : List Json) : orderedItems items = items.map ordered := by
  induction items with
  | nil => rfl
  | cons d rest ih => rw [orderedItems, ih, List.map_cons]

theorem orderedFields_eq (fields : List (String × Json)) :
    orderedFields fields = fields.map fun e => (e.1, e.2.ordered) := by
  induction fields with
  | nil => rfl
  | cons e rest ih => rw [orderedFields, ih, List.map_cons]

end Json

namespace Json

open Text

section Strings

variable {c : Char} {n : Nat} {rest read : List Char} {fuel : Nat}

theorem fourHex_hex (hn : n < 0x10000) (rest : List Char) :
    fourHex (hex 4 n ++ rest) = some (n, rest) := by
  have hdigit : ∀ d < 16, hexValue? (hexDigit d) = some d := by decide
  have hhex : hex 4 n = [hexDigit (n / 16 / 16 / 16 % 16), hexDigit (n / 16 / 16 % 16),
      hexDigit (n / 16 % 16), hexDigit (n % 16)] := rfl
  rw [hhex, List.cons_append, List.cons_append, List.cons_append, List.cons_append,
    List.nil_append, fourHex, hdigit _ (Nat.mod_lt _ (by decide)),
    hdigit _ (Nat.mod_lt _ (by decide)), hdigit _ (Nat.mod_lt _ (by decide)),
    hdigit _ (Nat.mod_lt _ (by decide))]
  simp only [Option.bind_eq_bind, Option.bind_some, Option.pure_def, Option.some.injEq,
    Prod.mk.injEq, and_true]
  omega

/-- No character is a surrogate. -/
theorem not_surrogate (c : Char) : isHighSurrogate c.toNat = false ∧
    isLowSurrogate c.toNat = false := by
  have hvalid : c.toNat < 0xd800 ∨ 0xdfff < c.toNat ∧ c.toNat < 0x110000 := c.valid
  constructor
  · simp only [isHighSurrogate, Bool.and_eq_false_iff, decide_eq_false_iff_not]
    omega
  · simp only [isLowSurrogate, Bool.and_eq_false_iff, decide_eq_false_iff_not]
    omega

/-- A character of the first plane is read back from its code unit. -/
theorem unicodeEscape_unit (hc : c.toNat < 0x10000) (rest : List Char) :
    unicodeEscape (hex 4 c.toNat ++ rest) = some (c, rest) := by
  obtain ⟨hhigh, hlow⟩ := not_surrogate c
  rw [unicodeEscape, fourHex_hex hc]
  simp [hhigh, hlow, unitChar]

/-- A high surrogate is joined with the low one behind it. -/
theorem unicodeEscape_surrogates {high low : Nat} (hhigh : isHighSurrogate high = true)
    (hlow : isLowSurrogate low = true) (rest : List Char) :
    unicodeEscape (hex 4 high ++ (unitEscape low ++ rest)) =
      some (Char.ofNat (0x10000 + (high - 0xd800) * 0x400 + (low - 0xdc00)), rest) := by
  have hbound : high < 0x10000 ∧ low < 0x10000 := by
    simp only [isHighSurrogate, isLowSurrogate, Bool.and_eq_true, decide_eq_true_eq] at hhigh hlow
    omega
  rw [unicodeEscape, fourHex_hex hbound.1]
  simp only [Option.bind_eq_bind, Option.bind_some, unitEscape, List.cons_append, hhigh]
  rw [fourHex_hex hbound.2]
  dsimp only
  rw [if_pos hlow]

/-- A character beyond the first plane is read back from two code units. -/
theorem unicodeEscape_pair (hc : 0x10000 ≤ c.toNat) (rest : List Char) :
    unicodeEscape (hex 4 (0xd800 + (c.toNat - 0x10000) / 0x400) ++
      (unitEscape (0xdc00 + (c.toNat - 0x10000) % 0x400) ++ rest)) = some (c, rest) := by
  have hvalid : c.toNat < 0xd800 ∨ 0xdfff < c.toNat ∧ c.toNat < 0x110000 := c.valid
  rw [unicodeEscape_surrogates]
  · have hnumber : 0x10000 + (0xd800 + (c.toNat - 0x10000) / 0x400 - 0xd800) * 0x400 +
        (0xdc00 + (c.toNat - 0x10000) % 0x400 - 0xdc00) = c.toNat := by omega
    rw [hnumber, Char.ofNat_toNat]
  · simp only [isHighSurrogate, Bool.and_eq_true, decide_eq_true_eq]
    omega
  · simp only [isLowSurrogate, Bool.and_eq_true, decide_eq_true_eq]
    omega

theorem stringBody_unicode {s : List Char} (h : unicodeEscape s = some (c, rest)) :
    stringBody (fuel + 1) read ('\\' :: 'u' :: s) = stringBody fuel (c :: read) rest := by
  rw [stringBody, if_neg (by decide), if_pos rfl, h]

/-- An escaped character is read as the character. -/
theorem stringBody_escaped (c : Char) (rest : List Char) :
    stringBody (fuel + 1) read (escapedChar c ++ rest) = stringBody fuel (c :: read) rest := by
  unfold escapedChar
  iterate 7
    split
    · subst_vars
      rfl
  split
  · rename_i hquote hslash _ _ _ _ _ hplain
    rw [List.cons_append, List.nil_append, stringBody.eq_def]
    dsimp only
    rw [if_neg hquote, if_neg hslash, if_neg (by omega)]
  split
  · exact stringBody_unicode (unicodeEscape_unit ‹_› rest)
  · rw [List.append_assoc]
    exact stringBody_unicode (unicodeEscape_pair (by omega) rest)

theorem escapedChar_ne_nil (c : Char) : 0 < (escapedChar c).length := by
  unfold escapedChar
  repeat' split
  all_goals simp [unitEscape]

/-- An escaped text is read up to its closing quote. -/
theorem stringBody_text (s : List Char) (h : (s.flatMap escapedChar).length < fuel) :
    stringBody fuel read (s.flatMap escapedChar ++ '"' :: rest) =
      some (String.ofList (read.reverse ++ s), rest) := by
  induction s generalizing fuel read with
  | nil =>
    obtain ⟨fuel, rfl⟩ := Nat.exists_eq_succ_of_ne_zero (Nat.ne_of_gt h)
    simp [stringBody]
  | cons c s ih =>
    have hpos := escapedChar_ne_nil c
    rw [List.flatMap_cons, List.length_append] at h
    obtain ⟨fuel, rfl⟩ := Nat.exists_eq_succ_of_ne_zero (show fuel ≠ 0 by omega)
    rw [List.flatMap_cons, List.append_assoc, stringBody_escaped, ih (by omega)]
    simp

end Strings

section Numbers

variable {s rest tail : List Char} {negative : Bool} {d : Json} {fuel : Nat}

/-- The end of a text, or what stands behind a value inside a document. -/
inductive Stops : List Char → Prop where
  | nil : Stops []
  | comma (more) : Stops (',' :: more)
  | bracket (more) : Stops (']' :: more)
  | brace (more) : Stops ('\x7d' :: more)

theorem asciiDigits_append (h : Stops rest) (s : List Char) :
    asciiDigits (s ++ rest) = ((asciiDigits s).1, (asciiDigits s).2 ++ rest) := by
  induction s with
  | nil => cases h <;> rfl
  | cons c s ih =>
    unfold asciiDigits at ih ⊢
    obtain ⟨hdigits, htail⟩ := Prod.mk.inj ih
    cases hc : isAsciiDigit c with
    | true =>
      rw [List.cons_append, List.takeWhile_cons_of_pos hc, List.takeWhile_cons_of_pos hc,
        List.dropWhile_cons_of_pos hc, List.dropWhile_cons_of_pos hc, htail,
        List.filterMap_cons, List.filterMap_cons, hdigits]
    | false =>
      rw [List.cons_append, List.takeWhile_cons_of_neg (by simp [hc]),
        List.takeWhile_cons_of_neg (by simp [hc]), List.dropWhile_cons_of_neg (by simp [hc]),
        List.dropWhile_cons_of_neg (by simp [hc])]
      rfl

theorem wholePart_append (h : Stops rest) (s : List Char) :
    wholePart (s ++ rest) = ((wholePart s).1, (wholePart s).2 ++ rest) := by
  cases s with
  | nil => cases h <;> rfl
  | cons c s =>
    by_cases hc : c = '0'
    · subst hc
      rfl
    · have hdigits : ∀ t, wholePart (c :: t) = asciiDigits (c :: t) := by
        intro t
        rw [wholePart]
        exact fun _ e => absurd (List.cons.inj e).1 hc
      rw [List.cons_append, hdigits, hdigits]
      exact asciiDigits_append h (c :: s)

theorem fractionPart_append (h : Stops rest) (s : List Char) :
    fractionPart (s ++ rest) = ((fractionPart s).1, (fractionPart s).2 ++ rest) := by
  cases s with
  | nil => cases h <;> rfl
  | cons c s =>
    by_cases hc : c = '.'
    · subst hc
      rw [List.cons_append, fractionPart, fractionPart, asciiDigits_append h]
      cases hs : asciiDigits s with
      | mk ds tail => cases ds <;> rfl
    · have hnone : ∀ t, fractionPart (c :: t) = (none, c :: t) := by
        intro t
        rw [fractionPart]
        exact fun _ e => absurd (List.cons.inj e).1 hc
      rw [List.cons_append, hnone, hnone]
      rfl

theorem takeSign_append (h : Stops rest) (s : List Char) :
    Number.takeSign (s ++ rest) = ((Number.takeSign s).1, (Number.takeSign s).2 ++ rest) := by
  cases s with
  | nil => cases h <;> rfl
  | cons c s =>
    rw [List.cons_append, Number.takeSign.eq_def, Number.takeSign.eq_def]
    split <;> rename_i heq <;> simp_all

theorem exponentPart_append (h : Stops rest) (s : List Char) :
    exponentPart (s ++ rest) = ((exponentPart s).1, (exponentPart s).2 ++ rest) := by
  cases s with
  | nil => cases h <;> rfl
  | cons c s =>
    rw [List.cons_append, exponentPart, exponentPart]
    by_cases hc : c = 'e' ∨ c = 'E'
    · rw [if_pos hc, if_pos hc, takeSign_append h]
      dsimp only
      rw [asciiDigits_append h]
      cases hs : asciiDigits (Number.takeSign s).2 with
      | mk ds tail => cases ds <;> rfl
    · rw [if_neg hc, if_neg hc]
      rfl

/-- What stands behind a number does not change it. -/
theorem number_append (h : Stops rest) (hs : number negative s = some (d, tail)) :
    number negative (s ++ rest) = some (d, tail ++ rest) := by
  unfold number at hs ⊢
  rw [wholePart_append h]
  cases hwhole : wholePart s with
  | mk whole behind =>
    rw [hwhole] at hs
    cases whole with
    | nil => cases hs
    | cons w ws =>
      dsimp only at hs ⊢
      rw [fractionPart_append h]
      dsimp only
      rw [exponentPart_append h]
      split at hs
      · rename_i hfraction hexponent
        rw [hfraction, hexponent]
        dsimp only
        split at hs
        · cases hs
        · rename_i hlength
          rw [if_neg hlength]
          cases hs
          rfl
      · cases hs
        rfl

/-- The digits of an integer are read as a number. -/
theorem number_int {n : Int} (h : (Nat.toDigits 10 n.natAbs).length ≤ Number.maxIntDigits) :
    number (decide (n < 0)) (Nat.toDigits 10 n.natAbs) = some (.int n, []) := by
  let digits := Nat.toDigits 10 n.natAbs
  have hdigits : ∀ c ∈ digits, isAsciiDigit c = true := fun c hc => isAsciiDigit_toDigits hc
  have hrun : asciiDigits digits = (digits.filterMap asciiDigit?, []) := by
    rw [asciiDigits, List.takeWhile_eq_self_iff.mpr hdigits, List.dropWhile_eq_nil_iff.mpr hdigits]
  have hwhole : wholePart digits = (digits.filterMap asciiDigit?, []) := by
    by_cases hn : n.natAbs = 0
    · rw [show digits = ['0'] by simp [digits, hn]]
      rfl
    · obtain ⟨c, rest, hrest, hc⟩ := toDigits_start hn
      rw [← hrun, show digits = c :: rest from hrest, wholePart]
      exact fun _ e => absurd (List.cons.inj e).1 hc
  have hlength := length_filterMap_digits hdigits
  have hvalue := Number.signedInt_digits n
  rw [number, hwhole]
  cases hvalues : digits.filterMap asciiDigit? with
  | nil =>
    rw [hvalues] at hlength
    exact absurd hlength.symm (Nat.length_toDigits_pos).ne'
  | cons d ds =>
    rw [show Nat.toDigits 10 n.natAbs = digits from rfl, hvalues] at hvalue
    rw [hvalues] at hlength
    dsimp only [fractionPart, exponentPart]
    rw [if_neg (by rw [hlength]; exact Nat.not_lt.mpr h), hvalue]

end Numbers

section Values

variable {s rest : List Char} {c : Char} {fuel : Nat}

/-- The text of a document in characters. -/
def chars (d : Json) : List Char := d.text.toList

/-- The text is read back, whatever stands behind it. -/
def Reads (d : Json) : Prop := ∀ fuel rest, Stops rest → d.chars.length < fuel →
  value fuel (d.chars ++ rest) = some (d.ordered, rest)

theorem number_start {negative : Bool} {r : Json × List Char} (h : number negative s = some r) :
    ∃ c more, s = c :: more ∧ isAsciiDigit c = true := by
  cases s with
  | nil => cases h
  | cons c more =>
    refine ⟨c, more, rfl, ?_⟩
    by_cases hc : c = '0'
    · subst hc
      rfl
    · have hwhole : wholePart (c :: more) = asciiDigits (c :: more) := by
        rw [wholePart]
        exact fun _ e => absurd (List.cons.inj e).1 hc
      cases hdigit : isAsciiDigit c with
      | true => rfl
      | false =>
        have hnone : asciiDigits (c :: more) = ([], c :: more) := by
          rw [asciiDigits, List.takeWhile_cons_of_neg (by simp [hdigit]),
            List.dropWhile_cons_of_neg (by simp [hdigit])]
          rfl
        rw [number, hwhole, hnone] at h
        cases h

theorem value_digit (hc : isAsciiDigit c = true) (s : List Char) :
    value (fuel + 1) (c :: s) = number false (c :: s) ∧
      value (fuel + 1) ('-' :: c :: s) = number true (c :: s) := by
  have hc := mem_digits hc
  simp only [List.mem_cons, List.not_mem_nil, or_false] at hc
  rcases hc with rfl | rfl | rfl | rfl | rfl | rfl | rfl | rfl | rfl | rfl <;> exact ⟨rfl, rfl⟩

theorem reads_int {n : Int} (h : (Nat.toDigits 10 n.natAbs).length ≤ Number.maxIntDigits) :
    (Json.int n).Reads := by
  intro fuel rest hstop hfuel
  obtain ⟨fuel, rfl⟩ := Nat.exists_eq_succ_of_ne_zero (Nat.ne_of_gt (Nat.zero_lt_of_lt hfuel))
  have hnumber := number_append hstop (number_int h)
  obtain ⟨c, more, hmore, hc⟩ := number_start hnumber
  have hchars : (Json.int n).chars = (toString n).toList := rfl
  rw [hchars, Number.toList_int]
  split
  · rw [hmore, (value_digit hc more).1, ← hmore]
    rwa [decide_eq_false (by omega)] at hnumber
  · rw [List.cons_append, hmore, (value_digit hc more).2, ← hmore]
    rwa [decide_eq_true (by omega)] at hnumber

theorem word_ne_finite {negative : Bool} {m : Nat} {e : Int} {tail : List Char} :
    word s ≠ some (.float (.finite negative m e), tail) := by
  intro h
  obtain ⟨⟨w, d⟩, hin, hw⟩ := List.exists_of_findSome?_eq_some h
  obtain ⟨_, -, hd⟩ := Option.map_eq_some_iff.mp hw
  cases hd
  simp [words] at hin

/-- A decimal that its text is read as is read whatever stands behind it. -/
theorem reads_float {x : Binary64} (h : value 1 (floatText x).toList = some (.float x, [])) :
    (Json.float x).Reads := by
  intro fuel rest hstop hfuel
  obtain ⟨fuel, rfl⟩ := Nat.exists_eq_succ_of_ne_zero (Nat.ne_of_gt (Nat.zero_lt_of_lt hfuel))
  cases x with
  | nan => rfl
  | infinite negative => cases negative <;> rfl
  | finite negative m e =>
    have hchars : (Json.float (.finite negative m e)).chars =
      (floatText (.finite negative m e)).toList := rfl
    rw [hchars]
    generalize (floatText (.finite negative m e)).toList = s at h
    rw [value.eq_def] at h
    dsimp only at h
    split at h
    · obtain ⟨_, -, hd⟩ := Option.map_eq_some_iff.mp h
      cases hd
    · split at h
      · cases h
      · cases h
    · split at h
      · cases h
      · cases h
    · rename_i body
      rcases Option.or_eq_some_iff.mp h with hword | ⟨-, hnumber⟩
      · exact absurd hword word_ne_finite
      · obtain ⟨c, more, rfl, hc⟩ := number_start hnumber
        rw [List.cons_append, List.cons_append, (value_digit hc _).2]
        exact number_append hstop hnumber
    · rcases Option.or_eq_some_iff.mp h with hword | ⟨-, hnumber⟩
      · exact absurd hword word_ne_finite
      · obtain ⟨c, more, rfl, hc⟩ := number_start hnumber
        rw [List.cons_append, (value_digit hc _).1]
        exact number_append hstop hnumber

theorem stringText_chars (t : String) :
    (stringText t).toList = '"' :: (t.toList.flatMap escapedChar ++ ['"']) := by
  rw [stringText, String.toList_ofList]

theorem reads_str (t : String) : (Json.str t).Reads := by
  intro fuel rest hstop hfuel
  obtain ⟨fuel, rfl⟩ := Nat.exists_eq_succ_of_ne_zero (Nat.ne_of_gt (Nat.zero_lt_of_lt hfuel))
  have hchars : (Json.str t).chars = '"' :: (t.toList.flatMap escapedChar ++ ['"']) :=
    stringText_chars t
  have hbody : stringBody ((t.toList.flatMap escapedChar ++ '"' :: rest).length + 1) []
      (t.toList.flatMap escapedChar ++ '"' :: rest) = some (t, rest) := by
    rw [stringBody_text _ (by rw [List.length_append, List.length_cons]; omega),
      List.reverse_nil, List.nil_append, String.ofList_toList]
  have hstep : ∀ s, value (fuel + 1) ('"' :: s) =
      (stringBody (s.length + 1) [] s).map fun p => (.str p.1, p.2) := fun _ => rfl
  rw [hchars, List.cons_append, List.append_assoc, List.singleton_append, hstep, hbody]
  rfl

/-- Texts with commas between them. -/
def joined (l : List (List Char)) : List Char := [',', ' '].intercalate l

theorem joined_cons (s t : List Char) (l : List (List Char)) :
    joined (s :: t :: l) = s ++ ',' :: ' ' :: joined (t :: l) := by
  simp [joined]

theorem toList_commas (l : List String) :
    (", ".intercalate l).toList = joined (l.map String.toList) := String.toList_intercalate

theorem textItems_eq (items : List Json) : textItems items = items.map text := by
  induction items with
  | nil => rfl
  | cons d rest ih => rw [textItems, ih, List.map_cons]

theorem textFields_eq (fields : List (String × Json)) :
    textFields fields = fields.map fun e => (e.1, e.2.text) := by
  induction fields with
  | nil => rfl
  | cons e rest ih => rw [textFields, ih, List.map_cons]

theorem chars_arr (items : List Json) :
    (Json.arr items).chars = '[' :: (joined (items.map chars) ++ [']']) := by
  rw [chars, text, String.toList_append, String.toList_append, toList_commas, textItems_eq,
    List.map_map]
  rfl

def entryChars (e : String × Json) : List Char :=
  (stringText e.1).toList ++ ':' :: ' ' :: e.2.chars

theorem chars_obj (fields : List (String × Json)) :
    (Json.obj fields).chars = '\x7b' :: (joined ((byKey fields).map entryChars) ++ ['\x7d']) := by
  have hsorted : (textFields fields).mergeSort (fun a b => decide (a.1 ≤ b.1)) =
      (byKey fields).map fun e => (e.1, e.2.text) := by
    rw [textFields_eq, map_byKey]
    rfl
  have hentry : ∀ e : String × Json, (stringText e.1 ++ ": " ++ e.2.text).toList =
      entryChars e := by
    intro e
    rw [String.toList_append, String.toList_append, List.append_assoc]
    rfl
  rw [chars, text, hsorted, String.toList_append, String.toList_append, toList_commas,
    List.map_map, List.map_map]
  simp only [Function.comp_def, hentry]
  rfl

theorem Reads.start {d : Json} (h : d.Reads) : ∃ c more, d.chars = c :: more ∧
    c ∉ [' ', '\t', '\n', '\r', ']', '\x7d'] := by
  have hread := h (d.chars.length + 1) [] .nil (by omega)
  rw [List.append_nil] at hread
  cases hchars : d.chars with
  | nil =>
    rw [hchars] at hread
    cases hread
  | cons c more =>
    refine ⟨c, more, rfl, fun hc => ?_⟩
    rw [hchars] at hread
    simp only [List.mem_cons, List.not_mem_nil, or_false] at hc
    rcases hc with rfl | rfl | rfl | rfl | rfl | rfl <;> cases hread

theorem skipSpaces_start {more : List Char} (hc : c ∉ [' ', '\t', '\n', '\r', ']', '\x7d']) :
    skipSpaces (c :: more) = c :: more ∧ skipSpaces (' ' :: c :: more) = c :: more := by
  have hspace : isSpace c = false := by
    simp only [List.mem_cons, not_or] at hc
    simp [isSpace, hc]
  have hskip : skipSpaces (c :: more) = c :: more :=
    List.dropWhile_cons_of_neg (by simp [hspace])
  exact ⟨hskip, (List.dropWhile_cons_of_pos rfl).trans hskip⟩

/-- Behind a comma the items go on. -/
theorem itemsFrom_comma {d : Json} {more : List Char}
    (hc : c ∉ [' ', '\t', '\n', '\r', ']', '\x7d'])
    (h : value fuel s = some (d, ',' :: ' ' :: c :: more)) : itemsFrom (fuel + 1) s =
      (itemsFrom fuel (c :: more)).map fun p => (d :: p.1, p.2) := by
  rw [itemsFrom, h]
  exact congrArg (fun s => (itemsFrom fuel s).map fun p => (d :: p.1, p.2))
    (skipSpaces_start hc).2

theorem joined_start (c : Char) (more : List Char) (l : List (List Char)) :
    ∃ more', joined ((c :: more) :: l) = c :: more' := by
  cases l with
  | nil => exact ⟨more, List.intercalate_singleton⟩
  | cons t l => exact ⟨_, joined_cons (c :: more) t l⟩

/-- The items of a list are read. -/
theorem itemsFrom_text (rest : List Char) {items : List Json} (hne : items ≠ []) (h : ∀ d ∈ items, d.Reads)
    (hfuel : (joined (items.map chars)).length + 1 < fuel) :
    itemsFrom fuel (joined (items.map chars) ++ ']' :: rest) =
      some (items.map ordered, rest) := by
  induction items generalizing fuel with
  | nil => exact absurd rfl hne
  | cons d items ih =>
    obtain ⟨fuel, rfl⟩ := Nat.exists_eq_succ_of_ne_zero (Nat.ne_of_gt (Nat.zero_lt_of_lt hfuel))
    cases items with
    | nil =>
      have hjoined : joined ([d].map chars) = d.chars := List.intercalate_singleton
      rw [hjoined] at hfuel ⊢
      rw [itemsFrom, h d (by simp) fuel _ (.bracket rest) (by omega)]
      rfl
    | cons d' items =>
      obtain ⟨c, more, hmore, hc⟩ := (h d' (by simp)).start
      obtain ⟨more', hmore'⟩ := joined_start c more (items.map chars)
      rw [List.map_cons, List.map_cons, joined_cons, List.length_append, List.length_cons,
        List.length_cons] at hfuel
      have hfuel' : (joined ((d' :: items).map chars)).length + 1 < fuel := by
        rw [List.map_cons]
        omega
      have hrest := ih (by simp) (fun d hd => h d (by simp [hd])) hfuel'
      rw [List.map_cons, hmore, hmore', List.cons_append] at hrest
      have hfirst := h d (by simp) fuel (',' :: ' ' :: c :: (more' ++ ']' :: rest)) (.comma _)
        (by omega)
      rw [List.map_cons, List.map_cons, joined_cons, hmore, hmore', List.append_assoc,
        List.cons_append, List.cons_append, List.cons_append, itemsFrom_comma hc hfirst, hrest]
      rfl

/-- How reading goes on behind an entry. -/
def behindEntry (fuel : Nat) (read : List (String × Json)) (s : List Char) :
    Option (List (String × Json) × List Char) :=
  match skipSpaces s with
  | '\x7d' :: tail => some (read, tail)
  | ',' :: tail => entriesFrom fuel read (skipSpaces tail)
  | _ => none

/-- An entry is read, and then what stands behind it. -/
theorem entriesFrom_entry {read : List (String × Json)} {e : String × Json} {more : List Char}
    (hd : e.2.Reads) (hstop : Stops more) (hfuel : (entryChars e).length < fuel) :
    entriesFrom (fuel + 1) read (entryChars e ++ more) =
      behindEntry fuel (Table.putEntry e.1 e.2.ordered read) more := by
  obtain ⟨c, rest, hrest, hc⟩ := hd.start
  let key := e.1.toList.flatMap escapedChar
  let s := key ++ '"' :: ':' :: ' ' :: (e.2.chars ++ more)
  have hchars : entryChars e ++ more = '"' :: s := by
    simp [entryChars, stringText_chars, s, key]
  have hlength : e.2.chars.length < fuel := by
    rw [entryChars, List.length_append, List.length_cons, List.length_cons] at hfuel
    omega
  have hkey : stringBody (s.length + 1) [] s =
      some (e.1, ':' :: ' ' :: (e.2.chars ++ more)) := by
    have hfuel' : key.length < s.length + 1 := by
      rw [List.length_append, List.length_cons]
      omega
    rw [stringBody_text _ hfuel', List.reverse_nil, List.nil_append, String.ofList_toList]
  have hvalue : value fuel (skipSpaces (' ' :: (e.2.chars ++ more))) =
      some (e.2.ordered, more) := by
    rw [hrest, List.cons_append, (skipSpaces_start hc).2, ← List.cons_append, ← hrest]
    exact hd fuel more hstop hlength
  have hcolon : ∀ tail, skipSpaces (':' :: tail) = ':' :: tail := fun _ => rfl
  rw [hchars, entriesFrom, hkey]
  simp only [hcolon, hvalue]
  rfl

theorem entryChars_start (e : String × Json) : ∃ more, entryChars e = '"' :: more := by
  rw [entryChars, stringText_chars]
  exact ⟨_, rfl⟩

/-- The entries of a mapping are read. -/
theorem entriesFrom_text (rest : List Char) {fields : List (String × Json)} (hne : fields ≠ [])
    (h : ∀ e ∈ fields, e.2.Reads) {read : List (String × Json)}
    (hkeys : ((read ++ fields).map Prod.fst).Nodup)
    (hfuel : (joined (fields.map entryChars)).length + 1 < fuel) :
    entriesFrom fuel read (joined (fields.map entryChars) ++ '\x7d' :: rest) =
      some (read ++ fields.map fun e => (e.1, e.2.ordered), rest) := by
  induction fields generalizing fuel read with
  | nil => exact absurd rfl hne
  | cons e fields ih =>
    obtain ⟨fuel, rfl⟩ := Nat.exists_eq_succ_of_ne_zero (Nat.ne_of_gt (Nat.zero_lt_of_lt hfuel))
    have hput : Table.putEntry e.1 e.2.ordered read = read ++ [(e.1, e.2.ordered)] := by
      rw [List.map_append, List.nodup_append] at hkeys
      exact Table.putEntry_new fun hin => hkeys.2.2 _ hin e.1 (by simp) rfl
    cases fields with
    | nil =>
      have hjoined : joined ([e].map entryChars) = entryChars e := List.intercalate_singleton
      rw [hjoined] at hfuel ⊢
      rw [entriesFrom_entry (h e (by simp)) (.brace rest) (by omega), hput]
      rfl
    | cons e' fields =>
      obtain ⟨more, hmore⟩ := entryChars_start e'
      obtain ⟨more', hmore'⟩ := joined_start '"' more (fields.map entryChars)
      rw [List.map_cons, List.map_cons, joined_cons, List.length_append, List.length_cons,
        List.length_cons] at hfuel
      have hkeys' : (((read ++ [(e.1, e.2.ordered)]) ++ e' :: fields).map Prod.fst).Nodup := by
        simpa using hkeys
      have hfuel' : (joined ((e' :: fields).map entryChars)).length + 1 < fuel := by
        rw [List.map_cons]
        omega
      have hrest := ih (by simp) (fun d hd => h d (by simp [hd])) hkeys' hfuel'
      have hbehind : ∀ read : List (String × Json), behindEntry fuel read
          (',' :: ' ' :: '"' :: (more' ++ '\x7d' :: rest)) =
            entriesFrom fuel read ('"' :: (more' ++ '\x7d' :: rest)) := fun _ => rfl
      rw [List.map_cons, hmore, hmore', List.cons_append] at hrest
      rw [List.map_cons, List.map_cons, joined_cons, hmore, hmore', List.append_assoc,
        List.cons_append, List.cons_append, List.cons_append,
        entriesFrom_entry (h e (by simp)) (.comma _) (by omega), hput, hbehind, hrest]
      simp

/-- How reading goes on behind the bracket that opens a list. -/
def behindBracket (fuel : Nat) (s : List Char) : Option (Json × List Char) :=
  match skipSpaces s with
  | ']' :: tail => some (.arr [], tail)
  | rest => (itemsFrom fuel rest).map fun p => (.arr p.1, p.2)

theorem value_arr {more : List Char} (hc : c ∉ [' ', '\t', '\n', '\r', ']', '\x7d']) :
    value (fuel + 1) ('[' :: c :: more) =
      (itemsFrom fuel (c :: more)).map fun p => (.arr p.1, p.2) := by
  have hstep : value (fuel + 1) ('[' :: c :: more) = behindBracket fuel (c :: more) := rfl
  rw [hstep, behindBracket, (skipSpaces_start hc).1]
  split
  · rename_i heq
    exact absurd (by simp [(List.cons.inj heq).1]) hc
  · rfl

/-- A document whose scalars are read back and whose mappings have no key twice. -/
inductive Legible : Json → Prop where
  | null : Legible .null
  | bool (b) : Legible (.bool b)
  | int {n} : (Nat.toDigits 10 n.natAbs).length ≤ Number.maxIntDigits → Legible (.int n)
  | float {x} : value 1 (floatText x).toList = some (.float x, []) → Legible (.float x)
  | str (t) : Legible (.str t)
  | arr {items} : (∀ d ∈ items, Legible d) → Legible (.arr items)
  | obj {fields} : (fields.map Prod.fst).Nodup → (∀ e ∈ fields, Legible e.2) →
      Legible (.obj fields)

theorem Legible.reads {d : Json} (h : d.Legible) : d.Reads := by
  induction h with
  | null =>
    intro fuel rest _ hfuel
    obtain ⟨fuel, rfl⟩ := Nat.exists_eq_succ_of_ne_zero (Nat.ne_of_gt (Nat.zero_lt_of_lt hfuel))
    rfl
  | bool b =>
    intro fuel rest _ hfuel
    obtain ⟨fuel, rfl⟩ := Nat.exists_eq_succ_of_ne_zero (Nat.ne_of_gt (Nat.zero_lt_of_lt hfuel))
    cases b <;> rfl
  | int hn => exact reads_int hn
  | float hx => exact reads_float hx
  | str t => exact reads_str t
  | @arr items _ ih =>
    intro fuel rest _ hfuel
    obtain ⟨fuel, rfl⟩ := Nat.exists_eq_succ_of_ne_zero (Nat.ne_of_gt (Nat.zero_lt_of_lt hfuel))
    rw [chars_arr] at hfuel ⊢
    rw [ordered, orderedItems_eq, List.cons_append, List.append_assoc]
    simp only [List.length_cons, List.length_append, List.length_nil] at hfuel
    cases items with
    | nil => rfl
    | cons d items =>
      obtain ⟨c, more, hmore, hc⟩ := (ih d (by simp)).start
      obtain ⟨more', hmore'⟩ := joined_start c more (items.map chars)
      have hfuel' : (joined ((d :: items).map chars)).length + 1 < fuel := by omega
      have hitems := itemsFrom_text rest (by simp) ih hfuel'
      rw [List.map_cons, hmore, hmore', List.cons_append] at hitems
      rw [List.map_cons, hmore, hmore', List.cons_append, value_arr hc, List.singleton_append,
        hitems]
      rfl
  | @obj fields hkeys _ ih =>
    intro fuel rest _ hfuel
    obtain ⟨fuel, rfl⟩ := Nat.exists_eq_succ_of_ne_zero (Nat.ne_of_gt (Nat.zero_lt_of_lt hfuel))
    rw [chars_obj] at hfuel ⊢
    rw [ordered, orderedFields_eq, ← map_byKey, List.cons_append, List.append_assoc]
    simp only [List.length_cons, List.length_append, List.length_nil] at hfuel
    have hread : ∀ e ∈ byKey fields, e.2.Reads :=
      fun e he => ih e ((byKey_perm fields).mem_iff.mp he)
    have hnodup : (([] ++ byKey fields).map Prod.fst).Nodup :=
      ((byKey_perm fields).map Prod.fst).nodup_iff.mpr hkeys
    generalize byKey fields = sorted at hfuel hread hnodup
    cases sorted with
    | nil => rfl
    | cons e fields =>
      obtain ⟨more, hmore⟩ := entryChars_start e
      obtain ⟨more', hmore'⟩ := joined_start '"' more (fields.map entryChars)
      have hfuel' : (joined ((e :: fields).map entryChars)).length + 1 < fuel := by omega
      have hentries := entriesFrom_text rest (by simp) hread hnodup hfuel'
      have hstep : ∀ s, value (fuel + 1) ('\x7b' :: '"' :: s) =
          (entriesFrom fuel [] ('"' :: s)).map fun p => (.obj p.1, p.2) := fun _ => rfl
      rw [List.map_cons, hmore, hmore', List.cons_append] at hentries
      rw [List.map_cons, hmore, hmore', List.cons_append, hstep, List.singleton_append, hentries]
      rfl

/-- A legible document is read back from its text. -/
theorem read?_text {d : Json} (h : d.Legible) : read? d.text = some d.ordered := by
  obtain ⟨c, more, hmore, hc⟩ := h.reads.start
  have hread := h.reads (2 * d.chars.length + 2) [] .nil (by omega)
  have hskip : skipSpaces d.chars = d.chars := by
    rw [hmore]
    exact (skipSpaces_start hc).1
  rw [List.append_nil] at hread
  unfold read?
  rw [show d.text.toList = d.chars from rfl]
  dsimp only
  rw [hskip, hread]
  rfl

end Values

end Json

end ResourceVersions
