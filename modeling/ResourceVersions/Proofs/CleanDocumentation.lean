import ResourceVersions.Proofs.WrappedLines
import ResourceVersions.Source.Docstring

/-! # Clean documentation

Cleaning puts a space in place of every tag and three single quotes in place of three double ones,
and doubles the backslashes. It makes no difference whether backslashes are doubled before or after
quotes are replaced, nor whether words are split off before or after it, so a text can be followed
through all of it. -/
namespace ResourceVersions

namespace Text

/-- A text, and the text with a filler for every part of a kind: parts are looked for from the left,
and the search goes on behind a part that was found. -/
inductive Replaced (Part : List Char → Prop) (filler : List Char) : List Char → List Char → Prop
  | nil : Replaced Part filler [] []
  | replaced {part rest new} : Part part → Replaced Part filler rest new →
      Replaced Part filler (part ++ rest) (filler ++ new)
  | kept {c rest new} : (∀ part behind, Part part → c :: rest ≠ part ++ behind) →
      Replaced Part filler rest new → Replaced Part filler (c :: rest) (c :: new)

/-- No part is empty, and at most one starts at any place. -/
structure Findable (Part : List Char → Prop) : Prop where
  ne_nil : ∀ part, Part part → part ≠ []
  unique : ∀ part part' behind behind', Part part → Part part' →
    part ++ behind = part' ++ behind' → part = part'

variable {Part : List Char → Prop} {filler s new new' : List Char}

theorem Replaced.unique (hpart : Findable Part) (h : Replaced Part filler s new)
    (h' : Replaced Part filler s new') : new = new' := by
  induction h generalizing new' with
  | nil =>
    generalize hs : ([] : List Char) = s at h'
    cases h' with
    | nil => rfl
    | replaced hp _ => exact absurd (List.append_eq_nil_iff.mp hs.symm).1 (hpart.ne_nil _ hp)
    | kept _ _ => cases hs
  | @replaced part rest new hp _ ih =>
    generalize hs : part ++ rest = s at h'
    cases h' with
    | nil => exact absurd (List.append_eq_nil_iff.mp hs).1 (hpart.ne_nil _ hp)
    | @replaced part' rest' new' hp' h' =>
      obtain rfl := hpart.unique part part' rest rest' hp hp' hs
      obtain rfl := List.append_cancel_left hs
      rw [ih h']
    | kept hno _ => exact absurd hs.symm (hno part rest hp)
  | @kept c rest new hno _ ih =>
    generalize hs : c :: rest = s at h'
    cases h' with
    | nil => cases hs
    | @replaced part' rest' new' hp' _ => exact absurd hs (hno part' rest' hp')
    | kept _ h' =>
      cases hs
      rw [ih h']

theorem replaced_iff (hpart : Findable Part) (h : Replaced Part filler s new) :
    Replaced Part filler s new' ↔ new' = new :=
  ⟨fun h' => h'.unique hpart h, fun heq => heq ▸ h⟩

end Text

namespace Source

open Text

variable {c d : Char} {s rest w part : List Char}

section Tags

/-- A tag is something between angle brackets. -/
def IsTag (part : List Char) : Prop :=
  ∃ inside, inside ≠ [] ∧ '>' ∉ inside ∧ part = '<' :: inside ++ ['>']

theorem findable_tag : Findable IsTag where
  ne_nil := by
    rintro _ ⟨inside, -, -, rfl⟩
    simp
  unique := by
    rintro _ _ behind behind' ⟨inside, -, hin, rfl⟩ ⟨inside', -, hin', rfl⟩ heq
    have hsame : inside ++ '>' :: behind = inside' ++ '>' :: behind' := by simpa using heq
    have hcut : cut? '>' (inside ++ '>' :: behind) = some (inside, behind) :=
      cut?_eq_some_iff.mpr ⟨rfl, hin⟩
    rw [hsame, cut?_eq_some_iff.mpr ⟨rfl, hin'⟩] at hcut
    cases hcut
    rfl

theorem afterTag?_eq_some_iff :
    afterTag? s = some rest ↔ ∃ part, IsTag part ∧ s = part ++ rest := by
  constructor
  · intro h
    unfold afterTag? at h
    split at h
    · rename_i c behind
      split at h
      · cases h
      · rename_i hc
        obtain ⟨⟨before, after⟩, hcut, rfl⟩ := Option.map_eq_some_iff.mp h
        obtain ⟨rfl, hin⟩ := cut?_eq_some_iff.mp hcut
        refine ⟨'<' :: (c :: before) ++ ['>'], ⟨c :: before, by simp, ?_, rfl⟩, by simp⟩
        exact fun hmem => (List.mem_cons.mp hmem).elim (fun heq => hc heq.symm) hin
    · cases h
  · rintro ⟨_, ⟨inside, hne, hin, rfl⟩, rfl⟩
    obtain ⟨c, inside, rfl⟩ := List.exists_cons_of_ne_nil hne
    have hc : c ≠ '>' := fun heq => hin (heq ▸ List.mem_cons_self)
    have hin : '>' ∉ inside := fun hmem => hin (List.mem_cons_of_mem c hmem)
    have hcut : cut? '>' (inside ++ '>' :: rest) = some (inside, rest) :=
      cut?_eq_some_iff.mpr ⟨rfl, hin⟩
    simp [afterTag?, hc, hcut]

theorem replaced_dropTags (s : List Char) : Replaced IsTag [' '] s (dropTags s) := by
  fun_induction dropTags s with
  | case1 => exact .nil
  | case2 c rest behind hafter ih =>
    obtain ⟨part, hpart, heq⟩ := afterTag?_eq_some_iff.mp hafter
    rw [heq]
    exact .replaced hpart ih
  | case3 c rest hafter ih =>
    refine .kept (fun part behind hpart heq => ?_) ih
    rw [afterTag?_eq_some_iff.mpr ⟨part, hpart, heq⟩] at hafter
    cases hafter

end Tags

section Quotes

/-- Three double quotes end a docstring. -/
def quotes : List Char := ['"', '"', '"']

theorem findable_quotes : Findable (· = quotes) where
  ne_nil := by
    rintro _ rfl
    simp [quotes]
  unique := by
    rintro _ _ _ _ rfl rfl _
    rfl

theorem replaced_replaceQuotes (s : List Char) :
    Replaced (· = quotes) ['\'', '\'', '\''] s (replaceQuotes s) := by
  fun_induction replaceQuotes s with
  | case1 rest ih =>
    exact @Replaced.replaced (· = quotes) _ quotes rest _ rfl ih
  | case2 c rest hno ih =>
    refine .kept ?_ ih
    rintro _ behind rfl heq
    cases heq
    exact hno behind rfl rfl
  | case3 => exact .nil

/-- Double quotes that are left have been there. -/
theorem replaceQuotes_eq_cons (h : replaceQuotes s = '"' :: rest) :
    ∃ s', s = '"' :: s' ∧ rest = replaceQuotes s' := by
  fun_cases replaceQuotes s with
  | case1 s => cases h
  | case2 c s hno =>
    rw [replaceQuotes] at h
    · cases h
      exact ⟨s, rfl, rfl⟩
    · exact hno
  | case3 => cases h

/-- No three double quotes are left, not even across two replacements. -/
theorem quotes_not_infix_replaceQuotes (s : List Char) : ¬ quotes <:+: replaceQuotes s := by
  have hstart : ∀ s, ¬ quotes <+: replaceQuotes s := by
    rintro s ⟨rest, heq⟩
    obtain ⟨s₁, rfl, h₁⟩ := replaceQuotes_eq_cons heq.symm
    obtain ⟨s₂, rfl, h₂⟩ := replaceQuotes_eq_cons h₁.symm
    obtain ⟨s₃, rfl, -⟩ := replaceQuotes_eq_cons h₂.symm
    cases heq
  intro h
  fun_induction replaceQuotes s with
  | case1 rest ih =>
    refine ih ?_
    simpa [quotes, List.infix_cons_iff] using h
  | case2 c rest hno ih =>
    rcases List.infix_cons_iff.mp h with hprefix | hin
    · refine hstart (c :: rest) ?_
      rwa [replaceQuotes]
      exact hno
    · exact ih hin
  | case3 => simp [quotes] at h

end Quotes

section Backslashes

theorem doubleBackslashes_backslash (s : List Char) :
    doubleBackslashes ('\\' :: s) = '\\' :: '\\' :: doubleBackslashes s := rfl

theorem doubleBackslashes_cons (hc : c ≠ '\\') (s : List Char) :
    doubleBackslashes (c :: s) = c :: doubleBackslashes s := by
  rw [doubleBackslashes, List.flatMap_cons, if_neg hc]
  rfl

theorem doubleBackslashes_append (a b : List Char) :
    doubleBackslashes (a ++ b) = doubleBackslashes a ++ doubleBackslashes b :=
  List.flatMap_append

theorem doubleBackslashes_eq_nil_iff : doubleBackslashes s = [] ↔ s = [] := by
  cases s with
  | nil => simp [doubleBackslashes]
  | cons c s =>
    by_cases hc : c = '\\'
    · simp [hc, doubleBackslashes_backslash]
    · simp [doubleBackslashes_cons hc]

/-- Doubling backslashes leaves a start without backslashes alone. -/
theorem prefix_doubleBackslashes_iff (hw : '\\' ∉ w) :
    w <+: doubleBackslashes s ↔ w <+: s := by
  induction w generalizing s with
  | nil => simp
  | cons d w ih =>
    obtain ⟨hd, hw⟩ := not_or.mp (mt List.mem_cons.mpr hw)
    cases s with
    | nil => simp [doubleBackslashes]
    | cons c s =>
      by_cases hc : c = '\\'
      · rw [hc, doubleBackslashes_backslash]
        simp [List.cons_prefix_cons, Ne.symm hd]
      · rw [doubleBackslashes_cons hc, List.cons_prefix_cons, List.cons_prefix_cons, ih hw]

theorem quotes_prefix_doubleBackslashes_iff :
    quotes <+: doubleBackslashes s ↔ quotes <+: s :=
  prefix_doubleBackslashes_iff (by simp [quotes])

/-- Quotes are replaced alike before and after backslashes are doubled. -/
theorem replaceQuotes_doubleBackslashes (s : List Char) :
    replaceQuotes (doubleBackslashes s) = doubleBackslashes (replaceQuotes s) := by
  have hkeep : ∀ {c s}, ¬ quotes <+: c :: s → replaceQuotes (c :: s) = c :: replaceQuotes s := by
    intro c s hno
    rw [replaceQuotes]
    rintro rest rfl rfl
    exact hno ⟨rest, rfl⟩
  fun_induction replaceQuotes s with
  | case1 rest ih =>
    have hquote : ∀ s, doubleBackslashes ('"' :: s) = '"' :: doubleBackslashes s :=
      doubleBackslashes_cons (by decide)
    have happly : ∀ s, doubleBackslashes ('\'' :: s) = '\'' :: doubleBackslashes s :=
      doubleBackslashes_cons (by decide)
    simp only [hquote, happly, replaceQuotes, ih]
  | case2 c rest hno ih =>
    by_cases hc : c = '\\'
    · subst hc
      rw [doubleBackslashes_backslash, doubleBackslashes_backslash, hkeep, hkeep, ih]
      all_goals simp [quotes, List.cons_prefix_cons]
    · have hstart : ¬ quotes <+: c :: rest := by
        rintro ⟨behind, heq⟩
        cases heq
        exact hno behind rfl rfl
      have hstart' : ¬ quotes <+: c :: doubleBackslashes rest := by
        rwa [← doubleBackslashes_cons hc, quotes_prefix_doubleBackslashes_iff]
      rw [doubleBackslashes_cons hc, doubleBackslashes_cons hc, hkeep hstart', ih]
  | case3 => rfl

theorem quotes_not_infix_doubleBackslashes (h : ¬ quotes <:+: s) :
    ¬ quotes <:+: doubleBackslashes s := by
  induction s with
  | nil => exact h
  | cons c s ih =>
    rw [List.infix_cons_iff, not_or] at h
    obtain ⟨hstart, hrest⟩ := h
    by_cases hc : c = '\\'
    · rw [hc, doubleBackslashes_backslash]
      simp [List.infix_cons_iff, List.cons_prefix_cons, quotes] at hrest ih ⊢
      exact ih hrest
    · rw [doubleBackslashes_cons hc, List.infix_cons_iff, not_or, ← doubleBackslashes_cons hc,
        quotes_prefix_doubleBackslashes_iff]
      exact ⟨hstart, ih hrest⟩

theorem blank_ne_backslash (hc : isBlank c = true) : c ≠ '\\' := by
  rintro rfl
  revert hc
  decide

/-- Words are split off alike before and after backslashes are doubled. -/
theorem blankParts_doubleBackslashes (s : List Char) :
    blankParts (doubleBackslashes s) = (blankParts s).map doubleBackslashes := by
  have hblankless : ∀ {s}, Blankless s →
      blankParts (doubleBackslashes s) = (blankParts s).map doubleBackslashes := by
    intro s hs
    by_cases hne : s = []
    · subst hne
      rfl
    · rw [blankParts_blankless hs hne, blankParts_blankless]
      · rfl
      · intro c hc
        obtain ⟨d, hd, hcd⟩ := List.mem_flatMap.mp hc
        split at hcd
        · simp only [List.mem_cons, List.not_mem_nil, or_false, or_self] at hcd
          rw [hcd]
          decide
        · rw [List.mem_singleton.mp hcd]
          exact hs d hd
      · rwa [Ne, doubleBackslashes_eq_nil_iff]
  induction s using blank_induction with
  | blankless s hs => exact hblankless hs
  | blank a c b ha hc ih =>
    rw [doubleBackslashes_append, doubleBackslashes_cons (blank_ne_backslash hc),
      blankParts_append hc, blankParts_append hc, List.map_append, hblankless ha, ih]

end Backslashes

end Source

end ResourceVersions
