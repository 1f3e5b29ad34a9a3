import ResourceVersions.Text.Wrapped
import Mathlib.Data.List.Chain
import Mathlib.Tactic.Common

/-! # Words on lines

Wrapping keeps the words of a text and their order. A line that is too long holds a single word,
and no line could have taken the first word of the next one. There is one such distribution of the
words only, so this says all about wrapping. -/
namespace ResourceVersions.Text

variable {margin : String} {width : Int} {ws line : List String} {lines lines' : List (List String)}

/-- The parts of a text between blanks. -/
def blankParts (s : List Char) : List (List Char) := (s.splitOnP isBlank).filter (! ·.isEmpty)

/-- A text without blanks. -/
def Blankless (s : List Char) : Prop := ∀ c ∈ s, isBlank c = false

/-- Texts by what stands in front of their first blank. -/
@[elab_as_elim]
theorem blank_induction {motive : List Char → Prop} (blankless : ∀ s, Blankless s → motive s)
    (blank : ∀ a c b, Blankless a → isBlank c = true → motive b → motive (a ++ c :: b))
    (s : List Char) : motive s := by
  have hbegun : ∀ s a, Blankless a → motive (a ++ s) := by
    intro s
    induction s with
    | nil =>
      intro a ha
      rw [List.append_nil]
      exact blankless a ha
    | cons c s ih =>
      intro a ha
      by_cases hc : isBlank c = true
      · exact blank a c s ha hc (ih [] nofun)
      · rw [← List.singleton_append, ← List.append_assoc]
        refine ih (a ++ [c]) fun d hd => ?_
        rcases List.mem_append.mp hd with hd | hd
        · exact ha d hd
        · obtain rfl := List.mem_singleton.mp hd
          simpa using hc
  exact hbegun s [] nofun

section Words

variable {c : Char} {s w word : List Char}

theorem blankParts_blankless (h : Blankless s) (hne : s ≠ []) : blankParts s = [s] := by
  rw [blankParts, List.splitOnP_eq_singleton h]
  simp [hne]

theorem blankParts_append (hc : isBlank c = true) (a b : List Char) :
    blankParts (a ++ c :: b) = blankParts a ++ blankParts b := by
  rw [blankParts, List.splitOnP_append_cons a b hc, List.filter_append]
  rfl

/-- A part is not empty, holds no blank and stands in the text as it is. -/
theorem mem_blankParts (hw : w ∈ blankParts s) : w ≠ [] ∧ Blankless w ∧ w <:+: s := by
  have hfirst : ∀ a, Blankless a → w ∈ blankParts a → w = a ∧ a ≠ [] := by
    intro a ha hw
    by_cases hne : a = []
    · subst hne
      cases hw
    · rw [blankParts_blankless ha hne] at hw
      exact ⟨List.mem_singleton.mp hw, hne⟩
  induction s using blank_induction with
  | blankless s hs =>
    obtain ⟨rfl, hne⟩ := hfirst s hs hw
    exact ⟨hne, hs, List.infix_rfl⟩
  | blank a c b ha hc ih =>
    rw [blankParts_append hc] at hw
    rcases List.mem_append.mp hw with hw | hw
    · obtain ⟨rfl, hne⟩ := hfirst a ha hw
      exact ⟨hne, ha, (List.prefix_append w (c :: b)).isInfix⟩
    · obtain ⟨hne, hblankless, hin⟩ := ih hw
      have hrest : b <:+ a ++ c :: b := List.suffix_append_of_suffix (List.suffix_cons c b)
      exact ⟨hne, hblankless, hin.trans hrest.isInfix⟩

/-- Characters that are not blank belong to the word begun before. -/
theorem wordsFrom_blankless (h : Blankless s) (word rest : List Char) :
    wordsFrom word (s ++ rest) = wordsFrom (s.reverse ++ word) rest := by
  induction s generalizing word with
  | nil => rfl
  | cons c s ih =>
    obtain ⟨hc, hs⟩ := List.forall_mem_cons.mp h
    rw [List.cons_append, wordsFrom, if_neg (by simp [hc]), ih hs]
    simp

/-- The words of a text are what stands between its blanks. -/
theorem words_eq (text : String) : words text = (blankParts text.toList).map String.ofList := by
  have hparts : ∀ s, wordsFrom [] s = blankParts s := by
    intro s
    induction s using blank_induction with
    | blankless s hs =>
      have hrun := wordsFrom_blankless hs [] []
      rw [List.append_nil, List.append_nil] at hrun
      rw [hrun, wordsFrom]
      by_cases hne : s = []
      · subst hne
        rfl
      · rw [blankParts_blankless hs hne]
        simp [hne]
    | blank a c b ha hc ih =>
      rw [wordsFrom_blankless ha, List.append_nil, wordsFrom, if_pos hc, ih, blankParts_append hc]
      by_cases hne : a = []
      · subst hne
        rfl
      · rw [blankParts_blankless ha hne]
        simp [hne]
  rw [words, hparts]

end Words

/-- A line of words: they stand behind the margin, single spaces between them. -/
def lineText (margin : String) (line : List String) : String := margin ++ " ".intercalate line

/-- Words on lines, each line as full as it can be. -/
structure Packing (margin : String) (width : Int) (ws : List String)
    (lines : List (List String)) : Prop where
  filled : ∀ line ∈ lines, line ≠ []
  lossless : lines.flatten = ws
  bounded : ∀ line ∈ lines, width < (lineText margin line).length → ∃ w, line = [w]
  greedy : lines.IsChain fun line next =>
    ∀ w ∈ next.head?, width < (lineText margin line ++ " " ++ w).length

section Line

theorem lineText_concat (hline : line ≠ []) (w : String) :
    lineText margin (line ++ [w]) = lineText margin line ++ " " ++ w := by
  have hjoin : ∀ l : List String, l ≠ [] →
      " ".intercalate (l ++ [w]) = " ".intercalate l ++ " " ++ w := by
    intro l hl
    induction l with
    | nil => exact absurd rfl hl
    | cons v l ih =>
      cases l with
      | nil => simp
      | cons u l =>
        rw [List.cons_append, List.cons_append, String.intercalate_cons_cons,
          String.intercalate_cons_cons, ← List.cons_append, ih (by simp)]
        simp only [String.append_assoc]
  rw [lineText, hjoin line hline, lineText]
  simp only [String.append_assoc]

/-- More words make a line no shorter. -/
theorem length_lineText_le (hline : line ≠ []) (more : List String) :
    (lineText margin line).length ≤ (lineText margin (line ++ more)).length := by
  induction more generalizing line with
  | nil => rw [List.append_nil]
  | cons w more ih =>
    have hlonger : (lineText margin (line ++ [w])).length ≤
        (lineText margin (line ++ [w] ++ more)).length := ih (by simp)
    rw [List.append_assoc, List.singleton_append, lineText_concat hline] at hlonger
    simp only [String.length_append] at hlonger
    omega

theorem fits_iff (w : String) :
    fits margin.length width line w = true ↔
      ((lineText margin line ++ " " ++ w).length : Int) ≤ width := by
  have hspace : " ".length = 1 := rfl
  simp only [fits, lineText, decide_eq_true_eq, String.length_append, hspace]
  omega

end Line

section Pack

/-- A line that was begun keeps its first word. -/
theorem packFrom_head (margin : String) (width : Int) (w : String) (line ws : List String) :
    ∃ more others, packFrom margin.length width (w :: line) ws = (w :: more) :: others := by
  induction ws generalizing line with
  | nil => exact ⟨line, [], rfl⟩
  | cons v ws ih =>
    rw [packFrom]
    split
    · exact ih (line ++ [v])
    · exact ⟨line, _, rfl⟩

/-- The line begun before and the words to come are packed, if that line is not too long. -/
theorem packing_packFrom (hline : line ≠ [])
    (hlong : width < (lineText margin line).length → ∃ w, line = [w]) :
    Packing margin width (line ++ ws) (packFrom margin.length width line ws) := by
  induction ws generalizing line with
  | nil =>
    rw [packFrom, if_neg (by simpa using hline), List.append_nil]
    exact ⟨by simpa using hline, by simp, by simpa using hlong, .singleton _⟩
  | cons w ws ih =>
    rw [packFrom]
    split
    · rename_i hfits
      have hfits : fits margin.length width line w = true := by simpa [hline] using hfits
      have hshort := (fits_iff w).mp hfits
      rw [← lineText_concat hline] at hshort
      have hpacking : Packing margin width (line ++ [w] ++ ws) _ :=
        ih (by simp) fun hwide => by omega
      rwa [List.append_assoc, List.singleton_append] at hpacking
    · rename_i hfull
      have hfull : ¬ fits margin.length width line w = true := by
        intro hfits
        exact hfull (by simp [hfits])
      have hnext : Packing margin width (w :: ws) (packFrom margin.length width [w] ws) :=
        ih (by simp) fun _ => ⟨w, rfl⟩
      obtain ⟨more, others, hhead⟩ := packFrom_head margin width w [] ws
      refine ⟨?_, ?_, ?_, ?_⟩
      · exact List.forall_mem_cons.mpr ⟨hline, hnext.filled⟩
      · rw [List.flatten_cons, hnext.lossless]
      · exact List.forall_mem_cons.mpr ⟨hlong, hnext.bounded⟩
      · refine List.isChain_cons.mpr ⟨fun next hin v hv => ?_, hnext.greedy⟩
        rw [hhead] at hin
        obtain rfl : w :: more = next := by simpa using hin
        obtain rfl : w = v := by simpa using hv
        rw [fits_iff] at hfull
        omega

theorem packing_pack (margin : String) (width : Int) (ws : List String) :
    Packing margin width ws (packFrom margin.length width [] ws) := by
  cases ws with
  | nil => exact ⟨by simp [packFrom], by simp [packFrom], by simp [packFrom], .nil⟩
  | cons w ws =>
    have hbegun : [w] ≠ [] := by simp
    exact packing_packFrom hbegun fun _ => ⟨w, rfl⟩

end Pack

namespace Packing

theorem tail (h : Packing margin width ws (line :: lines)) :
    Packing margin width lines.flatten lines where
  filled := (List.forall_mem_cons.mp h.filled).2
  lossless := rfl
  bounded := (List.forall_mem_cons.mp h.bounded).2
  greedy := (List.isChain_cons.mp h.greedy).2

/-- A line of one packing does not go on in another. -/
theorem stops {more : List String} {others : List (List String)}
    (h : Packing margin width ws (line :: lines))
    (h' : Packing margin width ws ((line ++ more) :: others)) : more = [] := by
  by_contra hmore
  obtain ⟨w, rest, rfl⟩ := List.exists_cons_of_ne_nil hmore
  have hline : line ≠ [] := h.filled line (by simp)
  have hflat : lines.flatten = w :: rest ++ others.flatten := by
    have hboth := h.lossless.trans h'.lossless.symm
    rw [List.flatten_cons, List.flatten_cons, List.append_assoc] at hboth
    exact List.append_cancel_left hboth
  -- the next line of the first packing begins with the word that the second one has added
  have hwide : width < (lineText margin (line ++ [w])).length := by
    cases lines with
    | nil => cases hflat
    | cons next lines =>
      have hnext : next ≠ [] := h.filled next (by simp)
      obtain ⟨v, next, rfl⟩ := List.exists_cons_of_ne_nil hnext
      obtain rfl : v = w := by simpa using congrArg List.head? hflat
      rw [lineText_concat hline]
      exact (List.isChain_cons.mp h.greedy).1 (v :: next) (by simp) v (by simp)
  have hlonger : (lineText margin (line ++ [w])).length ≤
      (lineText margin (line ++ [w] ++ rest)).length := length_lineText_le (by simp) rest
  rw [List.append_assoc, List.singleton_append] at hlonger
  obtain ⟨v, hv⟩ := h'.bounded (line ++ w :: rest) (by simp) (by omega)
  have hcount := congrArg List.length hv
  have hpos := List.length_pos_of_ne_nil hline
  simp only [List.length_append, List.length_cons, List.length_nil] at hcount
  omega

/-- Words are packed in one way only. -/
theorem unique (h : Packing margin width ws lines) (h' : Packing margin width ws lines') :
    lines = lines' := by
  induction lines generalizing ws lines' with
  | nil =>
    cases lines' with
    | nil => rfl
    | cons line' lines' =>
      have hboth := h.lossless.trans h'.lossless.symm
      have hnil : line' = [] := by
        have : line' ++ lines'.flatten = [] := hboth.symm
        exact (List.append_eq_nil_iff.mp this).1
      exact absurd hnil (h'.filled line' (by simp))
  | cons line lines ih =>
    cases lines' with
    | nil =>
      have hboth : line ++ lines.flatten = [] := h.lossless.trans h'.lossless.symm
      exact absurd (List.append_eq_nil_iff.mp hboth).1 (h.filled line (by simp))
    | cons line' lines' =>
      have hboth : line ++ lines.flatten = line' ++ lines'.flatten :=
        h.lossless.trans h'.lossless.symm
      have hline : line = line' := by
        rcases List.append_eq_append_iff.mp hboth with ⟨more, rfl, -⟩ | ⟨more, rfl, -⟩
        · rw [h.stops h', List.append_nil]
        · rw [h'.stops h, List.append_nil]
      subst hline
      have hrest := List.append_cancel_left hboth
      have htail := h.tail
      rw [hrest] at htail
      rw [ih htail h'.tail]

end Packing

/-- Wrapping gives the lines of the packing of the words between blanks, and nothing else. -/
theorem wrap_eq_iff (margin : String) (width : Int) (text : String) (result : List String) :
    wrap margin width text = result ↔
      ∃ lines, Packing margin width ((blankParts text.toList).map String.ofList) lines ∧
        result = lines.map (lineText margin) := by
  have hpacking := packing_pack margin width (words text)
  rw [← words_eq]
  constructor
  · rintro rfl
    exact ⟨_, hpacking, rfl⟩
  · rintro ⟨lines, h, rfl⟩
    rw [← hpacking.unique h]
    rfl

end ResourceVersions.Text
