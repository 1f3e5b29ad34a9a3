import Mathlib.Algebra.Group.Nat.Even
import ResourceVersions.Proofs.CleanDocumentation

/-! # Documentation stays in its docstring

No line of documentation holds three double quotes, and its backslashes come in pairs. So a
docstring that its summary leaves open is closed by its last line, whatever is documented. Without
the escapes, the lines have the words of the documentation, in which a space stands for every tag
and three single quotes for three double ones. -/
namespace ResourceVersions.Source

open Text

variable {c : Char} {s t w rest behind : List Char} {ws : List (List Char)} {lines : List String}

section Escapes

/-- Every run of backslashes that is as long as it can be has even length. -/
def PairedBackslashes (s : List Char) : Prop :=
  ∀ before n behind, s = before ++ List.replicate n '\\' ++ behind →
    before.getLast? ≠ some '\\' → behind.head? ≠ some '\\' → Even n

/-- A text without its escapes, if backslashes escape nothing but backslashes. -/
def unescape? : List Char → Option (List Char)
  | '\\' :: '\\' :: rest => (unescape? rest).map ('\\' :: ·)
  | '\\' :: _ => none
  | c :: rest => (unescape? rest).map (c :: ·)
  | [] => some []

theorem unescape?_doubleBackslashes (s : List Char) :
    unescape? (doubleBackslashes s) = some s := by
  induction s with
  | nil => rfl
  | cons c s ih =>
    by_cases hc : c = '\\'
    · rw [hc, doubleBackslashes_backslash, unescape?, ih, Option.map_some]
    · rw [doubleBackslashes_cons hc, unescape?, ih, Option.map_some]
      · exact fun _ h => absurd h hc
      · exact hc

theorem getLast?_cons_ne {before : List Char} (h : (c :: before).getLast? ≠ some '\\') :
    before.getLast? ≠ some '\\' := by
  intro hlast
  apply h
  rw [List.getLast?_cons, hlast]
  rfl

theorem paired_cons (hc : c ≠ '\\') (h : PairedBackslashes s) : PairedBackslashes (c :: s) := by
  intro before n behind heq hbefore hbehind
  cases before with
  | nil =>
    cases n with
    | zero => exact Even.zero
    | succ n => exact absurd (List.cons_eq_cons.mp heq).1 hc
  | cons b before =>
    obtain ⟨-, heq⟩ := List.cons_eq_cons.mp heq
    exact h before n behind heq (getLast?_cons_ne hbefore) hbehind

theorem paired_pair (h : PairedBackslashes s) : PairedBackslashes ('\\' :: '\\' :: s) := by
  intro before n behind heq hbefore hbehind
  match before, n with
  | [], 0 =>
    obtain rfl : '\\' :: '\\' :: s = behind := heq
    exact absurd rfl hbehind
  | [], 1 =>
    obtain ⟨-, rfl⟩ := List.cons_eq_cons.mp heq
    exact absurd rfl hbehind
  | [], n + 2 =>
    obtain ⟨-, heq⟩ := List.cons_eq_cons.mp heq
    obtain ⟨-, heq⟩ := List.cons_eq_cons.mp heq
    exact (h [] n behind heq nofun hbehind).add ⟨1, rfl⟩
  | [b], n =>
    obtain ⟨rfl, -⟩ := List.cons_eq_cons.mp heq
    exact absurd rfl hbefore
  | b :: b' :: before, n =>
    obtain ⟨-, heq⟩ := List.cons_eq_cons.mp heq
    obtain ⟨-, heq⟩ := List.cons_eq_cons.mp heq
    exact h before n behind heq (getLast?_cons_ne (getLast?_cons_ne hbefore)) hbehind

theorem paired_doubleBackslashes (s : List Char) : PairedBackslashes (doubleBackslashes s) := by
  induction s with
  | nil =>
    intro before n behind heq _ _
    have hlength := congrArg List.length heq
    simp only [doubleBackslashes, List.flatMap_nil, List.length_nil, List.length_append,
      List.length_replicate] at hlength
    obtain rfl : n = 0 := by omega
    exact Even.zero
  | cons c s ih =>
    by_cases hc : c = '\\'
    · rw [hc, doubleBackslashes_backslash]
      exact paired_pair ih
    · rw [doubleBackslashes_cons hc]
      exact paired_cons hc ih

end Escapes

section Quotes

/-- What follows the three double quotes that end a docstring, whose text has begun before. A
backslash takes its meaning away from the next character. -/
def behindQuotes? : List Char → Option (List Char)
  | '"' :: '"' :: '"' :: rest => some rest
  | '\\' :: _ :: rest => behindQuotes? rest
  | _ :: rest => behindQuotes? rest
  | [] => none

theorem behindQuotes?_cons (hc : c ≠ '\\') (hq : ¬ quotes <+: c :: rest) :
    behindQuotes? (c :: rest) = behindQuotes? rest := by
  rw [behindQuotes?]
  · rintro behind rfl rfl
    exact hq ⟨behind, rfl⟩
  · exact fun _ _ h => absurd h hc

/-- A character other than a quote separates quotes. -/
theorem quotes_prefix_append (hc : c ≠ '"') (s rest : List Char) :
    quotes <+: s ++ c :: rest ↔ quotes <+: s := by
  have hc := Ne.symm hc
  match s with
  | [] => simp [quotes, hc]
  | [_] => simp [quotes, List.cons_prefix_cons, hc]
  | [_, _] => simp [quotes, List.cons_prefix_cons, hc]
  | _ :: _ :: _ :: s => simp [quotes, List.cons_prefix_cons]

theorem quotes_infix_append (hc : c ≠ '"') (s rest : List Char) :
    quotes <:+: s ++ c :: rest ↔ quotes <:+: s ∨ quotes <:+: rest := by
  induction s with
  | nil =>
    rw [List.nil_append, List.infix_cons_iff]
    simp [quotes, List.cons_prefix_cons, Ne.symm hc]
  | cons d s ih =>
    rw [List.cons_append, List.infix_cons_iff, List.infix_cons_iff, ih, ← List.cons_append,
      quotes_prefix_append hc, or_assoc]

/-- A line that does not end a docstring leaves it to what follows. -/
theorem behindQuotes?_line (h : behindQuotes? (s ++ ['\n']) = none) (rest : List Char) :
    behindQuotes? (s ++ '\n' :: rest) = behindQuotes? rest := by
  fun_induction behindQuotes? s with
  | case1 behind => cases h
  | case2 c s ih => exact ih h
  | case3 c s hquotes hbackslash ih =>
    by_cases hc : c = '\\'
    · subst hc
      cases s with
      | nil => rfl
      | cons d s => exact absurd rfl (hbackslash d s rfl)
    · have hstart : ¬ quotes <+: c :: s := by
        rintro ⟨behind, heq⟩
        cases heq
        exact hquotes behind rfl rfl
      have hstep : ∀ t, behindQuotes? (c :: s ++ '\n' :: t) = behindQuotes? (s ++ '\n' :: t) :=
        fun t =>
          behindQuotes?_cons hc ((quotes_prefix_append (by decide) (c :: s) t).not.mpr hstart)
      rw [hstep]
      rw [hstep] at h
      exact ih h
  | case4 => rfl

theorem length_behindQuotes? (h : behindQuotes? s = some behind) :
    behind.length + 3 ≤ s.length := by
  fun_induction behindQuotes? s with
  | case1 behind' =>
    cases h
    exact Nat.le_refl _
  | case2 c s ih =>
    have := ih h
    simp only [List.length_cons]
    omega
  | case3 c s _ _ ih =>
    have := ih h
    simp only [List.length_cons]
    omega
  | case4 => cases h

/-- Where a docstring has ended, it has ended whatever follows. -/
theorem behindQuotes?_append (h : behindQuotes? s = some behind) (rest : List Char) :
    behindQuotes? (s ++ rest) = some (behind ++ rest) := by
  fun_induction behindQuotes? s with
  | case1 behind' =>
    cases h
    rfl
  | case2 c s ih => exact ih h
  | case3 c s hquotes hbackslash ih =>
    have hlength := length_behindQuotes? h
    by_cases hc : c = '\\'
    · subst hc
      cases s with
      | nil => cases h
      | cons d s => exact absurd rfl (hbackslash d s rfl)
    · rw [List.cons_append, behindQuotes?_cons hc, ih h]
      intro hstart
      have hshort : quotes.length ≤ (c :: s).length := by
        simp only [quotes, List.length_cons, List.length_nil]
        omega
      obtain ⟨behind', heq⟩ :=
        List.prefix_of_prefix_length_le hstart (List.prefix_append (c :: s) rest) hshort
      cases heq
      exact hquotes behind' rfl rfl
  | case4 => cases h

/-- Text with paired backslashes ends no docstring unless it holds three double quotes. -/
theorem behindQuotes?_doubleBackslashes (h : ¬ quotes <:+: s) :
    behindQuotes? (doubleBackslashes s ++ ['\n']) = none := by
  induction s with
  | nil => rfl
  | cons c s ih =>
    obtain ⟨hstart, hrest⟩ := not_or.mp (List.infix_cons_iff.not.mp h)
    by_cases hc : c = '\\'
    · rw [hc, doubleBackslashes_backslash]
      exact ih hrest
    · rw [doubleBackslashes_cons hc, List.cons_append, behindQuotes?_cons hc, ih hrest]
      rwa [← List.cons_append, quotes_prefix_append (by decide), ← doubleBackslashes_cons hc,
        quotes_prefix_doubleBackslashes_iff]

end Quotes

section Lines

/-- The text of lines of which each ends in a line break. -/
def linesText (lines : List String) : List Char := lines.flatMap fun line => line.toList ++ ['\n']

theorem linesText_cons (line : String) (lines : List String) (rest : List Char) :
    linesText (line :: lines) ++ rest = line.toList ++ '\n' :: (linesText lines ++ rest) := by
  simp [linesText]

theorem toList_intercalate_lines (lines : List String) (last : String) :
    ("\n".intercalate (lines ++ [last])).toList = linesText lines ++ last.toList := by
  induction lines with
  | nil => simp [linesText]
  | cons line lines ih =>
    obtain ⟨next, others, hnext⟩ : ∃ next others, lines ++ [last] = next :: others := by
      cases lines <;> simp
    rw [List.cons_append, hnext, String.intercalate_cons_cons, ← hnext]
    simp [ih, linesText]

theorem behindQuotes?_lines (h : ∀ line ∈ lines, behindQuotes? (line.toList ++ ['\n']) = none)
    (rest : List Char) : behindQuotes? (linesText lines ++ rest) = behindQuotes? rest := by
  induction lines with
  | nil => rfl
  | cons line lines ih =>
    obtain ⟨hline, hlines⟩ := List.forall_mem_cons.mp h
    rw [linesText_cons, behindQuotes?_line hline, ih hlines]

/-- A line of documentation before its backslashes are doubled. -/
def plainLine (ws : List (List Char)) : List Char := indent.toList ++ [' '].intercalate ws

/-- What a list of lists maps to comes from a list of lists. -/
theorem flatten_eq_map {α β : Type} {f : α → β} {lists : List (List β)} {l : List α}
    (h : lists.flatten = l.map f) :
    ∃ sources : List (List α), sources.flatten = l ∧ lists = sources.map (List.map f) := by
  induction lists generalizing l with
  | nil =>
    obtain rfl : l = [] := List.map_eq_nil_iff.mp h.symm
    exact ⟨[], rfl, rfl⟩
  | cons list lists ih =>
    rw [List.flatten_cons] at h
    obtain ⟨a, b, rfl, rfl, hb⟩ := List.map_eq_append_iff.mp h.symm
    obtain ⟨sources, rfl, rfl⟩ := ih hb.symm
    exact ⟨a :: sources, rfl, rfl⟩

theorem lineText_doubleBackslashes (ws : List (List Char)) :
    lineText indent (ws.map (String.ofList ∘ doubleBackslashes)) =
      String.ofList (doubleBackslashes (plainLine ws)) := by
  have hjoin : doubleBackslashes ([' '].intercalate ws) =
      [' '].intercalate (ws.map doubleBackslashes) := by
    induction ws with
    | nil => rfl
    | cons w ws ih =>
      cases ws with
      | nil => simp
      | cons v ws =>
        rw [List.intercalate_cons_cons, doubleBackslashes_append, ih, doubleBackslashes_append]
        simp [List.intercalate_cons_cons, doubleBackslashes]
  rw [← String.toList_inj, lineText, plainLine, doubleBackslashes_append, hjoin]
  simp [Function.comp_def]
  decide

theorem docstring_eq (summary doc : String) : ∃ body, (body = [] ∨ body = "" :: docLines doc) ∧
    docstring summary doc =
      (indent ++ "\"\"\"") :: (indent ++ summary) :: body ++ [indent ++ "\"\"\""] := by
  by_cases hdoc : docLines doc = []
  · exact ⟨[], .inl rfl, by simp [docstring, hdoc]⟩
  · exact ⟨"" :: docLines doc, .inr rfl, by simp [docstring, hdoc]⟩

/-- The words of the clean text on lines, before backslashes are doubled. -/
theorem docLines_eq (doc : String) : ∃ lines : List (List (List Char)),
    lines.flatten = blankParts (replaceQuotes (dropTags doc.toList)) ∧
      docLines doc = lines.map fun ws => String.ofList (doubleBackslashes (plainLine ws)) := by
  have hflat := (packing_pack indent docWidth (words (cleanDoc doc))).lossless
  have hwords : words (cleanDoc doc) = (blankParts (replaceQuotes (dropTags doc.toList))).map
      (String.ofList ∘ doubleBackslashes) := by
    rw [words_eq, cleanDoc, String.toList_ofList, replaceQuotes_doubleBackslashes,
      blankParts_doubleBackslashes, List.map_map]
  rw [hwords] at hflat
  obtain ⟨lines, hlines, heq⟩ := flatten_eq_map hflat
  refine ⟨lines, hlines, ?_⟩
  rw [docLines, wrap, hwords, heq, List.map_map]
  exact List.map_congr_left fun ws _ => lineText_doubleBackslashes ws

variable (hws : ∀ w ∈ ws, w ≠ [] ∧ Blankless w)

include hws in
/-- The words of a line are those that it was made of. -/
theorem blankParts_plainLine : blankParts (plainLine ws) = ws := by
  have hjoin : blankParts ([' '].intercalate ws) = ws := by
    induction ws with
    | nil => rfl
    | cons w ws ih =>
      obtain ⟨⟨hne, hw⟩, hws⟩ := List.forall_mem_cons.mp hws
      cases ws with
      | nil => rw [List.intercalate_singleton, blankParts_blankless hw hne]
      | cons v ws =>
        rw [List.intercalate_cons_cons, List.append_assoc, List.singleton_append,
          blankParts_append (by decide), blankParts_blankless hw hne, ih hws, List.singleton_append]
  have hindent : ∀ s, blankParts (indent.toList ++ s) = blankParts s := by
    intro s
    have hblank : ∀ s, blankParts (' ' :: s) = blankParts s :=
      fun s => blankParts_append (by decide) [] s
    change blankParts (' ' :: ' ' :: ' ' :: ' ' :: s) = _
    rw [hblank, hblank, hblank, hblank]
  rw [plainLine, hindent, hjoin]

/-- Words without three double quotes make a line without them. -/
theorem quotes_not_infix_plainLine (h : ∀ w ∈ ws, ¬ quotes <:+: w) :
    ¬ quotes <:+: plainLine ws := by
  have hjoin : ¬ quotes <:+: [' '].intercalate ws := by
    induction ws with
    | nil => simp [quotes]
    | cons w ws ih =>
      obtain ⟨hw, hws⟩ := List.forall_mem_cons.mp h
      cases ws with
      | nil => rwa [List.intercalate_singleton]
      | cons v ws =>
        rw [List.intercalate_cons_cons, List.append_assoc, List.singleton_append,
          quotes_infix_append (by decide), not_or]
        exact ⟨hw, ih hws⟩
  change ¬ quotes <:+: ' ' :: ' ' :: ' ' :: ' ' :: [' '].intercalate ws
  rw [quotes] at hjoin ⊢
  simpa [List.infix_cons_iff, List.cons_prefix_cons] using hjoin

end Lines

section Docstring

/-- The text of a docstring. -/
def docstringText (summary doc : String) : List Char :=
  ("\n".intercalate (docstring summary doc)).toList

/-- What follows the docstring with which a text starts. -/
def behindDocstring? (text : List Char) : Option (List Char) :=
  (after? (indent ++ "\"\"\"").toList text).bind behindQuotes?

theorem after?_append (start rest : List Char) : after? start (start ++ rest) = some rest := by
  induction start with
  | nil => cases rest <;> rfl
  | cons c start ih => rw [List.cons_append, after?, if_pos rfl, ih]

theorem behindQuotes?_indent (s : List Char) :
    behindQuotes? (indent.toList ++ s) = behindQuotes? s := by
  have hspace : ∀ s, behindQuotes? (' ' :: s) = behindQuotes? s :=
    fun s => behindQuotes?_cons (by decide) (by simp [quotes, List.cons_prefix_cons])
  change behindQuotes? (' ' :: ' ' :: ' ' :: ' ' :: s) = _
  rw [hspace, hspace, hspace, hspace]

/-- If the documentation ends no docstring, it is the summary that decides whether the last line
does. -/
theorem behindDocstring?_iff {summary doc : String}
    (h : ∀ line ∈ docLines doc, behindQuotes? (line.toList ++ ['\n']) = none) :
    (∀ behind, behindDocstring? (docstringText summary doc ++ behind) = some behind) ↔
      behindQuotes? (summary.toList ++ ['\n']) = none := by
  obtain ⟨body, hbody, hdocstring⟩ := docstring_eq summary doc
  have hrun : ∀ behind, behindDocstring? (docstringText summary doc ++ behind) =
      behindQuotes? (summary.toList ++ '\n' ::
        (linesText body ++ ((indent ++ "\"\"\"").toList ++ behind))) := by
    intro behind
    have hbreak : ∀ s, behindQuotes? ('\n' :: s) = behindQuotes? s :=
      fun s => behindQuotes?_line (s := []) rfl s
    rw [behindDocstring?, docstringText, hdocstring, toList_intercalate_lines, List.append_assoc,
      linesText_cons, after?_append, Option.bind_some, hbreak, linesText_cons,
      String.toList_append, List.append_assoc, behindQuotes?_indent]
  constructor
  · intro hall
    by_contra hclosed
    obtain ⟨behind, hbehind⟩ := Option.ne_none_iff_exists'.mp hclosed
    have hearly := behindQuotes?_append hbehind
      (linesText body ++ ((indent ++ "\"\"\"").toList ++ []))
    have hlast := hall []
    rw [hrun, ← List.singleton_append, ← List.append_assoc, hearly] at hlast
    simp at hlast
  · intro hopen behind
    rw [hrun, behindQuotes?_line hopen, behindQuotes?_lines, String.toList_append,
      List.append_assoc, behindQuotes?_indent]
    · rfl
    · rcases hbody with rfl | rfl
      · exact nofun
      · exact List.forall_mem_cons.mpr ⟨rfl, h⟩

/-- Documentation cannot end its docstring, and its words can be read off the lines. -/
theorem documentation_enclosed (doc : String) :
    (∀ line ∈ docLines doc, ¬ quotes <:+: line.toList ∧ PairedBackslashes line.toList) ∧
    (∀ summary, (∀ behind, behindDocstring? (docstringText summary doc ++ behind) = some behind) ↔
      behindQuotes? (summary.toList ++ ['\n']) = none) ∧
    ∃ untagged, (∀ s, Replaced IsTag [' '] doc.toList s ↔ s = untagged) ∧
    ∃ requoted, (∀ s, Replaced (· = quotes) ['\'', '\'', '\''] untagged s ↔ s = requoted) ∧
    ∃ plain, (docLines doc).mapM (fun line => unescape? line.toList) = some plain ∧
      plain.flatMap blankParts = blankParts requoted := by
  obtain ⟨lines, hflat, hlines⟩ := docLines_eq doc
  have hwords : ∀ ws ∈ lines, ∀ w ∈ ws,
      w ∈ blankParts (replaceQuotes (dropTags doc.toList)) := by
    intro ws hws w hw
    rw [← hflat]
    exact List.mem_flatten.mpr ⟨ws, hws, hw⟩
  have hquotes : ∀ ws ∈ lines, ¬ quotes <:+: plainLine ws := by
    intro ws hws
    refine quotes_not_infix_plainLine fun w hw hin => ?_
    obtain ⟨-, -, hpart⟩ := mem_blankParts (hwords ws hws w hw)
    exact quotes_not_infix_replaceQuotes _ (hin.trans hpart)
  refine ⟨?_, fun summary => behindDocstring?_iff ?_, ?_⟩
  · rw [hlines, List.forall_mem_map]
    intro ws hws
    rw [String.toList_ofList]
    exact ⟨quotes_not_infix_doubleBackslashes (hquotes ws hws), paired_doubleBackslashes _⟩
  · rw [hlines, List.forall_mem_map]
    intro ws hws
    rw [String.toList_ofList]
    exact behindQuotes?_doubleBackslashes (hquotes ws hws)
  · refine ⟨_, fun s => replaced_iff findable_tag (replaced_dropTags _),
      _, fun s => replaced_iff findable_quotes (replaced_replaceQuotes _),
      lines.map plainLine, ?_, ?_⟩
    · have hline : (fun line => unescape? line.toList) ∘
          (fun ws => String.ofList (doubleBackslashes (plainLine ws))) =
          fun ws => pure (plainLine ws) := by
        funext ws
        exact (congrArg unescape? String.toList_ofList).trans (unescape?_doubleBackslashes _)
      rw [hlines, List.mapM_map, hline, List.mapM_pure]
      rfl
    · have hline : ∀ ws ∈ lines, blankParts (plainLine ws) = ws := by
        intro ws hws
        refine blankParts_plainLine fun w hw => ?_
        obtain ⟨hne, hblankless, -⟩ := mem_blankParts (hwords ws hws w hw)
        exact ⟨hne, hblankless⟩
      rw [List.flatMap_map, List.flatMap_congr hline, ← hflat]
      simp

end Docstring

end ResourceVersions.Source
