import ResourceVersions.Code.Render
import ResourceVersions.Proofs.IntegerText

/-! # Expressions on a line

What is printed for a value or an expression stays on its line, as line breaks in texts are escaped.
It begins with neither a blank nor two double quotes and does not end with a colon, so it is never
taken for indentation, for documentation or for the head of a suite. -/
namespace ResourceVersions

namespace Text

variable {s t : List Char}

def Unbroken (s : List Char) : Prop := ∀ c ∈ s, c ≠ '\n' ∧ c ≠ '\r'

instance (s : List Char) : Decidable (Unbroken s) := List.decidableBAll _ s

/-- Neither a blank nor two double quotes come first. -/
inductive Opens : List Char → Prop
  | plain {c s} (hblank : c ≠ ' ') (hquote : c ≠ '"') : Opens (c :: s)
  | quote {c s} (hother : c ≠ '"') : Opens ('"' :: c :: s)

/-- Something else than a colon comes last. -/
def Closes (s : List Char) : Prop := s ≠ [] ∧ s.getLast? ≠ some ':'

instance (s : List Char) : Decidable (Closes s) := inferInstanceAs (Decidable (_ ∧ _))

structure Inline (s : List Char) : Prop where
  unbroken : Unbroken s
  opens : Opens s
  closes : Closes s

/-- No line breaks, blanks, quotes or colons at all. -/
def Dense (s : List Char) : Prop := ∀ c ∈ s, c ∉ ['\n', '\r', ' ', '"', ':']

instance (s : List Char) : Decidable (Dense s) := List.decidableBAll _ s

/-- Letters, digits, underscores and characters beyond ASCII, at least one. All identifiers are such
texts. -/
def Identifier (s : String) : Prop :=
  s ≠ "" ∧ ∀ c ∈ s.toList, isAsciiAlnum c = true ∨ c = '_' ∨ 128 ≤ c.toNat

instance (s : String) : Decidable (Identifier s) :=
  @instDecidableAnd _ _ inferInstance (List.decidableBAll _ s.toList)

section Parts

@[simp] theorem unbroken_append : Unbroken (s ++ t) ↔ Unbroken s ∧ Unbroken t :=
  List.forall_mem_append

theorem Opens.append (h : Opens s) (t : List Char) : Opens (s ++ t) := by
  cases h with
  | plain hblank hquote => exact .plain hblank hquote
  | quote hother => exact .quote hother

theorem Opens.start (h : Opens s) : ∃ c ∈ s.head?, c ≠ ' ' := by
  cases h with
  | plain hblank _ => exact ⟨_, rfl, hblank⟩
  | quote _ => exact ⟨_, rfl, by decide⟩

theorem Opens.not_quotes (h : Opens s) : ¬ ['"', '"'] <+: s := by
  cases h with
  | plain _ hquote => exact fun hin => hquote (List.cons_prefix_cons.mp hin).1.symm
  | quote hother =>
    intro hin
    exact hother (List.cons_prefix_cons.mp (List.cons_prefix_cons.mp hin).2).1.symm

theorem Closes.append (s : List Char) (h : Closes t) : Closes (s ++ t) := by
  obtain ⟨hne, hlast⟩ := h
  refine ⟨by simp [hne], ?_⟩
  rw [List.getLast?_append, List.getLast?_eq_some_getLast hne] at *
  exact hlast

/-- What is printed is put together from its beginning and more text. -/
theorem Inline.append {s t : String} (hs : Inline s.toList)
    (ht : Unbroken t.toList ∧ Closes t.toList) : Inline (s ++ t).toList := by
  rw [String.toList_append]
  exact ⟨unbroken_append.mpr ⟨hs.unbroken, ht.1⟩, hs.opens.append _, ht.2.append _⟩

theorem Inline.rest {s : List Char} (h : Inline s) : Unbroken s ∧ Closes s := ⟨h.unbroken, h.closes⟩

/-- A text between two of them. -/
theorem Inline.between {left middle right : String} (hleft : Inline left.toList)
    (hmiddle : Unbroken middle.toList) (hright : Inline right.toList) :
    Inline (left ++ middle ++ right).toList := by
  rw [String.append_assoc]
  refine hleft.append ?_
  rw [String.toList_append]
  exact ⟨unbroken_append.mpr ⟨hmiddle, hright.unbroken⟩, hright.closes.append _⟩

theorem Dense.unbroken (h : Dense s) : Unbroken s := by
  intro c hc
  have hdense := h c hc
  simp only [List.mem_cons, not_or] at hdense
  exact ⟨hdense.1, hdense.2.1⟩

theorem Dense.inline (h : Dense s) (hne : s ≠ []) : Inline s := by
  refine ⟨h.unbroken, ?_, hne, ?_⟩
  · obtain ⟨c, t, rfl⟩ := List.exists_cons_of_ne_nil hne
    have hc := h c List.mem_cons_self
    simp only [List.mem_cons, not_or] at hc
    exact .plain hc.2.2.1 hc.2.2.2.1
  · intro hcolon
    have hlast := h ':' (List.mem_of_getLast? hcolon)
    simp at hlast

theorem dense_of_forall {p : Char → Prop} [DecidablePred p]
    (hbad : ['\n', '\r', ' ', '"', ':'].any (fun c => decide (p c)) = false) (h : ∀ c ∈ s, p c) :
    Dense s := by
  intro c hc hin
  have hnot := List.any_eq_false.mp hbad c hin
  exact hnot (decide_eq_true (h c hc))

theorem Identifier.inline {s : String} (h : Identifier s) : Inline s.toList :=
  (dense_of_forall (by decide) h.2).inline (by simpa using h.1)

theorem inline_literal {s : String} (h : Dense s.toList ∧ s ≠ "") : Inline s.toList :=
  h.1.inline (by simpa using h.2)

theorem inline_call {f args : String} (hf : Inline f.toList) (hargs : Unbroken args.toList) :
    Inline (f ++ "(" ++ args ++ ")").toList :=
  (hf.append (by decide)).between hargs (inline_literal (by decide))

theorem unbroken_intercalate {between : String} {l : List String}
    (hbetween : Unbroken between.toList) (h : ∀ s ∈ l, Unbroken s.toList) :
    Unbroken (between.intercalate l).toList := by
  induction l with
  | nil => exact nofun
  | cons s l ih =>
    obtain ⟨hs, hl⟩ := List.forall_mem_cons.mp h
    cases l with
    | nil => simpa using hs
    | cons u l =>
      rw [String.intercalate_cons_cons]
      simp only [String.toList_append, unbroken_append]
      exact ⟨⟨hs, hbetween⟩, ih hl⟩

end Parts

section Quoted

theorem hex_unbroken (width n : Nat) : Unbroken (hex width n) := by
  have hdigit : ∀ m < 16, Unbroken [hexDigit m] := by decide
  induction width generalizing n with
  | zero => exact nofun
  | succ width ih => exact unbroken_append.mpr ⟨ih _, hdigit _ (Nat.mod_lt n (by decide))⟩

theorem codePointEscape_start (c : Char) :
    ∃ rest, codePointEscape c = '\\' :: rest ∧ Unbroken rest := by
  have hhex (letter : Char) (width : Nat) (hletter : Unbroken [letter]) :
      Unbroken (letter :: hex width c.toNat) :=
    unbroken_append.mpr ⟨hletter, hex_unbroken width _⟩
  unfold codePointEscape
  split_ifs
  · exact ⟨_, rfl, hhex 'x' 2 (by decide)⟩
  · exact ⟨_, rfl, hhex 'u' 4 (by decide)⟩
  · exact ⟨_, rfl, hhex 'U' 8 (by decide)⟩

/-- No character is written with the quote in front. -/
theorem quotedChar_start {quote : Char} (hquote : quote ∈ ['\'', '"']) (c : Char) :
    ∃ d rest, quotedChar quote c = d :: rest ∧ d ≠ quote ∧ Unbroken (d :: rest) := by
  have hmark : '\\' ≠ quote ∧ Unbroken ['\\', quote] := by
    rw [List.mem_cons, List.mem_singleton] at hquote
    rcases hquote with rfl | rfl <;> decide
  obtain ⟨hslash, hescaped⟩ := hmark
  have hletter : ∀ letter, Unbroken ['\\', letter] → ∃ d rest,
      ['\\', letter] = d :: rest ∧ d ≠ quote ∧ Unbroken (d :: rest) :=
    fun letter h => ⟨_, _, rfl, hslash, h⟩
  unfold quotedChar
  split_ifs with hself hfeed hreturn htab hprintable
  · rcases hself with rfl | rfl
    · exact hletter c hescaped
    · exact hletter _ (by decide)
  · exact hletter 'n' (by decide)
  · exact hletter 'r' (by decide)
  · exact hletter 't' (by decide)
  · exact ⟨c, [], rfl, fun h => hself (.inl h), by simpa [Unbroken] using ⟨hfeed, hreturn⟩⟩
  · obtain ⟨rest, hrest, hunbroken⟩ := codePointEscape_start c
    exact ⟨_, rest, hrest, hslash, unbroken_append.mpr ⟨(by decide : Unbroken ['\\']), hunbroken⟩⟩

theorem quoted_inline (s : String) : Inline (quoted s).toList := by
  rw [quoted, String.toList_ofList, quotedChars]
  generalize s.toList = l
  have hquote : quoteFor l ∈ ['\'', '"'] := by
    unfold quoteFor
    split <;> simp
  have hbody : Unbroken (l.flatMap (quotedChar (quoteFor l))) := by
    unfold Unbroken
    rw [List.forall_mem_flatMap]
    intro c hc
    obtain ⟨d, rest, heq, -, hunbroken⟩ := quotedChar_start hquote c
    rw [heq]
    exact hunbroken
  have hmark : Unbroken [quoteFor l] ∧ quoteFor l ≠ ':' ∧ quoteFor l ≠ ' ' := by
    rw [List.mem_cons, List.mem_singleton] at hquote
    rcases hquote with hquote | hquote <;> rw [hquote] <;> decide
  refine ⟨?_, ?_, ?_⟩
  · exact unbroken_append.mpr ⟨hmark.1, unbroken_append.mpr ⟨hbody, hmark.1⟩⟩
  · by_cases hdouble : quoteFor l = '"'
    · -- double quotes are taken for the sake of a character, and none is written with one in front
      have hsingle : '\'' ∈ l := by
        unfold quoteFor at hdouble
        split at hdouble
        · simp_all
        · cases hdouble
      obtain ⟨c, others, rfl⟩ := List.exists_cons_of_ne_nil (List.ne_nil_of_mem hsingle)
      obtain ⟨d, rest, heq, hother, -⟩ := quotedChar_start hquote c
      rw [List.flatMap_cons, heq, hdouble]
      exact .quote (hdouble ▸ hother)
    · exact .plain hmark.2.2 hdouble
  · have hlast : Closes [quoteFor l] := ⟨by simp, by simpa using hmark.2.1⟩
    exact hlast.append (_ :: _)

end Quoted

section Numbers

theorem dense_digits (n : Nat) : Dense (Nat.toDigits 10 n) :=
  dense_of_forall (by decide) fun _ => isAsciiDigit_toDigits

theorem dense_append (hs : Dense s) (ht : Dense t) : Dense (s ++ t) :=
  List.forall_mem_append.mpr ⟨hs, ht⟩

theorem dense_cons {c : Char} (hc : Dense [c]) (hs : Dense s) : Dense (c :: s) := dense_append hc hs

theorem inline_int (n : Int) : Inline (toString n).toList := by
  rw [Number.toList_int]
  have hdigits := dense_digits n.natAbs
  split
  · exact hdigits.inline Nat.toDigits_ne_nil
  · exact (dense_cons (by decide) hdigits).inline (List.cons_ne_nil _ _)

theorem inline_nat (n : Nat) : Inline (toString n).toList := by
  rw [Nat.toString_eq_repr, Nat.toList_repr]
  exact (dense_digits n).inline Nat.toDigits_ne_nil

end Numbers

end Text

namespace Binary64

open Text

variable {s digits : List Char}

theorem exponentText_dense (x : Int) : Dense (exponentText x) := by
  have hdigits := dense_digits x.natAbs
  unfold exponentText
  refine dense_cons (by decide) (dense_cons ?_ ?_)
  · split <;> decide
  · split
    · exact dense_cons (by decide) hdigits
    · exact hdigits

theorem layout_inline (h : Dense digits) (x : Int) : Inline (layout digits x) := by
  have hzeros (n : Nat) : Dense (List.replicate n '0') := by
    intro c hc
    rw [(List.mem_replicate.mp hc).2]
    decide
  have hsub {s : List Char} (hs : s ⊆ digits) : Dense s := fun c hc => h c (hs hc)
  have hpoint : Dense ['.'] := by decide
  unfold layout
  split
  · split
    · exact (dense_cons (by decide) (dense_cons hpoint (dense_append (hzeros _) h))).inline
        (List.cons_ne_nil _ _)
    · refine (dense_append (dense_append (hsub (List.take_subset _ _)) (hzeros _))
        (dense_cons hpoint ?_)).inline (by simp)
      split
      · decide
      · exact hsub (List.drop_subset _ _)
  · have hexponent := exponentText_dense x
    split
    · exact hexponent.inline (List.cons_ne_nil _ _)
    · exact (dense_append h hexponent).inline (List.cons_ne_nil _ _)
    · have hrest := dense_cons hpoint (dense_append (hsub (List.subset_cons_self _ _)) hexponent)
      exact (dense_cons (hsub (by simp)) hrest).inline (List.cons_ne_nil _ _)

theorem signed_inline (negative : Bool) (h : Inline s) : Inline (signed negative s) := by
  cases negative with
  | false => exact h
  | true =>
    have hsign : Unbroken ['-'] := by decide
    exact ⟨unbroken_append.mpr ⟨hsign, h.unbroken⟩, .plain (by decide) (by decide),
      h.closes.append ['-']⟩

theorem text_inline (x : Binary64) : Inline x.text.toList := by
  have hword : ∀ s ∈ [['i', 'n', 'f'], ['n', 'a', 'n'], ['0', '.', '0']], Inline s := by
    intro s hs
    refine Dense.inline ?_ ?_ <;> revert s <;> decide
  unfold text textWith
  split
  · exact hword _ (by decide)
  · rw [String.toList_ofList]
    exact signed_inline _ (hword _ (by decide))
  · rw [String.toList_ofList]
    exact signed_inline _ (hword _ (by decide))
  · rename_i negative m e _
    rw [String.toList_ofList]
    refine signed_inline _ (layout_inline ?_ _)
    have hdigits := dense_digits (shortest m e).digits
    intro c hc
    refine hdigits c ?_
    simp only [leading, List.mem_reverse] at hc
    exact List.mem_reverse.mp (List.dropWhile_subset _ hc)

end Binary64

namespace Timestamp

open Text

theorem shownSpan_unbroken (micros : Int) : Unbroken (shownSpan micros).toList := by
  have hpart : ∀ p : String × Int, p.1 ∈ ["days", "seconds", "microseconds"] →
      Unbroken (s!"{p.1}={p.2}").toList := by
    rintro ⟨unit, n⟩ hunit
    have hunits : ∀ unit ∈ ["days", "seconds", "microseconds"], Unbroken unit.toList := by decide
    change Unbroken (unit ++ "=" ++ toString n).toList
    simp only [String.toList_append, unbroken_append]
    exact ⟨⟨hunits unit hunit, by decide⟩, (inline_int n).unbroken⟩
  unfold shownSpan
  simp only [String.toList_append, unbroken_append]
  refine ⟨⟨by decide, ?_⟩, by decide⟩
  split
  · decide
  · refine unbroken_intercalate (by decide) ?_
    rw [List.forall_mem_map]
    intro p hp
    have hunit := List.mem_map_of_mem (f := Prod.fst) (List.mem_filter.mp hp).1
    exact hpart p hunit

theorem shown_inline (t : Timestamp) : Inline t.shown.toList := by
  have hzone (offset : Int) : Unbroken (shownZone offset).toList := by
    unfold shownZone
    split
    · decide
    · change Unbroken ("datetime.timezone(" ++ shownSpan offset ++ ")").toList
      simp only [String.toList_append, unbroken_append]
      exact ⟨⟨by decide, shownSpan_unbroken offset⟩, by decide⟩
  refine (inline_literal (by decide)).between (unbroken_intercalate (by decide) ?_)
    (inline_literal (by decide))
  rw [List.forall_mem_append, List.forall_mem_map, List.forall_mem_map]
  constructor
  · exact fun n _ => (inline_nat n).unbroken
  · intro offset _
    rw [String.toList_append]
    exact unbroken_append.mpr ⟨by decide, hzone offset⟩

end Timestamp

namespace Value

open Text

/-- The classes of the objects in a value and their attributes have names that can be printed. -/
inductive Named : Value → Prop
  | null : Named .null
  | bool (b) : Named (.bool b)
  | int (n) : Named (.int n)
  | float (x) : Named (.float x)
  | str (s) : Named (.str s)
  | datetime (t) : Named (.datetime t)
  | list {items} : (∀ v ∈ items, Named v) → Named (.list items)
  | dict {entries} : (∀ e ∈ entries, Named e.2) → Named (.dict entries)
  | object {className attrs} : Identifier className → (∀ e ∈ attrs, Identifier e.1) →
      (∀ e ∈ attrs, Named e.2) → Named (.object className attrs)

theorem shownItems_eq (items : List Value) : shownItems items = items.map shown := by
  induction items with
  | nil => rfl
  | cons v items ih => rw [shownItems, ih, List.map_cons]

theorem shownEntries_eq (entries : List (String × Value)) :
    shownEntries entries = entries.map fun e => Text.quoted e.1 ++ ": " ++ e.2.shown := by
  induction entries with
  | nil => rfl
  | cons e entries ih => rw [shownEntries, ih, List.map_cons]

theorem shownAttrs_eq (attrs : List (String × Value)) :
    shownAttrs attrs = attrs.map fun e => e.1 ++ "=" ++ e.2.shown := by
  induction attrs with
  | nil => rfl
  | cons e attrs ih => rw [shownAttrs, ih, List.map_cons]

theorem shown_inline {v : Value} (h : v.Named) : Inline v.shown.toList := by
  have hcommas : Unbroken ", ".toList := by decide
  induction h with
  | null => exact inline_literal (by decide)
  | bool b => cases b <;> exact inline_literal (by decide)
  | int n => exact inline_int n
  | float x => exact x.text_inline
  | str s => exact quoted_inline s
  | datetime t => exact t.shown_inline
  | list _ ih =>
    rw [shown, shownItems_eq]
    refine (inline_literal (by decide)).between (unbroken_intercalate hcommas ?_)
      (inline_literal (by decide))
    rw [List.forall_mem_map]
    exact fun v hv => (ih v hv).unbroken
  | dict _ ih =>
    rw [shown, shownEntries_eq]
    refine (inline_literal (by decide)).between (unbroken_intercalate hcommas ?_)
      (inline_literal (by decide))
    rw [List.forall_mem_map]
    exact fun e he => ((quoted_inline e.1).between (by decide) (ih e he)).unbroken
  | object hclass hattrs _ ih =>
    rw [shown, shownAttrs_eq]
    refine inline_call hclass.inline (unbroken_intercalate hcommas ?_)
    rw [List.forall_mem_map]
    exact fun e he => ((hattrs e he).inline.between (by decide) (ih e he)).unbroken

end Value

namespace Code

open Text

def TypeRef.Proper (t : TypeRef) : Prop :=
  Identifier t.name ∧ ∀ a, t.alias? = some a → a = "" ∨ Identifier a

/-- All names in an expression can be printed. -/
def Expr.Proper : Expr → Prop
  | name ident => Identifier ident
  | attr base a => base.Proper ∧ Identifier a
  | type ref => ref.Proper
  | const value => value.Named
  | valueCopy value => value.Proper
  | recurse helper value => Identifier helper ∧ value.Proper

theorem TypeRef.text_inline {t : TypeRef} (h : t.Proper) : Inline t.text.toList := by
  obtain ⟨hname, halias⟩ := h
  unfold TypeRef.text
  split
  · exact hname.inline
  · rename_i a ha
    split
    · exact hname.inline
    · rename_i hne
      have halias := (halias a ha).resolve_left (by simpa using hne)
      exact halias.inline.between (by decide) hname.inline

theorem Expr.text_inline {e : Expr} (h : e.Proper) : Inline e.text.toList := by
  induction e with
  | name ident => exact h.inline
  | attr base a ih => exact (ih h.1).between (by decide) h.2.inline
  | type ref => exact ref.text_inline h
  | const value => exact Value.shown_inline h
  | valueCopy value ih =>
    exact (inline_literal (by decide)).between (ih h).unbroken (inline_literal (by decide))
  | recurse helper value ih => exact inline_call h.1.inline (ih h.2).unbroken

end Code

end ResourceVersions
