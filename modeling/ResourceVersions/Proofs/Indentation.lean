import Mathlib.Data.List.Chain
import ResourceVersions.Proofs.PrintedExpressions

/-! # Indentation

A line that ends with a colon opens a suite: the lines behind it that are one unit deeper. Lines are
read from the last one up, and each takes the deeper ones behind it for its suite. Lines that were
indented by their place in an outline give that outline back. -/
namespace ResourceVersions.Code

open Text

/-- A line and its suite. -/
inductive Outline where
  | line (text : String) (suite : List Outline)

/-- The colon at the end of a line. -/
def OpensSuite (text : String) : Prop := text.toList.getLast? = some ':'

instance (text : String) : Decidable (OpensSuite text) := inferInstanceAs (Decidable (_ = _))

mutual

/-- The lines of an outline and their levels. -/
def Outline.leveled (level : Nat) : Outline → List (Nat × String)
  | .line text suite => (level, text) :: leveledAll (level + 1) suite

def leveledAll (level : Nat) : List Outline → List (Nat × String)
  | [] => []
  | o :: rest => o.leveled level ++ leveledAll level rest

end

/-- A text as a line at a level. -/
def placed (e : Nat × String) : String := indentOf e.1 ++ e.2

def printed (level : Nat) (os : List Outline) : List String := (leveledAll level os).map placed

@[simp] theorem printed_nil (level : Nat) : printed level [] = [] := rfl

@[simp] theorem printed_cons (level : Nat) (text : String) (suite rest : List Outline) :
    printed level (.line text suite :: rest) =
      (indentOf level ++ text) :: (printed (level + 1) suite ++ printed level rest) := by
  rw [printed, leveledAll, Outline.leveled, List.map_append, List.map_cons]
  rfl

section Reading

/-- The level of a line that is indented by whole units, and its text. -/
def place? (line : String) : Option (Nat × String) :=
  let blanks := (line.toList.takeWhile (· == ' ')).length
  if blanks % Source.indent.length = 0 then
    some (blanks / Source.indent.length, String.ofList (line.toList.dropWhile (· == ' ')))
  else none

/-- A line in front of lines that have their suites already. Its suite is one unit deeper, and it
has one exactly if it ends with a colon. -/
def hang? (e : Nat × String) (behind : List (Nat × Outline)) : Option (List (Nat × Outline)) :=
  let suite := behind.takeWhile (e.1 < ·.1)
  if (∀ o ∈ suite, o.1 = e.1 + 1) ∧ (OpensSuite e.2 ↔ suite ≠ []) then
    some ((e.1, .line e.2 (suite.map Prod.snd)) :: behind.dropWhile (e.1 < ·.1))
  else none

def outlines? : List (Nat × String) → Option (List (Nat × Outline))
  | [] => some []
  | e :: rest => (outlines? rest).bind (hang? e)

/-- The lines of a text, without the blank ones. -/
def linesOf (text : String) : List String :=
  ((text.toList.splitOnP fun c => c == '\n' || c == '\r').map String.ofList).filter fun line =>
    line.toList.any (· != ' ')

/-- The outlines of a block of code at a level. -/
def readOutlines? (level : Nat) (text : String) : Option (List Outline) := do
  let entries ← (linesOf text).mapM place?
  let os ← outlines? entries
  if ∀ o ∈ os, o.1 = level then return os.map Prod.snd else none

end Reading

/-- A text that can stand behind the indentation of a line. -/
structure Standing (text : String) : Prop where
  unbroken : Unbroken text.toList
  start : ∃ c ∈ text.toList.head?, c ≠ ' '

/-- Outlines in which the lines with a colon at the end are those with a suite. -/
inductive Sound : List Outline → Prop
  | nil : Sound []
  | cons {text suite rest} : Standing text → (OpensSuite text ↔ suite ≠ []) → Sound suite →
      Sound rest → Sound (.line text suite :: rest)

/-- What comes behind a line: its suite one unit deeper, or a line that is not deeper. -/
def Follows (a b : Nat × String) : Prop := if OpensSuite a.2 then b.1 = a.1 + 1 else b.1 ≤ a.1

/-- Lines at least at a level, in which exactly the lines that end with a colon have a suite. -/
structure Stepwise (level : Nat) (entries : List (Nat × String)) : Prop where
  standing : ∀ e ∈ entries, Standing e.2
  level_le : ∀ e ∈ entries, level ≤ e.1
  start : ∀ e ∈ entries.head?, e.1 = level
  chain : entries.IsChain Follows
  closed : ∀ e ∈ entries.getLast?, ¬ OpensSuite e.2

variable {level : Nat} {os : List Outline} {text : String}

section Levels

theorem toList_indentOf (level : Nat) :
    (indentOf level).toList = List.replicate (Source.indent.length * level) ' ' := by
  induction level with
  | zero => rfl
  | succ level ih =>
    rw [indentOf, List.replicate_succ, String.join_cons, String.toList_append, ← indentOf, ih,
      Nat.mul_succ, Nat.add_comm, ← List.replicate_append_replicate]
    rfl

theorem place?_placed {e : Nat × String} (h : Standing e.2) : place? (placed e) = some e := by
  obtain ⟨level, text⟩ := e
  have hblank : ∀ c ∈ List.replicate (Source.indent.length * level) ' ', (c == ' ') = true := by
    intro c hc
    rw [(List.mem_replicate.mp hc).2]
    rfl
  obtain ⟨c, hc, hother⟩ := h.start
  obtain ⟨s, hs⟩ := List.head?_eq_some_iff.mp hc
  change text.toList = c :: s at hs
  unfold place? placed
  rw [String.toList_append, toList_indentOf, List.takeWhile_append_of_pos hblank,
    List.dropWhile_append_of_pos hblank, hs, List.takeWhile_cons_of_neg (by simpa using hother),
    List.dropWhile_cons_of_neg (by simpa using hother), ← hs]
  simp [Nat.mul_div_cancel_left level (by decide : 0 < Source.indent.length)]

theorem unbroken_placed {e : Nat × String} (h : Standing e.2) : Unbroken (placed e).toList := by
  rw [placed, String.toList_append, unbroken_append, toList_indentOf]
  refine ⟨fun c hc => ?_, h.unbroken⟩
  rw [(List.mem_replicate.mp hc).2]
  decide

theorem set_placed {e : Nat × String} (h : Standing e.2) :
    (placed e).toList.any (· != ' ') = true := by
  obtain ⟨c, hc, hother⟩ := h.start
  rw [placed, String.toList_append, List.any_append, Bool.or_eq_true, List.any_eq_true]
  exact .inr (List.any_eq_true.mpr ⟨c, List.mem_of_mem_head? hc, by simpa using hother⟩)

mutual

theorem Outline.leveled_add (o : Outline) (n k : Nat) :
    o.leveled (n + k) = (o.leveled k).map fun e => (n + e.1, e.2) := by
  obtain ⟨text, suite⟩ := o
  rw [Outline.leveled, Outline.leveled, Nat.add_assoc, leveledAll_add suite, List.map_cons]

/-- Outlines are shifted as a whole. -/
theorem leveledAll_add (os : List Outline) (n k : Nat) :
    leveledAll (n + k) os = (leveledAll k os).map fun e => (n + e.1, e.2) := by
  cases os with
  | nil => rfl
  | cons o rest =>
    rw [leveledAll, leveledAll, o.leveled_add, leveledAll_add rest, List.map_append]

end

theorem printed_append (level : Nat) (os os' : List Outline) :
    printed level (os ++ os') = printed level os ++ printed level os' := by
  induction os with
  | nil => rfl
  | cons o rest ih =>
    obtain ⟨text, suite⟩ := o
    rw [List.cons_append, printed_cons, printed_cons, ih, List.cons_append, List.append_assoc]

theorem indentOf_add (n k : Nat) : indentOf (n + k) = indentOf n ++ indentOf k := by
  apply String.toList_inj.mp
  rw [String.toList_append, toList_indentOf, toList_indentOf, toList_indentOf, Nat.mul_add,
    List.replicate_append_replicate]

/-- A block is indented as a whole, unless one of its lines is empty. -/
theorem indentLine_printed (h : ∀ e ∈ leveledAll 0 os, placed e ≠ "") (level : Nat) :
    (printed 0 os).map (indentLine level) = printed level os := by
  rw [printed, printed, ← Nat.add_zero level, leveledAll_add os level 0, List.map_map,
    List.map_map]
  refine List.map_congr_left fun e he => ?_
  have hne : placed e ≠ "" := h e he
  rw [Function.comp_apply, Function.comp_apply, Nat.add_zero, indentLine,
    if_neg (by simpa using hne), placed, placed, indentOf_add, String.append_assoc]

theorem placed_ne_empty {e : Nat × String} (he : e ∈ leveledAll (level + 1) os) :
    placed e ≠ "" := by
  rw [← Nat.add_zero (level + 1), leveledAll_add os (level + 1) 0] at he
  obtain ⟨e, -, rfl⟩ := List.mem_map.mp he
  intro hempty
  have hindent := congrArg String.length (String.append_eq_empty_iff.mp hempty).1
  rw [← String.length_toList, toList_indentOf, List.length_replicate] at hindent
  have hunit : Source.indent.length = 4 := by decide
  simp [hunit] at hindent

end Levels

section Soundness

theorem Sound.append {os' : List Outline} (h : Sound os) (h' : Sound os') : Sound (os ++ os') := by
  induction h with
  | nil => exact h'
  | cons htext hsuite hin _ _ ih => exact .cons htext hsuite hin ih

theorem Stepwise.append {l l' : List (Nat × String)} (h : Stepwise level l)
    (h' : Stepwise level l') : Stepwise level (l ++ l') where
  standing := List.forall_mem_append.mpr ⟨h.standing, h'.standing⟩
  level_le := List.forall_mem_append.mpr ⟨h.level_le, h'.level_le⟩
  start := by
    cases l with
    | nil => exact h'.start
    | cons e l => exact h.start
  chain := by
    refine List.isChain_append.mpr ⟨h.chain, h'.chain, fun a ha b hb => ?_⟩
    rw [Follows, if_neg (h.closed a ha), h'.start b hb]
    exact h.level_le a (List.mem_of_getLast? ha)
  closed := by
    rw [List.getLast?_append]
    cases hlast : l'.getLast? with
    | none => exact h.closed
    | some e =>
      have hclosed := h'.closed
      rw [hlast] at hclosed
      exact hclosed

theorem Stepwise.line (htext : Standing text) (hopens : ¬ OpensSuite text) :
    Stepwise level [(level, text)] := by
  refine ⟨?_, ?_, ?_, .singleton _, ?_⟩ <;> simp [htext, hopens]

/-- A line in front of its suite. -/
theorem Stepwise.head {l : List (Nat × String)} (htext : Standing text) (hopens : OpensSuite text)
    (hl : l ≠ []) (h : Stepwise (level + 1) l) : Stepwise level ((level, text) :: l) where
  standing := List.forall_mem_cons.mpr ⟨htext, h.standing⟩
  level_le := List.forall_mem_cons.mpr ⟨le_rfl, fun e he => (Nat.le_succ _).trans (h.level_le e he)⟩
  start := by simp
  chain := by
    refine List.isChain_cons.mpr ⟨fun e he => ?_, h.chain⟩
    rw [Follows, if_pos hopens, h.start e he]
  closed := by
    rw [List.getLast?_cons_of_ne_nil hl]
    exact h.closed

theorem leveledAll_ne_nil (h : os ≠ []) : leveledAll level os ≠ [] := by
  obtain ⟨⟨text, suite⟩, rest, rfl⟩ := List.exists_cons_of_ne_nil h
  exact List.cons_ne_nil _ _

theorem Sound.stepwise (h : Sound os) (level : Nat) : Stepwise level (leveledAll level os) := by
  induction h generalizing level with
  | nil => exact ⟨nofun, nofun, nofun, .nil, nofun⟩
  | @cons text suite rest htext hsuite _ _ ihin ihrest =>
    rw [leveledAll, Outline.leveled]
    refine Stepwise.append ?_ (ihrest level)
    by_cases hne : suite = []
    · subst hne
      exact .line htext (mt hsuite.mp (by simp))
    · exact .head htext (hsuite.mpr hne) (leveledAll_ne_nil hne) (ihin (level + 1))

end Soundness

section Reading

theorem span_append {p : Nat × Outline → Bool} {l l' : List (Nat × Outline)}
    (h : ∀ o ∈ l, p o = true) (h' : ∀ o ∈ l'.head?, p o = false) :
    (l ++ l').takeWhile p = l ∧ (l ++ l').dropWhile p = l' := by
  rw [List.takeWhile_append_of_pos h, List.dropWhile_append_of_pos h]
  cases l' with
  | nil => simp
  | cons o rest => simp [h' o rfl]

/-- Each line takes the lines of its own suite and leaves those behind it. -/
theorem outlines?_leveledAll (h : Sound os) {level : Nat} {rest : List (Nat × String)}
    {behind : List (Nat × Outline)} (hrest : outlines? rest = some behind)
    (hbehind : ∀ o ∈ behind.head?, o.1 ≤ level) :
    outlines? (leveledAll level os ++ rest) = some (os.map (level, ·) ++ behind) := by
  -- for any lines behind, as those of a suite have the lines behind its head behind them
  induction h generalizing level rest behind with
  | nil => exact hrest
  | @cons text suite others htext hsuite _ _ ihin ihothers =>
    have hothers := ihothers hrest hbehind
    have hstart : ∀ o ∈ (others.map (level, ·) ++ behind).head?, o.1 ≤ level := by
      cases others with
      | nil => exact hbehind
      | cons o others =>
        rintro o ⟨⟩
        exact le_rfl
    have hdeeper : ∀ o ∈ (others.map (level, ·) ++ behind).head?, o.1 ≤ level + 1 :=
      fun o ho => (hstart o ho).trans (Nat.le_succ level)
    have hin := ihin hothers hdeeper
    have hsuites : ∀ o ∈ suite.map (level + 1, ·), decide (level < o.1) = true := by simp
    have hspan := span_append hsuites fun o ho => by simpa using hstart o ho
    rw [leveledAll, Outline.leveled, List.cons_append, List.cons_append, List.append_assoc,
      outlines?, hin, Option.bind_some, hang?, hspan.1, hspan.2, if_pos]
    · simp [Function.comp_def]
    · exact ⟨by simp, by simpa using hsuite⟩

theorem linesOf_intercalate {lines : List String}
    (hunbroken : ∀ line ∈ lines, Unbroken line.toList)
    (hset : ∀ line ∈ lines, line.toList.any (· != ' ') = true) :
    linesOf ("\n".intercalate lines) = lines := by
  by_cases hne : lines = []
  · rw [hne]
    rfl
  have hsplit : ("\n".intercalate lines).toList.splitOnP (fun c => c == '\n' || c == '\r') =
      lines.map String.toList := by
    clear hset
    induction lines with
    | nil => exact absurd rfl hne
    | cons line rest ih =>
      obtain ⟨hline, hrest⟩ := List.forall_mem_cons.mp hunbroken
      have hinside : ∀ c ∈ line.toList, (c == '\n' || c == '\r') = false := fun c hc => by
        simpa using hline c hc
      cases rest with
      | nil =>
        rw [String.intercalate_singleton, List.splitOnP_eq_singleton hinside]
        rfl
      | cons next rest =>
        rw [String.intercalate_cons_cons, String.toList_append, String.toList_append,
          List.append_assoc, List.map_cons, ← ih hrest (List.cons_ne_nil _ _)]
        exact List.splitOnP_append_cons_of_forall_mem hinside '\n' rfl _
  rw [linesOf, hsplit, List.map_map, List.filter_eq_self.mpr]
  · simp [Function.comp_def]
  · simpa [Function.comp_def] using hset

theorem mapM_place? {entries : List (Nat × String)} (h : ∀ e ∈ entries, Standing e.2) :
    (entries.map placed).mapM place? = some entries := by
  induction entries with
  | nil => rfl
  | cons e rest ih =>
    obtain ⟨he, hrest⟩ := List.forall_mem_cons.mp h
    rw [List.map_cons, List.mapM_cons, place?_placed he, ih hrest]
    rfl

/-- A block gives back the outlines that it was indented by. -/
theorem readOutlines?_printed (h : Sound os) (level : Nat) :
    readOutlines? level ("\n".intercalate (printed level os)) = some os := by
  have hstanding := (h.stepwise level).standing
  have hlines : linesOf ("\n".intercalate (printed level os)) = printed level os := by
    apply linesOf_intercalate <;> rw [printed, List.forall_mem_map] <;> intro e he
    · exact unbroken_placed (hstanding e he)
    · exact set_placed (hstanding e he)
  have hos : outlines? (leveledAll level os) = some (os.map (level, ·)) := by
    simpa using @outlines?_leveledAll os h level [] [] rfl nofun
  rw [readOutlines?, hlines, printed, mapM_place? hstanding]
  simp only [Option.bind_eq_bind, Option.bind_some]
  rw [hos, Option.bind_some, if_pos (by simp)]
  simp [Function.comp_def]

end Reading

end ResourceVersions.Code
