import ResourceVersions.Proofs.Indentation

/-! # The structure of printed code

Printed statements are read back: a suite goes with the line in front of it, an `else:` with the
branch in front of it, a suite of `pass` is empty, and documentation comes first in a function. What
is read is what was printed, so the indentation shows how guards, loops and functions are nested and
in which order the statements come. -/
namespace ResourceVersions.Code

open Text

/-- Statements by what is printed for them, and by what is nested in them. -/
inductive Reading where
  | simple (text : String)
  /-- a call and an assignment of its result under a condition -/
  | restore (call assignment : String)
  | branch (head : String) (body : List Reading)
  | choice (head : String) (body orelse : List Reading)
  | loop (head : String) (body : List Reading)
  | func (head : String) (docstring? : Option String) (body : List Reading)

/-- The condition under which something was taken out of the stash. -/
def restoring : String := "if " ++ unstashedVar ++ " is not MISSING:"

def quotes : String := "\"\"\""

section Printing

mutual

/-- What is printed for a statement. -/
def Stmt.reading : Stmt → Reading
  | .comment text => .simple ("# " ++ text)
  | .assign target value => .simple (target.text ++ " = " ++ value.text)
  | .allocate var fresh => .simple (var ++ " = " ++ fresh.text)
  | .guard subject body orelse =>
    let head := "if " ++ subject.text ++ " is not None:"
    match orelse with
    | [] => .branch head (readings body)
    | _ => .choice head (readings body) (readings orelse)
  | .loop var range subject body => .loop (loopHead var subject.text range) (readings body)
  | .append container value => .simple (container.text ++ ".append(" ++ value.text ++ ")")
  | .setItem container key value =>
    .simple (container.text ++ "[" ++ key.text ++ "] = " ++ value.text)
  | .stash store fieldId value =>
    .simple ("set_field_data(" ++ store.text ++ ", " ++ quoted fieldId ++ ", " ++ value.text ++ ")")
  | .unstash store fieldId base a owner =>
    let call := s!"({store.text}, {quoted fieldId}, {owner.text}, {quoted a})"
    .restore (unstashedVar ++ " = pop_field_data" ++ call)
      (base.text ++ "." ++ a ++ " = " ++ unstashedVar)
  | .ret value => .simple ("return " ++ value.text)
  | .func name params body docstring? =>
    .func ("def " ++ name ++ "(" ++ ", ".intercalate (params.map paramText) ++ "):")
      (docstring?.filter (!·.isEmpty)) (readings body)

def readings : List Stmt → List Reading
  | [] => []
  | s :: rest => s.reading :: readings rest

end

/-- A suite may not be empty. -/
def orPass : List Outline → List Outline
  | [] => [.line "pass" []]
  | os => os

def docOutlines (docstring? : Option String) : List Outline :=
  docstring?.toList.map fun doc => .line (quotes ++ doc ++ quotes) []

mutual

def Reading.outlines : Reading → List Outline
  | .simple text => [.line text []]
  | .restore call assignment => [.line call [], .line restoring [.line assignment []]]
  | .branch head body => [.line head (orPass (outlinesAll body))]
  | .choice head body orelse =>
    [.line head (orPass (outlinesAll body)), .line "else:" (orPass (outlinesAll orelse))]
  | .loop head body => [.line head (orPass (outlinesAll body))]
  | .func head docstring? body => [.line head (orPass (docOutlines docstring? ++ outlinesAll body))]

def outlinesAll : List Reading → List Outline
  | [] => []
  | r :: rest => r.outlines ++ outlinesAll rest

end

end Printing

section Reading

inductive LineKind where
  | pass
  | simple
  | branch
  | otherwise
  | restoring
  | loop
  | definition
deriving DecidableEq

/-- What a line is, by its text. -/
def lineKind? (text : String) : Option LineKind :=
  if text = "pass" then some .pass
  else if ¬ OpensSuite text then some .simple
  else if text = "else:" then some .otherwise
  else if text = restoring then some .restoring
  else if "if ".toList <+: text.toList then some .branch
  else if "for ".toList <+: text.toList then some .loop
  else if "def ".toList <+: text.toList then some .definition
  else none

/-- What the line in front is needed for. -/
inductive Behind where
  | nothing
  | otherwise (suite : List Reading)
  | restored (assignment : String)

/-- A function; a text in three quotes at the start of its suite documents it. -/
def definition (head : String) : List Reading → Reading
  | .simple text :: body =>
    if quotes.toList <+: text.toList then
      .func head (some (String.ofList ((text.toList.drop 3).take (text.length - 6)))) body
    else .func head none (.simple text :: body)
  | body => .func head none body

/-- A line with its suite, in front of what is read already. -/
def join? (text : String) (suite behind : Behind × List Reading) :
    Option (Behind × List Reading) :=
  match lineKind? text, suite, behind with
  | some .pass, _, (.nothing, rest) => some (.nothing, rest)
  | some .simple, _, (.nothing, rest) => some (.nothing, .simple text :: rest)
  | some .simple, _, (.restored assignment, rest) =>
    some (.nothing, .restore text assignment :: rest)
  | some .restoring, (.nothing, [.simple assignment]), (.nothing, rest) =>
    some (.restored assignment, rest)
  | some .branch, (.nothing, body), (.nothing, rest) => some (.nothing, .branch text body :: rest)
  | some .branch, (.nothing, body), (.otherwise orelse, rest) =>
    some (.nothing, .choice text body orelse :: rest)
  | some .otherwise, (.nothing, body), (.nothing, rest) => some (.otherwise body, rest)
  | some .loop, (.nothing, body), (.nothing, rest) => some (.nothing, .loop text body :: rest)
  | some .definition, (.nothing, body), (.nothing, rest) =>
    some (.nothing, definition text body :: rest)
  | _, _, _ => none

mutual

def Outline.read? (behind : Behind × List Reading) : Outline → Option (Behind × List Reading)
  | .line text suite => (readAll? suite).bind (join? text · behind)

def readAll? : List Outline → Option (Behind × List Reading)
  | [] => some (.nothing, [])
  | o :: rest => (readAll? rest).bind (o.read? ·)

end

/-- The statements of a block of code at a level. -/
def readBlock? (level : Nat) (text : String) : Option (List Reading) :=
  ((readOutlines? level text).bind readAll?).bind fun
    | (.nothing, statements) => some statements
    | _ => none

end Reading

section Lines

theorem suite_printed (level : Nat) (os : List Outline) :
    suite level (printed level os) = printed level (orPass os) := by
  cases os with
  | nil => simp [suite, orPass]
  | cons o rest =>
    obtain ⟨text, inside⟩ := o
    simp [suite, orPass]

theorem docLine_eq (docstring? : Option String) :
    docLine docstring? = printed 1 (docOutlines (docstring?.filter (!·.isEmpty))) := by
  cases docstring? with
  | none => rfl
  | some doc =>
    rw [docLine, Option.filter_some]
    cases doc.isEmpty with
    | true => rfl
    | false => simp [docOutlines, quotes, indentOf, String.append_assoc]

/-- A function is printed without indentation and then indented as a whole, so that the lines inside
it are indented twice. -/
theorem func_lines (level : Nat) {head : String} (hhead : head ≠ "") (docstring? : Option String)
    (os : List Outline) :
    let doc := docLine docstring?
    (head :: doc ++ if doc.isEmpty then suite 1 (printed 1 os) else printed 1 os).map
        (indentLine level) =
      printed level [.line head (orPass (docOutlines (docstring?.filter (!·.isEmpty)) ++ os))] := by
  intro doc
  have hinside : (doc ++ if doc.isEmpty then suite 1 (printed 1 os) else printed 1 os) =
      printed 1 (orPass (docOutlines (docstring?.filter (!·.isEmpty)) ++ os)) := by
    rw [show doc = _ from docLine_eq docstring?]
    generalize docstring?.filter _ = given
    cases given with
    | none => exact suite_printed 1 os
    | some text => simp [docOutlines, orPass]
  rw [List.cons_append, hinside]
  generalize orPass _ = inside
  have hwhole : head :: printed 1 inside = printed 0 [.line head inside] := by simp [indentOf]
  rw [hwhole, indentLine_printed]
  intro e he
  rw [leveledAll, Outline.leveled, leveledAll, List.append_nil, List.mem_cons] at he
  rcases he with rfl | he
  · simpa [placed, indentOf] using hhead
  · exact placed_ne_empty he

mutual

theorem Stmt.lines_eq (s : Stmt) (level : Nat) :
    s.lines level = printed level s.reading.outlines := by
  cases s with
  | guard subject body orelse =>
    have hbody := blockLines_eq body (level + 1)
    have horelse := blockLines_eq orelse (level + 1)
    cases orelse <;>
      simp [Stmt.lines, Stmt.reading, Reading.outlines, toString, hbody, horelse, suite_printed,
        String.append_assoc]
  | loop var range subject body =>
    have hbody := blockLines_eq body (level + 1)
    simp [Stmt.lines, Stmt.reading, Reading.outlines, hbody, suite_printed]
  | func name params body docstring? =>
    have hbody := blockLines_eq body 1
    rw [Stmt.lines, Stmt.reading, Reading.outlines, hbody]
    exact func_lines level (by simp) docstring? (outlinesAll (readings body))
  | unstash store fieldId base a owner =>
    have hunit : indentOf (level + 1) = indentOf level ++ Source.indent := indentOf_add level 1
    simp [Stmt.lines, Stmt.reading, Reading.outlines, toString, restoring, hunit,
      String.append_assoc]
  | _ => simp [Stmt.lines, Stmt.reading, Reading.outlines, toString, String.append_assoc]

/-- The lines of a block are those that are printed for its statements. -/
theorem blockLines_eq (stmts : List Stmt) (level : Nat) :
    blockLines level stmts = printed level (outlinesAll (readings stmts)) := by
  cases stmts with
  | nil => rfl
  | cons s rest =>
    rw [blockLines, s.lines_eq, blockLines_eq rest, readings, outlinesAll, printed_append]

end

end Lines

section Legibility

/-- The text of a statement on one line. -/
structure Statement (text : String) : Prop where
  inline : Inline text.toList
  ne_pass : text ≠ "pass"

/-- The text of a line that opens a suite. -/
structure Head (word text : String) : Prop where
  unbroken : Unbroken text.toList
  word : word.toList <+: text.toList
  colon : OpensSuite text

/-- What is printed for statements, line by line. -/
inductive Legible : List Reading → Prop
  | nil : Legible []
  | simple {text rest} : Statement text → Legible rest → Legible (.simple text :: rest)
  | restore {call assignment rest} : Statement call → Statement assignment → Legible rest →
      Legible (.restore call assignment :: rest)
  | branch {head body rest} : Head "if " head → head ≠ restoring → Legible body → Legible rest →
      Legible (.branch head body :: rest)
  | choice {head body orelse rest} : Head "if " head → head ≠ restoring → Legible body →
      Legible orelse → Legible rest → Legible (.choice head body orelse :: rest)
  | loop {head body rest} : Head "for " head → Legible body → Legible rest →
      Legible (.loop head body :: rest)
  | func {head docstring? body rest} : Head "def " head →
      (∀ doc ∈ docstring?, Unbroken doc.toList) → Legible body → Legible rest →
      Legible (.func head docstring? body :: rest)

variable {text word other head : String} {os rest : List Outline} {rs body : List Reading}

theorem Statement.standing (h : Statement text) : Standing text :=
  ⟨h.inline.unbroken, h.inline.opens.start⟩

theorem Statement.not_opensSuite (h : Statement text) : ¬ OpensSuite text := h.inline.closes.2

theorem Statement.kind (h : Statement text) : lineKind? text = some .simple := by
  rw [lineKind?, if_neg h.ne_pass, if_pos h.not_opensSuite]

theorem Head.ne (h : Head word text) (hother : ¬ word.toList <+: other.toList) : text ≠ other := by
  rintro rfl
  exact hother h.word

theorem Head.standing (h : Head word text)
    (hword : word.toList.head?.any (· != ' ') = true) : Standing text := by
  obtain ⟨c, hc, hblank⟩ := (Option.any_eq_true _ _).mp hword
  refine ⟨h.unbroken, c, ?_, by simpa using hblank⟩
  obtain ⟨s, hs⟩ := h.word
  rw [← hs, List.head?_append, hc]
  rfl

theorem Head.branch (h : Head "if " text) (hne : text ≠ restoring) :
    lineKind? text = some .branch := by
  rw [lineKind?, if_neg (h.ne (by decide)), if_neg (not_not.mpr h.colon),
    if_neg (h.ne (by decide)), if_neg hne, if_pos h.word]

theorem Head.loop (h : Head "for " text) : lineKind? text = some .loop := by
  have hif : ¬ "if ".toList <+: text.toList := by
    obtain ⟨s, hs⟩ := h.word
    rw [← hs]
    simp
  rw [lineKind?, if_neg (h.ne (by decide)), if_neg (not_not.mpr h.colon),
    if_neg (h.ne (by decide)), if_neg (h.ne (by decide)), if_neg hif, if_pos h.word]

theorem Head.definition (h : Head "def " text) : lineKind? text = some .definition := by
  have hif : ¬ "if ".toList <+: text.toList ∧ ¬ "for ".toList <+: text.toList := by
    obtain ⟨s, hs⟩ := h.word
    rw [← hs]
    simp
  rw [lineKind?, if_neg (h.ne (by decide)), if_neg (not_not.mpr h.colon),
    if_neg (h.ne (by decide)), if_neg (h.ne (by decide)), if_neg hif.1, if_neg hif.2,
    if_pos h.word]

theorem Sound.leaf (h : Statement text) (hrest : Sound rest) : Sound (.line text [] :: rest) :=
  .cons h.standing (by simp [h.not_opensSuite]) .nil hrest

theorem Sound.opened (htext : Standing text) (hcolon : OpensSuite text) (hos : Sound os)
    (hne : os ≠ []) (hrest : Sound rest) : Sound (.line text os :: rest) :=
  .cons htext (by simp [hcolon, hne]) hos hrest

theorem Sound.orPass (h : Sound os) : Sound (orPass os) := by
  cases h with
  | nil => exact .cons ⟨by decide, 'p', rfl, by decide⟩ (by decide) .nil .nil
  | cons htext hsuite hin hrest => exact .cons htext hsuite hin hrest

theorem orPass_ne_nil (os : List Outline) : orPass os ≠ [] := by
  cases os <;> exact List.cons_ne_nil _ _

theorem docText_simple (doc : String) :
    quotes ++ doc ++ quotes ≠ "pass" ∧ ¬ OpensSuite (quotes ++ doc ++ quotes) := by
  have hlast : (quotes ++ doc ++ quotes).toList.getLast? = some '"' := by
    rw [String.toList_append, List.getLast?_append]
    rfl
  refine ⟨fun hpass => ?_, ?_⟩
  · rw [hpass] at hlast
    revert hlast
    decide
  · rw [OpensSuite, hlast]
    decide

theorem docOutlines_sound {docstring? : Option String}
    (h : ∀ doc ∈ docstring?, Unbroken doc.toList) : Sound (docOutlines docstring?) := by
  cases docstring? with
  | none => exact .nil
  | some doc =>
    have hcolon := (docText_simple doc).2
    have hquotes : Unbroken quotes.toList := by decide
    refine .cons ⟨?_, '"', by simp [quotes], by decide⟩ (by simp [hcolon]) .nil .nil
    rw [String.toList_append, String.toList_append, unbroken_append, unbroken_append]
    exact ⟨⟨hquotes, h doc rfl⟩, hquotes⟩

theorem restoring_head : Head "if " restoring := ⟨by decide, by decide, by decide⟩

theorem else_head : Head "else" "else:" := ⟨by decide, by decide, by decide⟩

/-- In what is printed, the lines with a colon at the end are those with a suite. -/
theorem Legible.sound (h : Legible rs) : Sound (outlinesAll rs) := by
  induction h with
  | nil => exact .nil
  | simple htext _ ih => exact .leaf htext ih
  | restore hcall hassignment _ ih =>
    exact .leaf hcall (.opened (restoring_head.standing (by decide)) restoring_head.colon
      (.leaf hassignment .nil) (List.cons_ne_nil _ _) ih)
  | branch hhead _ _ _ ihbody ih =>
    exact .opened (hhead.standing (by decide)) hhead.colon ihbody.orPass (orPass_ne_nil _) ih
  | choice hhead _ _ _ _ ihbody ihorelse ih =>
    have helse := Sound.opened (else_head.standing (by decide)) else_head.colon ihorelse.orPass
      (orPass_ne_nil _) ih
    exact .opened (hhead.standing (by decide)) hhead.colon ihbody.orPass (orPass_ne_nil _) helse
  | loop hhead _ _ ihbody ih =>
    exact .opened (hhead.standing (by decide)) hhead.colon ihbody.orPass (orPass_ne_nil _) ih
  | func hhead hdoc _ _ ihbody ih =>
    exact .opened (hhead.standing (by decide)) hhead.colon
      ((docOutlines_sound hdoc).append ihbody).orPass (orPass_ne_nil _) ih

end Legibility

section Reading

theorem readAll?_cons (text : String) (suite rest : List Outline) :
    readAll? (.line text suite :: rest) =
      (readAll? rest).bind fun behind => (readAll? suite).bind (join? text · behind) := by
  rw [readAll?]
  rfl

theorem readAll?_orPass (os : List Outline) : readAll? (orPass os) = readAll? os := by
  cases os with
  | nil => rfl
  | cons o rest => rfl

theorem readAll?_leaf {text : String} {os : List Outline} {rs : List Reading}
    (h : lineKind? text = some .simple) (hos : readAll? os = some (.nothing, rs)) :
    readAll? (.line text [] :: os) = some (.nothing, .simple text :: rs) := by
  rw [readAll?_cons, hos, Option.bind_some, readAll?, Option.bind_some]
  simp only [join?, h]

variable {head : String} {body rs : List Reading}

theorem definition_plain (h : Legible body) (head : String) :
    definition head body = .func head none body := by
  cases h with
  | simple htext =>
    have hquotes : ['"', '"'] <+: quotes.toList := by decide
    rw [definition, if_neg fun hin => htext.inline.opens.not_quotes (hquotes.trans hin)]
  | _ => rfl

theorem definition_documented (head doc : String) (body : List Reading) :
    definition head (.simple (quotes ++ doc ++ quotes) :: body) = .func head (some doc) body := by
  have htext : (quotes ++ doc ++ quotes).toList =
      quotes.toList ++ (doc.toList ++ quotes.toList) := by
    simp
  have hlength : (quotes ++ doc ++ quotes).length - 6 = doc.toList.length := by
    rw [← String.length_toList, htext]
    simp [quotes]
  rw [definition, if_pos (htext ▸ List.prefix_append _ _), hlength, htext,
    show 3 = quotes.toList.length from rfl, List.drop_left, List.take_left, String.ofList_toList]

theorem readAll?_documented {os : List Outline} {docstring? : Option String} (hbody : Legible body)
    (h : readAll? os = some (.nothing, body)) :
    ∃ inside, readAll? (docOutlines docstring? ++ os) = some (.nothing, inside) ∧
      ∀ head, definition head inside = .func head docstring? body := by
  cases docstring? with
  | none => exact ⟨body, h, definition_plain hbody⟩
  | some doc =>
    obtain ⟨hpass, hcolon⟩ := docText_simple doc
    have hkind : lineKind? (quotes ++ doc ++ quotes) = some .simple := by
      rw [lineKind?, if_neg hpass, if_pos hcolon]
    exact ⟨_, readAll?_leaf hkind h, fun head => definition_documented head doc body⟩

/-- What is printed is read back. -/
theorem Legible.read (h : Legible rs) : readAll? (outlinesAll rs) = some (.nothing, rs) := by
  induction h with
  | nil => rfl
  | simple htext _ ih => exact readAll?_leaf htext.kind ih
  | restore hcall hassignment _ ih =>
    have hrestoring : lineKind? restoring = some .restoring := by decide
    rw [outlinesAll, Reading.outlines, List.cons_append, List.cons_append, List.nil_append,
      readAll?_cons, readAll?_cons, ih, readAll?_leaf hassignment.kind rfl]
    simp only [Option.bind_some, join?, hrestoring, readAll?, hcall.kind]
  | branch hhead hne _ _ ihbody ih =>
    rw [outlinesAll, Reading.outlines, List.cons_append, List.nil_append, readAll?_cons,
      readAll?_orPass, ih, ihbody]
    simp only [Option.bind_some, join?, hhead.branch hne]
  | choice hhead hne _ _ _ ihbody ihorelse ih =>
    have helse : lineKind? "else:" = some .otherwise := by decide
    rw [outlinesAll, Reading.outlines, List.cons_append, List.cons_append, List.nil_append,
      readAll?_cons, readAll?_cons, readAll?_orPass, readAll?_orPass, ih, ihbody, ihorelse]
    simp only [Option.bind_some, join?, helse, hhead.branch hne]
  | loop hhead _ _ ihbody ih =>
    rw [outlinesAll, Reading.outlines, List.cons_append, List.nil_append, readAll?_cons,
      readAll?_orPass, ih, ihbody]
    simp only [Option.bind_some, join?, hhead.loop]
  | func hhead hdoc hbody _ ihbody ih =>
    obtain ⟨inside, hinside, hdefinition⟩ := readAll?_documented hbody ihbody
    rw [outlinesAll, Reading.outlines, List.cons_append, List.nil_append, readAll?_cons,
      readAll?_orPass, ih, hinside]
    simp only [Option.bind_some, join?, hhead.definition, hdefinition]

end Reading

end ResourceVersions.Code
