import ResourceVersions.Proofs.CodeStructure

/-! # Rendered blocks

Statements whose names are identifiers are rendered to lines that are read back as these statements,
at every level and however deep they are nested. -/
namespace ResourceVersions.Code

open Text

variable {level : Nat} {text : String} {stmts : List Stmt}

section Proper

def Fresh.Proper : Fresh → Prop
  | struct type => type.Proper
  | list | map => True

def LoopRange.Proper : LoopRange → Prop
  | items => True
  | entries keyVar => Identifier keyVar

mutual

/-- No comments, names that are identifiers, and docstrings without line breaks. -/
def Stmt.Proper : Stmt → Prop
  | .comment _ => False
  | .assign target value => target.Proper ∧ value.Proper
  | .allocate var fresh => Identifier var ∧ fresh.Proper
  | .guard subject body orelse => subject.Proper ∧ ProperAll body ∧ ProperAll orelse
  | .loop var range subject body =>
    Identifier var ∧ range.Proper ∧ subject.Proper ∧ ProperAll body
  | .append container value => container.Proper ∧ value.Proper
  | .setItem container key value => container.Proper ∧ key.Proper ∧ value.Proper
  | .stash store _ value => store.Proper ∧ value.Proper
  | .unstash store _ base a owner =>
    store.Proper ∧ base.Proper ∧ Identifier a ∧ owner.Proper
  | .ret value => value.Proper
  | .func name params body docstring? =>
    Identifier name ∧ (∀ p ∈ params, Identifier p.1 ∧ ∀ type ∈ p.2, type.Proper) ∧
      (∀ doc ∈ docstring?, Unbroken doc.toList) ∧ ProperAll body

def ProperAll : List Stmt → Prop
  | [] => True
  | s :: rest => s.Proper ∧ ProperAll rest

end

end Proper

section Texts

theorem Statement.of_mem {c : Char} (h : Inline text.toList) (hc : c ∈ text.toList)
    (hother : c ∉ "pass".toList) : Statement text := by
  refine ⟨h, ?_⟩
  rintro rfl
  exact hother hc

theorem Fresh.text_inline {fresh : Fresh} (h : fresh.Proper) : Inline fresh.text.toList := by
  cases fresh with
  | struct type => exact (TypeRef.text_inline h).append (by decide)
  | list => exact inline_literal (by decide)
  | map => exact inline_literal (by decide)

theorem assign_statement {target value : String} (htarget : Inline target.toList)
    (hvalue : Inline value.toList) : Statement (target ++ " = " ++ value) :=
  .of_mem (c := ' ') (htarget.between (by decide) hvalue) (by simp) (by decide)

/-- A call of a method or a function, or an assignment to an item, is put together from the left. -/
theorem append_statement {container value : String} (hcontainer : Inline container.toList)
    (hvalue : Inline value.toList) : Statement (container ++ ".append(" ++ value ++ ")") := by
  have hopened := hcontainer.append (t := ".append(") (by decide)
  exact .of_mem (c := '(') ((hopened.append hvalue.rest).append (by decide)) (by simp) (by decide)

theorem setItem_statement {container key value : String} (hcontainer : Inline container.toList)
    (hkey : Inline key.toList) (hvalue : Inline value.toList) :
    Statement (container ++ "[" ++ key ++ "] = " ++ value) := by
  have hopened := hcontainer.append (t := "[") (by decide)
  have hclosed := (hopened.append hkey.rest).append (t := "] = ") (by decide)
  exact .of_mem (c := '[') (hclosed.append hvalue.rest) (by simp) (by decide)

theorem comma_inline {s t : String} (hs : Inline s.toList) (ht : Inline t.toList) :
    Inline (s ++ ", " ++ t).toList :=
  hs.between (by decide) ht

theorem stash_statement {store value : String} (fieldId : String) (hstore : Inline store.toList)
    (hvalue : Inline value.toList) : Statement
      ("set_field_data(" ++ store ++ ", " ++ quoted fieldId ++ ", " ++ value ++ ")") := by
  have hopened : Inline ("set_field_data(" ++ store).toList :=
    (inline_literal (by decide)).append hstore.rest
  have hargs := comma_inline (comma_inline hopened (quoted_inline fieldId)) hvalue
  exact .of_mem (c := '(') (hargs.append (by decide)) (by simp) (by decide)

theorem unstash_statement {store owner : String} (fieldId a : String)
    (hstore : Inline store.toList) (howner : Inline owner.toList) : Statement
      (unstashedVar ++ " = pop_field_data" ++
        s!"({store}, {quoted fieldId}, {owner}, {quoted a})") := by
  have htarget : Inline (unstashedVar ++ " = pop_field_data").toList :=
    (inline_literal (by decide)).append (by decide)
  have hopened : Inline ("(" ++ store).toList := (inline_literal (by decide)).append hstore.rest
  have hargs := comma_inline (comma_inline (comma_inline hopened (quoted_inline fieldId)) howner)
    (quoted_inline a)
  have hcall := htarget.append (hargs.append (t := ")") (by decide)).rest
  exact .of_mem (c := ' ') hcall (by simp) (by decide)

theorem ret_statement {value : String} (hvalue : Inline value.toList) :
    Statement ("return " ++ value) := by
  have hword : Inline "return ".toList :=
    ⟨by decide, .plain (by decide) (by decide), by decide⟩
  exact .of_mem (c := ' ') (hword.append hvalue.rest) (by simp) (by decide)

/-- A line between its first word and the colon at its end. -/
theorem head_of (word close : String) {middle : String} (hword : Unbroken word.toList)
    (hmiddle : Unbroken middle.toList) (hclose : Unbroken close.toList ∧ OpensSuite close) :
    Head word (word ++ middle ++ close) where
  unbroken := by
    rw [String.toList_append, String.toList_append, unbroken_append, unbroken_append]
    exact ⟨⟨hword, hmiddle⟩, hclose.1⟩
  word := by
    rw [String.toList_append, String.toList_append, List.append_assoc]
    exact List.prefix_append _ _
  colon := by
    have hcolon : close.toList.getLast? = some ':' := hclose.2
    rw [OpensSuite, String.toList_append, List.getLast?_append, hcolon]
    rfl

theorem guard_ne_restoring (subject : String) :
    "if " ++ subject ++ " is not None:" ≠ restoring := by
  intro h
  have hend := congrArg (fun s : String => s.toList.reverse.take 2) h
  simp [restoring] at hend

theorem loop_head {var subject : String} {range : LoopRange} (hvar : Identifier var)
    (hrange : range.Proper) (hsubject : Inline subject.toList) :
    Head "for " (loopHead var subject range) := by
  cases range with
  | items =>
    have hmiddle : Unbroken (var ++ " in " ++ subject).toList :=
      (hvar.inline.between (by decide) hsubject).unbroken
    have hhead := head_of "for " ":" (by decide) hmiddle (by decide)
    simpa [loopHead, toString, String.append_assoc] using hhead
  | entries keyVar =>
    have hvars := comma_inline (Identifier.inline hrange) hvar.inline
    have hmiddle : Unbroken (keyVar ++ ", " ++ var ++ " in " ++ subject).toList :=
      (hvars.between (by decide) hsubject).unbroken
    have hhead := head_of "for " ".items():" (by decide) hmiddle (by decide)
    simpa [loopHead, toString, String.append_assoc] using hhead

theorem paramText_unbroken {p : String × Option TypeRef}
    (h : Identifier p.1 ∧ ∀ type ∈ p.2, type.Proper) : Unbroken (paramText p).toList := by
  obtain ⟨name, type?⟩ := p
  cases type? with
  | none => exact h.1.inline.unbroken
  | some type =>
    have htype := TypeRef.text_inline (h.2 type rfl)
    exact (h.1.inline.between (by decide) htype).unbroken

theorem func_head {name : String} {params : List (String × Option TypeRef)}
    (hname : Identifier name)
    (hparams : ∀ p ∈ params, Identifier p.1 ∧ ∀ type ∈ p.2, type.Proper) :
    Head "def " ("def " ++ name ++ "(" ++ ", ".intercalate (params.map paramText) ++ "):") := by
  have htexts : Unbroken (", ".intercalate (params.map paramText)).toList :=
    unbroken_intercalate (by decide)
      (List.forall_mem_map.mpr fun p hp => paramText_unbroken (hparams p hp))
  have hmiddle : Unbroken (name ++ "(" ++ ", ".intercalate (params.map paramText)).toList := by
    rw [String.toList_append, String.toList_append, unbroken_append, unbroken_append]
    exact ⟨⟨hname.inline.unbroken, by decide⟩, htexts⟩
  have hhead := head_of "def " "):" (by decide) hmiddle (by decide)
  simpa only [String.append_assoc] using hhead

end Texts

/-- What is printed for statements with proper names can be read. -/
theorem legible_readings : ∀ {stmts : List Stmt}, ProperAll stmts → Legible (readings stmts)
  | [], _ => .nil
  | s :: rest, h => by
    obtain ⟨hs, hrest⟩ := h
    have ih := legible_readings hrest
    cases s with
    | comment text => exact hs.elim
    | assign target value =>
      exact .simple (assign_statement (target.text_inline hs.1) (value.text_inline hs.2)) ih
    | allocate var fresh =>
      exact .simple (assign_statement hs.1.inline (fresh.text_inline hs.2)) ih
    | guard subject body orelse =>
      obtain ⟨hsubject, hbody, horelse⟩ := hs
      have hhead := head_of "if " " is not None:" (by decide)
        (subject.text_inline hsubject).unbroken (by decide)
      have hne := guard_ne_restoring subject.text
      have hinner := legible_readings hbody
      cases orelse with
      | nil => exact .branch hhead hne hinner ih
      | cons o orelse => exact .choice hhead hne hinner (legible_readings horelse) ih
    | loop var range subject body =>
      obtain ⟨hvar, hrange, hsubject, hbody⟩ := hs
      exact .loop (loop_head hvar hrange (subject.text_inline hsubject)) (legible_readings hbody) ih
    | append container value =>
      exact .simple (append_statement (container.text_inline hs.1) (value.text_inline hs.2)) ih
    | setItem container key value =>
      obtain ⟨hcontainer, hkey, hvalue⟩ := hs
      exact .simple (setItem_statement (container.text_inline hcontainer) (key.text_inline hkey)
        (value.text_inline hvalue)) ih
    | stash store fieldId value =>
      exact .simple
        (stash_statement fieldId (store.text_inline hs.1) (value.text_inline hs.2)) ih
    | unstash store fieldId base a owner =>
      obtain ⟨hstore, hbase, ha, howner⟩ := hs
      have htarget : Inline (base.text ++ "." ++ a).toList :=
        (base.text_inline hbase).between (by decide) ha.inline
      exact .restore (unstash_statement fieldId a (store.text_inline hstore)
        (owner.text_inline howner)) (assign_statement htarget (inline_literal (by decide))) ih
    | ret value => exact .simple (ret_statement (value.text_inline hs)) ih
    | func name params body docstring? =>
      obtain ⟨hname, hparams, hdoc, hbody⟩ := hs
      refine .func (func_head hname hparams) (fun doc hin => ?_) (legible_readings hbody) ih
      exact hdoc doc (Option.mem_filter_iff.mp hin).1

/-- A rendered block is indented at least to its level, each line that opens a suite, and no other,
has a suite one unit deeper behind it, and the statements are read back as they are nested. -/
theorem blockLines_read (h : ProperAll stmts) (level : Nat) :
    (∃ entries, blockLines level stmts = entries.map placed ∧ Stepwise level entries) ∧
      readBlock? level ("\n".intercalate (blockLines level stmts)) = some (readings stmts) := by
  have hlegible := legible_readings h
  have hsound := hlegible.sound
  rw [blockLines_eq]
  refine ⟨⟨_, rfl, hsound.stepwise level⟩, ?_⟩
  rw [readBlock?, readOutlines?_printed hsound, Option.bind_some, hlegible.read]
  rfl

def shelfBlock : List Stmt :=
  [.func "shelf_to_hub" [("src", none), ("dst", some ⟨"Shelf", some "hub"⟩)]
    [.guard (.attr (.name "src") "boxes")
      [.loop "box" .items (.attr (.name "src") "boxes") []]
      [.ret (.const .null)],
      .unstash (.name "meta") "Shelf.Size" (.name "dst") "size" ⟨"Shelf", none⟩]
    (some "Converts a shelf.")]

theorem blockLines_read_shelf : ProperAll shelfBlock ∧
    readBlock? 1 ("\n".intercalate (blockLines 1 shelfBlock)) = some (readings shelfBlock) := by
  have h : ProperAll shelfBlock := by
    simp [shelfBlock, ProperAll, Stmt.Proper, Expr.Proper, LoopRange.Proper, TypeRef.Proper,
      Value.Named.null]
    decide
  exact ⟨h, (blockLines_read h 1).2⟩

end ResourceVersions.Code
