import ResourceVersions.Proofs.CodePaths

/-! # Live variables

A variable that a copy is built up in is live from its allocation to the statement that stores it,
and the variables of a loop are live in its body. Generated code sets no live variable, nor one of
the few that a conversion function has anyway. Besides, it reads a variable only behind what gives
it a value. -/
namespace ResourceVersions

namespace Code

mutual

/-- The variables that a statement allocates, assigns or goes through a collection with, at any
depth. -/
def Stmt.binds : Stmt → List String
  | .assign (.name x) _ => [x]
  | .allocate x _ => [x]
  | .guard _ body orelse => bindsAll body ++ bindsAll orelse
  | .loop x range subject body => (Loop.mk x range subject).vars ++ bindsAll body
  | .unstash .. => [unstashedVar]
  | .func name .. => [name]
  | _ => []

def bindsAll : List Stmt → List String
  | [] => []
  | s :: rest => s.binds ++ bindsAll rest

end

mutual

/-- The bodies of guards and loops in a statement, at any depth. -/
def Stmt.bodies : Stmt → List (List Stmt)
  | .guard _ body orelse => body :: bodiesAll body ++ orelse :: bodiesAll orelse
  | .loop _ _ _ body => body :: bodiesAll body
  | .func _ _ body _ => body :: bodiesAll body
  | _ => []

def bodiesAll : List Stmt → List (List Stmt)
  | [] => []
  | s :: rest => s.bodies ++ bodiesAll rest

end

/-- The variables that a conversion function has whatever it copies. -/
def reserved : List String := ["src", "dst", "object_meta_copy", "spec_copy", "status_copy"]

/-- Code that sets neither a variable nor a reserved one. -/
def Spares (x : String) (code : List Stmt) : Prop := ∀ y ∈ bindsAll code, y ≠ x ∧ y ∉ reserved

/-- A statement that stores what a variable holds. -/
inductive Stmt.Keeps (x : String) : Stmt → Prop where
  | assign {base a} : Keeps x (.assign (.attr base a) (.name x))
  | append {container} : Keeps x (.append container (.name x))
  | setItem {container key} : Keeps x (.setItem container key (.name x))
  | ret : Keeps x (.ret (.name x))

/-- A loop of different variables with a body that sets none of them. -/
def Stmt.Fenced : Stmt → Prop
  | .loop x range subject body =>
    (Loop.mk x range subject).vars.Nodup ∧ ∀ y ∈ (Loop.mk x range subject).vars, Spares y body
  | _ => True

/-- Statements in a row that set no live variable. What is allocated is stored by the last one. -/
structure Orderly (code : List Stmt) : Prop where
  allocated : ∀ before x fresh behind, code = before ++ .allocate x fresh :: behind →
    ∃ live store, behind = live ++ [store] ∧ store.Keeps x ∧ Spares x live
  fenced : ∀ s ∈ code, s.Fenced

/-- A function that sets no live variable and reads none without a value. -/
structure Func.Safe (f : Func) : Prop where
  orderly : ∀ code ∈ f.body :: bodiesAll f.body, Orderly code
  covered : (pathsOf f.body).Covered (f.params.map Prod.fst)

variable {P Q : String → Prop} {code code' live : List Stmt} {s store : Stmt} {x : String}

@[simp] theorem bindsAll_nil : bindsAll [] = [] := rfl

@[simp] theorem bindsAll_cons (s : Stmt) (l : List Stmt) :
    bindsAll (s :: l) = s.binds ++ bindsAll l := rfl

@[simp] theorem bindsAll_append (l l' : List Stmt) :
    bindsAll (l ++ l') = bindsAll l ++ bindsAll l' := by
  induction l with
  | nil => rfl
  | cons s l ih => simp [ih]

@[simp] theorem bodiesAll_nil : bodiesAll [] = [] := rfl

@[simp] theorem bodiesAll_cons (s : Stmt) (l : List Stmt) :
    bodiesAll (s :: l) = s.bodies ++ bodiesAll l := rfl

@[simp] theorem bodiesAll_append (l l' : List Stmt) :
    bodiesAll (l ++ l') = bodiesAll l ++ bodiesAll l' := by
  induction l with
  | nil => rfl
  | cons s l ih => simp [ih]

/-- Code without allocations of its own that is orderly at every depth and sets only certain
variables. -/
structure Tame (P : String → Prop) (code : List Stmt) : Prop where
  noAllocate : ∀ x fresh, Stmt.allocate x fresh ∉ code
  fenced : ∀ s ∈ code, s.Fenced
  bodies : ∀ body ∈ bodiesAll code, Orderly body
  binds : ∀ y ∈ bindsAll code, P y

theorem Tame.nil : Tame P [] := ⟨by simp, by simp, by simp, by simp⟩

theorem Tame.append (h : Tame P code) (h' : Tame P code') : Tame P (code ++ code') where
  noAllocate x fresh hin :=
    (List.mem_append.mp hin).elim (h.noAllocate x fresh) (h'.noAllocate x fresh)
  fenced s hs := (List.mem_append.mp hs).elim (h.fenced s) (h'.fenced s)
  bodies body hbody := by
    rw [bodiesAll_append] at hbody
    exact (List.mem_append.mp hbody).elim (h.bodies body) (h'.bodies body)
  binds y hy := by
    rw [bindsAll_append] at hy
    exact (List.mem_append.mp hy).elim (h.binds y) (h'.binds y)

theorem Tame.flatMap {α : Type} {parts : List α} {f : α → List Stmt}
    (h : ∀ p ∈ parts, Tame P (f p)) : Tame P (parts.flatMap f) := by
  induction parts with
  | nil => exact .nil
  | cons p parts ih =>
    obtain ⟨hp, hparts⟩ := List.forall_mem_cons.mp h
    exact hp.append (ih hparts)

theorem Tame.mono (h : Tame P code) (hPQ : ∀ y, P y → Q y) : Tame Q code :=
  { h with binds := fun y hy => hPQ y (h.binds y hy) }

theorem Tame.orderly (h : Tame P code) : Orderly code where
  allocated before x fresh behind hcode := by
    exact (h.noAllocate x fresh (by simp [hcode])).elim
  fenced := h.fenced

/-- A statement that nothing else stands in. -/
theorem tame_leaf (hallocate : ∀ x fresh, s ≠ .allocate x fresh) (hfenced : s.Fenced)
    (hbodies : s.bodies = []) (hbinds : ∀ y ∈ s.binds, P y) : Tame P [s] where
  noAllocate x fresh hin := hallocate x fresh (List.mem_singleton.mp hin).symm
  fenced := List.forall_mem_singleton.mpr hfenced
  bodies := by simp [hbodies]
  binds := by simpa using hbinds

/-- What stores a variable sets none. -/
theorem Stmt.Keeps.tame (h : s.Keeps x) : Tame P [s] := by
  cases h <;> exact tame_leaf nofun trivial rfl nofun

/-- Tame code that does not set a variable may stand between its allocation and its store. -/
theorem Tame.kept {fresh : Fresh} (h : Tame P live) (hx : ¬ P x) (hreserved : ∀ y ∈ reserved, ¬ P y)
    (hkeeps : store.Keeps x) : Orderly (.allocate x fresh :: live ++ [store]) := by
  have hrest : Tame P (live ++ [store]) := h.append hkeeps.tame
  constructor
  -- no allocation but the first
  · intro before y fresh' behind hcode
    cases before with
    | nil =>
      obtain ⟨hy, rfl⟩ := List.cons.inj hcode
      cases hy
      refine ⟨live, store, rfl, hkeeps, fun y hy => ⟨?_, fun hin => hreserved y hin (h.binds y hy)⟩⟩
      rintro rfl
      exact hx (h.binds y hy)
    | cons s before =>
      have hbehind : live ++ [store] = before ++ .allocate y fresh' :: behind :=
        (List.cons.inj hcode).2
      exact (hrest.noAllocate y fresh' (by simp [hbehind])).elim
  · exact List.forall_mem_cons.mpr ⟨trivial, hrest.fenced⟩

/-- A loop sets its variables and what its body sets. -/
theorem Tame.loop {l : Loop} (h : Tame P code) (hnodup : l.vars.Nodup) (hvars : ∀ y ∈ l.vars, ¬ P y)
    (hreserved : ∀ y ∈ reserved, ¬ P y) :
    Tame (fun y => y ∈ l.vars ∨ P y) [.loop l.var l.range l.subject code] where
  noAllocate := by simp
  fenced := by
    intro s hs
    obtain rfl := List.mem_singleton.mp hs
    refine ⟨hnodup, fun x hx y hy => ⟨?_, fun hin => hreserved y hin (h.binds y hy)⟩⟩
    rintro rfl
    exact hvars y hx (h.binds y hy)
  bodies := by
    simp only [bodiesAll_cons, bodiesAll_nil, List.append_nil, Stmt.bodies]
    exact List.forall_mem_cons.mpr ⟨h.orderly, h.bodies⟩
  binds y hy := by
    simp only [bindsAll_cons, bindsAll_nil, List.append_nil, Stmt.binds, List.mem_append] at hy
    exact hy.imp_right (h.binds y)

/-- A guard around orderly code and another tame body. -/
theorem tame_guard {subject : Expr} {orelse : List Stmt} (horderly : Orderly code)
    (hbodies : ∀ body ∈ bodiesAll code, Orderly body) (hbinds : ∀ y ∈ bindsAll code, P y)
    (horelse : Tame P orelse) : Tame P [.guard subject code orelse] where
  noAllocate := by simp
  fenced := by
    intro s hs
    obtain rfl := List.mem_singleton.mp hs
    trivial
  bodies := by
    simp only [bodiesAll_cons, bodiesAll_nil, List.append_nil, Stmt.bodies]
    intro body hbody
    simp only [List.mem_append, List.mem_cons] at hbody
    rcases hbody with (rfl | hbody) | rfl | hbody
    · exact horderly
    · exact hbodies body hbody
    · exact horelse.orderly
    · exact horelse.bodies body hbody
  binds y hy := by
    simp only [bindsAll_cons, bindsAll_nil, List.append_nil, Stmt.binds, List.mem_append] at hy
    exact hy.elim (hbinds y) (horelse.binds y)

theorem reserved_not_scratch {n : Nat} : ∀ y ∈ reserved, ¬ Scratch n y := by
  have hlast : ∀ y ∈ reserved, y.toList.getLast?.any Char.isDigit = false := by decide
  exact fun y hy => not_scratch (hlast y hy)

end Code

namespace Conversion

open Code

/-- A place in an object, or the result of a function. -/
inductive Target.Place : Target → Prop where
  | attr {base a} : Place (.assign (.attr base a))
  | append {container} : Place (.append container)
  | setItem {container key} : Place (.setItem container key)
  | ret : Place .ret

/-- The variables that a target names. -/
def Target.vars : Target → List String
  | .assign e => e.vars
  | .append container => container.vars
  | .setItem container key => container.vars ++ key.vars
  | .ret => []

section Targets

variable {P : String → Prop} {target : Target} {value : Expr} {known : List String}

theorem Target.Place.keeps {x : String} (h : target.Place) : (target.store (.name x)).Keeps x := by
  cases h with
  | attr => exact .assign
  | append => exact .append
  | setItem => exact .setItem
  | ret => exact .ret

theorem Target.Place.tame (h : target.Place) : Tame P [target.store value] := by
  cases h <;> exact tame_leaf nofun trivial rfl nofun

theorem Target.covered_store (hvalue : value.vars ⊆ known) (htarget : target.vars ⊆ known) :
    (target.store value).paths.Covered known := by
  have hreads := covered_reads hvalue
  cases target with
  | assign e => exact covered_fill hvalue htarget
  | append container => exact Paths.covered_through ((covered_reads htarget).both hreads)
  | setItem container key =>
    obtain ⟨hcontainer, hkey⟩ := List.append_subset.mp htarget
    exact Paths.covered_through
      ((hreads.both (covered_reads hcontainer)).both (covered_reads hkey))
  | ret => exact Paths.covered_returning hreads

end Targets

namespace Direction

variable {d : Direction} {P : String → Prop} {known active : List String} {value : Expr}
  {x y : String} {depth : Nat} {target : Target} {keepNone : Bool} {code live : List Stmt}
  {requests : List HelperRequest}

/-- A guard around a copy that is built up in a variable. -/
theorem tame_guarded {names : Names} {fresh : Fresh} (h : Tame P live) (htarget : target.Place)
    (hsets : ∀ y, P y → Scratch depth y) (hcopy : ¬ P (copyVar names depth)) :
    Tame (Scratch depth) (guarded value (.allocate (copyVar names depth) fresh :: live ++
      [target.store (.name (copyVar names depth))]) target keepNone) := by
  have hstore : Tame P [target.store (.name (copyVar names depth))] := htarget.tame
  have hrest := h.append hstore
  refine tame_guard (h.kept hcopy (fun y hy hp => reserved_not_scratch y hy (hsets y hp))
    htarget.keeps) hrest.bodies ?_ ?_
  · intro y hy
    rcases List.mem_cons.mp hy with rfl | hy
    · rw [copyVar_eq]
      exact generated_scratch names.snake "copy" depth
    · exact hsets y (hrest.binds y hy)
  · cases keepNone with
    | false => exact .nil
    | true => exact htarget.tame

/-- A copy of a collection: the variables of the loop have the depth of the copy, and are for
something else. -/
theorem tame_collection {names : Names} {fresh : Fresh} {l : Loop} {inner : List Stmt}
    (h : Tame (Scratch (depth + 1)) inner) (htarget : target.Place) (hnodup : l.vars.Nodup)
    (hvars : ∀ v ∈ l.vars, ∃ s role, v = generated s role depth ∧ '_' ∉ role.toList ∧
      role ≠ "copy") :
    Tame (Scratch depth) (guarded value [.allocate (copyVar names depth) fresh,
      .loop l.var l.range l.subject inner, target.store (.name (copyVar names depth))] target
        keepNone) := by
  have hdeeper : ∀ v ∈ l.vars, ¬ Scratch (depth + 1) v := by
    intro v hv
    obtain ⟨s, role, rfl, -⟩ := hvars v hv
    exact generated_not_deeper s role depth
  refine tame_guarded (h.loop hnodup hdeeper reserved_not_scratch) htarget ?_ ?_
  · rintro y (hy | hy)
    · obtain ⟨s, role, rfl, -⟩ := hvars y hy
      exact generated_scratch s role depth
    · exact hy.mono (Nat.le_succ depth)
  · rw [copyVar_eq]
    rintro (hin | hin)
    · obtain ⟨s, role, heq, hrole, hne⟩ := hvars _ hin
      exact generated_ne depth (by decide) hrole (Ne.symm hne) heq
    · exact generated_not_deeper names.snake "copy" depth hin

/-- The code of a copy sets only variables of its depth and below, and no live one. -/
theorem CopyCode.tame (h : CopyCode d active value x y depth target keepNone code requests)
    (htarget : target.Place) : Tame (Scratch depth) code := by
  induction h with
  | scalar _ _ => exact htarget.tame
  | plain _ => exact htarget.tame
  | recurse _ _ _ _ => exact htarget.tame
  | @struct active value x y depth target keepNone s s' ms ms' names className parts _ _ _ _ _ _ _
      hcopied hsecret _ ih =>
    -- the names of siblings may meet, but they are all deeper than this copy
    refine tame_guarded (P := Scratch (depth + 1)) (.flatMap fun p hp => ?_) htarget
      (fun y hy => hy.mono (Nat.le_succ depth)) ?_
    · obtain ⟨m, hm⟩ := hcopied p hp
      cases hkept : m.isSecret with
      | true =>
        rw [(hsecret p hp m hm hkept).1]
        exact Target.Place.tame .attr
      | false => exact ih p hp m hm hkept .attr
    · rw [copyVar_eq]
      exact generated_not_deeper names.snake "copy" depth
  | @list active value x y depth target keepNone s s' e e' names element inner requests _ _ _ _ _ _
      _ ih =>
    refine tame_collection (l := ⟨elemVar element depth, .items, value⟩) (ih .append) htarget
      (List.nodup_singleton _) fun v hv => ?_
    obtain rfl := List.mem_singleton.mp hv
    exact ⟨element.snake, "elem", elemVar_eq element depth, by decide, by decide⟩
  | @map active value x y depth target keepNone s s' k v k' v' names element inner requests _ _ _ _
      _ _ _ ih =>
    have hne : keyVar names depth ≠ valueVar element depth := by
      rw [keyVar_eq, valueVar_eq]
      exact generated_ne depth (by decide) (by decide) (by decide)
    refine tame_collection (l := ⟨valueVar element depth, .entries (keyVar names depth), value⟩)
      (ih .setItem) htarget ?_ fun v hv => ?_
    · exact List.nodup_cons.mpr ⟨by simpa using hne, List.nodup_singleton _⟩
    rcases List.mem_pair.mp hv with rfl | rfl
    · exact ⟨names.snake, "key", keyVar_eq names depth, by decide, by decide⟩
    · exact ⟨element.snake, "value", valueVar_eq element depth, by decide, by decide⟩

theorem covered_guarded {body : List Stmt} (hvalue : value.vars ⊆ known)
    (htarget : target.vars ⊆ known) (hbody : (pathsOf body).Covered known) :
    ∀ s ∈ guarded value body target keepNone, s.paths.Covered known := by
  intro s hs
  obtain rfl := List.mem_singleton.mp hs
  refine covered_guard hvalue hbody (covered_block fun s hs => ?_)
  cases keepNone with
  | false => cases hs
  | true =>
    obtain rfl := List.mem_singleton.mp hs
    exact Target.covered_store (List.nil_subset _) htarget

/-- What is allocated is known to the statements behind, and to the last one that stores it. -/
theorem covered_kept {c : String} {fresh : Fresh} (htarget : target.vars ⊆ known)
    (hlive : ∀ s ∈ live, s.paths.Covered (c :: known)) :
    (pathsOf (.allocate c fresh :: live ++ [target.store (.name c)])).Covered known := by
  refine covered_allocate (List.forall_mem_append.mpr ⟨hlive, ?_⟩)
  exact List.forall_mem_singleton.mpr (Target.covered_store
    (vars_name_subset (List.mem_cons_self ..)) (List.subset_cons_of_subset _ htarget))

theorem covered_collection {c : String} {fresh : Fresh} {l : Loop} {inner : List Stmt}
    (hvalue : l.subject.vars ⊆ known) (htarget : target.vars ⊆ known)
    (hinner : ∀ s ∈ inner, s.paths.Covered (l.vars ++ c :: known)) :
    ∀ s ∈ guarded l.subject [.allocate c fresh, .loop l.var l.range l.subject inner,
      target.store (.name c)] target keepNone, s.paths.Covered known := by
  have hlive : ∀ s ∈ [Stmt.loop l.var l.range l.subject inner], s.paths.Covered (c :: known) :=
    List.forall_mem_singleton.mpr
      (covered_loop (List.subset_cons_of_subset _ hvalue) (covered_block hinner))
  exact covered_guarded hvalue htarget (covered_kept htarget hlive)

/-- The code of a copy reads what it copies and what it is stored in, and besides only what it has
set. -/
theorem CopyCode.covered (h : CopyCode d active value x y depth target keepNone code requests)
    (hvalue : value.vars ⊆ known) (htarget : target.vars ⊆ known) :
    ∀ s ∈ code, s.paths.Covered known := by
  induction h generalizing known with
  | scalar _ _ => exact List.forall_mem_singleton.mpr (Target.covered_store hvalue htarget)
  | plain _ => exact List.forall_mem_singleton.mpr (Target.covered_store hvalue htarget)
  | recurse _ _ _ _ => exact List.forall_mem_singleton.mpr (Target.covered_store hvalue htarget)
  | @struct active value x y depth target keepNone s s' ms ms' names className parts _ _ _ _ _ _ _
      hcopied hsecret _ ih =>
    refine covered_guarded hvalue htarget (covered_kept htarget fun s hs => ?_)
    obtain ⟨p, hp, hs⟩ := List.mem_flatMap.mp hs
    obtain ⟨m, hm⟩ := hcopied p hp
    have hmember : (Expr.attr value m.attr).vars ⊆ copyVar names depth :: known :=
      List.subset_cons_of_subset _ hvalue
    have hslot : (memberSlot names depth m).vars ⊆ copyVar names depth :: known :=
      vars_name_subset (List.mem_cons_self ..)
    cases hkept : m.isSecret with
    | true =>
      rw [(hsecret p hp m hm hkept).1] at hs
      obtain rfl := List.mem_singleton.mp hs
      exact Target.covered_store hmember hslot
    | false => exact ih p hp m hm hkept hmember hslot s hs
  | @list active value x y depth target keepNone s s' e e' names element inner requests _ _ _ _ _ _
      _ ih =>
    refine covered_collection (l := ⟨elemVar element depth, .items, value⟩) hvalue htarget
      (ih ?_ ?_)
    · exact vars_name_subset (List.mem_cons_self ..)
    · exact vars_name_subset (by simp)
  | @map active value x y depth target keepNone s s' k v k' v' names element inner requests _ _ _ _
      _ _ _ ih =>
    refine covered_collection
      (l := ⟨valueVar element depth, .entries (keyVar names depth), value⟩) hvalue htarget
      (ih ?_ ?_)
    · exact vars_name_subset (by simp [Loop.vars])
    · intro v hv
      rcases List.mem_pair.mp hv with rfl | rfl <;> simp [Loop.vars]

section Function

variable {way : Way} {delta : ResourceDelta} {p : Part} {dst : String}

/-- The variables that the code for a part may set: those of copies, and the one for a value that
was stashed. -/
def PartVar (x : String) : Prop := Scratch 1 x ∨ x = unstashedVar

theorem reserved_not_partVar : ∀ y ∈ reserved, ¬ PartVar y := by
  rintro y hy (hscratch | rfl)
  · exact reserved_not_scratch y hy hscratch
  · revert hy
    decide

theorem FieldCode.tame {owner : TypeRef} {δ : FieldDelta}
    (h : d.FieldCode way p owner δ code requests) : Tame PartVar code := by
  cases h with
  | whole _ _ _ _ => exact Target.Place.tame .attr
  | copy _ _ _ _ _ _ _ hcopy => exact (hcopy.tame .attr).mono fun y hy => .inl hy
  | stash _ _ => exact tame_leaf nofun trivial rfl nofun
  | unstash _ _ => exact tame_leaf nofun trivial rfl fun y hy => .inr (List.mem_singleton.mp hy)

theorem FieldCode.covered {owner : TypeRef} {δ : FieldDelta}
    (h : d.FieldCode way p owner δ code requests) (hsrc : "src" ∈ known) (hmeta : metaVar ∈ known)
    (hcopy : p.copyVar ∈ known) : ∀ s ∈ code, s.paths.Covered known := by
  have hfield : ∀ a, (Expr.attr p.source a).vars ⊆ known := fun _ => vars_name_subset hsrc
  have hslot : ∀ g, (fieldSlot p g).vars ⊆ known := fun _ => vars_name_subset hcopy
  cases h with
  | whole _ _ _ _ =>
    exact List.forall_mem_singleton.mpr (Target.covered_store (hfield _) (hslot _))
  | copy _ _ _ _ _ _ _ hcode => exact hcode.covered (hfield _) (hslot _)
  | stash _ _ =>
    refine List.forall_mem_singleton.mpr ?_
    exact Paths.covered_through
      ((covered_reads (vars_name_subset hmeta)).both (covered_reads (hfield _)))
  | unstash _ _ =>
    exact List.forall_mem_singleton.mpr
      (covered_unstash (vars_name_subset hmeta) (vars_name_subset hcopy))

/-- The body of the guard of a part. -/
theorem PartCode.tame {parts : List DeltaCode} {owner : TypeRef} {deltas : List FieldDelta}
    (h : d.PartCode way p owner deltas parts) :
    Tame (fun _ => True) [.guard p.source (d.partBody p dst parts) []] := by
  have hlead : Tame PartVar (leadCode p) := by
    cases p with
    | spec => exact .nil
    | status => exact tame_leaf nofun trivial rfl nofun
  have hlive : Tame PartVar (leadCode p ++ parts.flatMap DeltaCode.code) :=
    hlead.append (.flatMap fun part hpart => (h.each part hpart).tame)
  have hstore : Stmt.Keeps p.copyVar (.assign (.attr (.name "dst") p.text) (.name p.copyVar)) :=
    .assign
  have hcopy : ¬ PartVar p.copyVar := reserved_not_partVar _ (by cases p <;> decide)
  exact tame_guard (hlive.kept hcopy reserved_not_partVar hstore)
    (hlive.append hstore.tame).bodies (fun _ _ => trivial) .nil

theorem PartCode.covered {parts : List DeltaCode} {owner : TypeRef} {deltas : List FieldDelta}
    (h : d.PartCode way p owner deltas parts) (hsrc : "src" ∈ known) (hdst : "dst" ∈ known)
    (hmeta : metaVar ∈ known) :
    (Stmt.guard p.source (d.partBody p dst parts) []).paths.Covered known := by
  have hmore : known ⊆ p.copyVar :: known := List.subset_cons_self ..
  have hcopy : p.copyVar ∈ p.copyVar :: known := List.mem_cons_self ..
  refine covered_guard (vars_name_subset hsrc) (covered_allocate ?_)
    (covered_block (List.forall_mem_nil _))
  refine List.forall_mem_append.mpr ⟨List.forall_mem_append.mpr ⟨?_, ?_⟩, ?_⟩
  · cases p with
    | spec => exact List.forall_mem_nil _
    | status =>
      exact List.forall_mem_singleton.mpr
        (covered_fill (vars_name_subset (hmore hsrc)) (vars_name_subset hcopy))
  · intro s hs
    obtain ⟨part, hpart, hs⟩ := List.mem_flatMap.mp hs
    exact (h.each part hpart).covered (hmore hsrc) (hmore hmeta) hcopy s hs
  · exact List.forall_mem_singleton.mpr
      (covered_fill (vars_name_subset hcopy) (vars_name_subset (hmore hdst)))

/-- The body of a conversion function. -/
theorem functionBody_safe {f : Func} {requests : List HelperRequest}
    (hδ : ∀ δ ∈ delta.all, δ.isSupported = true) (hparams : f.params.map Prod.fst = ["src", "dst"])
    (h : (d.functionBody way dst delta).run = (.ok f.body, requests)) : f.Safe := by
  obtain ⟨spec, status, hspec, hstatus, hemit, -⟩ := functionBody_emits hδ (s := []) h
  have hbody : f.body = [.assign (.name metaVar) (.valueCopy (.attr (.name "src") "metadata")),
      .guard Part.spec.source (d.partBody .spec dst spec) [],
      .guard Part.status.source (d.partBody .status dst status) [],
      .assign (.attr (.name "dst") "metadata") (.name metaVar)] := hemit
  have hfirst : Tame (fun _ => True)
      [.assign (.name metaVar) (.valueCopy (.attr (.name "src") "metadata"))] :=
    tame_leaf nofun trivial rfl fun _ _ => trivial
  have hlast : Tame (fun _ => True) [.assign (.attr (.name "dst") "metadata") (.name metaVar)] :=
    tame_leaf nofun trivial rfl nofun
  have htame : Tame (fun _ => True) f.body := by
    rw [hbody]
    exact (hfirst.append hspec.tame).append (hstatus.tame.append hlast)
  constructor
  · exact List.forall_mem_cons.mpr ⟨htame.orderly, htame.bodies⟩
  · rw [hbody, hparams]
    refine covered_assign (vars_name_subset (by simp)) (List.forall_mem_cons.mpr ⟨?_,
      List.forall_mem_cons.mpr ⟨?_, List.forall_mem_singleton.mpr ?_⟩⟩)
    · exact hspec.covered (by simp) (by simp) (by simp)
    · exact hstatus.covered (by simp) (by simp) (by simp)
    · exact covered_fill (vars_name_subset (by simp)) (vars_name_subset (by simp))

end Function

end Direction

section Calls

open Direction

variable {c : Converter} {attempts : List Attempt} {h : Helpers} {f : Func}

/-- A copy helper. -/
theorem BuiltFor.safe {d : Direction} {r : HelperRequest} (h : BuiltFor d r f) : f.Safe := by
  have hrun : runFrom (d.copyFrom [] [] (.name "src") r.src r.dst 1 .ret true) [] =
      (.ok f.body, (d.helperBody r).2) := Prod.ext h.body rfl
  obtain ⟨requests, -, hcode⟩ := copyFrom_emits hrun
  have htame := hcode.tame .ret
  constructor
  · exact List.forall_mem_cons.mpr ⟨htame.orderly, htame.bodies⟩
  · rw [h.params]
    exact covered_block (hcode.covered (List.Subset.refl _) (List.nil_subset _))

theorem function_safe {h' : Helpers} {way : Way} {spoke hub : Resource} {delta : ResourceDelta}
    (hδ : ∀ δ ∈ delta.all, δ.isSupported = true)
    (hf : c.function h way spoke hub delta = (.ok f, h')) : f.Safe := by
  obtain ⟨body, hemit, -, hparams, rfl⟩ := function_ok hf
  exact functionBody_safe hδ hparams (Prod.ext (emit_ok hemit).1 rfl)

/-- Nothing that a converter generates sets a live variable or reads one without a value, whatever
the shapes are called: neither the helpers nor the functions that a call gives. -/
theorem generated_variables_safe (hrun : Attempts c attempts h) :
    (∀ f ∈ h.toList, f.Safe) ∧
    ∀ spoke hub delta fs h', c.functions h spoke hub delta = (.ok fs, h') → ∀ f ∈ fs, f.Safe := by
  constructor
  · intro f hf
    obtain ⟨way, r, hfor⟩ := hrun.helperFor f hf
    exact hfor.safe
  · intro spoke hub delta fs h' hcall f hf
    obtain ⟨hδ, toHub, fromHub, h₁, rfl, hto, hfrom⟩ := functions_ok hcall
    rcases List.mem_pair.mp hf with rfl | rfl
    · exact function_safe hδ hto
    · exact function_safe hδ hfrom

end Calls

open Sample in
/-- The helper for nodes and the function that calls it are safe. -/
theorem generated_variables_safe_nodes : ∃ toHub fromHub h f,
    (nodes ∅).functions {} holder holder twoRoots = (.ok [toHub, fromHub], h) ∧
    f ∈ h.toList ∧ f.name = "_copy_node_to_hub" ∧ f.Safe ∧ toHub.Safe ∧ fromHub.Safe := by
  obtain ⟨toHub, h₁, body, hto, hbegun, -, -, htable⟩ := twoRoots_toHub
  obtain ⟨fromHub, h, hfrom⟩ := twoRoots_fromHub (h := h₁) (by rw [hbegun]; decide)
    (by rw [hbegun]; decide)
  have hcall := functions_of_function rfl hto hfrom
  obtain ⟨hclosed, -⟩ := function_grows Helpers.closed_start hto
  obtain ⟨-, hgrows⟩ := function_grows hclosed hfrom
  have hf := Helpers.mem_toList.mpr ⟨_, hgrows.kept _ _ htable⟩
  obtain ⟨hhelpers, -⟩ := generated_variables_safe (Attempts.start.call _ _ _ hcall)
  obtain ⟨-, hfunctions⟩ := generated_variables_safe (Attempts.start (c := nodes ∅))
  exact ⟨toHub, fromHub, h, _, hcall, hf, rfl, hhelpers _ hf,
    hfunctions _ _ _ _ _ hcall toHub (by simp), hfunctions _ _ _ _ _ hcall fromHub (by simp)⟩

namespace Sample

/-- A mapping from texts to lists, with the name of the variable that a list is copied to. -/
def lookalike : VersionModel :=
  { nodeModel "v1" ∅ with
    api := { nodeApi with
      shapes := .ofList [("Node_copy_2", plainShape (.map (ref "Text") (ref "Node"))),
        ("Node", plainShape (.list (ref "Knot"))),
        ("Knot", plainShape (.struct (.ofList [("Key", ref "Text")]))),
        ("Text", plainShape (.scalar .string))] } }

example : (Emit.run (Direction.copyFrom ⟨lookalike, lookalike, none, none, "to_hub"⟩ [] []
      (.name "src") "Node_copy_2" "Node_copy_2" 1 .ret true)).1.toOption.map bindsAll =
    some ["node_copy_2_copy_1", "node_copy_2_key_1", "node_value_1", "node_copy_2", "knot_elem_2",
      "knot_copy_3"] := by
  cbv

end Sample

end Conversion

end ResourceVersions
