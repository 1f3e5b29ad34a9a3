import ResourceVersions.Proofs.BuiltModel
import ResourceVersions.Proofs.Conforming
import ResourceVersions.Proofs.Variables

/-! # Emitted code copies

What the code of a copy does, by induction on how it was emitted: it stores a value of the same
tree that conforms to the destination, and touches no other variable than those it generates.
Calls of helpers are taken to be right for smaller values. -/
namespace ResourceVersions

open Code Conversion

/-- No class of a structure has two attributes of one name. -/
def VersionModel.DistinctAttrs (m : VersionModel) : Prop :=
  ∀ x d, m.typeDef? x = some d → (d.attrs.map fun a => a.names.camelLower).Nodup

namespace Conversion.Direction

def srcSide (d : Direction) : Side := ⟨d.src, d.srcAlias?⟩
def dstSide (d : Direction) : Side := ⟨d.dst, d.dstAlias?⟩

/-- What is taken for granted of two versions and the classes that their code refers to. -/
structure Grounded (classes : Classes) (d : Direction) : Prop where
  src : d.src.Coherent
  dst : d.dst.Coherent
  srcAttrs : d.src.DistinctAttrs
  dstAttrs : d.dst.DistinctAttrs
  declared : ∀ y c, d.dst.typeDef? y = some c → ∃ attrs,
    classes.get? (d.dstSide.className c) = some attrs ∧
      attrs.map AttrDecl.name = c.attrs.map fun a => a.names.camelLower

end Conversion.Direction

/-- A value of a shape with the tree of another value. -/
structure Copied (s : Side) (y : String) (v w : Value) : Prop where
  tree : w.tree = v.tree
  conforms : s.Conforms y w

namespace Conversion

open Direction

variable {classes : Classes} {call : String → Value → Option Value} {d : Direction}
  {P : String → Prop} {f g : Frame}

/-- A target that starts from variables outside a set. -/
def Target.Avoids (P : String → Prop) : Target → Prop
  | assign target => target.Avoids P
  | append container => container.Avoids P
  | setItem container key => container.Avoids P ∧ key.Avoids P
  | ret => True

/-- Storing what an expression stands for is storing its value. -/
theorem Target.exec_store (target : Target) {e : Expr} {w : Value} (h : e.eval call f = some w) :
    (target.store e).exec classes call f = (target.store (.const w)).exec classes call f := by
  cases target <;> simp only [Target.store, Stmt.exec, h, Expr.eval]

theorem execAll_append (a b : List Stmt) (f : Frame) : execAll classes call (a ++ b) f =
    (execAll classes call a f).bind (Outcome.andThen (execAll classes call b)) := by
  induction a generalizing f with
  | nil => rfl
  | cons s a ih =>
    simp only [List.cons_append, execAll]
    cases s.exec classes call f with
    | none => rfl
    | some o =>
      cases o with
      | running g => exact ih g
      | returned v => rfl

theorem execAll_singleton (s : Stmt) (f : Frame) :
    execAll classes call [s] f = s.exec classes call f := by
  rw [execAll]
  cases s.exec classes call f with
  | none => rfl
  | some o => cases o <;> rfl

theorem execAll_running {s : Stmt} {rest : List Stmt} (h : s.exec classes call f = some (.running g)) :
    execAll classes call (s :: rest) f = execAll classes call rest g := by
  rw [execAll, h]
  rfl

/-- What copy code does with a value: it stores a copy of it once, in variables that agree with
the given ones off the generated ones. A null that is not to be kept may be left out. -/
def Copies (classes : Classes) (call : String → Value → Option Value) (s : Side) (y : String)
    (depth : Nat) (target : Target) (keepNone : Bool) (code : List Stmt) (f : Frame)
    (v : Value) : Prop :=
  ∃ w, Copied s y v w ∧ ∃ g, AgreeOff (Scratch depth) f g ∧
    (execAll classes call code f = (target.store (.const w)).exec classes call g ∨
      v = .null ∧ keepNone = false ∧ execAll classes call code f = some (.running g))

/-- Calls of the helper that is asked for are right for values below some size. -/
def Serves (call : String → Value → Option Value) (d : Direction) (n : Nat)
    (r : HelperRequest) : Prop :=
  ∀ names shape v, Names.of r.src = .ok names → d.src.api.shape? r.src = some shape →
    Api.sameStructure d.src.api d.dst.api r.src r.dst = true → d.srcSide.Conforms r.src v →
    v.size < n → ∃ w, call (d.helperName names) v = some w ∧ Copied d.dstSide r.dst v w

/-- A null is its own copy. -/
theorem copied_null (s : Side) (y : String) : Copied s y .null .null := ⟨rfl, .null y⟩

/-- Guarded code copies if it copies what is not null. -/
theorem copies_guarded {s : Side} {y : String} {depth : Nat} {target : Target} {keepNone : Bool}
    {value : Expr} {body : List Stmt} {v : Value} (hv : value.eval call f = some v)
    (h : v ≠ .null → ∃ w, Copied s y v w ∧ ∃ g, AgreeOff (Scratch depth) f g ∧
      execAll classes call body f = (target.store (.const w)).exec classes call g) :
    Copies classes call s y depth target keepNone (guarded value body target keepNone) f v := by
  have hguard : execAll classes call (guarded value body target keepNone) f =
      if v.isNull then execAll classes call
        (if keepNone then [target.store (.const .null)] else []) f
      else execAll classes call body f := by
    rw [guarded, execAll_singleton, Stmt.exec, hv]
    rfl
  by_cases hnull : v = .null
  · subst hnull
    refine ⟨.null, copied_null s y, f, .refl _ f, ?_⟩
    cases keepNone with
    | true => exact .inl (hguard.trans (execAll_singleton _ _))
    | false => exact .inr ⟨rfl, rfl, hguard⟩
  · obtain ⟨w, hw, g, hg, hbody⟩ := h hnull
    have hset : v.isNull = false := by
      cases v with
      | null => exact absurd rfl hnull
      | _ => rfl
    refine ⟨w, hw, g, hg, .inl ?_⟩
    rw [hguard, hset]
    exact hbody

/-- A loop that adds one part for every element to what a variable holds, in variables that
otherwise agree with those at its start. -/
theorem forEach_builds {α β : Type} {items : List α} {step : α → Frame → Option Outcome}
    {R : α → β → Prop} {build : List β → Value} {x : String}
    (hstep : ∀ pre a post done g, items = pre ++ a :: post → List.Forall₂ R pre done →
      AgreeOff P f g → g x = some (build done) →
      ∃ b g', R a b ∧ AgreeOff P f g' ∧ g' x = some (build (done ++ [b])) ∧
        step a g = some (.running g'))
    (hf : f x = some (build [])) :
    ∃ bs g, List.Forall₂ R items bs ∧ AgreeOff P f g ∧ g x = some (build bs) ∧
      forEach step items f = some (.running g) := by
  have run : ∀ rest pre done g, items = pre ++ rest → List.Forall₂ R pre done →
      AgreeOff P f g → g x = some (build done) →
      ∃ bs g', List.Forall₂ R rest bs ∧ AgreeOff P f g' ∧ g' x = some (build (done ++ bs)) ∧
        forEach step rest g = some (.running g') := by
    intro rest
    induction rest with
    | nil =>
      intro pre done g _ _ hg hx
      exact ⟨[], g, .nil, hg, by rwa [List.append_nil], rfl⟩
    | cons a rest ih =>
      intro pre done g hitems hdone hg hx
      obtain ⟨b, g₁, hb, hg₁, hx₁, hrun⟩ := hstep pre a rest done g hitems hdone hg hx
      have hdone₁ : List.Forall₂ R (pre ++ [a]) (done ++ [b]) :=
        List.rel_append hdone (.cons hb .nil)
      obtain ⟨bs, g₂, hbs, hg₂, hx₂, hrest⟩ :=
        ih (pre ++ [a]) (done ++ [b]) g₁ (by simpa using hitems) hdone₁ hg₁ hx₁
      refine ⟨b :: bs, g₂, .cons hb hbs, hg₂, by simpa using hx₂, ?_⟩
      rw [forEach, hrun]
      exact hrest
  obtain ⟨bs, g, hbs, hg, hx, hrun⟩ := run items [] [] f rfl .nil (.refl P f) hf
  exact ⟨bs, g, hbs, hg, hx, hrun⟩

theorem execAll_flatMap {α : Type} (code : α → List Stmt) (l : List α) (f : Frame) :
    execAll classes call (l.flatMap code) f =
      forEach (fun a => execAll classes call (code a)) l f := by
  induction l generalizing f with
  | nil => rfl
  | cons a l ih =>
    have hnext : execAll classes call (l.flatMap code) =
        forEach (fun a => execAll classes call (code a)) l := funext ih
    rw [List.flatMap_cons, execAll_append, forEach, hnext]

section Store

variable {x k : String} {w : Value}

theorem exec_append {items : List Value} (h : f x = some (.list items)) :
    ((Target.append (.name x)).store (.const w)).exec classes call f =
      some (.running (f.set x (.list (items ++ [w])))) := by
  simp [Target.store, Stmt.exec, Expr.eval, h, Value.append?, Expr.assign]

theorem exec_setItem {entries : List (String × Value)} {key : String}
    (h : f x = some (.dict entries)) (hk : f k = some (.str key)) :
    ((Target.setItem (.name x) (.name k)).store (.const w)).exec classes call f =
      some (.running (f.set x (.dict (Table.putEntry key w entries)))) := by
  simp [Target.store, Stmt.exec, Expr.eval, h, hk, Value.setItem?, Expr.assign]

theorem exec_setAttr {c a : String} {attrs : List (String × Value)}
    (h : f x = some (.object c attrs)) :
    ((Target.assign (.attr (.name x) a)).store (.const w)).exec classes call f =
      some (.running (f.set x (.object c (Table.putEntry a w attrs)))) := by
  simp [Target.store, Stmt.exec, Expr.eval, h, Value.setAttr?, Expr.assign]

end Store

theorem forall₂_copied_tree {s : Side} {y : String} {l l' : List Value}
    (h : List.Forall₂ (Copied s y) l l') : l'.map Value.tree = l.map Value.tree := by
  induction h with
  | nil => rfl
  | cons h _ ih => rw [List.map_cons, List.map_cons, h.tree, ih]

theorem forall₂_copied_conforms {s : Side} {y : String} {l l' : List Value}
    (h : List.Forall₂ (Copied s y) l l') : ∀ w ∈ l', s.Conforms y w := by
  induction h with
  | nil => simp
  | cons h _ ih => exact List.forall_mem_cons.mpr ⟨h.conforms, ih⟩

section Collections

variable {s : Side} {y var item : String} {depth : Nat} {target : Target} {value : Expr}
  {inner : List Stmt} {shape : Shape}

/-- Code for the elements of a list gives code for the list. -/
theorem copies_list {e : ShapeRef} {items : List Value}
    (hy : s.model.api.shape? y = some shape) (hform : shape.form = .list e)
    (hvar : Scratch depth var) (hdeep : ¬ Scratch (depth + 1) var)
    (hitem : Scratch depth item) (hne : var ≠ item)
    (hvalue : value.Avoids (Scratch depth)) (hv : value.eval call f = some (.list items))
    (hinner : ∀ v ∈ items, ∀ g, g item = some v →
      Copies classes call s e.target (depth + 1) (.append (.name var)) true inner g v) :
    ∃ w, Copied s y (.list items) w ∧ ∃ g, AgreeOff (Scratch depth) f g ∧
      execAll classes call [.allocate var .list, .loop item .items value inner,
        target.store (.name var)] f = (target.store (.const w)).exec classes call g := by
  let f₁ := f.set var (.list [])
  have hf₁ : AgreeOff (Scratch depth) f f₁ := (AgreeOff.refl _ f).set hvar _
  have hstep : ∀ pre v post done g, items = pre ++ v :: post →
      List.Forall₂ (Copied s e.target) pre done → AgreeOff (Scratch depth) f₁ g →
      g var = some (.list done) → ∃ w g', Copied s e.target v w ∧
        AgreeOff (Scratch depth) f₁ g' ∧ g' var = some (.list (done ++ [w])) ∧
        execAll classes call inner (g.set item v) = some (.running g') := by
    intro pre v post done g hitems _ hg hdone
    obtain ⟨w, hw, g₁, hg₁, hrun | ⟨-, hkeep, -⟩⟩ :=
      hinner v (by simp [hitems]) (g.set item v) (g.set_self item v)
    · have hx : g₁ var = some (.list done) := by
        rw [hg₁ var hdeep, g.set_ne hne, hdone]
      refine ⟨w, g₁.set var (.list (done ++ [w])), hw, ?_, g₁.set_self var _, ?_⟩
      · exact ((hg.set hitem v).trans (hg₁.mono fun x hx => hx.mono (by omega))).set hvar _
      · rw [hrun, exec_append hx]
    · cases hkeep
  obtain ⟨ws, g, hws, hg, hx, hloop⟩ := forEach_builds hstep (f.set_self var (.list []))
  refine ⟨.list ws, ⟨?_, .list hy hform (forall₂_copied_conforms hws)⟩, g, hf₁.trans hg, ?_⟩
  · simp only [Value.tree, Value.treeItems_eq, forall₂_copied_tree hws]
  · have hsubject : value.eval call f₁ = some (.list items) := by
      rw [Expr.eval_congr hvalue hf₁, hv]
    have hexec : (Stmt.loop item .items value inner).exec classes call f₁ =
        some (.running g) := (exec_items hsubject).trans hloop
    rw [execAll_running (g := f₁) rfl, execAll_running hexec, execAll_singleton,
      target.exec_store (e := .name var) hx]

/-- A copied entry has the key of the entry. -/
def CopiedEntry (s : Side) (y : String) (e e' : String × Value) : Prop :=
  e'.1 = e.1 ∧ Copied s y e.2 e'.2

theorem copiedEntries_keys {l l' : List (String × Value)}
    (h : List.Forall₂ (CopiedEntry s y) l l') : l'.map Prod.fst = l.map Prod.fst := by
  induction h with
  | nil => rfl
  | cons h _ ih => rw [List.map_cons, List.map_cons, h.1, ih]

theorem copiedEntries_tree {l l' : List (String × Value)}
    (h : List.Forall₂ (CopiedEntry s y) l l') :
    l'.map (fun e => (e.1, e.2.tree)) = l.map fun e => (e.1, e.2.tree) := by
  induction h with
  | nil => rfl
  | cons h _ ih => rw [List.map_cons, List.map_cons, h.1, h.2.tree, ih]

theorem copiedEntries_conforms {l l' : List (String × Value)}
    (h : List.Forall₂ (CopiedEntry s y) l l') : ∀ e ∈ l', s.Conforms y e.2 := by
  induction h with
  | nil => simp
  | cons h _ ih => exact List.forall_mem_cons.mpr ⟨h.2.conforms, ih⟩

/-- Code for the values of a map gives code for the map. -/
theorem copies_map {key : String} {k e : ShapeRef} {entries : List (String × Value)}
    (hy : s.model.api.shape? y = some shape) (hform : shape.form = .map k e)
    (hvar : Scratch depth var) (hdeep : ¬ Scratch (depth + 1) var)
    (hkey : Scratch depth key) (hkeyDeep : ¬ Scratch (depth + 1) key)
    (hitem : Scratch depth item) (hvarKey : var ≠ key) (hvarItem : var ≠ item)
    (hkeyItem : key ≠ item) (hvalue : value.Avoids (Scratch depth))
    (hv : value.eval call f = some (.dict entries)) (hkeys : (entries.map Prod.fst).Nodup)
    (hinner : ∀ i ∈ entries, ∀ g, g item = some i.2 →
      Copies classes call s e.target (depth + 1) (.setItem (.name var) (.name key)) true inner
        g i.2) :
    ∃ w, Copied s y (.dict entries) w ∧ ∃ g, AgreeOff (Scratch depth) f g ∧
      execAll classes call [.allocate var .map, .loop item (.entries key) value inner,
        target.store (.name var)] f = (target.store (.const w)).exec classes call g := by
  let f₁ := f.set var (.dict [])
  have hf₁ : AgreeOff (Scratch depth) f f₁ := (AgreeOff.refl _ f).set hvar _
  have hstep : ∀ pre i post done g, entries = pre ++ i :: post →
      List.Forall₂ (CopiedEntry s e.target) pre done → AgreeOff (Scratch depth) f₁ g →
      g var = some (.dict done) → ∃ b g', CopiedEntry s e.target i b ∧
        AgreeOff (Scratch depth) f₁ g' ∧ g' var = some (.dict (done ++ [b])) ∧
        execAll classes call inner ((g.set key (.str i.1)).set item i.2) =
          some (.running g') := by
    intro pre i post done g hentries hpre hg hdone
    have hnew : i.1 ∉ done.map Prod.fst := by
      rw [copiedEntries_keys hpre]
      rw [hentries, List.map_append, List.map_cons, List.nodup_append] at hkeys
      intro hm
      exact hkeys.2.2 i.1 hm i.1 (by simp) rfl
    let g₀ := (g.set key (.str i.1)).set item i.2
    have hg₀ : AgreeOff (Scratch depth) g g₀ :=
      ((AgreeOff.refl _ g).set hkey _).set hitem _
    obtain ⟨w, hw, g₁, hg₁, hrun | ⟨-, hkeep, -⟩⟩ :=
      hinner i (by simp [hentries]) g₀ (Frame.set_self _ item i.2)
    · have hx : g₁ var = some (.dict done) := by
        have hset := (Frame.set_ne _ hvarItem i.2).trans (g.set_ne hvarKey (.str i.1))
        exact (hg₁ var hdeep).trans (hset.trans hdone)
      have hk : g₁ key = some (.str i.1) := by
        have hset := (Frame.set_ne _ hkeyItem i.2).trans (g.set_self key (.str i.1))
        exact (hg₁ key hkeyDeep).trans hset
      refine ⟨(i.1, w), g₁.set var (.dict (done ++ [(i.1, w)])), ⟨rfl, hw⟩, ?_,
        g₁.set_self var _, ?_⟩
      · exact ((hg.trans hg₀).trans (hg₁.mono fun x hx => hx.mono (by omega))).set hvar _
      · rw [hrun, exec_setItem hx hk, Table.putEntry_new hnew]
    · cases hkeep
  obtain ⟨es, g, hes, hg, hx, hloop⟩ := forEach_builds hstep (f.set_self var (.dict []))
  refine ⟨.dict es, ⟨?_, .map hy hform ?_ (copiedEntries_conforms hes)⟩, g, hf₁.trans hg, ?_⟩
  · simp only [Value.tree, Value.treeEntries_eq, copiedEntries_tree hes]
  · rwa [copiedEntries_keys hes]
  · have hsubject : value.eval call f₁ = some (.dict entries) := by
      rw [Expr.eval_congr hvalue hf₁, hv]
    have hexec : (Stmt.loop item (.entries key) value inner).exec classes call f₁ =
        some (.running g) := (exec_entries hsubject).trans hloop
    rw [execAll_running (g := f₁) rfl, execAll_running hexec, execAll_singleton,
      target.exec_store (e := .name var) hx]

end Collections

section Structures

/-- The code for a member, the attribute it reads with its value, and the attribute it fills. -/
structure MemberRun where
  code : List Stmt
  attr : AttrDef
  value : Value
  slot : AttrDef

/-- What an attribute may hold that gets a copy of a value. -/
structure Fills (s : Side) (b : AttrDef) (v w : Value) : Prop where
  tree : w.tree = v.tree
  secret : b.isSecret = true → SecretValue w
  plain : b.isSecret = false → s.Conforms b.ref.target w

variable {s : Side} {y var : String} {depth : Nat} {target : Target} {shape : Shape}
  {ms : Table ShapeRef} {c : TypeDef}

/-- An object whose first attributes have their values and whose others are null. -/
def partly (s : Side) (c : TypeDef) (done : List (AttrDef × Value)) : Value :=
  .object (s.className c) (done.map (fun p => (p.1.names.camelLower, p.2)) ++
    (c.attrs.drop done.length).map fun a => (a.names.camelLower, .null))

theorem partly_next {done : List (AttrDef × Value)} {pre post : List AttrDef} {b : AttrDef}
    {w : Value} (hc : c.attrs = pre ++ b :: post) (hl : done.length = pre.length) :
    partly s c done = .object (s.className c)
      (done.map (fun p => (p.1.names.camelLower, p.2)) ++ (b.names.camelLower, .null) ::
        post.map fun a => (a.names.camelLower, .null)) ∧
    partly s c (done ++ [(b, w)]) = .object (s.className c)
      (done.map (fun p => (p.1.names.camelLower, p.2)) ++ (b.names.camelLower, w) ::
        post.map fun a => (a.names.camelLower, .null)) := by
  have hdrop : c.attrs.drop done.length = b :: post := by
    rw [hc, hl, List.drop_left]
  have hdrop' : c.attrs.drop (done ++ [(b, w)]).length = post := by
    rw [List.length_append, ← List.drop_drop, hdrop]
    rfl
  constructor
  · rw [partly, hdrop, List.map_cons]
  · rw [partly, hdrop', List.map_append, List.append_assoc]
    rfl

/-- The attribute that the code of a member fills, with its new value. -/
def Filled (s : Side) (r : MemberRun) (p : AttrDef × Value) : Prop :=
  p.1 = r.slot ∧ Fills s p.1 r.value p.2

theorem filled_slots {ts : List MemberRun} {ps : List (AttrDef × Value)}
    (h : List.Forall₂ (Filled s) ts ps) : ps.map Prod.fst = ts.map MemberRun.slot := by
  induction h with
  | nil => rfl
  | cons h _ ih => rw [List.map_cons, List.map_cons, h.1, ih]

theorem filled_fills {ts : List MemberRun} {ps : List (AttrDef × Value)}
    (h : List.Forall₂ (Filled s) ts ps) : ∀ p ∈ ps, ∃ v, Fills s p.1 v p.2 := by
  induction h with
  | nil => simp
  | cons h _ ih => exact List.forall_mem_cons.mpr ⟨⟨_, h.2⟩, ih⟩

theorem filled_tree {ts : List MemberRun} {ps : List (AttrDef × Value)}
    (h : List.Forall₂ (Filled s) ts ps)
    (hsame : ∀ r ∈ ts, r.attr.names.camelLower = r.slot.names.camelLower) :
    ps.map (fun p => (p.1.names.camelLower, p.2.tree)) =
      ts.map fun r => (r.attr.names.camelLower, r.value.tree) := by
  induction h with
  | nil => rfl
  | @cons r p _ _ h _ ih =>
    have hname : p.1.names.camelLower = r.attr.names.camelLower := by
      rw [h.1, hsame r (by simp)]
    rw [List.map_cons, List.map_cons, hname, h.2.tree, ih fun r hr => hsame r (by simp [hr])]

/-- Code for the members of a structure gives code for the structure. -/
theorem copies_struct {t : Side} {a : TypeDef} {ts : List MemberRun} {attrs : List AttrDecl}
    (hy : s.model.api.shape? y = some shape) (hform : shape.form = .struct ms)
    (hc : s.model.typeDef? y = some c) (hdecl : classes.get? (s.className c) = some attrs)
    (hnames : attrs.map AttrDecl.name = c.attrs.map fun a => a.names.camelLower)
    (hdistinct : (c.attrs.map fun a => a.names.camelLower).Nodup)
    (hclass : s.className c ≠ Hint.secretClass) (hclass' : t.className a ≠ Hint.secretClass)
    (hslots : ts.map MemberRun.slot = c.attrs)
    (hsame : ∀ r ∈ ts, r.attr.names.camelLower = r.slot.names.camelLower)
    (hvar : Scratch depth var) (hdeep : ¬ Scratch (depth + 1) var)
    (hmember : ∀ r ∈ ts, ∀ g, AgreeOff (Scratch depth) f g →
      ∃ w, Fills s r.slot r.value w ∧ ∃ g', AgreeOff (Scratch (depth + 1)) g g' ∧
        (execAll classes call r.code g =
          ((Target.assign (.attr (.name var) r.slot.names.camelLower)).store (.const w)).exec
            classes call g' ∨
          r.value = .null ∧ execAll classes call r.code g = some (.running g'))) :
    ∃ w, Copied s y (t.object a (ts.map fun r => (r.attr, r.value))) w ∧
      ∃ g, AgreeOff (Scratch depth) f g ∧
        execAll classes call (.allocate var (.struct ⟨c.className, s.alias?⟩) ::
          ts.flatMap MemberRun.code ++ [target.store (.name var)]) f =
            (target.store (.const w)).exec classes call g := by
  have hfresh : create classes (.struct ⟨c.className, s.alias?⟩) = some (partly s c []) := by
    have hnull : attrs.map (fun a => (a.name, Value.null)) =
        c.attrs.map fun a => (a.names.camelLower, .null) := by
      have h := congrArg (List.map fun n => (n, Value.null)) hnames
      simpa only [List.map_map, Function.comp_def] using h
    have hdecl' : classes.get? (TypeRef.qualified ⟨c.className, s.alias?⟩) = some attrs := hdecl
    rw [create, hdecl', Option.map_some, hnull]
    rfl
  let f₁ := f.set var (partly s c [])
  have hf₁ : AgreeOff (Scratch depth) f f₁ := (AgreeOff.refl _ f).set hvar _
  have hstep : ∀ pre r post done g, ts = pre ++ r :: post → List.Forall₂ (Filled s) pre done →
      AgreeOff (Scratch depth) f₁ g → g var = some (partly s c done) →
      ∃ p g', Filled s r p ∧ AgreeOff (Scratch depth) f₁ g' ∧
        g' var = some (partly s c (done ++ [p])) ∧
        execAll classes call r.code g = some (.running g') := by
    intro pre r post done g hts hpre hg hdone
    have hl : done.length = (pre.map MemberRun.slot).length := by
      rw [← filled_slots hpre, List.length_map]
    have hc' : c.attrs = pre.map MemberRun.slot ++ r.slot :: post.map MemberRun.slot := by
      rw [← hslots, hts, List.map_append, List.map_cons]
    have hnew : r.slot.names.camelLower ∉
        (done.map fun p => (p.1.names.camelLower, p.2)).map Prod.fst := by
      rw [hc', List.map_append, List.map_cons, List.nodup_append, ← filled_slots hpre]
        at hdistinct
      intro hm
      refine hdistinct.2.2 _ ?_ _ (List.mem_cons_self ..) rfl
      simpa [Function.comp_def] using hm
    obtain ⟨w, hw, g₁, hg₁, hrun⟩ := hmember r (by simp [hts]) g (hf₁.trans hg)
    have hx : g₁ var = some (partly s c done) := (hg₁ var hdeep).trans hdone
    have hg₁' : AgreeOff (Scratch depth) f₁ g₁ :=
      hg.trans (hg₁.mono fun x hx => hx.mono (by omega))
    obtain ⟨hbefore, hafter⟩ := @partly_next s c done _ _ r.slot w hc' hl
    rcases hrun with hrun | ⟨hnull, hrun⟩
    · refine ⟨(r.slot, w), g₁.set var (partly s c (done ++ [(r.slot, w)])), ⟨rfl, hw⟩,
        hg₁'.set hvar _, g₁.set_self var _, ?_⟩
      rw [hbefore] at hx
      rw [hrun, exec_setAttr hx, Table.putEntry_mid hnew, hafter]
    · have hwnull : w = .null := by
        rw [← Value.tree_eq_null_iff, hw.tree, hnull]
        rfl
      refine ⟨(r.slot, w), g₁, ⟨rfl, hw⟩, hg₁', ?_, hrun⟩
      rw [hx, hbefore, hafter, hwnull]
  obtain ⟨ps, g, hps, hg, hx, hloop⟩ := forEach_builds hstep (f.set_self var _)
  have hall : ps.map Prod.fst = c.attrs := (filled_slots hps).trans hslots
  have hdone : partly s c ps = s.object c ps := by
    have hl : ps.length = c.attrs.length := by rw [← hall, List.length_map]
    rw [partly, hl, List.drop_length, List.map_nil, List.append_nil]
    rfl
  refine ⟨s.object c ps, ⟨?_, .object hy hform hc hall ?_ ?_⟩, g, hf₁.trans hg, ?_⟩
  · rw [s.object_tree c ps hclass, t.object_tree a _ hclass', filled_tree hps hsame, List.map_map]
    rfl
  · intro p hp
    obtain ⟨v, hfill⟩ := filled_fills hps p hp
    exact hfill.secret
  · intro p hp
    obtain ⟨v, hfill⟩ := filled_fills hps p hp
    exact hfill.plain
  · have hcode : execAll classes call (ts.flatMap MemberRun.code) f₁ = some (.running g) := by
      rw [execAll_flatMap]
      exact hloop
    have hstart : (Stmt.allocate var (.struct ⟨c.className, s.alias?⟩)).exec classes call f =
        some (.running f₁) := exec_allocate hfresh
    rw [List.cons_append, execAll_running hstart, execAll_append, hcode]
    rw [hdone] at hx
    exact (execAll_singleton _ _).trans (target.exec_store (e := .name var) hx)

end Structures

/-- No class of a structure is called like the class of secrets. -/
theorem className_ne_secret {s : Side} {x : String} {c : TypeDef} (h : s.model.Coherent)
    (hc : s.model.typeDef? x = some c) : s.className c ≠ Hint.secretClass := by
  have hfree := h.free x c hc
  unfold Side.className TypeRef.qualified
  cases s.alias? with
  | none =>
    intro e
    have e : c.className = Hint.secretClass := e
    rw [e] at hfree
    exact hfree (by decide)
  | some a =>
    intro e
    have hdot : '.' ∈ Hint.secretClass.toList := by
      rw [← e]
      simp
    exact absurd hdot (by decide)

theorem memberCopy_ok {x y : String} {ms : Table ShapeRef} {e : String × ShapeRef}
    {m : MemberCopy} (h : d.memberCopy x y ms e = .ok m) : ∃ ref names,
      ms.get? e.1 = some ref ∧ Names.of e.1 = .ok names ∧
      d.src.isSecretMember x e.1 = d.dst.isSecretMember y e.1 ∧
      m = ⟨e.1, names.camelLower, e.2.target, ref.target, d.src.isSecretMember x e.1⟩ := by
  obtain ⟨member, ref⟩ := e
  unfold memberCopy at h
  cases hm : ms.get? member with
  | none =>
    simp only [hm] at h
    cases h
  | some ref' =>
    simp only [hm] at h
    split at h
    · cases h
    · rename_i hsecret
      obtain ⟨names, hnames, h⟩ := Fallible.bind_ok_iff.mp h
      cases h
      exact ⟨ref', names, rfl, hnames, by simpa using hsecret, rfl⟩

/-- The code of the members next to the attributes of both classes. -/
theorem members_aligned {A : MemberCode → AttrDef × Value → Prop}
    {B : MemberCode → AttrDef → Prop} {parts : List MemberCode} {vs : List (AttrDef × Value)}
    {bs : List AttrDef} (hA : List.Forall₂ A parts vs) (hB : List.Forall₂ B parts bs) :
    ∃ ts : List MemberRun, ts.map (fun r => (r.attr, r.value)) = vs ∧
      ts.map MemberRun.slot = bs ∧
      ts.flatMap MemberRun.code = parts.flatMap MemberCode.code ∧
      ∀ r ∈ ts, ∃ p ∈ parts, r.code = p.code ∧ A p (r.attr, r.value) ∧ B p r.slot := by
  induction hA generalizing bs with
  | nil =>
    cases hB
    exact ⟨[], rfl, rfl, rfl, by simp⟩
  | @cons p v parts vs hp _ ih =>
    cases hB with
    | @cons _ b _ bs hb hB =>
      obtain ⟨ts, hvs, hbs, hcode, hts⟩ := ih hB
      refine ⟨⟨p.code, v.1, v.2, b⟩ :: ts, by simp [hvs], by simp [hbs], by simp [hcode], ?_⟩
      rw [List.forall_mem_cons]
      refine ⟨⟨p, by simp, rfl, hp, hb⟩, fun r hr => ?_⟩
      obtain ⟨p', hp', h⟩ := hts r hr
      exact ⟨p', by simp [hp'], h⟩

theorem size_member {s : Side} {c : TypeDef} {p : AttrDef × Value}
    {parts : List (AttrDef × Value)} (h : p ∈ parts) : p.2.size < (s.object c parts).size :=
  Value.size_attr (List.mem_map_of_mem
    (f := fun p : AttrDef × Value => (p.1.names.camelLower, p.2)) h)

theorem typeName_ok {m : VersionModel} {x className : String} (h : m.typeName x = .ok className) :
    ∃ c, m.typeDef? x = some c ∧ c.className = className := by
  unfold VersionModel.typeName at h
  split at h
  · rename_i c hc
    cases h
    exact ⟨c, hc, rfl⟩
  · cases h

/-- What is copied for a member goes from the attribute of one class to that of the other. -/
theorem memberCopy_attrs {x y : String} {ms ms' : Table ShapeRef} {e : String × ShapeRef}
    {m : MemberCopy} {a b : AttrDef} (h : d.memberCopy x y ms' e = .ok m) (he : e ∈ ms.sorted)
    (ha : d.src.Declares x ms e.1 a) (hb : d.dst.Declares y ms' e.1 b) :
    m = ⟨e.1, a.names.camelLower, a.ref.target, b.ref.target, a.isSecret⟩ ∧
      b.names.camelLower = a.names.camelLower ∧ b.isSecret = a.isSecret ∧
      ms.get? e.1 = some a.ref ∧ ms'.get? e.1 = some b.ref := by
  obtain ⟨ref, names, href, hnames, hsecret, rfl⟩ := memberCopy_ok h
  cases hnames.symm.trans ha.names
  cases href.symm.trans hb.ref
  have hnamesEq : a.names = b.names := Except.ok.inj (ha.names.symm.trans hb.names)
  have hrefEq : e.2 = a.ref :=
    Option.some.inj ((Table.mem_sorted_iff.mp he).symm.trans ha.ref)
  refine ⟨?_, by rw [hnamesEq], ?_, ha.ref, hb.ref⟩
  · rw [hrefEq, ha.secret]
  · rw [hb.secret, ha.secret, hsecret]

theorem Fills.of_secret {s : Side} {b : AttrDef} {v : Value} (hb : b.isSecret = true)
    (hv : SecretValue v) : Fills s b v v := by
  refine ⟨rfl, fun _ => hv, fun h => ?_⟩
  rw [hb] at h
  cases h

theorem Fills.of_copied {s : Side} {b : AttrDef} {v w : Value} (hb : b.isSecret = false)
    (h : Copied s b.ref.target v w) : Fills s b v w := by
  refine ⟨h.tree, fun hsecret => ?_, fun _ => h.conforms⟩
  rw [hb] at hsecret
  cases hsecret

/-- Reading an attribute of an object without two attributes of one name. -/
theorem attr?_object {s : Side} {c : TypeDef} {vs : List (AttrDef × Value)} {a : AttrDef}
    {v : Value} (hvs : vs.map Prod.fst = c.attrs)
    (hdistinct : (c.attrs.map fun a => a.names.camelLower).Nodup) (h : (a, v) ∈ vs) :
    (s.object c vs).attr? a.names.camelLower = some v := by
  rw [← hvs, List.map_map] at hdistinct
  apply Table.lookup_of_mem
  · rwa [List.map_map]
  · exact List.mem_map.mpr ⟨(a, v), h, rfl⟩

/-- Code that copies the members of a structure copies the structure. -/
theorem copies_members {value : Expr} {x y : String} {depth : Nat} {target : Target}
    {shape shape' : Shape} {ms ms' : Table ShapeRef} {names : Names} {className : String}
    {parts : List MemberCode} {a : TypeDef} {vs : List (AttrDef × Value)}
    (hd : d.Grounded classes) (hsame : Api.sameStructure d.src.api d.dst.api x y = true)
    (hx : d.src.api.shape? x = some shape) (hf : shape.form = .struct ms)
    (hy : d.dst.api.shape? y = some shape') (hf' : shape'.form = .struct ms')
    (hclass : d.dst.typeName y = .ok className)
    (hentries : parts.map MemberCode.entry = ms.sorted)
    (hmember : ∀ p ∈ parts, ∃ m, d.memberCopy x y ms' p.entry = .ok m)
    (hsecret : ∀ p ∈ parts, ∀ m, d.memberCopy x y ms' p.entry = .ok m → m.isSecret = true →
      p.code = [(memberSlot names depth m).store (.attr value m.attr)])
    (hvalue : value.Avoids (Scratch depth)) (ha : d.src.typeDef? x = some a)
    (hvs : vs.map Prod.fst = a.attrs)
    (hvsSecret : ∀ p ∈ vs, p.1.isSecret = true → SecretValue p.2)
    (hv : value.eval call f = some (d.srcSide.object a vs))
    (hcopy : ∀ p ∈ parts, ∀ m, d.memberCopy x y ms' p.entry = .ok m → m.isSecret = false →
      Api.sameStructure d.src.api d.dst.api m.src m.dst = true → ∀ b u, (b, u) ∈ vs →
      b.ref.target = m.src → b.isSecret = false → ∀ g,
      (Expr.attr value m.attr).eval call g = some u →
      Copies classes call d.dstSide m.dst (depth + 1) (memberSlot names depth m) false p.code g
        u) :
    ∃ w, Copied d.dstSide y (d.srcSide.object a vs) w ∧ ∃ g, AgreeOff (Scratch depth) f g ∧
      execAll classes call (.allocate (copyVar names depth) (.struct ⟨className, d.dstAlias?⟩) ::
        parts.flatMap MemberCode.code ++ [target.store (.name (copyVar names depth))]) f =
          (target.store (.const w)).exec classes call g := by
  obtain ⟨c, hc, rfl⟩ := typeName_ok hclass
  obtain ⟨attrs, hdecl, hnames⟩ := hd.declared y c hc
  have hkeys : parts.map (fun p => p.entry.1) = ms.sortedKeys := by
    rw [← ms.fst_sorted, ← hentries, List.map_map]
    rfl
  have hA : List.Forall₂ (fun p (u : AttrDef × Value) => d.src.Declares x ms p.entry.1 u.1)
      parts vs := by
    obtain ⟨s₁, ms₁, hx₁, hf₁, h⟩ := hd.src.members x a ha
    cases hx.symm.trans hx₁
    cases hf.symm.trans hf₁
    rwa [← hkeys, ← hvs, List.forall₂_map_left_iff, List.forall₂_map_right_iff] at h
  have hB : List.Forall₂ (fun p b => d.dst.Declares y ms' p.entry.1 b) parts c.attrs := by
    obtain ⟨s₁, ms₁, hy₁, hf₁, h⟩ := hd.dst.members y c hc
    cases hy.symm.trans hy₁
    cases hf'.symm.trans hf₁
    have hsorted : ms.sortedKeys = ms'.sortedKeys := by
      have hmembers := (Api.sameStructure_alike hsame hx hy).members
      rw [hf, hf'] at hmembers
      exact Table.sortedKeys_eq_iff.mpr hmembers
    rwa [← hsorted, ← hkeys, List.forall₂_map_left_iff] at h
  obtain ⟨ts, rfl, hslots, hcode, hts⟩ := members_aligned hA hB
  rw [← hcode]
  have hfacts : ∀ r ∈ ts, ∃ p ∈ parts, r.code = p.code ∧ ∃ m,
      d.memberCopy x y ms' p.entry = .ok m ∧
      m = ⟨p.entry.1, r.attr.names.camelLower, r.attr.ref.target, r.slot.ref.target,
        r.attr.isSecret⟩ ∧
      r.slot.names.camelLower = r.attr.names.camelLower ∧ r.slot.isSecret = r.attr.isSecret ∧
      Api.sameStructure d.src.api d.dst.api r.attr.ref.target r.slot.ref.target = true := by
    intro r hr
    obtain ⟨p, hp, hpcode, hpA, hpB⟩ := hts r hr
    obtain ⟨m, hm⟩ := hmember p hp
    have he : p.entry ∈ ms.sorted := by
      rw [← hentries]
      exact List.mem_map_of_mem hp
    obtain ⟨rfl, hname, hsec, href, href'⟩ := memberCopy_attrs hm he hpA hpB
    exact ⟨p, hp, hpcode, _, hm, rfl, hname, hsec,
      Api.sameStructure_member hsame hx hy hf hf' href href'⟩
  refine copies_struct hy hf' hc hdecl hnames (hd.dstAttrs y c hc)
    (className_ne_secret hd.dst hc) (className_ne_secret hd.src ha) hslots ?_
    (copyVar_eq names depth ▸ generated_scratch _ _ _)
    (copyVar_eq names depth ▸ generated_not_deeper _ _ _) ?_
  · intro r hr
    obtain ⟨-, -, -, -, -, -, hname, -⟩ := hfacts r hr
    exact hname.symm
  · intro r hr g hg
    obtain ⟨p, hp, hpcode, m, hm, rfl, hname, hsec, hsame'⟩ := hfacts r hr
    have hmem : (r.attr, r.value) ∈ ts.map fun r => (r.attr, r.value) :=
      List.mem_map.mpr ⟨r, hr, rfl⟩
    have hread : (Expr.attr value r.attr.names.camelLower).eval call g = some r.value := by
      rw [Expr.eval, Expr.eval_congr hvalue hg, hv]
      exact attr?_object (s := d.srcSide) hvs (hd.srcAttrs x a ha) hmem
    rw [hpcode, hname]
    cases hs : r.attr.isSecret with
    | true =>
      refine ⟨r.value, .of_secret (hsec.trans hs) (hvsSecret _ hmem hs), g, .refl _ g, .inl ?_⟩
      rw [hsecret p hp _ hm hs, execAll_singleton]
      exact Target.exec_store _ hread
    | false =>
      obtain ⟨w, hw, g', hg', hrun⟩ := hcopy p hp _ hm hs hsame' _ _ hmem rfl hs g hread
      refine ⟨w, .of_copied (hsec.trans hs) hw, g', hg', ?_⟩
      rcases hrun with hrun | ⟨hnull, -, hrun⟩
      · exact .inl hrun
      · exact .inr ⟨hnull, hrun⟩

/-- Emitted code copies every value of the source shape. -/
theorem Direction.CopyCode.copies {active : List String} {value : Expr} {x y : String} {depth : Nat}
    {target : Target} {keepNone : Bool} {code : List Stmt} {requests : List HelperRequest}
    (h : CopyCode d active value x y depth target keepNone code requests)
    (hd : d.Grounded classes) {v : Value} {n : Nat} (hcalls : ∀ r ∈ requests, Serves call d n r)
    (hsame : Api.sameStructure d.src.api d.dst.api x y = true)
    (hvalue : value.Avoids (Scratch depth)) (hconf : d.srcSide.Conforms x v)
    (hsize : v.size ≤ n) (hactive : active ≠ [] → v.size < n)
    (hv : value.eval call f = some v) :
    Copies classes call d.dstSide y depth target keepNone code f v := by
  induction h generalizing f v with
  | @scalar active value x y depth target keepNone shape t hx hf =>
    have hplain : d.src.api.isPlain x = true := by
      rw [Api.isPlain, Side.isPlainFrom_eq hx, hf]
      rfl
    refine ⟨v, ⟨rfl, hconf.of_plain hplain hsame⟩, f, .refl _ f, .inl ?_⟩
    rw [execAll_singleton, target.exec_store hv]
  | @plain active value x y depth target keepNone hplain =>
    refine ⟨v, ⟨rfl, hconf.of_plain hplain hsame⟩, f, .refl _ f, .inl ?_⟩
    rw [execAll_singleton, target.exec_store (e := .valueCopy value) hv]
  | @recurse active value x y depth target keepNone shape ms names hx hf hnames hin =>
    have hlt : v.size < n := hactive (List.ne_nil_of_mem hin)
    obtain ⟨w, hcall, hw⟩ := hcalls ⟨x, y⟩ (by simp) names shape v hnames hx hsame hconf hlt
    refine ⟨w, hw, f, .refl _ f, .inl ?_⟩
    rw [execAll_singleton, target.exec_store (e := .recurse (d.helperName names) value)]
    rw [Expr.eval, hv]
    exact hcall
  | @list active value x y depth target keepNone shape shape' e e' names element inner requests
      hx hf hnames hy hf' helement _ ih =>
    refine copies_guarded hv fun hnull => ?_
    rcases hconf.of_list hx hf with rfl | ⟨items, rfl, hitems⟩
    · exact absurd rfl hnull
    rw [copyVar_eq, elemVar_eq] at ih ⊢
    refine copies_list hy hf' (generated_scratch _ _ _) (generated_not_deeper _ _ _)
      (generated_scratch _ _ _) (generated_ne _ (by decide) (by decide) (by decide)) hvalue hv ?_
    intro v hmem g hg
    have hlt := Value.size_item hmem
    exact ih hcalls (Api.sameStructure_list hsame hx hy hf hf') (generated_not_deeper _ _ _)
      (hitems v hmem) (by omega) (fun _ => by omega) hg
  | @map active value x y depth target keepNone shape shape' k e k' e' names element inner
      requests hx hf hnames hy hf' helement _ ih =>
    refine copies_guarded hv fun hnull => ?_
    rcases hconf.of_map hx hf with rfl | ⟨entries, rfl, hkeys, hentries⟩
    · exact absurd rfl hnull
    rw [copyVar_eq, keyVar_eq, valueVar_eq] at ih ⊢
    refine copies_map hy hf' (generated_scratch _ _ _) (generated_not_deeper _ _ _)
      (generated_scratch _ _ _) (generated_not_deeper _ _ _) (generated_scratch _ _ _)
      (generated_ne _ (by decide) (by decide) (by decide))
      (generated_ne _ (by decide) (by decide) (by decide))
      (generated_ne _ (by decide) (by decide) (by decide)) hvalue hv hkeys ?_
    intro i hmem g hg
    have hlt := Value.size_entry hmem
    exact ih hcalls (Api.sameStructure_map hsame hx hy hf hf') (generated_not_deeper _ _ _)
      (hentries i hmem) (by omega) (fun _ => by omega) hg
  | @struct active value x y depth target keepNone shape shape' ms ms' names className parts
      hx hf hnames hy hf' hclass hentries hmember hsecret _ ih =>
    refine copies_guarded hv fun hnull => ?_
    rcases hconf.of_struct hx hf with rfl | ⟨a, vs, rfl, ha, hvs, hvsSecret, hvsPlain⟩
    · exact absurd rfl hnull
    refine copies_members hd hsame hx hf hy hf' hclass hentries hmember
      (fun p hp m hm hs => (hsecret p hp m hm hs).1) hvalue ha hvs hvsSecret hv ?_
    intro p hp m hm hs hsame' b u hmem href hb g hread
    have hlt : u.size < (d.srcSide.object a vs).size := size_member hmem
    exact ih p hp m hm hs
      (fun r hr => hcalls r (List.mem_flatMap.mpr ⟨p, hp, hr⟩)) hsame'
      (hvalue.mono fun x hx => hx.mono (by omega)) (href ▸ hvsPlain _ hmem hb) (by omega)
      (fun _ => by omega) hread

end Conversion

end ResourceVersions
