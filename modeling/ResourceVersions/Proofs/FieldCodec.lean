import ResourceVersions.Proofs.StashCodec
import ResourceVersions.Source.TypesModule

/-! # Stashed fields

If the module of a version can be written, every attribute of its classes has a type. By these
types the value of a field is read back from the text under which it was stashed. -/
namespace ResourceVersions

open Code Conversion Fallible

namespace VersionModel

variable {m : VersionModel} {x : String} {d : TypeDef} {a : AttrDef} {r : Resource} {f : Field}

/-- The module of types can be written. -/
def Written (m : VersionModel) : Prop := ∃ defs, Source.classes m = .ok defs

theorem Written.attr (h : m.Written) (hd : m.typeDef? x = some d) (ha : a ∈ d.attrs) :
    ∃ hint, m.hint (some a.ref.target) a.isSecret = .ok hint := by
  obtain ⟨defs, h⟩ := h
  obtain ⟨types, htypes, -⟩ := bind_ok_iff.mp h
  obtain ⟨c, hc⟩ := mapM_ok_mem htypes (List.mem_of_find?_eq_some hd)
  obtain ⟨attrs, hattrs, -⟩ := bind_ok_iff.mp hc
  obtain ⟨attr, hattr⟩ := mapM_ok_mem hattrs ha
  obtain ⟨hint, hhint, -⟩ := bind_ok_iff.mp hattr
  exact ⟨hint, hhint⟩

theorem Written.field (h : m.Written) (hr : r ∈ m.resources) {p : Part} {name : String}
    (hf : (p.fields r).get? name = some f) : ∃ hint, m.hint f.shape? f.isSecret = .ok hint := by
  obtain ⟨defs, h⟩ := h
  obtain ⟨types, -, h⟩ := bind_ok_iff.mp h
  obtain ⟨resources, hresources, -⟩ := bind_ok_iff.mp h
  obtain ⟨cs, hcs⟩ := mapM_ok_mem hresources hr
  obtain ⟨spec, hspec, hcs⟩ := bind_ok_iff.mp hcs
  obtain ⟨status, hstatus, -⟩ := bind_ok_iff.mp hcs
  have hattrs : ∃ attrs, Source.fieldAttrs m (p.fields r) = .ok attrs := by
    cases p with
    | spec =>
      obtain ⟨attrs, hattrs, -⟩ := bind_ok_iff.mp hspec
      exact ⟨attrs, hattrs⟩
    | status =>
      obtain ⟨attrs, hattrs, -⟩ := bind_ok_iff.mp hstatus
      exact ⟨attrs, hattrs⟩
  obtain ⟨attrs, hattrs⟩ := hattrs
  obtain ⟨attr, hattr⟩ := mapM_ok_mem hattrs (Table.mem_sorted_iff.mpr hf)
  obtain ⟨hint, hhint, -⟩ := bind_ok_iff.mp hattr
  exact ⟨hint, hhint⟩

end VersionModel

/-- What the classes have to be for the values of a version to be rebuilt. -/
structure Side.Declared (s : Side) (classes : Classes) : Prop where
  types : ∀ x d, s.model.typeDef? x = some d →
    classes.get? (s.className d) = some (s.model.typeDecls s.alias? d)
  secrets : classes.get? Hint.secretClass = Classes.builtin.get? Hint.secretClass
  free : ∀ x d, s.model.typeDef? x = some d → Classes.builtin.contains d.className = false
  distinct : s.model.DistinctAttrs
  hints : ∀ x d, s.model.typeDef? x = some d → ∀ a ∈ d.attrs, ∃ h,
    s.model.hint (some a.ref.target) a.isSecret = .ok h

theorem VersionModel.hintFrom_undefined {m : VersionModel} {seen : List String} {name : String}
    (hs : m.api.shapes.get? name = none) :
    m.hintFrom seen name = .error (.undefinedShape name) := by
  rw [hintFrom]
  split
  · rfl
  · rename_i hsome
    cases hs.symm.trans hsome

namespace Side

variable {classes : Classes} {s : Side} {v : Value} {h : Hint} {x : String} {shape : Shape}
  {seen : List String}

theorem hintFrom_eq (hx : s.model.api.shape? x = some shape) :
    s.model.hintFrom seen x = match shape.form with
      | .scalar t => .ok t.hint
      | .struct _ => do return .named (← s.model.typeName x)
      | .list e => if x ∈ seen then .error (.selfContaining x) else do
          return .list (← s.model.hintFrom (x :: seen) e.target)
      | .map k v => if x ∈ seen then .error (.selfContaining x) else do
          let key ← s.model.hintFrom (x :: seen) k.target
          return .dict key (← s.model.hintFrom (x :: seen) v.target) := by
  rw [VersionModel.hintFrom]
  split
  · rename_i hnone
    cases hx.symm.trans hnone
  · rename_i shape' hsome
    cases hx.symm.trans hsome
    cases shape.form <;> rfl

theorem ofType_scalar {t : Scalar} (ht : t.Holds v) : v.OfType classes t.hint := by
  cases t <;> cases v <;> first | exact False.elim ht | constructor

/-- The type that a class declares for an attribute, as the module of the side names it. -/
def attrHint (s : Side) (a : AttrDef) : Hint :=
  match s.model.hint (some a.ref.target) a.isSecret with
  | .ok h => h.within s.alias?
  | .error _ => .any

/-- A value of a shape belongs to the type of the shape. -/
theorem Conforms.ofType (hs : s.Declared classes) (hv : s.Conforms x v)
    (hx : s.model.hintFrom seen x = .ok h) : v.OfType classes (h.within s.alias?) := by
  induction hv generalizing seen h with
  | null => exact .null _
  | @scalar x shape t v hshape hform ht =>
    rw [hintFrom_eq hshape, hform] at hx
    cases hx
    have hwithin : t.hint.within s.alias? = t.hint := by cases t <;> rfl
    rw [hwithin]
    exact ofType_scalar ht
  | @list x shape e items hshape hform hitems ih =>
    rw [hintFrom_eq hshape, hform] at hx
    dsimp only at hx
    split at hx
    · cases hx
    · obtain ⟨element, helement, hx⟩ := bind_ok_iff.mp hx
      cases hx
      exact .list fun v hv => ih v hv helement
  | @map x shape k e entries hshape hform hkeys hentries ih =>
    rw [hintFrom_eq hshape, hform] at hx
    dsimp only at hx
    split at hx
    · cases hx
    · obtain ⟨key, -, hx⟩ := bind_ok_iff.mp hx
      obtain ⟨element, helement, hx⟩ := bind_ok_iff.mp hx
      cases hx
      exact .dict hkeys fun u hu => ih u hu helement
  | @object x shape ms d parts hshape hform hd hparts hsecret hplain ih =>
    rw [hintFrom_eq hshape, hform] at hx
    obtain ⟨name, hname, hx⟩ := bind_ok_iff.mp hx
    cases hx
    have hclass : name = d.className := by
      rw [VersionModel.typeName, hd] at hname
      exact (Except.ok.inj hname).symm
    subst hclass
    have hnamed : (Hint.named d.className).within s.alias? = .named (s.className d) := by
      rw [Hint.within, hs.free x d hd]
      rfl
    -- the parts with their types, each of which is the one that the class declares
    let typed := parts.map fun p => (p.1.names.camelLower, s.attrHint p.1, p.2)
    have hvalues : (typed.map fun p => (p.1, p.2.2)) =
        parts.map fun p => (p.1.names.camelLower, p.2) := List.map_map ..
    have hdecls : s.model.typeDecls s.alias? d =
        typed.map fun p => AttrDecl.optional p.1 p.2.1 := by
      rw [VersionModel.typeDecls, ← hparts, List.map_map, List.map_map]
      rfl
    rw [hnamed, Side.object, ← hvalues]
    refine .object ((hs.types x d hd).trans (congrArg some hdecls)) ?_ ?_
    · have hdistinct := hs.distinct x d hd
      rw [← hparts, List.map_map] at hdistinct
      rwa [List.map_map]
    · refine List.forall_mem_map.mpr fun p hp => ?_
      have hin : p.1 ∈ d.attrs := hparts ▸ List.mem_map_of_mem hp
      obtain ⟨h, hh⟩ := hs.hints x d hd p.1 hin
      dsimp only
      rw [attrHint, hh]
      cases hsec : p.1.isSecret with
      | true =>
        rw [hsec] at hh
        cases hh
        exact .secret hs.secrets (hsecret p hp hsec)
      | false =>
        rw [hsec] at hh
        exact ih p hp hsec hh

/-- A value that fits a field belongs to the type of the field. -/
theorem Fits.ofType {f : Field} (hs : s.Declared classes) (hv : s.Fits f v)
    (hh : s.model.hint f.shape? f.isSecret = .ok h) : v.OfType classes (h.within s.alias?) := by
  cases hsec : f.isSecret with
  | true =>
    rw [hsec] at hh
    cases hh
    exact .secret hs.secrets (hv.secret hsec)
  | false =>
    rw [hsec] at hh
    cases hx : f.shape? with
    | none =>
      rw [hx] at hh
      cases hh
      rcases hv.text hsec hx with rfl | ⟨t, rfl⟩
      · exact .null _
      · exact .str t
    | some x =>
      rw [hx] at hh
      exact (hv.shaped hsec x hx).ofType hs hh

end Side

namespace Conversion.Converter

variable {c : Converter} {s : Side} {r : Resource} {p : Part} {f : Field} {name : String}
  {v : Value}

theorem find?_of_mem {decls : List AttrDecl} {d : AttrDecl}
    (h : (decls.map AttrDecl.name).Nodup) (hd : d ∈ decls) :
    decls.find? (fun a => a.name == d.name) = some d := by
  cases hfind : decls.find? fun a => a.name == d.name with
  | none => simpa using List.find?_eq_none.mp hfind d hd
  | some a =>
    have hname : a.name = d.name := by simpa using List.find?_some hfind
    rw [List.inj_on_of_nodup_map h (List.mem_of_find?_eq_some hfind) hd hname]

theorem name_partDecls (m : VersionModel) (alias? : Option String) (r : Resource) (p : Part) :
    (m.partDecls alias? r p).map AttrDecl.name =
      (p.lead .null).map Prod.fst ++ (p.fields r).sorted.map fun e => e.2.attrName := by
  cases p <;> simp [VersionModel.partDecls, VersionModel.specDecls, VersionModel.statusDecls,
    VersionModel.fieldDecls, VersionModel.attrDecl, VersionModel.metadataDecl, Part.lead,
    Part.fields]

/-- The type of the attribute of a field. -/
theorem hint?_part (hspoke : c.spoke.Built) (hhub : c.hub.Built)
    (hs : s = ⟨c.spoke, none⟩ ∨ s = ⟨c.hub, some c.hubAlias⟩) (hr : r ∈ s.model.resources)
    (hattrs : r.DistinctAttrs) (hf : (p.fields r).get? name = some f) :
    c.classes.hint? (s.partName r p) f.attrName =
      some (s.model.attrDecl s.alias? f.attrName f.shape? f.isSecret).hint := by
  have hget := partDecls_get? hspoke hhub hs hr p
  have hnames : ((s.model.partDecls s.alias? r p).map AttrDecl.name).Nodup := by
    rw [name_partDecls]
    exact hattrs p
  have hin : s.model.attrDecl s.alias? f.attrName f.shape? f.isSecret ∈
      s.model.partDecls s.alias? r p := by
    have hmem : s.model.attrDecl s.alias? f.attrName f.shape? f.isSecret ∈
        s.model.fieldDecls s.alias? (p.fields r) :=
      List.mem_map.mpr ⟨(name, f), Table.mem_sorted_iff.mpr hf, rfl⟩
    cases p with
    | spec => exact hmem
    | status => exact List.mem_cons_of_mem _ hmem
  rw [Classes.hint?, Table.getD, hget, Option.getD_some]
  exact congrArg (Option.map AttrDecl.hint) (find?_of_mem hnames hin)

/-- Both versions are declared by the classes of a converter. -/
theorem declared (hspoke : c.spoke.Built) (hhub : c.hub.Built)
    (hs : s = ⟨c.spoke, none⟩ ∨ s = ⟨c.hub, some c.hubAlias⟩) (hattrs : s.model.DistinctAttrs)
    (hwritten : s.model.Written) : s.Declared c.classes where
  types := by
    intro x d hd
    apply moduleClass_get? hspoke hhub hs
    exact List.mem_append_left _ (List.mem_map.mpr ⟨d, List.mem_of_find?_eq_some hd, rfl⟩)
  secrets := by
    obtain ⟨attrs, hget⟩ : ∃ attrs, Classes.builtin.get? Hint.secretClass = some attrs :=
      ⟨_, rfl⟩
    rw [hget]
    apply Table.get?_ofList (classNames_nodup hspoke hhub)
    exact List.mem_append_left _ (Table.get?_eq_some_iff.mp hget)
  free := by
    intro x d hd
    have hin : d.className ∈ s.model.plainNames := List.mem_append_left _
      (List.mem_map_of_mem (List.mem_of_find?_eq_some hd))
    have hbuilt : s.model.Built := by
      rcases hs with rfl | rfl
      · exact hspoke
      · exact hhub
    rw [Bool.eq_false_iff, ne_eq, Table.contains_iff_mem_keys]
    exact VersionModel.plainNames_builtin hbuilt _ hin
  distinct := hattrs
  hints := fun _ _ hd _ ha => hwritten.attr hd ha

/-- A value that fits a field is read back from the text under which it was stashed. -/
theorem decode_field (hspoke : c.spoke.Built) (hhub : c.hub.Built)
    (hs : s = ⟨c.spoke, none⟩ ∨ s = ⟨c.hub, some c.hubAlias⟩) (hattrs : s.model.DistinctAttrs)
    (hwritten : s.model.Written) (hr : r ∈ s.model.resources) (hfields : r.DistinctAttrs)
    (hf : (p.fields r).get? name = some f) (hfits : s.Fits f v) (hexact : v.Each Value.Exact) :
    ∃ hint, c.classes.hint? (s.partName r p) f.attrName = some hint ∧
      Stash.decode c.classes (Stash.encode v) hint = .ok v.ordered := by
  obtain ⟨hint, hhint⟩ := hwritten.field hr hf
  have htyped := hfits.ofType (declared hspoke hhub hs hattrs hwritten) hhint
  refine ⟨_, hint?_part hspoke hhub hs hr hfields hf, ?_⟩
  rw [VersionModel.attrDecl, hhint]
  exact Stash.decode_typed htyped hexact

end Conversion.Converter

end ResourceVersions
