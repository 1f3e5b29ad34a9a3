import ResourceVersions.Proofs.JsonText
import ResourceVersions.Proofs.PartObject
import ResourceVersions.Stash.Codec

/-! # Rebuilt values

A document forgets classes, timestamps and attributes that are null. The type of a value brings
them back, so a value that conforms to a shape is rebuilt from its document up to the order of
mapping entries. -/
namespace ResourceVersions

namespace Value

mutual

/-- The value with the entries of its mappings in code-point order. -/
def ordered : Value → Value
  | .list items => .list (orderedItems items)
  | .dict entries => .dict (byKey (orderedEntries entries))
  | .object c attrs => .object c (orderedEntries attrs)
  | v => v

def orderedItems : List Value → List Value
  | [] => []
  | v :: rest => v.ordered :: orderedItems rest

def orderedEntries : List (String × Value) → List (String × Value)
  | [] => []
  | (k, v) :: rest => (k, v.ordered) :: orderedEntries rest

end

theorem orderedItems_eq (items : List Value) : orderedItems items = items.map ordered := by
  induction items with
  | nil => rfl
  | cons v rest ih => rw [orderedItems, ih, List.map_cons]

theorem orderedEntries_eq (entries : List (String × Value)) :
    orderedEntries entries = entries.map fun e => (e.1, e.2.ordered) := by
  induction entries with
  | nil => rfl
  | cons e rest ih => rw [orderedEntries, ih, List.map_cons]

theorem toItems_eq (items : List Value) : toItems items = items.map toJson := by
  induction items with
  | nil => rfl
  | cons v rest ih => rw [toItems, ih, List.map_cons]

theorem toFields_eq (entries : List (String × Value)) :
    toFields entries = entries.map fun e => (e.1, e.2.toJson) := by
  induction entries with
  | nil => rfl
  | cons e rest ih => rw [toFields, ih, List.map_cons]

/-- The attributes that are set. -/
def setAttrs (attrs : List (String × Value)) : List (String × Value) :=
  attrs.filter fun e => !e.2.isNull

theorem toSetFields_eq (attrs : List (String × Value)) :
    toSetFields attrs = toFields (setAttrs attrs) := by
  induction attrs with
  | nil => rfl
  | cons e rest ih =>
    obtain ⟨k, v⟩ := e
    cases h : v.isNull <;> simp [toSetFields, setAttrs, h, ih, toFields]

/-- Where names are different, exactly the attributes that are set are found among them. -/
theorem lookup_setAttrs {attrs : List (String × Value)} {e : String × Value}
    (h : (attrs.map Prod.fst).Nodup) (he : e ∈ attrs) :
    (setAttrs attrs).lookup e.1 = if e.2.isNull then none else some e.2 := by
  cases hnull : e.2.isNull with
  | true =>
    rw [if_pos rfl, List.lookup_eq_none_iff]
    intro u hu
    rw [setAttrs, List.mem_filter] at hu
    simp only [bne_iff_ne, ne_eq]
    intro hname
    obtain rfl := List.inj_on_of_nodup_map h he hu.1 hname
    simp [hnull] at hu
  | false =>
    refine Table.lookup_of_mem ((List.filter_sublist.map Prod.fst).nodup h) ?_
    exact List.mem_filter.mpr ⟨he, by simp [hnull]⟩

theorem ofItems_eq (items : List Json) : ofItems items = items.map ofJson := by
  induction items with
  | nil => rfl
  | cons d rest ih => rw [ofItems, ih, List.map_cons]

theorem ofFields_eq (fields : List (String × Json)) :
    ofFields fields = fields.map fun e => (e.1, ofJson e.2) := by
  induction fields with
  | nil => rfl
  | cons e rest ih => rw [ofFields, ih, List.map_cons]

/-- What is left of a value in a document. -/
def documented (v : Value) : Value := .ofJson v.toJson.ordered

theorem documented_list (items : List Value) :
    (Value.list items).documented = .list (items.map documented) := by
  simp [documented, toJson, toItems_eq, Json.ordered, Json.orderedItems_eq, ofJson, ofItems_eq,
    Function.comp_def]

theorem documented_dict (entries : List (String × Value)) :
    (Value.dict entries).documented = .dict ((byKey entries).map fun e =>
      (e.1, e.2.documented)) := by
  rw [map_byKey]
  have hmap := map_byKey ofJson (entries.map fun e => (e.1, e.2.toJson.ordered))
  simpa [documented, toJson, toFields_eq, Json.ordered, Json.orderedFields_eq, ofJson,
    ofFields_eq, Function.comp_def] using hmap

theorem documented_object (c : String) (attrs : List (String × Value)) :
    (Value.object c attrs).documented = (Value.dict (setAttrs attrs)).documented := by
  rw [documented, documented, toJson, toJson, toSetFields_eq]

theorem isNull_iff {v : Value} : v.isNull = true ↔ v = .null := by
  cases v <;> simp [isNull]

@[simp] theorem isNull_ordered (v : Value) : v.ordered.isNull = v.isNull := by
  cases v <;> rfl

section Rebuild

variable {classes : Classes} {hint : Hint} {c : String}

theorem rebuildItems_ok {items : List Value}
    (h : ∀ v ∈ items, rebuild classes v.documented hint = .ok v.ordered) :
    rebuildItems classes (items.map documented) hint = .ok (items.map ordered) := by
  induction items with
  | nil => rfl
  | cons v rest ih =>
    have hrest := ih fun u hu => h u (by simp [hu])
    rw [List.map_cons, rebuildItems, h v (by simp), List.map_cons, hrest]
    rfl

/-- How the entries of a mapping are rebuilt. -/
def rebuilders (classes : Classes) (entries : List (String × Value)) :
    List (String × Rebuilder) :=
  entries.map fun e => (e.1, fun hint => rebuild classes e.2.documented hint)

theorem rebuildParts_documented (entries : List (String × Value)) :
    rebuildParts classes (entries.map fun e => (e.1, e.2.documented)) =
      rebuilders classes entries := by
  induction entries with
  | nil => rfl
  | cons e rest ih =>
    rw [List.map_cons, rebuildParts, ih]
    rfl

theorem rebuildParts_ok {entries : List (String × Value)}
    (h : ∀ e ∈ entries, rebuild classes e.2.documented hint = .ok e.2.ordered) :
    (rebuilders classes entries).mapM (fun p => do return (p.1, ← p.2 hint)) =
      (Except.ok (entries.map fun e => (e.1, e.2.ordered)) : Except Error _) := by
  induction entries with
  | nil => rfl
  | cons e rest ih =>
    have hrest := ih fun u hu => h u (by simp [hu])
    rw [rebuilders, List.map_cons, List.mapM_cons]
    dsimp only [rebuilders] at hrest ⊢
    rw [h e (by simp), hrest]
    rfl

/-- How an attribute is filled in: it was set, or it is null by default. -/
inductive Refilled (parts : List (String × Rebuilder)) (d : AttrDecl) : String × Value → Prop where
  | unset : parts.lookup d.name = none → d.default? = some .null → Refilled parts d (d.name, .null)
  | set {rebuild v} : parts.lookup d.name = some rebuild → rebuild d.hint = .ok v →
      v.isNull = false → Refilled parts d (d.name, v)

/-- What a mapping gives for an attribute, if it has it. -/
def slot (parts : List (String × Rebuilder)) (a : AttrDecl) :
    Except Error (Option (String × Value)) :=
  match parts.lookup a.name with
  | none => .ok none
  | some rebuild => return some (a.name, ← rebuild a.hint)

theorem rebuildObject_eq {decls : List AttrDecl} {parts : List (String × Rebuilder)} :
    rebuildObject c decls parts = do
      let given ← decls.filterMapM (slot parts)
      return .object c (← (Classes.fill c decls given).mapError .attr) := rfl

/-- An object is rebuilt from the attributes that are set. -/
theorem rebuildObject_ok {parts : List (String × Rebuilder)} {decls : List AttrDecl}
    {attrs : List (String × Value)} (h : List.Forall₂ (Refilled parts) decls attrs)
    (hnames : (attrs.map Prod.fst).Nodup) :
    rebuildObject c decls parts = .ok (.object c attrs) := by
  have hgiven : decls.filterMapM (slot parts) = .ok (setAttrs attrs) := by
    clear hnames
    induction h with
    | nil => rfl
    | cons hd _ ih =>
      rw [List.filterMapM_cons, ih, slot]
      cases hd with
      | unset hnone hdefault =>
        rw [hnone]
        rfl
      | set hsome hok hnull =>
        rw [hsome]
        simp [hok, bind, Except.bind, pure, Except.pure, setAttrs, hnull]
  have hfill : ∀ given : List (String × Value), (∀ e ∈ attrs, given.lookup e.1 =
      if e.2.isNull then none else some e.2) → Classes.fill c decls given = .ok attrs := by
    intro given hlookup
    clear hnames hgiven
    unfold Classes.fill
    induction h with
    | nil => rfl
    | cons hd _ ih =>
      have hfirst := hlookup _ (List.mem_cons_self ..)
      rw [List.mapM_cons, ih fun e he => hlookup e (by simp [he])]
      cases hd with
      | unset hnone hdefault =>
        rw [hfirst, hdefault]
        rfl
      | set hsome hok hnull =>
        rw [hfirst, if_neg (by simp [hnull])]
        rfl
  rw [rebuildObject_eq, hgiven]
  simp only [bind, Except.bind, hfill _ fun e he => lookup_setAttrs hnames he]
  rfl

theorem rebuild_list {items : List Value} {element : Hint} (hhint : requirement hint = .list element)
    (h : ∀ v ∈ items, rebuild classes v.documented element = .ok v.ordered) :
    rebuild classes (Value.list items).documented hint = .ok (Value.list items).ordered := by
  rw [documented_list, rebuild, hhint]
  dsimp only
  rw [rebuildItems_ok h, ordered, orderedItems_eq]
  rfl

theorem rebuild_dict {entries : List (String × Value)} {key element : Hint}
    (hhint : requirement hint = .dict key element)
    (h : ∀ e ∈ entries, rebuild classes e.2.documented element = .ok e.2.ordered) :
    rebuild classes (Value.dict entries).documented hint = .ok (Value.dict entries).ordered := by
  have hsorted : ∀ e ∈ byKey entries, rebuild classes e.2.documented element = .ok e.2.ordered :=
    fun e he => h e ((byKey_perm entries).mem_iff.mp he)
  have hparts := rebuildParts_ok hsorted
  rw [documented_dict, rebuild, hhint]
  dsimp only
  rw [rebuildParts_documented]
  refine (congrArg (fun r => r >>= fun l => Except.ok (Value.dict l)) hparts).trans ?_
  rw [map_byKey, ordered, orderedEntries_eq]
  rfl

/-- An object is rebuilt if its attributes are and if those that are null may be left out. -/
theorem rebuild_object {decls : List AttrDecl} {attrs : List (String × Value)}
    (hclass : classes.get? c = some decls) (hhint : requirement hint = .named c)
    (hnames : (attrs.map Prod.fst).Nodup)
    (h : List.Forall₂ (fun d e => d.name = e.1 ∧ (e.2 = .null → d.default? = some .null) ∧
      rebuild classes e.2.documented d.hint = .ok e.2.ordered) decls attrs) :
    rebuild classes (Value.object c attrs).documented hint =
      .ok (Value.object c attrs).ordered := by
  let parts := rebuilders classes (byKey (setAttrs attrs))
  have hset : ((setAttrs attrs).map Prod.fst).Nodup :=
    (List.filter_sublist.map Prod.fst).nodup hnames
  have hparts : ∀ e ∈ attrs, parts.lookup e.1 = if e.2.isNull then none
      else some fun hint => rebuild classes e.2.documented hint := by
    intro e he
    have hlookup := (lookup_byKey hset e.1).trans (lookup_setAttrs hnames he)
    have hmap : ∀ l : List (String × Value), (rebuilders classes l).lookup e.1 =
        (l.lookup e.1).map fun v hint => rebuild classes v.documented hint := by
      intro l
      induction l with
      | nil => rfl
      | cons u l ih =>
        obtain ⟨k, v⟩ := u
        rw [rebuilders, List.map_cons, Table.lookup_cons_if, Table.lookup_cons_if]
        split
        · rfl
        · exact ih
    rw [hmap, hlookup]
    cases e.2.isNull <;> rfl
  have hfilled : List.Forall₂ (Refilled parts) decls (attrs.map fun e => (e.1, e.2.ordered)) := by
    clear hclass hset hnames
    clear_value parts
    refine List.forall₂_map_right_iff.mpr ?_
    induction h with
    | nil => exact .nil
    | @cons d e _ _ hd _ ih =>
      refine .cons ?_ (ih fun u hu => hparts u (by simp [hu]))
      obtain ⟨hname, hdefault, hok⟩ := hd
      have hlookup := hparts e (by simp)
      rw [← hname] at hlookup ⊢
      cases hnull : e.2.isNull with
      | true =>
        rw [if_pos hnull] at hlookup
        rw [isNull_iff.mp hnull]
        exact .unset hlookup (hdefault (isNull_iff.mp hnull))
      | false =>
        rw [if_neg (by simp [hnull])] at hlookup
        exact .set hlookup hok (by simpa using hnull)
  rw [documented_object, documented_dict, rebuild, hhint]
  dsimp only
  rw [rebuildParts_documented, hclass, ordered, orderedEntries_eq]
  refine rebuildObject_ok hfilled ?_
  rwa [List.map_map]

end Rebuild

end Value

end ResourceVersions
