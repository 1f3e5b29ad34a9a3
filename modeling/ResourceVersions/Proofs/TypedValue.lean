import ResourceVersions.Proofs.Rebuilt
import ResourceVersions.Stash.Codec

/-! # Typed values

The types of generated attributes, and the values that belong to them. A value of a type is read
back from the text under which it was stashed, as a value of the same type; only the order in which
a mapping lists its entries may be another one. -/
namespace ResourceVersions

/-- A type that is neither a choice nor that of null. -/
def Hint.Definite : Hint → Prop
  | .none | .union _ => False
  | _ => True

/-- An attribute that is null unless it is given. -/
def AttrDecl.optional (name : String) (h : Hint) : AttrDecl :=
  ⟨name, .union [h, .none], some .null⟩

namespace Value

mutual

/-- All scalars of the value satisfy a predicate. -/
def Each (P : Value → Prop) : Value → Prop
  | .list items => EachItem P items
  | .dict entries => EachEntry P entries
  | .object _ attrs => EachEntry P attrs
  | v => P v

def EachItem (P : Value → Prop) : List Value → Prop
  | [] => True
  | v :: rest => v.Each P ∧ EachItem P rest

def EachEntry (P : Value → Prop) : List (String × Value) → Prop
  | [] => True
  | (_, v) :: rest => v.Each P ∧ EachEntry P rest

end

theorem eachItem_iff {P : Value → Prop} {items : List Value} :
    EachItem P items ↔ ∀ v ∈ items, v.Each P := by
  induction items with
  | nil => simp [EachItem]
  | cons v rest ih => rw [EachItem, ih, List.forall_mem_cons]

theorem eachEntry_iff {P : Value → Prop} {entries : List (String × Value)} :
    EachEntry P entries ↔ ∀ e ∈ entries, e.2.Each P := by
  induction entries with
  | nil => simp [EachEntry]
  | cons e rest ih => rw [EachEntry, ih, List.forall_mem_cons]

/-- A scalar that is read back from its texts. An integer may have too many digits for that. -/
def Exact : Value → Prop
  | .int n => (Nat.toDigits 10 n.natAbs).length ≤ Number.maxIntDigits
  | .float x => Number.readFloat? x.text = some x ∧
      Json.value 1 (Json.floatText x).toList = some (.float x, [])
  | .datetime t => Timestamp.read? t.text = some t
  | _ => True

/-- The values of a type. Null belongs to every type. The attributes of an object, each with its
name, its type and its value, are those that its class declares. -/
inductive OfType (classes : Classes) : Hint → Value → Prop where
  | null (h) : OfType classes h .null
  | bool (b) : OfType classes .bool (.bool b)
  | int (n) : OfType classes .int (.int n)
  | float (x) : OfType classes .float (.float x)
  | str (s) : OfType classes .str (.str s)
  | datetime (t) : OfType classes .datetime (.datetime t)
  | list {element items} : (∀ v ∈ items, OfType classes element v) →
      OfType classes (.list element) (.list items)
  | dict {key element entries} : (entries.map Prod.fst).Nodup →
      (∀ e ∈ entries, OfType classes element e.2) →
      OfType classes (.dict key element) (.dict entries)
  | object {c} {parts : List (String × Hint × Value)} :
      classes.get? c = some (parts.map fun p => .optional p.1 p.2.1) →
      (parts.map Prod.fst).Nodup → (∀ p ∈ parts, OfType classes p.2.1 p.2.2) →
      OfType classes (.named c) (.object c (parts.map fun p => (p.1, p.2.2)))
  | secret {v} : classes.get? Hint.secretClass = Classes.builtin.get? Hint.secretClass →
      SecretValue v → OfType classes .secret v

/-- Equal values. Mappings are equal if they have equal values for the same keys. -/
inductive Equal : Value → Value → Prop where
  | refl (v) : Equal v v
  | list {items items'} : List.Forall₂ Equal items items' → Equal (.list items) (.list items')
  | dict {entries entries'} : (entries.map Prod.fst).Perm (entries'.map Prod.fst) →
      (∀ k v v', (k, v) ∈ entries → (k, v') ∈ entries' → Equal v v') →
      Equal (.dict entries) (.dict entries')
  | object {c attrs attrs'} : attrs.map Prod.fst = attrs'.map Prod.fst →
      List.Forall₂ Equal (attrs.map Prod.snd) (attrs'.map Prod.snd) →
      Equal (.object c attrs) (.object c attrs')

variable {classes : Classes} {v : Value} {h hint : Hint}

theorem OfType.definite (hv : v.OfType classes h) : v = .null ∨ h.Definite := by
  cases hv with
  | null => exact .inl rfl
  | _ => exact .inr trivial

/-- An optional type asks for what the type itself asks for. -/
theorem requirement_optional (hh : h.Definite) :
    requirement (.union [h, .none]) = requirement h := by
  cases h <;> first | rfl | exact False.elim hh

/-- A reference to a secret is rebuilt. -/
theorem rebuild_secret (hclass : classes.get? Hint.secretClass =
      Classes.builtin.get? Hint.secretClass) (hhint : requirement hint = .secret)
    (h : SecretValue v) : rebuild classes v.documented hint = .ok v.ordered := by
  cases h with
  | null => rfl
  | ref name key space? =>
    refine rebuild_object hclass hhint (by simp) (.cons ⟨rfl, nofun, rfl⟩
      (.cons ⟨rfl, nofun, rfl⟩ (.cons ⟨rfl, fun _ => rfl, ?_⟩ .nil)))
    cases space? <;> rfl

theorem rebuild_datetime {t : Timestamp} (hexact : (Value.datetime t).Exact)
    (hhint : requirement hint = .datetime) :
    rebuild classes (Value.datetime t).documented hint = .ok (Value.datetime t).ordered := by
  have hread : Timestamp.read? t.text = some t := hexact
  rw [documented, toJson, Json.ordered, ofJson, rebuild, rebuildScalar, hhint]
  · dsimp only [rebuildTimestamp]
    rw [hread]
    rfl
  all_goals simp

/-- The induction follows the types. Only the type of an attribute is a choice, between a type and
that of null, so rebuilding asks there for what the type itself asks for. -/
theorem OfType.rebuilt (hv : v.OfType classes h) (hexact : v.Each Exact)
    (hhint : requirement hint = requirement h) :
    rebuild classes v.documented hint = .ok v.ordered := by
  induction hv generalizing hint with
  | null => rfl
  | bool | int | float | str =>
    rw [documented, toJson, Json.ordered, ofJson, rebuild, rebuildScalar, hhint]
    · rfl
    all_goals simp
  | datetime t => exact rebuild_datetime hexact hhint
  | list _ ih => exact rebuild_list hhint fun v hv => ih v hv (eachItem_iff.mp hexact v hv) rfl
  | dict _ _ ih => exact rebuild_dict hhint fun e he => ih e he (eachEntry_iff.mp hexact e he) rfl
  | @object c parts hclass hnames hparts ih =>
    refine rebuild_object hclass hhint ?_ ?_
    · rwa [List.map_map]
    · rw [List.forall₂_map_left_iff, List.forall₂_map_right_iff, List.forall₂_same]
      intro p hp
      refine ⟨rfl, fun _ => rfl, ?_⟩
      rcases (hparts p hp).definite with hnull | hdefinite
      · dsimp only
        rw [hnull]
        rfl
      · have hexact := eachEntry_iff.mp hexact (p.1, p.2.2) (List.mem_map_of_mem hp)
        exact ih p hp hexact (requirement_optional hdefinite)
  | secret hclass hsecret => exact rebuild_secret hclass hhint hsecret

theorem legible_items {items : List Value} (h : ∀ v ∈ items, v.toJson.Legible) :
    (Value.list items).toJson.Legible := by
  rw [toJson, toItems_eq]
  refine .arr fun d hd => ?_
  obtain ⟨v, hv, rfl⟩ := List.mem_map.mp hd
  exact h v hv

theorem legible_entries {entries : List (String × Value)} (hkeys : (entries.map Prod.fst).Nodup)
    (h : ∀ e ∈ entries, e.2.toJson.Legible) : (Value.dict entries).toJson.Legible := by
  rw [toJson, toFields_eq]
  refine .obj ?_ fun d hd => ?_
  · rwa [List.map_map]
  · obtain ⟨e, he, rfl⟩ := List.mem_map.mp hd
    exact h e he

theorem legible_attrs {c : String} {attrs : List (String × Value)}
    (hnames : (attrs.map Prod.fst).Nodup) (h : ∀ e ∈ attrs, e.2.toJson.Legible) :
    (Value.object c attrs).toJson.Legible := by
  have hset := legible_entries ((List.filter_sublist.map Prod.fst).nodup hnames)
    fun e (he : e ∈ setAttrs attrs) => h e (List.mem_of_mem_filter he)
  rwa [toJson, toSetFields_eq]

theorem legible_secret (h : SecretValue v) : v.toJson.Legible := by
  cases h with
  | null => exact .null
  | ref name key space? =>
    refine legible_attrs (by simp) fun e he => ?_
    simp only [List.mem_cons, List.not_mem_nil, or_false] at he
    rcases he with rfl | rfl | rfl
    · exact .str name
    · exact .str key
    · cases space? with
      | none => exact .null
      | some space => exact .str space

/-- The document of a value is read back if its scalars are. -/
theorem OfType.legible (hv : v.OfType classes h) (hexact : v.Each Exact) : v.toJson.Legible := by
  induction hv with
  | null => exact .null
  | bool b => exact .bool b
  | int n => exact .int hexact
  | float x => exact .float hexact.2
  | str s => exact .str s
  | datetime t => exact .str t.text
  | list _ ih => exact legible_items fun v hv => ih v hv (eachItem_iff.mp hexact v hv)
  | dict hkeys _ ih =>
    exact legible_entries hkeys fun e he => ih e he (eachEntry_iff.mp hexact e he)
  | object _ hnames _ ih =>
    refine legible_attrs (by rwa [List.map_map]) fun e he => ?_
    have hexact := eachEntry_iff.mp hexact e he
    obtain ⟨p, hp, rfl⟩ := List.mem_map.mp he
    exact ih p hp hexact
  | secret _ hsecret => exact legible_secret hsecret

theorem ordered_secret (h : SecretValue v) : v.ordered = v := by
  cases h with
  | null => rfl
  | ref name key space? => cases space? <;> rfl

/-- Sorting the entries of mappings keeps a value in its type. -/
theorem OfType.ordered (hv : v.OfType classes h) : v.ordered.OfType classes h := by
  induction hv with
  | list _ ih =>
    rw [Value.ordered, orderedItems_eq]
    exact .list (List.forall_mem_map.mpr ih)
  | @dict key element entries hkeys _ ih =>
    rw [Value.ordered, orderedEntries_eq]
    have hperm := byKey_perm (entries.map fun e => (e.1, e.2.ordered))
    refine .dict ?_ fun e he => ?_
    · rw [(hperm.map Prod.fst).nodup_iff, List.map_map]
      exact hkeys
    · obtain ⟨u, hu, rfl⟩ := List.mem_map.mp (hperm.mem_iff.mp he)
      exact ih u hu
  | @object c parts hclass hnames _ ih =>
    let sorted := parts.map fun p => (p.1, p.2.1, p.2.2.ordered)
    have hvalues : (parts.map fun p => (p.1, p.2.2)).map (fun e => (e.1, e.2.ordered)) =
        sorted.map fun p => (p.1, p.2.2) := by
      rw [List.map_map, List.map_map]
      rfl
    rw [Value.ordered, orderedEntries_eq, hvalues]
    refine .object ?_ ?_ (List.forall_mem_map.mpr ih) <;> rwa [List.map_map]
  | secret hclass hsecret =>
    rw [ordered_secret hsecret]
    exact .secret hclass hsecret
  | _ => constructor

/-- Sorting the entries of mappings leaves a value equal. -/
theorem OfType.equal_ordered (hv : v.OfType classes h) : v.Equal v.ordered := by
  induction hv with
  | @list element items _ ih =>
    rw [Value.ordered, orderedItems_eq]
    exact .list (List.forall₂_map_right_iff.mpr (List.forall₂_same.mpr ih))
  | @dict key element entries hkeys _ ih =>
    rw [Value.ordered, orderedEntries_eq]
    have hperm := byKey_perm (entries.map fun e => (e.1, e.2.ordered))
    refine .dict ?_ fun k v v' hv hv' => ?_
    · refine List.Perm.trans ?_ (hperm.map Prod.fst).symm
      rw [List.map_map]
      exact .refl _
    · obtain ⟨u, hu, heq⟩ := List.mem_map.mp (hperm.mem_iff.mp hv')
      obtain ⟨hk, rfl⟩ := Prod.mk.inj heq
      have hentry := List.inj_on_of_nodup_map hkeys hv hu hk.symm
      rw [← hentry]
      exact ih _ hv
  | @object c parts hclass hnames _ ih =>
    rw [Value.ordered, orderedEntries_eq, List.map_map]
    refine .object (by simp) ?_
    rw [List.map_map, List.map_map, List.forall₂_map_left_iff, List.forall₂_map_right_iff,
      List.forall₂_same]
    exact ih
  | secret _ hsecret =>
    rw [ordered_secret hsecret]
    exact .refl _
  | _ => exact .refl _

end Value

end ResourceVersions
