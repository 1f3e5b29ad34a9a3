import Mathlib.Data.List.Forall2
import ResourceVersions.Api.Walk
import ResourceVersions.Model.Basic
import ResourceVersions.Proofs.CodeMeaning
import ResourceVersions.Proofs.EqualStructure

/-! # Values of a shape

A value conforms to a shape of a version if it is null or built as the shape says, with objects
of the version's own classes. Two values of one shape that have the same tree are equal: the
shape decides on every class in them. -/
namespace ResourceVersions

namespace Value

mutual

/-- The value without the names of its classes, except for references to secrets. -/
def tree : Value → Value
  | .list items => .list (treeItems items)
  | .dict entries => .dict (treeEntries entries)
  | .object c attrs => .object (if c = Hint.secretClass then c else "") (treeEntries attrs)
  | v => v

def treeItems : List Value → List Value
  | [] => []
  | v :: rest => v.tree :: treeItems rest

def treeEntries : List (String × Value) → List (String × Value)
  | [] => []
  | (k, v) :: rest => (k, v.tree) :: treeEntries rest

end

theorem treeItems_eq (items : List Value) : treeItems items = items.map tree := by
  induction items with
  | nil => rfl
  | cons v rest ih => rw [treeItems, ih, List.map_cons]

theorem treeEntries_eq (entries : List (String × Value)) :
    treeEntries entries = entries.map fun e => (e.1, e.2.tree) := by
  induction entries with
  | nil => rfl
  | cons e rest ih => rw [treeEntries, ih, List.map_cons]

mutual

/-- How many values a value is made of. -/
def size : Value → Nat
  | .list items => sizeItems items + 1
  | .dict entries => sizeEntries entries + 1
  | .object _ attrs => sizeEntries attrs + 1
  | _ => 1

def sizeItems : List Value → Nat
  | [] => 0
  | v :: rest => v.size + sizeItems rest

def sizeEntries : List (String × Value) → Nat
  | [] => 0
  | (_, v) :: rest => v.size + sizeEntries rest

end

theorem size_item {v : Value} {items : List Value} (h : v ∈ items) :
    v.size < (Value.list items).size := by
  rw [size]
  induction items with
  | nil => cases h
  | cons u rest ih =>
    rw [sizeItems]
    rcases List.mem_cons.mp h with rfl | h
    · omega
    · have := ih h
      omega

theorem size_le_entries {e : String × Value} {entries : List (String × Value)} (h : e ∈ entries) :
    e.2.size ≤ sizeEntries entries := by
  induction entries with
  | nil => cases h
  | cons u rest ih =>
    rw [sizeEntries]
    rcases List.mem_cons.mp h with rfl | h
    · omega
    · have := ih h
      omega

theorem size_entry {e : String × Value} {entries : List (String × Value)} (h : e ∈ entries) :
    e.2.size < (Value.dict entries).size := by
  have := size_le_entries h
  rw [size]
  omega

theorem size_attr {c : String} {e : String × Value} {attrs : List (String × Value)}
    (h : e ∈ attrs) : e.2.size < (Value.object c attrs).size := by
  have := size_le_entries h
  rw [size]
  omega

mutual

theorem size_tree : ∀ v : Value, v.tree.size = v.size
  | .list items => by rw [tree, size, size, size_treeItems]
  | .dict entries => by rw [tree, size, size, size_treeEntries]
  | .object c attrs => by rw [tree, size, size, size_treeEntries]
  | .null | .bool _ | .int _ | .float _ | .str _ | .datetime _ => rfl

theorem size_treeItems : ∀ items : List Value, sizeItems (treeItems items) = sizeItems items
  | [] => rfl
  | v :: rest => by rw [treeItems, sizeItems, sizeItems, size_tree v, size_treeItems rest]

theorem size_treeEntries :
    ∀ entries : List (String × Value), sizeEntries (treeEntries entries) = sizeEntries entries
  | [] => rfl
  | (_, v) :: rest => by
    rw [treeEntries, sizeEntries, sizeEntries, size_tree v, size_treeEntries rest]

end

@[simp] theorem tree_eq_null_iff (v : Value) : v.tree = .null ↔ v = .null := by
  cases v <;> simp [tree]

end Value

/-- The values that a scalar stands for. -/
def Scalar.Holds : Scalar → Value → Prop
  | .boolean, .bool _ => True
  | .string, .str _ | .character, .str _ => True
  | .byte, .int _ | .short, .int _ | .integer, .int _ | .long, .int _ => True
  | .float, .float _ | .double, .float _ => True
  | .timestamp, .datetime _ => True
  | _, _ => False

theorem Scalar.Holds.tree {t : Scalar} {v : Value} (h : t.Holds v) : v.tree = v := by
  cases t <;> cases v <;> first | rfl | cases h

/-- Nothing, or a reference to a secret with its name, its key and perhaps a namespace. -/
inductive SecretValue : Value → Prop where
  | null : SecretValue .null
  | ref (name key : String) (space? : Option String) :
      SecretValue (.object Hint.secretClass [("name", .str name), ("key", .str key),
        ("namespace", (space?.map Value.str).getD .null)])

/-- A secret is its own tree. -/
theorem SecretValue.tree_eq {v : Value} (h : SecretValue v) : v.tree = v := by
  cases h with
  | null => rfl
  | ref name key space? => cases space? <;> rfl

/-- A version, and the name under which code refers to its module. -/
structure Side where
  model : VersionModel
  alias? : Option String

namespace Side

/-- The class of a structure as code refers to it. -/
def className (s : Side) (d : TypeDef) : String :=
  Code.TypeRef.qualified ⟨d.className, s.alias?⟩

/-- An object of a class with the given values of its attributes. -/
def object (s : Side) (d : TypeDef) (parts : List (AttrDef × Value)) : Value :=
  .object (s.className d) (parts.map fun p => (p.1.names.camelLower, p.2))

theorem object_tree (s : Side) (c : TypeDef) (ps : List (AttrDef × Value))
    (h : s.className c ≠ Hint.secretClass) :
    (s.object c ps).tree = .object "" (ps.map fun p => (p.1.names.camelLower, p.2.tree)) := by
  rw [Side.object, Value.tree, if_neg h, Value.treeEntries_eq, List.map_map]
  rfl

/-- The values of a shape. -/
inductive Conforms (s : Side) : String → Value → Prop where
  | null (x) : Conforms s x .null
  | scalar {x shape t v} : s.model.api.shape? x = some shape → shape.form = .scalar t →
      t.Holds v → Conforms s x v
  | list {x shape e items} : s.model.api.shape? x = some shape → shape.form = .list e →
      (∀ v ∈ items, Conforms s e.target v) → Conforms s x (.list items)
  | map {x shape k v entries} : s.model.api.shape? x = some shape → shape.form = .map k v →
      (entries.map Prod.fst).Nodup → (∀ e ∈ entries, Conforms s v.target e.2) →
      Conforms s x (.dict entries)
  | object {x shape ms d parts} : s.model.api.shape? x = some shape →
      shape.form = .struct ms → s.model.typeDef? x = some d → parts.map Prod.fst = d.attrs →
      (∀ p ∈ parts, p.1.isSecret = true → SecretValue p.2) →
      (∀ p ∈ parts, p.1.isSecret = false → Conforms s p.1.ref.target p.2) →
      Conforms s x (s.object d parts)

variable {s : Side} {x : String} {shape : Shape} {v w : Value}

theorem Conforms.of_scalar {t : Scalar} (h : s.Conforms x v)
    (hx : s.model.api.shape? x = some shape) (hf : shape.form = .scalar t) :
    v = .null ∨ t.Holds v := by
  cases h with
  | null => exact .inl rfl
  | scalar hx' hf' ht =>
    cases hx.symm.trans hx'
    cases hf.symm.trans hf'
    exact .inr ht
  | _ hx' hf' =>
    cases hx.symm.trans hx'
    cases hf.symm.trans hf'

theorem Conforms.of_list {e : ShapeRef} (h : s.Conforms x v)
    (hx : s.model.api.shape? x = some shape) (hf : shape.form = .list e) :
    v = .null ∨ ∃ items, v = .list items ∧ ∀ i ∈ items, s.Conforms e.target i := by
  cases h with
  | null => exact .inl rfl
  | list hx' hf' hitems =>
    cases hx.symm.trans hx'
    cases hf.symm.trans hf'
    exact .inr ⟨_, rfl, hitems⟩
  | _ hx' hf' =>
    cases hx.symm.trans hx'
    cases hf.symm.trans hf'

theorem Conforms.of_map {k e : ShapeRef} (h : s.Conforms x v)
    (hx : s.model.api.shape? x = some shape) (hf : shape.form = .map k e) :
    v = .null ∨ ∃ entries, v = .dict entries ∧ (entries.map Prod.fst).Nodup ∧
      ∀ i ∈ entries, s.Conforms e.target i.2 := by
  cases h with
  | null => exact .inl rfl
  | map hx' hf' hkeys hentries =>
    cases hx.symm.trans hx'
    cases hf.symm.trans hf'
    exact .inr ⟨_, rfl, hkeys, hentries⟩
  | _ hx' hf' =>
    cases hx.symm.trans hx'
    cases hf.symm.trans hf'

theorem Conforms.of_struct {ms : Table ShapeRef} (h : s.Conforms x v)
    (hx : s.model.api.shape? x = some shape) (hf : shape.form = .struct ms) :
    v = .null ∨ ∃ d parts, v = s.object d parts ∧ s.model.typeDef? x = some d ∧
      parts.map Prod.fst = d.attrs ∧ (∀ p ∈ parts, p.1.isSecret = true → SecretValue p.2) ∧
      ∀ p ∈ parts, p.1.isSecret = false → s.Conforms p.1.ref.target p.2 := by
  cases h with
  | null => exact .inl rfl
  | object hx' hf' hd hparts hsecret hplain =>
    exact .inr ⟨_, _, rfl, hd, hparts, hsecret, hplain⟩
  | _ hx' hf' =>
    cases hx.symm.trans hx'
    cases hf.symm.trans hf'

theorem eq_of_map_eq {α β : Type} {f : α → β} {l l' : List α}
    (h : ∀ a ∈ l, ∀ b ∈ l', f a = f b → a = b) (e : l.map f = l'.map f) : l = l' := by
  induction l generalizing l' with
  | nil => simpa using e
  | cons a l ih =>
    cases l' with
    | nil => cases e
    | cons b l' =>
      obtain ⟨hab, hrest⟩ := List.cons.inj e
      rw [h a (by simp) b (by simp) hab,
        ih (fun a ha b hb => h a (by simp [ha]) b (by simp [hb])) hrest]

/-- A value is decided by its shape and its tree. -/
theorem Conforms.eq_of_tree (h : s.Conforms x v) (h' : s.Conforms x w)
    (ht : v.tree = w.tree) : v = w := by
  induction h generalizing w with
  | null => exact ((Value.tree_eq_null_iff w).mp ht.symm).symm
  | scalar hx hf hv =>
    rcases h'.of_scalar hx hf with rfl | hw
    · exact (Value.tree_eq_null_iff _).mp ht
    · rwa [hv.tree, hw.tree] at ht
  | list hx hf hitems ih =>
    rcases h'.of_list hx hf with rfl | ⟨items', rfl, hitems'⟩
    · exact (Value.tree_eq_null_iff _).mp ht
    · simp only [Value.tree, Value.treeItems_eq, Value.list.injEq] at ht
      rw [eq_of_map_eq (fun v hv w hw => ih v hv (hitems' w hw)) ht]
  | map hx hf hkeys hentries ih =>
    rcases h'.of_map hx hf with rfl | ⟨entries', rfl, -, hentries'⟩
    · exact (Value.tree_eq_null_iff _).mp ht
    · simp only [Value.tree, Value.treeEntries_eq, Value.dict.injEq] at ht
      rw [eq_of_map_eq (fun e he e' he' h => ?_) ht]
      obtain ⟨hk, hv⟩ := Prod.mk.inj h
      exact Prod.ext hk (ih e he (hentries' e' he') hv)
  | object hx hf hd hparts hsecret hplain ih =>
    rcases h'.of_struct hx hf with rfl | ⟨d', parts', rfl, hd', hparts', hsecret', hplain'⟩
    · exact (Value.tree_eq_null_iff _).mp ht
    · cases hd.symm.trans hd'
      have hvalues := congrArg (List.map Prod.snd) (Value.object.inj ht).2
      simp only [Value.treeEntries_eq, List.map_map, Function.comp_def] at hvalues
      have hboth := congrArg₂ List.zip (hparts.trans hparts'.symm) hvalues
      simp only [List.zip_map'] at hboth
      rw [eq_of_map_eq (fun p hp p' hp' h => ?_) hboth]
      obtain ⟨ha, hv⟩ := Prod.mk.inj h
      refine Prod.ext ha ?_
      cases hs : p.1.isSecret with
      | false => exact ih p hp hs (ha ▸ hplain' p' hp' (ha ▸ hs)) hv
      | true =>
        rwa [(hsecret p hp hs).tree_eq, (hsecret' p' hp' (ha ▸ hs)).tree_eq] at hv

section Plain

variable {api : Api} {seen : List String} {ms : Table ShapeRef} {e k r : ShapeRef}

theorem isPlainFrom_eq (hx : api.shape? x = some shape) :
    api.isPlainFrom seen x = if x ∈ seen then false else
      match shape.form with
      | .scalar _ => true
      | .struct _ => false
      | .list e => api.isPlainFrom (x :: seen) e.target
      | .map _ v => api.isPlainFrom (x :: seen) v.target := by
  rw [Api.isPlainFrom]
  split
  · rename_i hnone
    cases hx.symm.trans hnone
  · rename_i shape' hsome
    cases hx.symm.trans hsome
    split <;> rfl

theorem plain_struct (hx : api.shape? x = some shape) (hf : shape.form = .struct ms) :
    api.isPlainFrom seen x = false := by
  rw [isPlainFrom_eq hx, hf]
  split <;> rfl

theorem plain_list (h : api.isPlainFrom seen x = true) (hx : api.shape? x = some shape)
    (hf : shape.form = .list e) : api.isPlainFrom (x :: seen) e.target = true := by
  rw [isPlainFrom_eq hx, hf] at h
  split at h
  · cases h
  · exact h

theorem plain_map (h : api.isPlainFrom seen x = true) (hx : api.shape? x = some shape)
    (hf : shape.form = .map k r) : api.isPlainFrom (x :: seen) r.target = true := by
  rw [isPlainFrom_eq hx, hf] at h
  split at h
  · cases h
  · exact h

end Plain

/-- What holds no objects conforms to every shape of the same structure. -/
theorem Conforms.of_plain {t : Side} {seen : List String} {y : String} (h : s.Conforms x v)
    (hplain : s.model.api.isPlainFrom seen x = true)
    (hsame : Api.sameStructure s.model.api t.model.api x y = true) : t.Conforms y v := by
  induction h generalizing seen y with
  | null => exact .null y
  | scalar hx hf hv =>
    obtain ⟨shape', hy⟩ := Api.sameStructure_defined hsame hx
    have htype := (Api.sameStructure_alike hsame hx hy).type
    rw [hf] at htype
    exact .scalar hy (Api.typeText_scalar htype) hv
  | list hx hf hitems ih =>
    obtain ⟨shape', hy⟩ := Api.sameStructure_defined hsame hx
    have htype := (Api.sameStructure_alike hsame hx hy).type
    rw [hf] at htype
    obtain ⟨e', hf'⟩ := Api.typeText_list htype
    refine .list hy hf' fun i hi => ?_
    exact ih i hi (plain_list hplain hx hf) (Api.sameStructure_list hsame hx hy hf hf')
  | map hx hf hkeys hentries ih =>
    obtain ⟨shape', hy⟩ := Api.sameStructure_defined hsame hx
    have htype := (Api.sameStructure_alike hsame hx hy).type
    rw [hf] at htype
    obtain ⟨k', v', hf'⟩ := Api.typeText_map htype
    refine .map hy hf' hkeys fun i hi => ?_
    exact ih i hi (plain_map hplain hx hf) (Api.sameStructure_map hsame hx hy hf hf')
  | object hx hf hd hparts hsecret hinner ih =>
    rw [plain_struct hx hf] at hplain
    cases hplain

end Side

end ResourceVersions
