import ResourceVersions.Api.Document
import ResourceVersions.Config.Document
import ResourceVersions.Proofs.ApiOrder
import ResourceVersions.Proofs.JsonText
import ResourceVersions.Proofs.RelatedRuns

/-! # Documents in another order

The order in which the entries of a document stand shows in nothing that is read from it: what can
be read from a document can be read from every other order of it, with tables that are alike. -/
namespace ResourceVersions

open Fallible

namespace Json

/-- The same document up to the order of the entries of its mappings. -/
structure Same (a b : Json) : Prop where
  left : a.WellFormed
  right : b.WellFormed
  agree : a.ordered = b.ordered

theorem wellFormed_items {items : List Json} (h : WellFormedItems items) :
    ∀ d ∈ items, d.WellFormed := by
  induction items with
  | nil => simp
  | cons d rest ih => exact List.forall_mem_cons.mpr ⟨h.1, ih h.2⟩

theorem wellFormed_fields {fields : List (String × Json)} :
    WellFormedFields fields ↔ ∀ e ∈ fields, e.2.WellFormed := by
  induction fields with
  | nil => exact ⟨fun _ => by simp, fun _ => trivial⟩
  | cons e rest ih =>
    rw [List.forall_mem_cons, ← ih]
    exact Iff.rfl

theorem same_items {items items' : List Json} (h : ∀ d ∈ items, d.WellFormed)
    (h' : ∀ d ∈ items', d.WellFormed) (heq : items.map ordered = items'.map ordered) :
    List.Forall₂ Same items items' := by
  induction items generalizing items' with
  | nil =>
    cases List.map_eq_nil_iff.mp heq.symm
    exact .nil
  | cons d rest ih =>
    cases items' with
    | nil => cases heq
    | cons d' rest' =>
      obtain ⟨hhead, htail⟩ := List.cons.inj heq
      rw [List.forall_mem_cons] at h h'
      exact .cons ⟨h.1, h'.1, hhead⟩ (ih h.2 h'.2 htail)

theorem lookup_ordered (fields : List (String × Json)) (name : String) :
    (orderedFields fields).lookup name = (fields.lookup name).map ordered := by
  induction fields with
  | nil => rfl
  | cons e rest ih =>
    obtain ⟨k, d⟩ := e
    rw [orderedFields, Table.lookup_cons_if, Table.lookup_cons_if, ih]
    split <;> rfl

theorem fst_ordered (fields : List (String × Json)) :
    (orderedFields fields).map Prod.fst = fields.map Prod.fst := by
  rw [orderedFields_eq, List.map_map]
  rfl

theorem same_fields {t t' : Table Json} (h : ∀ e ∈ t.entries, e.2.WellFormed)
    (h' : ∀ e ∈ t'.entries, e.2.WellFormed)
    (heq : byKey (orderedFields t.entries) = byKey (orderedFields t'.entries)) :
    Table.Alike Same t t' := by
  intro name
  have hnodup : ((orderedFields t.entries).map Prod.fst).Nodup := by
    rw [fst_ordered]
    exact t.nodup
  have hnodup' : ((orderedFields t'.entries).map Prod.fst).Nodup := by
    rw [fst_ordered]
    exact t'.nodup
  have hlookup := lookup_byKey hnodup name
  rw [heq, lookup_byKey hnodup', lookup_ordered, lookup_ordered] at hlookup
  change (t'.get? name).map ordered = (t.get? name).map ordered at hlookup
  cases hget : t.get? name with
  | none =>
    rw [hget] at hlookup
    rw [Option.map_eq_none_iff.mp hlookup]
    exact .none
  | some d =>
    rw [hget] at hlookup
    obtain ⟨d', hget', hd'⟩ := Option.map_eq_some_iff.mp hlookup
    rw [hget']
    exact .some ⟨h _ (Table.get?_eq_some_iff.mp hget), h' _ (Table.get?_eq_some_iff.mp hget'),
      hd'.symm⟩

def isAtom : Json → Bool
  | .arr _ | .obj _ => false
  | _ => true

/-- Documents that are the same are so part by part. -/
inductive SameParts : Json → Json → Prop where
  | atom {d} : d.isAtom = true → SameParts d d
  | list {items items'} : List.Forall₂ Same items items' → SameParts (.arr items) (.arr items')
  | mapping {t t' : Table Json} : Table.Alike Same t t' →
      SameParts (.obj t.entries) (.obj t'.entries)

theorem Same.parts {a b : Json} (h : Same a b) : SameParts a b := by
  obtain ⟨ha, hb, heq⟩ := h
  cases a with
  | arr items =>
    cases b with
    | arr items' =>
      rw [ordered, ordered, orderedItems_eq, orderedItems_eq] at heq
      exact .list (same_items (wellFormed_items ha) (wellFormed_items hb) (Json.arr.inj heq))
    | _ => simp [ordered] at heq
  | obj fields =>
    cases b with
    | obj fields' =>
      have hsame : Table.Alike Same ⟨fields, ha.1⟩ ⟨fields', hb.1⟩ :=
        same_fields (wellFormed_fields.mp ha.2) (wellFormed_fields.mp hb.2)
          (by simpa [ordered] using heq)
      exact .mapping hsame
    | _ => simp [ordered] at heq
  | _ =>
    cases b <;> simp only [ordered, reduceCtorEq] at heq
    all_goals
      cases heq
      exact .atom rfl

/-- Mappings are the same exactly when the same documents stand under the same keys. -/
theorem same_obj_iff {t t' : Table Json} :
    Same (.obj t.entries) (.obj t'.entries) ↔ Table.Alike Same t t' := by
  constructor
  · rintro ⟨ha, hb, heq⟩
    exact same_fields (wellFormed_fields.mp ha.2) (wellFormed_fields.mp hb.2)
      (by simpa [ordered] using heq)
  · intro h
    have hordered : Table.Same (t.map fun _ d => d.ordered) (t'.map fun _ d => d.ordered) :=
      Table.Alike.same (h.map fun _ a b hab => hab.agree)
    refine ⟨⟨t.nodup, wellFormed_fields.mpr fun e he => ?_⟩,
      ⟨t'.nodup, wellFormed_fields.mpr fun e he => ?_⟩, ?_⟩
    · obtain ⟨d', -, hd⟩ := h.get?_some (Table.get?_eq_some_iff.mpr he)
      exact hd.left
    · obtain ⟨d, -, hd⟩ := (h.symm fun _ _ hab => hab).get?_some (Table.get?_eq_some_iff.mpr he)
      exact Same.right hd
    · rw [ordered, ordered, orderedFields_eq, orderedFields_eq]
      exact congrArg Json.obj hordered.sorted_eq

theorem Same.refl {d : Json} (h : d.WellFormed) : Same d d := ⟨h, h, rfl⟩

/-- The entries of a mapping can stand in any order. -/
theorem same_of_perm {fields fields' : List (String × Json)} (h : (Json.obj fields).WellFormed)
    (hperm : fields.Perm fields') : Same (.obj fields) (.obj fields') := by
  have hnodup' : (fields'.map Prod.fst).Nodup := (hperm.map Prod.fst).nodup_iff.mp h.1
  have hsame := Table.same_of_perm h.1 hperm
  have halike : Table.Alike Same (.ofList fields) (.ofList fields') := by
    intro name
    rw [← hsame name]
    cases hget : (Table.ofList fields).get? name with
    | none => exact .none
    | some d => exact .some (.refl (wellFormed_fields.mp h.2 _ (Table.mem_of_get?_ofList hget)))
  have := same_obj_iff.mpr halike
  rwa [Table.entries_ofList h.1, Table.entries_ofList hnodup'] at this

theorem same_null : Same .null .null := .refl trivial

variable {a b : Json}

theorem Same.field? (h : Same a b) (name : String) :
    Option.Rel Same (a.field? name) (b.field? name) := by
  cases h.parts with
  | atom hatom => cases a <;> first | exact .none | cases hatom
  | list _ => exact .none
  | mapping ht => exact ht name

theorem Same.str?_eq (h : Same a b) : a.str? = b.str? := by
  cases h.parts <;> rfl

theorem Same.isSet_eq (h : Same a b) : a.isSet = b.isSet := by
  cases h.parts with
  | atom _ => rfl
  | list hall =>
    cases hall <;> rfl
  | @mapping t t' ht =>
    have hlength : t.entries.length = t'.entries.length := by
      have := congrArg List.length ht.sortedKeys_eq
      simpa [Table.sortedKeys, sortNames, Table.keys] using this
    simp only [isSet]
    cases ht : t.entries <;> cases ht' : t'.entries <;> simp_all

theorem Same.strD_eq (h : Same a b) (name fallback : String) :
    a.strD name fallback = b.strD name fallback := by
  have hrel := h.field? name
  unfold strD
  generalize a.field? name = x at hrel
  generalize b.field? name = y at hrel
  cases hrel with
  | none => rfl
  | some hxy => rw [Option.bind_some, Option.bind_some, hxy.str?_eq]

theorem Same.items (h : Same a b) : List.Forall₂ Same a.items b.items := by
  cases h.parts with
  | atom hatom => cases a <;> first | exact .nil | cases hatom
  | list hall => exact hall
  | mapping _ => exact .nil

theorem Same.strList_eq (h : Same a b) (name : String) : a.strList name = b.strList name := by
  have hrel := h.field? name
  unfold strList
  generalize a.field? name = x at hrel
  generalize b.field? name = y at hrel
  cases hrel with
  | none => rfl
  | some hxy =>
    have hall := hxy.items
    simp only [Option.map_some, Option.getD_some]
    generalize Json.items _ = l at hall
    generalize Json.items _ = l' at hall
    induction hall with
    | nil => rfl
    | cons hd _ ih => rw [List.filterMap_cons, List.filterMap_cons, hd.str?_eq, ih]

/-- The entries of a section, which may be missing. -/
theorem Same.section (h : Same a b) (name : String) : ∃ t t' : Table Json,
    ((a.field? name).map fields).getD [] = t.entries ∧
      ((b.field? name).map fields).getD [] = t'.entries ∧ Table.Alike Same t t' := by
  have hnone : ∃ t t' : Table Json, [] = t.entries ∧ [] = t'.entries ∧ Table.Alike Same t t' :=
    ⟨∅, ∅, rfl, rfl, Table.alike_empty _⟩
  rcases rel_cases (h.field? name) with ⟨hx, hy⟩ | ⟨x, y, hx, hy, hxy⟩
  · rw [hx, hy]
    exact hnone
  · rw [hx, hy]
    cases hxy.parts with
    | atom hatom => cases x <;> first | exact hnone | cases hatom
    | list _ => exact hnone
    | @mapping t t' ht => exact ⟨t, t', rfl, rfl, ht⟩

/-- A field that is null where it is missing. -/
theorem Same.fieldD (h : Same a b) (name : String) :
    Same ((a.field? name).getD .null) ((b.field? name).getD .null) := by
  rcases rel_cases (h.field? name) with ⟨hx, hy⟩ | ⟨x, y, hx, hy, hxy⟩
  · rw [hx, hy]
    exact same_null
  · rw [hx, hy]
    exact hxy

end Json

namespace Api

variable {a b : Json}

theorem readRef?_eq (place : String) {a? b? : Option Json} (h : Option.Rel Json.Same a? b?) :
    readRef? place a? = readRef? place b? := by
  rcases rel_cases h with ⟨rfl, rfl⟩ | ⟨a, b, rfl, rfl, hab⟩
  · rfl
  · have hshape := hab.field? "shape"
    have hdoc := hab.strD_eq "documentation" ""
    cases hab.parts with
    | atom _ => rfl
    | list _ => rfl
    | @mapping t t' ht =>
      unfold readRef?
      dsimp only
      rcases rel_cases hshape with ⟨hx, hy⟩ | ⟨x, y, hx, hy, hxy⟩
      · rw [hx, hy]
      · rw [hx, hy, hdoc]
        dsimp only
        rw [hxy.str?_eq, hxy.agree]

theorem readMembers_eq (shape : String) (entries : List (String × Json)) :
    readMembers shape entries = (do
      let found ← readAll (fun member d => readRef? s!"Member {member} of {shape}" (some d)) entries
      return Table.chosen found) := by
  induction entries with
  | nil => rfl
  | cons e rest ih =>
    obtain ⟨member, d⟩ := e
    rw [readMembers, ih, readAll_cons]
    simp only [bind_assoc, pure_bind]
    refine congrArg _ (funext fun ref? => congrArg _ (funext fun found => ?_))
    cases ref? <;> rfl

theorem readMembers_same (shape : String) {t t' : Table Json} (h : Table.Alike Json.Same t t') :
    Keeps (fun l l' => Table.Same (Table.ofList l) (Table.ofList l'))
      (readMembers shape t.entries) (readMembers shape t'.entries) := by
  rw [readMembers_eq, readMembers_eq]
  intro l hl
  obtain ⟨found, hfound, hl⟩ := bind_ok_iff.mp hl
  cases hl
  obtain ⟨found', hfound', hsame⟩ := Keeps.readAll (S := Eq) h
    (fun member a b hab => Keeps.of_eq
      (readRef?_eq s!"Member {member} of {shape}" (.some hab))) found hfound
  refine ⟨Table.chosen found', by rw [hfound']; rfl, fun name => ?_⟩
  have hnodup : (found.map Prod.fst).Nodup := by
    rw [readAll_names hfound]
    exact t.keys_nodup
  have hnodup' : (found'.map Prod.fst).Nodup := by
    rw [readAll_names hfound']
    exact t'.keys_nodup
  rw [Table.get?_chosen hnodup, Table.get?_chosen hnodup', hsame.same]

theorem readForm_same (name : String) (h : a.Same b) :
    Keeps Form.Same (readForm name a) (readForm name b) := by
  have htype := h.fieldD "type"
  have hmember := readRef?_eq s!"List shape {name}" (h.field? "member")
  have hkey := readRef?_eq s!"Map shape {name} key" (h.field? "key")
  have hvalue := readRef?_eq s!"Map shape {name} value" (h.field? "value")
  obtain ⟨t, t', hms, hms', hmembers⟩ := h.section "members"
  unfold readForm
  dsimp only
  rw [hms, hms', ← hmember, ← hkey, ← hvalue]
  generalize (a.field? "type").getD .null = type at htype ⊢
  generalize (b.field? "type").getD .null = type' at htype ⊢
  cases htype.parts with
  | atom _ =>
    split
    · refine (readMembers_same name hmembers).bind fun l l' hl => .pure (.struct hl)
    · refine (Keeps.of_eq rfl).bind fun x y hxy => ?_
      subst hxy
      cases x with
      | none => exact .error _ _ _
      | some element => exact .pure (.list element)
    · refine (Keeps.of_eq rfl).bind fun x y hxy => (Keeps.of_eq rfl).bind fun x' y' hxy' => ?_
      subst hxy hxy'
      cases x <;> cases x' <;> first | exact .error _ _ _ | exact .pure (.map _ _)
    · split
      · exact .pure (.scalar _)
      · exact .error _ _ _
    · exact .error _ _ _
  | list _ => exact .error _ _ _
  | mapping _ => exact .error _ _ _

theorem readShape_same (name : String) (h : a.Same b) :
    Keeps Shape.Same (readShape name a) (readShape name b) := by
  refine (readForm_same name h).bind fun form form' hform => .pure ?_
  refine ⟨hform, h.strList_eq "enum", ?_, h.strD_eq "documentation" ""⟩
  rcases rel_cases (h.field? "exception") with ⟨hx, hy⟩ | ⟨x, y, hx, hy, hxy⟩
  · dsimp only
    rw [hx, hy]
  · dsimp only
    rw [hx, hy, Option.any_some, Option.any_some, hxy.isSet_eq]

theorem readOperation_eq (name : String) (h : a.Same b) :
    readOperation name a = readOperation name b := by
  unfold readOperation
  rw [readRef?_eq _ (h.field? "input"), readRef?_eq _ (h.field? "output")]

theorem readEntries_eq {α : Type} (read : String → Json → Except SchemaError α)
    (entries : List (String × Json)) : readEntries read entries = readAll read entries := by
  induction entries with
  | nil => rfl
  | cons e rest ih =>
    obtain ⟨name, d⟩ := e
    rw [readEntries, ih, readAll_cons]

/-- An API can be read from every order of its description. -/
theorem read_same (h : a.Same b) : Keeps Same (read a) (read b) := by
  unfold read
  rcases rel_cases (h.field? "shapes") with ⟨hx, hy⟩ | ⟨x, y, hx, hy, hxy⟩
  · rw [hx, hy]
    exact .error _ _ _
  · rw [hx, hy]
    cases hxy.parts with
    | atom hatom => cases x <;> first | exact .error _ _ _ | cases hatom
    | list _ => exact .error _ _ _
    | @mapping t t' ht =>
      obtain ⟨ops, ops', hops, hops', hoperations⟩ := h.section "operations"
      dsimp only
      rw [readEntries_eq, readEntries_eq, readEntries_eq, readEntries_eq, hops, hops']
      refine (Keeps.readAll ht fun name a b hab => readShape_same name hab).bind
        fun shapes shapes' hshapes => ?_
      refine (Keeps.readAll (S := Eq) hoperations fun name a b hab =>
        Keeps.of_eq (readOperation_eq name hab)).bind fun ops ops' hsame => .pure ?_
      have hmetadata : Json.Same ((a.field? "metadata").getD (.obj []))
          ((b.field? "metadata").getD (.obj [])) := by
        rcases rel_cases (h.field? "metadata") with ⟨hx, hy⟩ | ⟨x, y, hx, hy, hxy⟩
        · rw [hx, hy]
          exact ⟨⟨List.nodup_nil, trivial⟩, ⟨List.nodup_nil, trivial⟩, rfl⟩
        · rw [hx, hy]
          exact hxy
      exact ⟨hmetadata.strD_eq _ _, hmetadata.strD_eq _ _, hshapes, hsame.same⟩

/-- What is ignored does not depend on the order of the description. -/
theorem ofDocument_follows (h : a.Same b) (ignoredShapes ignoredPaths : List String) :
    Follows Same (ofDocument a ignoredShapes ignoredPaths)
      (ofDocument b ignoredShapes ignoredPaths) := by
  have hread : Keeps Same ((read a).mapError Error.schema) ((read b).mapError Error.schema) :=
    (read_same h).mapError
  refine (Follows.except hread).bind fun api api' hapi => ?_
  refine (Follows.lift fun s t => hapi.dropMembers ignoredPaths s t).bind fun _ _ hdropped => ?_
  exact .pure (hdropped.ignoreShapes ignoredShapes)

end Api

end ResourceVersions
