import ResourceVersions.Proofs.ModuleClasses
import ResourceVersions.Proofs.StashSteps

/-! # The parts of an object

A Spec or Status is an object whose attributes are the fields of its resource, so it is given by
their values. The annotations of an object are read and written as a table of texts. -/
namespace ResourceVersions

open Code Conversion

/-- The values that a field may have: references for secrets, texts without a shape. -/
structure Side.Fits (s : Side) (f : Field) (v : Value) : Prop where
  secret : f.isSecret = true → SecretValue v
  shaped : f.isSecret = false → ∀ x, f.shape? = some x → s.Conforms x v
  text : f.isSecret = false → f.shape? = none → v = .null ∨ ∃ t, v = .str t

theorem Side.fits_null (s : Side) (f : Field) : s.Fits f .null :=
  ⟨fun _ => .null, fun _ x _ => .null x, fun _ _ => .inl rfl⟩

/-- The value of a field is decided by its tree. -/
theorem Side.Fits.eq_of_tree {s : Side} {f : Field} {v w : Value} (h : s.Fits f v)
    (h' : s.Fits f w) (ht : v.tree = w.tree) : v = w := by
  cases hs : f.isSecret with
  | true => rwa [(h.secret hs).tree_eq, (h'.secret hs).tree_eq] at ht
  | false =>
    cases hx : f.shape? with
    | some x => exact (h.shaped hs x hx).eq_of_tree (h'.shaped hs x hx) ht
    | none =>
      have htext : ∀ {u}, s.Fits f u → u.tree = u := by
        intro u hu
        rcases hu.text hs hx with rfl | ⟨t, rfl⟩ <;> rfl
      rwa [htext h, htext h'] at ht

/-- What a field of the other version gets for a value. -/
structure Carried (s : Side) (g : Field) (v w : Value) : Prop where
  tree : w.tree = v.tree
  fits : s.Fits g w

namespace Conversion.Part

/-- The fields of a part. -/
def fields (p : Part) (r : Resource) : Table Field :=
  match p with
  | .spec => r.spec
  | .status => r.status

/-- The attributes of a part before its fields: a Status knows its cloud resource. -/
def lead (p : Part) (metadata : Value) : List (String × Value) :=
  match p with
  | .spec => []
  | .status => [("resourceMetadata", metadata)]

end Conversion.Part

/-- No class of a part of a resource has two attributes of one name. -/
def Resource.DistinctAttrs (r : Resource) : Prop :=
  ∀ p : Part, ((p.lead .null).map Prod.fst ++
    (p.fields r).sorted.map fun e => e.2.attrName).Nodup

namespace Side

variable (s : Side) (r : Resource) (p : Part)

def partName : String := TypeRef.qualified ⟨r.names.camel ++ p.classSuffix, s.alias?⟩

/-- The attributes of a part with given values of its fields. -/
def partAttrs (metadata : Value) (values : String → Value) : List (String × Value) :=
  p.lead metadata ++ (p.fields r).sorted.map fun e => (e.2.attrName, values e.1)

def part (metadata : Value) (values : String → Value) : Value :=
  .object (s.partName r p) (partAttrs r p metadata values)

variable {s r p} {metadata : Value} {values : String → Value} {f : Field} {name : String}

theorem fst_lead (p : Part) (metadata : Value) :
    (p.lead metadata).map Prod.fst = (p.lead .null).map Prod.fst := by
  cases p <;> rfl

theorem fst_partAttrs : (partAttrs r p metadata values).map Prod.fst =
    (p.lead .null).map Prod.fst ++ (p.fields r).sorted.map fun e => e.2.attrName := by
  rw [partAttrs, List.map_append, List.map_map, fst_lead]
  rfl

theorem attr?_part (hr : r.DistinctAttrs) (hf : (p.fields r).get? name = some f) :
    (s.part r p metadata values).attr? f.attrName = some (values name) := by
  apply Table.lookup_of_mem
  · rw [fst_partAttrs]
    exact hr p
  · refine List.mem_append_right _ (List.mem_map.mpr ⟨(name, f), ?_, rfl⟩)
    exact Table.mem_sorted_iff.mpr hf

/-- Storing an attribute of a part changes the value of its field. -/
theorem putEntry_part (hr : r.DistinctAttrs) (hf : (p.fields r).get? name = some f) (w : Value) :
    Table.putEntry f.attrName w (partAttrs r p metadata values) =
      partAttrs r p metadata (Function.update values name w) := by
  obtain ⟨pre, post, hsorted⟩ := List.append_of_mem (Table.mem_sorted_iff.mpr hf)
  have hkeys : ((p.fields r).sorted.map Prod.fst).Nodup := by
    rw [Table.fst_sorted]
    exact (p.fields r).sortedKeys_perm.nodup_iff.mpr (p.fields r).keys_nodup
  have hattrs := hr p
  rw [hsorted] at hkeys hattrs
  simp only [List.map_append, List.map_cons, List.nodup_append, List.nodup_cons,
    List.mem_append, List.mem_cons, List.mem_map] at hkeys hattrs
  have hsame : ∀ l : List (String × Field), (∀ e ∈ l, e.1 ≠ name) →
      (l.map fun e => (e.2.attrName, Function.update values name w e.1)) =
        l.map fun e => (e.2.attrName, values e.1) := by
    intro l hl
    exact List.map_congr_left fun e he => by rw [Function.update_of_ne (hl e he)]
  unfold partAttrs
  rw [hsorted]
  simp only [List.map_append, List.map_cons, Function.update_self]
  rw [hsame pre, hsame post, ← List.append_assoc, ← List.append_assoc, Table.putEntry_mid]
  · rw [List.map_append, fst_lead, List.mem_append]
    rintro (hin | hin)
    · obtain ⟨e, he, hname⟩ := List.mem_map.mp hin
      exact hattrs.2.2 _ ⟨e, he, hname⟩ _ (.inr (.inl rfl)) rfl
    · obtain ⟨a, ha, hname⟩ := List.mem_map.mp hin
      obtain ⟨e, he, rfl⟩ := List.mem_map.mp ha
      exact hattrs.2.1.2.2 _ ⟨e, he, rfl⟩ _ (.inl rfl) hname
  · rintro e he rfl
    exact hkeys.2.1.1 ⟨e, he, rfl⟩
  · rintro e he rfl
    exact hkeys.2.2 _ ⟨e, he, rfl⟩ _ (.inl rfl) rfl

end Side

/-- The declarations of a part of a resource. -/
def VersionModel.partDecls (m : VersionModel) (alias? : Option String) (r : Resource) :
    Part → List AttrDecl
  | .spec => m.specDecls alias? r
  | .status => m.statusDecls alias? r

namespace Conversion.Converter

variable {c : Converter} {s : Side} {r : Resource}

theorem partDecls_get? (hspoke : c.spoke.Built) (hhub : c.hub.Built)
    (hs : s = ⟨c.spoke, none⟩ ∨ s = ⟨c.hub, some c.hubAlias⟩) (hr : r ∈ s.model.resources)
    (p : Part) : c.classes.get? (s.partName r p) = some (s.model.partDecls s.alias? r p) := by
  apply moduleClass_get? hspoke hhub hs
  refine List.mem_append_right _ (List.mem_flatMap.mpr ⟨r, hr, ?_⟩)
  cases p with
  | spec => exact List.mem_cons_self ..
  | status => exact List.mem_cons_of_mem _ (List.mem_cons_self ..)

/-- An allocated part has no values. -/
theorem create_part (hspoke : c.spoke.Built) (hhub : c.hub.Built)
    (hs : s = ⟨c.spoke, none⟩ ∨ s = ⟨c.hub, some c.hubAlias⟩) (hr : r ∈ s.model.resources)
    (p : Part) : create c.classes (.struct ⟨r.names.camel ++ p.classSuffix, s.alias?⟩) =
      some (s.part r p .null fun _ => .null) := by
  have hget := partDecls_get? hspoke hhub hs hr p
  unfold Side.partName at hget
  rw [create, hget, Side.part]
  cases p <;>
    simp [VersionModel.partDecls, VersionModel.specDecls, VersionModel.statusDecls,
      VersionModel.fieldDecls, VersionModel.attrDecl, VersionModel.metadataDecl,
      Side.partAttrs, Part.lead, Part.fields, Side.partName]

end Conversion.Converter

namespace Value

variable {m v : Value} {t t' : Table String}

theorem texts?_entries (l : List (String × String)) :
    texts? (l.map fun e => (e.1, .str e.2)) = some l := by
  induction l with
  | nil => rfl
  | cons e l ih => rw [List.map_cons, texts?, ih, Option.map_some]

@[simp] theorem store?_ofStore (t : Table String) : store? (ofStore (some t)) = some (some t) := by
  rw [ofStore, store?, texts?_entries, Option.map_some, Table.ofList_entries]

/-- The object with other annotations. -/
def annotated (m : Value) (t : Table String) : Value :=
  match m with
  | .object c attrs => .object c (Table.putEntry "annotations" (ofStore (some t)) attrs)
  | v => v

theorem putEntry_putEntry {k : String} {v w : Value} (l : List (String × Value)) :
    Table.putEntry k v (Table.putEntry k w l) = Table.putEntry k v l := by
  induction l with
  | nil => simp [Table.putEntry]
  | cons e l ih =>
    by_cases hk : e.1 = k
    · simp [Table.putEntry, hk]
    · simp [Table.putEntry, hk, ih]

theorem annotated_same (h : m.attr? "annotations" = some (ofStore (some t))) :
    m.annotated t = m := by
  cases m with
  | object c attrs => rw [annotated, Table.putEntry_same h]
  | _ => cases h

theorem attr?_annotated (h : m.attr? "annotations" = some v) (t : Table String) :
    (m.annotated t).attr? "annotations" = some (ofStore (some t)) := by
  cases m with
  | object c attrs =>
    rw [annotated, attr?, Table.lookup_putEntry, if_pos rfl]
  | _ => cases h

theorem setAttr?_annotated (h : m.attr? "annotations" = some v) (t t' : Table String) :
    (m.annotated t).setAttr? "annotations" (ofStore (some t')) = some (m.annotated t') := by
  cases m with
  | object c attrs => rw [annotated, setAttr?, putEntry_putEntry, annotated]
  | _ => cases h

end Value

namespace Code

variable {classes : Classes} {call : String → Value → Option Value} {f : Frame} {x y id : String}
  {m v w : Value} {t : Table String}

/-- Stashing a value changes the annotations of the object that a variable holds. -/
theorem putInto_annotated (hm : m.attr? "annotations" = some w)
    (hx : f x = some (m.annotated t)) : putInto call (.name x) id v f =
      some (f.set x (m.annotated
        (if v.isNull then t else t.insert (Stash.key id) (Stash.encode v)))) := by
  have hput : Stash.put (some t) id v =
      some (if v.isNull then t else t.insert (Stash.key id) (Stash.encode v)) := by
    unfold Stash.put
    split <;> rfl
  simp [putInto, Expr.eval, hx, Value.attr?_annotated hm, hput, Value.setAttr?_annotated hm,
    Expr.assign]

/-- Where nothing was stashed, nothing is restored. -/
theorem takeInto_absent {base : Expr} {a owner : String} (hm : m.attr? "annotations" = some w)
    (hx : f x = some (m.annotated t)) (hget : t.get? (Stash.key id) = none) :
    takeInto classes call (.name x) id base a owner f = some (f.set x (m.annotated t)) := by
  have htake : Stash.take classes (some t) id owner a = (.ok none, some t) := by
    simp [Stash.take, hget]
  simp [takeInto, Expr.eval, hx, Value.attr?_annotated hm, htake, Value.setAttr?_annotated hm,
    Expr.assign]

/-- What was stashed is restored and leaves the annotations. -/
theorem takeInto_present {c a owner text : String} {attrs : List (String × Value)} {hint : Hint}
    (hm : m.attr? "annotations" = some w) (hx : f x = some (m.annotated t)) (hxy : y ≠ x)
    (hy : f y = some (.object c attrs)) (hget : t.get? (Stash.key id) = some text)
    (hhint : classes.hint? owner a = some hint) (hv : Stash.decode classes text hint = .ok v) :
    takeInto classes call (.name x) id (.name y) a owner f =
      some ((f.set x (m.annotated (t.erase (Stash.key id)))).set y
        (.object c (Table.putEntry a v attrs))) := by
  have htake : Stash.take classes (some t) id owner a =
      (.ok (some v), some (t.erase (Stash.key id))) := by
    simp [Stash.take, hget, hhint, hv]
  have hset : (f.set x (m.annotated (t.erase (Stash.key id)))) y = some (.object c attrs) := by
    rw [Frame.set, if_neg hxy, hy]
  have hattr : (Value.object c attrs).setAttr? a v =
      some (.object c (Table.putEntry a v attrs)) := rfl
  simp [takeInto, Expr.eval, hx, Value.attr?_annotated hm, htake, Value.setAttr?_annotated hm,
    Expr.assign, hset, hattr]

end Code

end ResourceVersions
