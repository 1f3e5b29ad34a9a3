import ResourceVersions.Proofs.ConfigOrder

/-! # Configurations and their schema

The schema of a configuration document says which keys a mapping may have and of which kind their
values are. A document is read exactly if it fits the schema, and every other one is refused, except
that in some places false, zero and everything empty are taken for nothing, whatever their kind. The
configuration that is read lists what the document lists, in its order, and nothing else. -/
namespace ResourceVersions.Config

open Fallible

variable {α β : Type} {d v : Json} {key : String} {fields : List (String × Json)}
  {Kind : Json → Prop}

/-- The value under a key of a mapping. An absent one is null. -/
def valueAt (d : Json) (key : String) : Json := (d.fields.lookup key).getD .null

section Schema

def Nullable (Kind : Json → Prop) (d : Json) : Prop := d = .null ∨ Kind d

def IsText (d : Json) : Prop := ∃ s, d = .str s

def IsTexts (d : Json) : Prop := ∃ texts : List String, d = .arr (texts.map .str)

/-- A mapping all of whose values are of a kind. -/
def IsMapping (Kind : Json → Prop) (d : Json) : Prop :=
  ∃ fields, d = .obj fields ∧ ∀ e ∈ fields, Kind e.2

/-- A mapping all of whose keys are allowed. -/
def HasKeys (allowed : List String) (d : Json) : Prop :=
  ∃ fields, d = .obj fields ∧ ∀ e ∈ fields, e.1 ∈ allowed

/-- A flag may be absent but not null. -/
def IsFlag (d : Json) (key : String) : Prop := ∀ v, d.fields.lookup key = some v → ∃ b, v = .bool b

structure SourceSchema (d : Json) : Prop where
  keys : HasKeys ["operation", "path"] d
  operation : IsText (valueAt d "operation")
  path : IsText (valueAt d "path")

structure FieldSchema (d : Json) : Prop where
  keys : HasKeys ["is_secret", "is_read_only", "is_attribute", "from"] d
  secret : IsFlag d "is_secret"
  readOnly : IsFlag d "is_read_only"
  isAttribute : IsFlag d "is_attribute"
  source : Nullable SourceSchema (valueAt d "from")

-- what else than null is taken for nothing, in the places where something is
variable (Blank : Json → Prop)

def Lenient (Kind : Json → Prop) : Json → Prop := Nullable fun d => Blank d ∨ Kind d

structure RenamesSchema (d : Json) : Prop where
  keys : HasKeys ["input_fields"] d
  names : Lenient Blank (IsMapping IsText) (valueAt d "input_fields")

structure RenamingSchema (d : Json) : Prop where
  keys : HasKeys ["operations"] d
  operations : Lenient Blank (IsMapping (Nullable (RenamesSchema Blank))) (valueAt d "operations")

structure ResourceSchema (d : Json) : Prop where
  keys : HasKeys ["fields", "renames", "unpack_attributes_map", "primary_identifier"] d
  unpacks : IsFlag d "unpack_attributes_map"
  identifier : Nullable IsText (valueAt d "primary_identifier")
  fields : Nullable (IsMapping (Nullable FieldSchema)) (valueAt d "fields")
  renames : Nullable (RenamingSchema Blank) (valueAt d "renames")

structure IgnoreSchema (d : Json) : Prop where
  keys : HasKeys ["resource_names", "operations", "shape_names", "field_paths"] d
  resources : Lenient Blank IsTexts (valueAt d "resource_names")
  operations : Lenient Blank IsTexts (valueAt d "operations")
  shapes : Lenient Blank IsTexts (valueAt d "shape_names")
  paths : Lenient Blank IsTexts (valueAt d "field_paths")

/-- The schema of a configuration document that is not null. -/
structure Schema (d : Json) : Prop where
  keys : HasKeys ["ignore", "resources"] d
  ignore : Nullable (IgnoreSchema Blank) (valueAt d "ignore")
  resources : Lenient Blank (IsMapping (Nullable (ResourceSchema Blank))) (valueAt d "resources")

variable {Blank} {Blank' : Json → Prop} {Kind' : Json → Prop}

theorem Nullable.imp (h : ∀ v, Kind v → Kind' v) : Nullable Kind d → Nullable Kind' d :=
  Or.imp_right (h d)

theorem IsMapping.imp (h : ∀ v, Kind v → Kind' v) : IsMapping Kind d → IsMapping Kind' d
  | ⟨fields, heq, hall⟩ => ⟨fields, heq, fun e he => h e.2 (hall e he)⟩

theorem Lenient.imp (hblank : ∀ v, Blank v → Blank' v) (h : ∀ v, Kind v → Kind' v) :
    Lenient Blank Kind d → Lenient Blank' Kind' d :=
  Nullable.imp fun v => Or.imp (hblank v) (h v)

/-- The more is taken for nothing, the more documents fit. -/
theorem Schema.imp (hblank : ∀ v, Blank v → Blank' v) (h : Schema Blank d) : Schema Blank' d := by
  have hrenames : ∀ v, RenamesSchema Blank v → RenamesSchema Blank' v := fun _ hv =>
    ⟨hv.keys, hv.names.imp hblank fun _ => id⟩
  have hrenaming : ∀ v, RenamingSchema Blank v → RenamingSchema Blank' v := fun _ hv =>
    ⟨hv.keys, hv.operations.imp hblank fun _ => .imp fun _ => .imp hrenames⟩
  have hresource : ∀ v, ResourceSchema Blank v → ResourceSchema Blank' v := fun _ hv =>
    ⟨hv.keys, hv.unpacks, hv.identifier, hv.fields, hv.renames.imp hrenaming⟩
  have htexts : ∀ v, Lenient Blank IsTexts v → Lenient Blank' IsTexts v := fun _ =>
    .imp hblank fun _ => id
  have hignore : ∀ v, IgnoreSchema Blank v → IgnoreSchema Blank' v := fun _ hv =>
    ⟨hv.keys, htexts _ hv.resources, htexts _ hv.operations, htexts _ hv.shapes, htexts _ hv.paths⟩
  exact ⟨h.keys, h.ignore.imp hignore, h.resources.imp hblank fun _ => .imp fun _ =>
    .imp hresource⟩

end Schema

section Described

/-- The entries of a mapping and those of a table, one by one. -/
def Lists (Describes : Json → α → Prop) (d : Json) (t : Table α) : Prop :=
  List.Forall₂ (fun e r => e.1 = r.1 ∧ Describes e.2 r.2) d.fields t.entries

structure DescribesField (d : Json) (c : FieldConfig) : Prop where
  secret : c.isSecret = true ↔ valueAt d "is_secret" = .bool true
  readOnly : c.isReadOnly = true ↔ valueAt d "is_read_only" = .bool true
  isAttribute : c.isAttribute = true ↔ valueAt d "is_attribute" = .bool true
  source : ∀ s, c.source? = some s ↔
    valueAt (valueAt d "from") "operation" = .str s.operation ∧
      valueAt (valueAt d "from") "path" = .str s.path

def DescribesRenames (d : Json) (renames : Table String) : Prop :=
  Lists (fun v new => v = .str new) (valueAt d "input_fields") renames

structure DescribesResource (d : Json) (c : ResourceConfig) : Prop where
  fields : Lists DescribesField (valueAt d "fields") c.fields
  renames : Lists DescribesRenames (valueAt (valueAt d "renames") "operations") c.renames
  unpacks : c.unpacksAttributes = true ↔ valueAt d "unpack_attributes_map" = .bool true
  identifier : ∀ s, c.primaryIdentifier? = some s ↔ valueAt d "primary_identifier" = .str s

structure DescribesIgnore (d : Json) (r : IgnoreRules) : Prop where
  resources : (valueAt d "resource_names").items = r.resources.map .str
  operations : (valueAt d "operations").items = r.operations.map .str
  shapes : (valueAt d "shape_names").items = r.shapes.map .str
  paths : (valueAt d "field_paths").items = r.paths.map .str

/-- A document and a configuration that holds its entries and no others. -/
structure Described (d : Json) (c : Config) : Prop where
  ignore : DescribesIgnore (valueAt d "ignore") c.ignore
  resources : Lists DescribesResource (valueAt d "resources") c.resources

/-- A document lists the entries of one table. -/
theorem Lists.unique {Describes : Json → α → Prop} {t t' : Table α}
    (hunique : Relator.RightUnique Describes) (h : Lists Describes d t)
    (h' : Lists Describes d t') : t = t' := by
  refine Table.eq_of_entries (List.right_unique_forall₂' ?_ h h')
  rintro ⟨key, v⟩ ⟨name, a⟩ ⟨name', a'⟩ ⟨rfl, ha⟩ ⟨rfl, ha'⟩
  exact Prod.ext rfl (hunique ha ha')

theorem DescribesField.unique : Relator.RightUnique DescribesField := by
  rintro v ⟨a₁, a₂, a₃, a₄⟩ ⟨b₁, b₂, b₃, b₄⟩ ha hb
  obtain rfl : a₁ = b₁ := Bool.eq_iff_iff.mpr (ha.secret.trans hb.secret.symm)
  obtain rfl : a₂ = b₂ := Bool.eq_iff_iff.mpr (ha.readOnly.trans hb.readOnly.symm)
  obtain rfl : a₃ = b₃ := Bool.eq_iff_iff.mpr (ha.isAttribute.trans hb.isAttribute.symm)
  obtain rfl : a₄ = b₄ := Option.ext fun s => (ha.source s).trans (hb.source s).symm
  rfl

theorem DescribesRenames.unique : Relator.RightUnique DescribesRenames := by
  intro v a b
  refine Lists.unique ?_
  rintro v a b rfl hb
  exact Json.str.inj hb

theorem DescribesResource.unique : Relator.RightUnique DescribesResource := by
  rintro v ⟨a₁, a₂, a₃, a₄⟩ ⟨b₁, b₂, b₃, b₄⟩ ha hb
  obtain rfl : a₁ = b₁ := ha.fields.unique DescribesField.unique hb.fields
  obtain rfl : a₂ = b₂ := ha.renames.unique DescribesRenames.unique hb.renames
  obtain rfl : a₃ = b₃ := Bool.eq_iff_iff.mpr (ha.unpacks.trans hb.unpacks.symm)
  obtain rfl : a₄ = b₄ := Option.ext fun s => (ha.identifier s).trans (hb.identifier s).symm
  rfl

theorem DescribesIgnore.unique : Relator.RightUnique DescribesIgnore := by
  rintro v ⟨a₁, a₂, a₃, a₄⟩ ⟨b₁, b₂, b₃, b₄⟩ ha hb
  have htexts : Function.Injective (List.map Json.str) :=
    List.map_injective_iff.mpr fun _ _ => Json.str.inj
  obtain rfl : a₁ = b₁ := htexts (ha.resources.symm.trans hb.resources)
  obtain rfl : a₂ = b₂ := htexts (ha.operations.symm.trans hb.operations)
  obtain rfl : a₃ = b₃ := htexts (ha.shapes.symm.trans hb.shapes)
  obtain rfl : a₄ = b₄ := htexts (ha.paths.symm.trans hb.paths)
  rfl

/-- What a document describes is a single configuration. -/
theorem Described.unique : Relator.RightUnique Described := by
  rintro v ⟨ignore, resources⟩ ⟨ignore', resources'⟩ h h'
  obtain rfl : ignore = ignore' := DescribesIgnore.unique h.ignore h'.ignore
  obtain rfl : resources = resources' := h.resources.unique DescribesResource.unique h'.resources
  rfl

end Described

section Outcome

/-- An error that a document is refused with. Keys that are no texts end the reading in another
way. -/
def Refusal (e : ConfigError) : Prop := ∀ place, e ≠ .keysNotTexts place

/-- What reading comes to: what is read is described, and everything else is refused. -/
inductive Outcome (Accepts : Prop) (Describes : α → Prop) : Except ConfigError α → Prop
  | read {a} : Accepts → Describes a → Outcome Accepts Describes (.ok a)
  | refused {e} : ¬ Accepts → Refusal e → Outcome Accepts Describes (.error e)

variable {Accepts Accepts' : Prop} {Describes : α → Prop} {Describes' : β → Prop}
  {x : Except ConfigError α}

theorem Outcome.bind {f : α → Except ConfigError β} (hx : Outcome Accepts Describes x)
    (hf : ∀ a, Describes a → Outcome Accepts' Describes' (f a)) :
    Outcome (Accepts ∧ Accepts') Describes' (x >>= f) := by
  cases hx with
  | refused hnot he => exact .refused (fun h => hnot h.1) he
  | @read a ha hdescribes =>
    have hnext := hf a hdescribes
    change Outcome _ _ (f a)
    generalize f a = y at hnext ⊢
    cases hnext with
    | read hb hdescribes => exact .read ⟨ha, hb⟩ hdescribes
    | refused hnot he => exact .refused (fun h => hnot h.2) he

end Outcome

section Values

theorem wellFormed_entry (hd : d.WellFormed) : ∀ e ∈ d.fields, e.2.WellFormed := by
  cases d with
  | obj fields => exact Json.wellFormed_fields.mp hd.2
  | _ => exact nofun

theorem nodup_keys (hd : d.WellFormed) : (d.fields.map Prod.fst).Nodup := by
  cases d with
  | obj fields => exact hd.1
  | _ => exact List.nodup_nil

theorem wellFormed_valueAt (hd : d.WellFormed) (key : String) : (valueAt d key).WellFormed := by
  unfold valueAt
  cases hlookup : d.fields.lookup key with
  | none => trivial
  | some v => exact wellFormed_entry hd (key, v) (Table.lookup_eq_some_mem hlookup)

theorem value_ofJson (d : Json) (key : String) :
    value (Document.ofJsonFields d.fields) key = .ofJson (valueAt d key) := by
  rw [value, Document.entry?_ofJsonFields, valueAt]
  cases d.fields.lookup key <;> rfl

/-- The value itself, or null in place of one that is not set. -/
def settled (v : Json) : Json := if v.isSet then v else .null

theorem setValue_ofJson (d : Json) (key : String) :
    setValue (Document.ofJsonFields d.fields) key = .ofJson (settled (valueAt d key)) := by
  rw [setValue, value_ofJson, Document.isSet_ofJson, settled]
  split <;> rfl

/-- A value that is not set. -/
def Unset (d : Json) : Prop := d.isSet = false

theorem settled_nullable_iff : Nullable Kind (settled v) ↔ Lenient Unset Kind v := by
  unfold settled Lenient Nullable Unset
  by_cases hset : v.isSet = true
  · simp [hset]
  · simp [hset]

theorem items_settled (v : Json) : (settled v).items = v.items := by
  unfold settled
  split
  · rfl
  · rename_i hset
    cases v with
    | arr items =>
      obtain rfl : items = [] := by simpa [Json.isSet] using hset
      rfl
    | _ => rfl

theorem fields_settled (v : Json) : (settled v).fields = v.fields := by
  unfold settled
  split
  · rfl
  · rename_i hset
    cases v with
    | obj fields =>
      obtain rfl : fields = [] := by simpa [Json.isSet] using hset
      rfl
    | _ => rfl

end Values

section Readers

theorem mapping_outcome (place : String) (v : Json) :
    Outcome (Nullable (fun d => ∃ fields, d = .obj fields) v)
      (· = Document.ofJsonFields v.fields) (mapping place (.ofJson v)) := by
  cases v with
  | null => exact .read (.inl rfl) rfl
  | obj fields => exact .read (.inr ⟨fields, rfl⟩) rfl
  | _ =>
    refine .refused ?_ (by simp [Refusal])
    rintro (h | ⟨fields, h⟩) <;> cases h

theorem keyed_outcome (place : String) (allowed : List String) (v : Json) :
    Outcome (Nullable (HasKeys allowed) v) (· = Document.ofJsonFields v.fields)
      (keyed place allowed (.ofJson v)) := by
  have hkeys : (Nullable (fun d => ∃ fields, d = .obj fields) v ∧ ∀ e ∈ v.fields, e.1 ∈ allowed) ↔
      Nullable (HasKeys allowed) v := by
    cases v <;> simp [Nullable, HasKeys, Json.fields]
  rw [← hkeys]
  refine (mapping_outcome place v).bind fun entries hentries => ?_
  subst hentries
  dsimp only
  have hunknown : ((Document.ofJsonFields v.fields).map Prod.fst).filter
      (fun k => !(k.text?.any allowed.contains)) =
      ((v.fields.map Prod.fst).filter fun k => !allowed.contains k).map Atom.text := by
    rw [Document.ofJsonFields_eq, List.map_map, List.filter_map, List.filter_map, List.map_map]
    rfl
  rw [hunknown]
  split
  · rename_i hnone
    refine .read ?_ rfl
    simpa using hnone
  · rename_i hsome
    have htexts : ((((v.fields.map Prod.fst).filter fun k => !allowed.contains k).map
        Atom.text).mapM Atom.text?) =
        some ((v.fields.map Prod.fst).filter fun k => !allowed.contains k) := by
      rw [List.mapM_map]
      exact (List.mapM_pure (f := id)).trans (by simp)
    rw [htexts]
    refine .refused ?_ (by simp [Refusal])
    simpa using hsome

theorem flag_outcome (d : Json) (key place : String) :
    Outcome (IsFlag d key) (fun b => b = true ↔ valueAt d key = .bool true)
      (flag (Document.ofJsonFields d.fields) key place) := by
  unfold flag IsFlag valueAt
  rw [Document.entry?_ofJsonFields]
  cases d.fields.lookup key with
  | none => exact .read nofun (by simp)
  | some v =>
    cases v with
    | bool b => exact .read (fun _ h => ⟨b, (Option.some.inj h).symm⟩) (by simp)
    | _ =>
      refine .refused (fun h => ?_) (by simp [Refusal])
      obtain ⟨b, hb⟩ := h _ rfl
      cases hb

theorem mapM_text?_iff {items : List Json} {texts : List String} :
    (Document.ofJsonItems items).mapM Document.text? = some texts ↔ items = texts.map .str := by
  induction items generalizing texts with
  | nil => cases texts <;> simp [Document.ofJsonItems]
  | cons v items ih =>
    have htext : ∀ s, (Document.ofJson v).text? = some s ↔ v = .str s := by
      cases v <;> simp [Document.ofJson, Document.null, Document.text, Document.text?, Atom.text?]
    rw [Document.ofJsonItems, List.mapM_cons]
    constructor
    · intro hread
      obtain ⟨s, hs, hread⟩ := Option.bind_eq_some_iff.mp hread
      obtain ⟨others, hothers, hread⟩ := Option.bind_eq_some_iff.mp hread
      cases hread
      rw [(htext s).mp hs, ih.mp hothers]
      rfl
    · intro heq
      cases texts with
      | nil => cases heq
      | cons s others =>
        obtain ⟨hv, hitems⟩ := List.cons_eq_cons.mp heq
        rw [(htext s).mpr hv, ih.mpr hitems]
        rfl

theorem textList_outcome (d : Json) (key place : String) :
    Outcome (Lenient Unset IsTexts (valueAt d key))
      (fun texts => (valueAt d key).items = texts.map .str)
      (textList (Document.ofJsonFields d.fields) key place) := by
  unfold textList
  rw [setValue_ofJson, ← settled_nullable_iff, ← items_settled]
  generalize settled (valueAt d key) = v
  cases v with
  | null => exact .read (.inl rfl) rfl
  | arr items =>
    rw [Document.ofJson]
    dsimp only
    split
    · rename_i texts htexts
      have hitems := mapM_text?_iff.mp htexts
      exact .read (.inr ⟨texts, congrArg _ hitems⟩) hitems
    · rename_i htexts
      refine .refused ?_ (by simp [Refusal])
      rintro (h | ⟨texts, h⟩)
      · cases h
      · cases h
        rw [mapM_text?_iff.mpr rfl] at htexts
        cases htexts
  | _ =>
    refine .refused ?_ (by simp [Refusal])
    rintro (h | ⟨texts, h⟩) <;> cases h

theorem readIdentifier_outcome (place : String) (v : Json) :
    Outcome (Nullable IsText v) (fun i => ∀ s, i = some s ↔ v = .str s)
      (readIdentifier place (.ofJson v)) := by
  cases v with
  | null => exact .read (.inl rfl) (by simp)
  | str s => exact .read (.inr ⟨s, rfl⟩) (by simp)
  | _ =>
    refine .refused ?_ (by simp [Refusal])
    rintro (h | ⟨s, h⟩) <;> cases h

theorem readSource_outcome (place : String) (v : Json) :
    Outcome (Nullable SourceSchema v)
      (fun source => ∀ s, source = some s ↔
        valueAt v "operation" = .str s.operation ∧ valueAt v "path" = .str s.path)
      (readSource place (.ofJson v)) := by
  by_cases hnull : v = .null
  · subst hnull
    exact .read (.inl rfl) (by simp [valueAt, Json.fields])
  · have hsource : (Nullable (HasKeys ["operation", "path"]) v ∧
        IsText (valueAt v "operation") ∧ IsText (valueAt v "path")) ↔ Nullable SourceSchema v := by
      constructor
      · rintro ⟨hkeys, hoperation, hpath⟩
        exact .inr ⟨hkeys.resolve_left hnull, hoperation, hpath⟩
      · rintro (h | ⟨hkeys, hoperation, hpath⟩)
        · exact absurd h hnull
        · exact ⟨.inr hkeys, hoperation, hpath⟩
    have hset : Document.ofJson v ≠ .atom .null := by
      cases v <;> first | exact absurd rfl hnull | (intro h; cases h)
    have htext : ∀ {j : Json} {s : String}, Document.ofJson j = .atom (.text s) ↔ j = .str s := by
      intro j s
      cases j <;> simp [Document.ofJson, Document.null, Document.text]
    rw [← hsource]
    unfold readSource
    split
    · exact absurd ‹_› hset
    refine (keyed_outcome _ _ v).bind fun entries hentries => ?_
    subst hentries
    rw [value_ofJson, value_ofJson]
    split
    · rename_i operation path hoperation hpath
      rw [htext] at hoperation hpath
      refine .read ⟨⟨_, hoperation⟩, _, hpath⟩ fun s => ?_
      rw [hoperation, hpath]
      constructor
      · rintro ⟨⟩
        exact ⟨rfl, rfl⟩
      · rintro ⟨⟨⟩, ⟨⟩⟩
        rfl
    · rename_i hno
      refine .refused ?_ (by simp [Refusal])
      rintro ⟨⟨operation, hoperation⟩, path, hpath⟩
      exact hno operation path (htext.mpr hoperation) (htext.mpr hpath)

theorem readEntries_outcome {Describes : Json → α → Prop}
    {read : String → Document → Except ConfigError α} (place : String)
    (hread : ∀ e ∈ fields, ∀ place, Outcome (Kind e.2) (Describes e.2) (read place (.ofJson e.2))) :
    Outcome (∀ e ∈ fields, Kind e.2)
      (List.Forall₂ (fun e r => e.1 = r.1 ∧ Describes e.2 r.2) fields)
      (readEntries place read (Document.ofJsonFields fields)) := by
  induction fields with
  | nil => exact .read nofun .nil
  | cons e fields ih =>
    obtain ⟨name, v⟩ := e
    obtain ⟨hfirst, hrest⟩ := List.forall_mem_cons.mp hread
    rw [List.forall_mem_cons, ← and_true (∀ e ∈ fields, Kind e.2)]
    refine (hfirst _).bind fun entry hentry => ?_
    refine (ih hrest).bind fun others hlisted => ?_
    exact .read trivial (.cons ⟨rfl, hentry⟩ hlisted)

/-- A mapping with allowed keys and more to it, where null has what more there is to it. -/
theorem nullable_keys_iff {allowed : List String} {Schema : Json → Prop} {More : Prop}
    (hschema : Schema d ↔ HasKeys allowed d ∧ More) (hnull : d = .null → More) :
    Nullable (HasKeys allowed) d ∧ More ↔ Nullable Schema d := by
  rw [Nullable, Nullable, hschema]
  constructor
  · rintro ⟨h | hkeys, hmore⟩
    · exact .inl h
    · exact .inr ⟨hkeys, hmore⟩
  · rintro (h | ⟨hkeys, hmore⟩)
    · exact ⟨.inl h, hnull h⟩
    · exact ⟨.inr hkeys, hmore⟩

theorem nullable_mapping_iff :
    Nullable (fun d => ∃ fields, d = .obj fields) v ∧ (∀ e ∈ v.fields, Kind e.2) ↔
      Nullable (IsMapping Kind) v := by
  cases v <;> simp [Nullable, IsMapping, Json.fields]

theorem lenient_mapping_iff :
    Nullable (fun d => ∃ fields, d = .obj fields) (settled v) ∧ (∀ e ∈ v.fields, Kind e.2) ↔
      Lenient Unset (IsMapping Kind) v := by
  rw [← settled_nullable_iff, ← nullable_mapping_iff, fields_settled]

theorem readField_outcome (place : String) (d : Json) :
    Outcome (Nullable FieldSchema d) (DescribesField d) (readField place (.ofJson d)) := by
  have hschema : FieldSchema d ↔ HasKeys ["is_secret", "is_read_only", "is_attribute", "from"] d ∧
      IsFlag d "is_secret" ∧ IsFlag d "is_read_only" ∧ IsFlag d "is_attribute" ∧
        Nullable SourceSchema (valueAt d "from") ∧ True :=
    ⟨fun h => ⟨h.keys, h.secret, h.readOnly, h.isAttribute, h.source, trivial⟩,
      fun ⟨hkeys, hsecret, hreadOnly, hattribute, hsource, _⟩ =>
        ⟨hkeys, hsecret, hreadOnly, hattribute, hsource⟩⟩
  rw [← nullable_keys_iff hschema]
  · refine (keyed_outcome place _ d).bind fun entries hentries => ?_
    subst hentries
    refine (flag_outcome d _ place).bind fun isSecret hsecret => ?_
    refine (flag_outcome d _ place).bind fun isReadOnly hreadOnly => ?_
    refine (flag_outcome d _ place).bind fun isAttribute hattribute => ?_
    rw [value_ofJson]
    refine (readSource_outcome place _).bind fun source? hsource => ?_
    exact .read trivial ⟨hsecret, hreadOnly, hattribute, hsource⟩
  · rintro rfl
    exact ⟨nofun, nofun, nofun, .inl rfl, trivial⟩

/-- A table keeps entries of different names as they are listed. -/
theorem lists_ofList {Describes : Json → α → Prop} {l : List (String × α)}
    (hkeys : (d.fields.map Prod.fst).Nodup)
    (hl : List.Forall₂ (fun e r => e.1 = r.1 ∧ Describes e.2 r.2) d.fields l) :
    Lists Describes d (Table.ofList l) := by
  have hsame : d.fields.map Prod.fst = l.map Prod.fst := by
    clear hkeys
    generalize d.fields = fields at hl ⊢
    induction hl with
    | nil => rfl
    | cons h _ ih => rw [List.map_cons, List.map_cons, h.1, ih]
  rw [Lists, Table.entries_ofList (hsame ▸ hkeys)]
  exact hl

theorem textPairs_outcome (fields : List (String × Json)) :
    (∀ pairs, textPairs (Document.ofJsonFields fields) = some pairs →
      List.Forall₂ (fun e r => e.1 = r.1 ∧ e.2 = .str r.2) fields pairs) ∧
    (textPairs (Document.ofJsonFields fields) = none → ¬ ∀ e ∈ fields, IsText e.2) := by
  induction fields with
  | nil => exact ⟨fun pairs h => Option.some.inj h ▸ .nil, nofun⟩
  | cons e fields ih =>
    obtain ⟨name, v⟩ := e
    obtain ⟨hread, hrefused⟩ := ih
    cases v with
    | str s =>
      have hstep : textPairs (Document.ofJsonFields ((name, .str s) :: fields)) =
          (textPairs (Document.ofJsonFields fields)).map ((name, s) :: ·) := rfl
      rw [hstep]
      constructor
      · intro pairs h
        obtain ⟨others, hothers, rfl⟩ := Option.map_eq_some_iff.mp h
        exact .cons ⟨rfl, rfl⟩ (hread others hothers)
      · intro h hall
        exact hrefused (Option.map_eq_none_iff.mp h) (List.forall_mem_cons.mp hall).2
    | _ =>
      refine ⟨nofun, fun _ hall => ?_⟩
      obtain ⟨s, hs⟩ := (List.forall_mem_cons.mp hall).1
      cases hs

theorem readRenames_outcome (place : String) (hd : d.WellFormed) :
    Outcome (Nullable (RenamesSchema Unset) d) (DescribesRenames d)
      (readRenames place (.ofJson d)) := by
  have hschema : RenamesSchema Unset d ↔ HasKeys ["input_fields"] d ∧
      Nullable (IsMapping IsText) (settled (valueAt d "input_fields")) := by
    rw [settled_nullable_iff]
    exact ⟨fun h => ⟨h.keys, h.names⟩, fun ⟨hkeys, hnames⟩ => ⟨hkeys, hnames⟩⟩
  rw [← nullable_keys_iff hschema]
  · refine (keyed_outcome place _ d).bind fun entries hentries => ?_
    subst hentries
    have hkeys := nodup_keys (wellFormed_valueAt hd "input_fields")
    rw [setValue_ofJson]
    unfold DescribesRenames Lists
    rw [← fields_settled] at hkeys ⊢
    generalize settled (valueAt d "input_fields") = v at hkeys ⊢
    cases v with
    | null => exact .read (.inl rfl) .nil
    | obj fields =>
      rw [Document.ofJson]
      dsimp only
      split
      · rename_i pairs htexts
        have hall := (textPairs_outcome fields).1 pairs htexts
        have hlisted : Lists (fun v new => v = .str new) (.obj fields) (Table.ofList pairs) :=
          lists_ofList hkeys hall
        refine .read (.inr ⟨fields, rfl, fun e he => ?_⟩) hlisted
        obtain ⟨r, -, -, hr⟩ := forall₂_mem_left hall he
        exact ⟨r.2, hr⟩
      · rename_i htexts
        refine .refused ?_ (by simp [Refusal])
        rintro (h | ⟨_, h, hall⟩) <;> cases h
        exact (textPairs_outcome fields).2 htexts hall
    | _ =>
      refine .refused ?_ (by simp [Refusal])
      rintro (h | ⟨_, h, -⟩) <;> cases h
  · rintro rfl
    exact .inl rfl

theorem readResource_outcome (place : String) (hd : d.WellFormed) :
    Outcome (Nullable (ResourceSchema Unset) d) (DescribesResource d)
      (readResource place (.ofJson d)) := by
  have hrenaming : ∀ v, RenamingSchema Unset v ↔ HasKeys ["operations"] v ∧
      Lenient Unset (IsMapping (Nullable (RenamesSchema Unset))) (valueAt v "operations") :=
    fun v => ⟨fun h => ⟨h.keys, h.operations⟩, fun ⟨hkeys, hoperations⟩ => ⟨hkeys, hoperations⟩⟩
  have hschema : ResourceSchema Unset d ↔
      HasKeys ["fields", "renames", "unpack_attributes_map", "primary_identifier"] d ∧
        IsFlag d "unpack_attributes_map" ∧ Nullable IsText (valueAt d "primary_identifier") ∧
        Nullable (IsMapping (Nullable FieldSchema)) (valueAt d "fields") ∧
        Nullable (RenamingSchema Unset) (valueAt d "renames") :=
    ⟨fun h => ⟨h.keys, h.unpacks, h.identifier, h.fields, h.renames⟩,
      fun ⟨hkeys, hunpacks, hidentifier, hfields, hrenames⟩ =>
        ⟨hkeys, hunpacks, hidentifier, hfields, hrenames⟩⟩
  rw [← nullable_keys_iff hschema]
  · refine (keyed_outcome place _ d).bind fun entries hentries => ?_
    subst hentries
    rw [← nullable_mapping_iff, ← nullable_keys_iff (hrenaming _), ← lenient_mapping_iff,
      ← and_true (∀ e ∈ (valueAt (valueAt d "renames") "operations").fields, _), and_assoc]
    · refine (flag_outcome d _ place).bind fun unpacks hunpacks => ?_
      rw [value_ofJson, value_ofJson, value_ofJson]
      refine (readIdentifier_outcome place _).bind fun identifier? hidentifier => ?_
      refine (mapping_outcome _ _).bind fun fieldDocs hdocs => ?_
      subst hdocs
      refine (readEntries_outcome _ fun e _ place => readField_outcome place e.2).bind
        fun fields hfields => ?_
      refine (keyed_outcome _ _ _).bind fun renamesDoc hdoc => ?_
      subst hdoc
      rw [setValue_ofJson]
      refine (mapping_outcome _ _).bind fun operationDocs hdocs => ?_
      subst hdocs
      rw [fields_settled]
      refine (readEntries_outcome _ fun e he place => readRenames_outcome place ?_).bind
        fun renames hrenames => ?_
      · exact wellFormed_entry
          (wellFormed_valueAt (wellFormed_valueAt hd "renames") "operations") e he
      · exact .read trivial ⟨lists_ofList (nodup_keys (wellFormed_valueAt hd "fields")) hfields,
          lists_ofList (nodup_keys (wellFormed_valueAt (wellFormed_valueAt hd _) _)) hrenames,
          hunpacks, hidentifier⟩
    · intro h
      rw [h]
      exact .inl rfl
  · rintro rfl
    exact ⟨nofun, .inl rfl, .inl rfl, .inl rfl⟩

theorem readIgnore_outcome (d : Json) :
    Outcome (Nullable (IgnoreSchema Unset) d) (DescribesIgnore d) (readIgnore (.ofJson d)) := by
  have hschema : IgnoreSchema Unset d ↔
      HasKeys ["resource_names", "operations", "shape_names", "field_paths"] d ∧
        Lenient Unset IsTexts (valueAt d "resource_names") ∧
        Lenient Unset IsTexts (valueAt d "operations") ∧
        Lenient Unset IsTexts (valueAt d "shape_names") ∧
        Lenient Unset IsTexts (valueAt d "field_paths") ∧ True :=
    ⟨fun h => ⟨h.keys, h.resources, h.operations, h.shapes, h.paths, trivial⟩,
      fun ⟨hkeys, hresources, hoperations, hshapes, hpaths, _⟩ =>
        ⟨hkeys, hresources, hoperations, hshapes, hpaths⟩⟩
  rw [← nullable_keys_iff hschema]
  · refine (keyed_outcome _ _ d).bind fun entries hentries => ?_
    subst hentries
    refine (textList_outcome d _ _).bind fun resources hresources => ?_
    refine (textList_outcome d _ _).bind fun operations hoperations => ?_
    refine (textList_outcome d _ _).bind fun shapes hshapes => ?_
    refine (textList_outcome d _ _).bind fun paths hpaths => ?_
    exact .read trivial ⟨hresources, hoperations, hshapes, hpaths⟩
  · rintro rfl
    exact ⟨.inl rfl, .inl rfl, .inl rfl, .inl rfl, trivial⟩

/-- What reading a document comes to, for every document whose mappings have no key twice. -/
theorem read_outcome (hd : d.WellFormed) :
    Outcome (Nullable (Schema Unset) d) (Described d) (read (.ofJson d)) := by
  have hschema : Schema Unset d ↔ HasKeys ["ignore", "resources"] d ∧
      Nullable (IgnoreSchema Unset) (valueAt d "ignore") ∧
      Lenient Unset (IsMapping (Nullable (ResourceSchema Unset))) (valueAt d "resources") :=
    ⟨fun h => ⟨h.keys, h.ignore, h.resources⟩, fun ⟨hkeys, hignore, hresources⟩ =>
      ⟨hkeys, hignore, hresources⟩⟩
  rw [← nullable_keys_iff hschema]
  · refine (keyed_outcome _ _ d).bind fun sections hsections => ?_
    subst hsections
    rw [← lenient_mapping_iff, ← and_true (∀ e ∈ (valueAt d "resources").fields, _),
      value_ofJson, setValue_ofJson]
    refine (readIgnore_outcome _).bind fun ignore hignore => ?_
    refine (mapping_outcome _ _).bind fun resourceDocs hdocs => ?_
    subst hdocs
    rw [fields_settled]
    refine (readEntries_outcome _ fun e he place => readResource_outcome place ?_).bind
      fun resources hresources => ?_
    · exact wellFormed_entry (wellFormed_valueAt hd "resources") e he
    · exact .read trivial
        ⟨hignore, lists_ofList (nodup_keys (wellFormed_valueAt hd "resources")) hresources⟩
  · rintro rfl
    exact ⟨.inl rfl, .inl rfl⟩

end Readers

/-- A document is read into a configuration exactly if it fits the schema, where what is false, zero
or empty is taken for nothing, and the configuration is the one that it describes. Every other
document is refused. So every document that fits the schema to the letter is read. -/
theorem read_eq_ok_iff (hd : d.WellFormed) :
    (∀ c, read (.ofJson d) = .ok c ↔ Nullable (Schema Unset) d ∧ Described d c) ∧
      ((∃ c, read (.ofJson d) = .ok c) ↔ Nullable (Schema Unset) d) ∧
      (∀ e, read (.ofJson d) = .error e → Refusal e) ∧
      (Nullable (Schema fun _ => False) d → ∃ c, read (.ofJson d) = .ok c) := by
  have hstrict : Nullable (Schema fun _ => False) d → Nullable (Schema Unset) d :=
    .imp fun _ => .imp fun _ => False.elim
  have houtcome := read_outcome hd
  generalize read (.ofJson d) = x at houtcome ⊢
  cases houtcome with
  | @read c hfits hc =>
    refine ⟨fun c' => ⟨?_, fun h => congrArg _ (Described.unique hc h.2)⟩, ?_, nofun, ?_⟩
    · rintro ⟨⟩
      exact ⟨hfits, hc⟩
    · exact ⟨fun _ => hfits, fun _ => ⟨c, rfl⟩⟩
    · exact fun _ => ⟨c, rfl⟩
  | @refused e hnot he =>
    refine ⟨fun c => ⟨nofun, fun h => absurd h.1 hnot⟩, ⟨nofun, fun h => absurd h hnot⟩, ?_, ?_⟩
    · rintro _ ⟨⟩
      exact he
    · exact fun h => absurd (hstrict h) hnot

def bucketDocument : Json :=
  .obj [("ignore", .obj [("operations", .arr [.str "DeleteBucketPolicy"])]),
    ("resources", .obj [("Bucket", .obj [("fields", .obj [("Password", .null)])])])]

theorem read_eq_ok_iff_bucket :
    bucketDocument.WellFormed ∧ Nullable (Schema fun _ => False) bucketDocument ∧
      ∃ c, read (.ofJson bucketDocument) = .ok c := by
  have hd : bucketDocument.WellFormed := by
    simp [bucketDocument, Json.WellFormed, Json.WellFormedFields, Json.WellFormedItems]
  have hignore : IgnoreSchema (fun _ => False) (valueAt bucketDocument "ignore") :=
    ⟨⟨_, rfl, by decide⟩, .inl rfl, .inr (.inr ⟨["DeleteBucketPolicy"], rfl⟩), .inl rfl, .inl rfl⟩
  have hbucket : ResourceSchema (fun _ => False)
      (valueAt (valueAt bucketDocument "resources") "Bucket") :=
    ⟨⟨_, rfl, by decide⟩, nofun, .inl rfl, .inr ⟨_, rfl, by simp [Nullable]⟩, .inl rfl⟩
  have hschema : Nullable (Schema fun _ => False) bucketDocument :=
    .inr ⟨⟨_, rfl, by decide⟩, .inr hignore,
      .inr (.inr ⟨_, rfl, List.forall_mem_singleton.mpr (.inr hbucket)⟩)⟩
  exact ⟨hd, hschema, (read_eq_ok_iff hd).2.2.2 hschema⟩

/-- An empty list in place of the mapping of resources is read as no resources. -/
theorem empty_list_read :
    ¬ Nullable (Schema fun _ => False) (.obj [("resources", .arr [])]) ∧
      read (.ofJson (.obj [("resources", .arr [])])) = .ok {} := by
  refine ⟨?_, rfl⟩
  rintro (h | ⟨-, -, h | h | ⟨_, h, -⟩⟩)
  all_goals first | exact h | cases h

end ResourceVersions.Config
