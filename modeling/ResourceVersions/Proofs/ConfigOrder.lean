import ResourceVersions.Proofs.DocumentOrder

/-! # Configurations in another order

A configuration that can be read from a document can be read from every other order of it. The
fields and renames of a resource, and the resources themselves, are read as tables. -/
namespace ResourceVersions

open Fallible

namespace Document

/-- The same document up to the order of the entries of its mappings, all keys being texts. -/
def Same (d d' : Document) : Prop := ∃ a b : Json, d = ofJson a ∧ d' = ofJson b ∧ a.Same b

def SameEntries (entries entries' : List (Atom × Document)) : Prop :=
  ∃ t t' : Table Json, entries = ofJsonFields t.entries ∧ entries' = ofJsonFields t'.entries ∧
    Table.Alike Json.Same t t'

inductive SameParts : Document → Document → Prop where
  | atom (a) : SameParts (.atom a) (.atom a)
  | list {items items'} : List.Forall₂ Same items items' → SameParts (.list items) (.list items')
  | mapping {entries entries'} : SameEntries entries entries' →
      SameParts (.mapping entries) (.mapping entries')

theorem ofJsonItems_eq (items : List Json) : ofJsonItems items = items.map ofJson := by
  induction items with
  | nil => rfl
  | cons d rest ih => rw [ofJsonItems, ih, List.map_cons]

theorem ofJsonFields_eq (fields : List (String × Json)) :
    ofJsonFields fields = fields.map fun e => (Atom.text e.1, ofJson e.2) := by
  induction fields with
  | nil => rfl
  | cons e rest ih =>
    obtain ⟨k, d⟩ := e
    rw [ofJsonFields, ih, List.map_cons]

theorem same_null : Same null null := ⟨.null, .null, rfl, rfl, Json.same_null⟩

theorem sameEntries_nil : SameEntries [] [] := ⟨∅, ∅, rfl, rfl, Table.alike_empty _⟩

theorem entry?_ofJsonFields (fields : List (String × Json)) (key : String) :
    entry? (ofJsonFields fields) key = (fields.lookup key).map ofJson := by
  unfold entry?
  induction fields with
  | nil => rfl
  | cons e rest ih =>
    obtain ⟨k, d⟩ := e
    rw [ofJsonFields, List.lookup_cons, ih, Table.lookup_cons_if]
    by_cases hk : key = k
    · rw [if_pos hk, hk, beq_self_eq_true]
      rfl
    · rw [if_neg hk, beq_eq_false_iff_ne.mpr (by simpa using hk)]

theorem isSet_ofJson (d : Json) : (ofJson d).isSet = d.isSet := by
  cases d with
  | arr items => simp only [ofJson, isSet, Json.isSet, ofJsonItems_eq, List.isEmpty_map]
  | obj fields => simp only [ofJson, isSet, Json.isSet, ofJsonFields_eq, List.isEmpty_map]
  | float x => cases x <;> rfl
  | _ => rfl

variable {d d' : Document} {entries entries' : List (Atom × Document)}

theorem Same.parts (h : Same d d') : SameParts d d' := by
  obtain ⟨a, b, rfl, rfl, hab⟩ := h
  cases hab.parts with
  | atom hatom => cases a <;> first | exact .atom _ | cases hatom
  | list hall =>
    rw [ofJson, ofJson, ofJsonItems_eq, ofJsonItems_eq]
    refine .list ?_
    rw [List.forall₂_map_left_iff, List.forall₂_map_right_iff]
    exact hall.imp fun a b hab => ⟨a, b, rfl, rfl, hab⟩
  | @mapping t t' ht => exact .mapping ⟨t, t', rfl, rfl, ht⟩

theorem Same.isSet_eq (h : Same d d') : d.isSet = d'.isSet := by
  obtain ⟨a, b, rfl, rfl, hab⟩ := h
  rw [isSet_ofJson, isSet_ofJson, hab.isSet_eq]

theorem SameEntries.entry? (h : SameEntries entries entries') (key : String) :
    Option.Rel Same (Document.entry? entries key) (Document.entry? entries' key) := by
  obtain ⟨t, t', rfl, rfl, ht⟩ := h
  rw [entry?_ofJsonFields, entry?_ofJsonFields]
  change Option.Rel Same ((t.get? key).map ofJson) ((t'.get? key).map ofJson)
  rcases rel_cases (ht key) with ⟨hx, hy⟩ | ⟨x, y, hx, hy, hxy⟩
  · rw [hx, hy]
    exact .none
  · rw [hx, hy]
    exact .some ⟨x, y, rfl, rfl, hxy⟩

end Document

namespace Config

open Document (SameEntries)

variable {d d' : Document} {entries entries' : List (Atom × Document)}

theorem value_same (h : SameEntries entries entries') (key : String) :
    (value entries key).Same (value entries' key) := by
  unfold value
  rcases rel_cases (h.entry? key) with ⟨hx, hy⟩ | ⟨x, y, hx, hy, hxy⟩
  · rw [hx, hy]
    exact Document.same_null
  · rw [hx, hy]
    exact hxy

theorem setValue_same (h : SameEntries entries entries') (key : String) :
    (setValue entries key).Same (setValue entries' key) := by
  have hvalue := value_same h key
  unfold setValue
  dsimp only
  rw [hvalue.isSet_eq]
  split
  · exact hvalue
  · exact Document.same_null

theorem mapping_same (place : String) (h : d.Same d') :
    Keeps SameEntries (mapping place d) (mapping place d') := by
  cases h.parts with
  | atom a => cases a <;> first | exact .pure Document.sameEntries_nil | exact .error _ _ _
  | list _ => exact .error _ _ _
  | mapping hentries => exact .pure hentries

/-- Keys are known or unknown in any order. -/
theorem keyed_same (place : String) (allowed : List String) (h : d.Same d') :
    Keeps SameEntries (keyed place allowed d) (keyed place allowed d') := by
  refine (mapping_same place h).bind fun entries entries' hentries => ?_
  obtain ⟨t, t', rfl, rfl, ht⟩ := hentries
  have hknown : ∀ u : Table Json, (((Document.ofJsonFields u.entries).map Prod.fst).filter
      fun k => !(k.text?.any allowed.contains)).isEmpty = true ↔ ∀ k ∈ u.keys, k ∈ allowed := by
    intro u
    rw [Document.ofJsonFields_eq, List.isEmpty_iff, List.filter_eq_nil_iff, List.map_map,
      List.forall_mem_map, Table.keys, List.forall_mem_map]
    exact forall₂_congr fun e _ => by simp [Atom.text?]
  have hsame := (hknown t).trans ((forall_congr' fun k => by rw [ht.mem_keys]).trans
    (hknown t').symm)
  dsimp only
  split
  · rename_i hempty
    rw [if_pos (hsame.mp hempty)]
    exact .pure ⟨t, t', rfl, rfl, ht⟩
  · split <;> exact .error _ _ _

theorem texts_eq {items items' : List Document} (h : List.Forall₂ Document.Same items items') :
    items.mapM Document.text? = items'.mapM Document.text? := by
  induction h with
  | nil => rfl
  | @cons d d' _ _ hd _ ih =>
    have htext : d.text? = d'.text? := by cases hd.parts <;> rfl
    rw [List.mapM_cons, List.mapM_cons, htext, ih]

theorem textList_eq (h : SameEntries entries entries') (key place : String) :
    textList entries key place = textList entries' key place := by
  have hvalue := setValue_same h key
  unfold textList
  generalize setValue entries key = v at hvalue
  generalize setValue entries' key = v' at hvalue
  cases hvalue.parts with
  | atom a => rfl
  | list hall =>
    dsimp only
    rw [texts_eq hall]
  | mapping _ => rfl

theorem flag_eq (h : SameEntries entries entries') (key place : String) :
    flag entries key place = flag entries' key place := by
  unfold flag
  rcases rel_cases (h.entry? key) with ⟨hx, hy⟩ | ⟨x, y, hx, hy, hxy⟩
  · rw [hx, hy]
  · rw [hx, hy]
    cases hxy.parts <;> rfl

theorem readSource_same (place : String) (h : d.Same d') :
    Keeps Eq (readSource place d) (readSource place d') := by
  have hkeyed := keyed_same (place ++ ".from") ["operation", "path"] h
  unfold readSource
  cases h.parts with
  | atom a =>
    cases a <;> exact .of_eq rfl
  | _ =>
    refine hkeyed.bind fun entries entries' hentries => ?_
    have hoperation := (value_same hentries "operation").parts
    have hpath := (value_same hentries "path").parts
    generalize value entries "operation" = x at hoperation ⊢
    generalize value entries' "operation" = x' at hoperation ⊢
    generalize value entries "path" = y at hpath ⊢
    generalize value entries' "path" = y' at hpath ⊢
    cases hoperation with
    | atom a =>
      cases hpath with
      | atom b => exact .of_eq rfl
      | _ => cases a <;> exact .error _ _ _
    | _ => exact .error _ _ _

theorem readField_same (place : String) (h : d.Same d') :
    Keeps Eq (readField place d) (readField place d') := by
  refine (keyed_same place _ h).bind fun entries entries' hentries => ?_
  rw [flag_eq hentries, flag_eq hentries, flag_eq hentries]
  refine (Keeps.of_eq rfl).bind fun secret secret' hsecret => ?_
  refine (Keeps.of_eq rfl).bind fun readOnly readOnly' hreadOnly => ?_
  refine (Keeps.of_eq rfl).bind fun isAttribute isAttribute' hattribute => ?_
  refine (readSource_same place (value_same hentries "from")).bind fun source source' hsource => ?_
  subst hsecret hreadOnly hattribute hsource
  exact .pure rfl

theorem readEntries_ofJsonFields {α : Type} (place : String)
    (read : String → Document → Except ConfigError α) (fields : List (String × Json)) :
    readEntries place read (Document.ofJsonFields fields) =
      readAll (fun name d => read s!"{place}.{name}" (Document.ofJson d)) fields := by
  induction fields with
  | nil => rfl
  | cons e rest ih =>
    obtain ⟨name, d⟩ := e
    rw [Document.ofJsonFields, readEntries, ih, readAll_cons]
    rfl

theorem readEntries_same {α : Type} {R : α → α → Prop} (place : String)
    {read : String → Document → Except ConfigError α}
    (hread : ∀ {d d'} place, d.Same d' → Keeps R (read place d) (read place d'))
    (h : SameEntries entries entries') :
    Keeps (fun l l' => Table.Alike R (.ofList l) (.ofList l')) (readEntries place read entries)
      (readEntries place read entries') := by
  obtain ⟨t, t', rfl, rfl, ht⟩ := h
  rw [readEntries_ofJsonFields, readEntries_ofJsonFields]
  exact Keeps.readAll ht fun name a b hab => hread _ ⟨a, b, rfl, rfl, hab⟩

def readText (_ : String) (d : Json) : Except Unit String := d.str?.elim (.error ()) .ok

theorem readText_keeps (name : String) (a b : Json) (h : a.Same b) :
    Keeps Eq (readText name a) (readText name b) := by
  refine .of_eq ?_
  unfold readText
  rw [h.str?_eq]

/-- Pairs of texts are read like any other entries. -/
theorem textPairs_eq_some_iff {fields : List (String × Json)} {pairs : List (String × String)} :
    textPairs (Document.ofJsonFields fields) = some pairs ↔
      readAll readText fields = .ok pairs := by
  induction fields generalizing pairs with
  | nil =>
    change some [] = some pairs ↔ Except.ok [] = Except.ok pairs
    rw [Option.some_inj, Except.ok.injEq]
  | cons e rest ih =>
    obtain ⟨name, d⟩ := e
    rw [Document.ofJsonFields, readAll_cons]
    cases d with
    | str s =>
      change (textPairs (Document.ofJsonFields rest)).map ((name, s) :: ·) = some pairs ↔ _
      rw [Option.map_eq_some_iff]
      constructor
      · rintro ⟨others, hothers, rfl⟩
        exact bind_ok_iff.mpr ⟨s, rfl, bind_ok_iff.mpr ⟨others, ih.mp hothers, rfl⟩⟩
      · intro hread
        obtain ⟨_, hs, hread⟩ := bind_ok_iff.mp hread
        cases hs
        obtain ⟨others, hothers, heq⟩ := bind_ok_iff.mp hread
        cases heq
        exact ⟨others, ih.mpr hothers, rfl⟩
    | _ =>
      constructor
      · intro hnone
        cases hnone
      · intro hread
        cases hread

theorem textPairs_same (h : SameEntries entries entries') {pairs : List (String × String)}
    (hpairs : textPairs entries = some pairs) : ∃ pairs', textPairs entries' = some pairs' ∧
      Table.Same (.ofList pairs) (.ofList pairs') := by
  obtain ⟨t, t', rfl, rfl, ht⟩ := h
  obtain ⟨pairs', hpairs', hsame⟩ :=
    Keeps.readAll ht readText_keeps pairs (textPairs_eq_some_iff.mp hpairs)
  exact ⟨pairs', textPairs_eq_some_iff.mpr hpairs', hsame.same⟩

theorem readRenames_same (place : String) (h : d.Same d') :
    Keeps Table.Same (readRenames place d) (readRenames place d') := by
  refine (keyed_same place _ h).bind fun entries entries' hentries => ?_
  have hvalue := (setValue_same hentries "input_fields").parts
  generalize setValue entries "input_fields" = v at hvalue ⊢
  generalize setValue entries' "input_fields" = v' at hvalue ⊢
  cases hvalue with
  | atom a => cases a <;> first | exact .pure (.refl _) | exact .error _ _ _
  | list _ => exact .error _ _ _
  | mapping hnames =>
    dsimp only
    split
    · rename_i pairs hpairs
      obtain ⟨pairs', hpairs', hsame⟩ := textPairs_same hnames hpairs
      rw [hpairs']
      exact .pure hsame
    · exact .error _ _ _

theorem readIdentifier_eq (place : String) (h : d.Same d') :
    readIdentifier place d = readIdentifier place d' := by
  cases h.parts <;> rfl

theorem readResource_same (place : String) (h : d.Same d') :
    Keeps ResourceConfig.Same (readResource place d) (readResource place d') := by
  refine (keyed_same place _ h).bind fun entries entries' hentries => ?_
  rw [flag_eq hentries, readIdentifier_eq place (value_same hentries "primary_identifier")]
  refine (Keeps.of_eq rfl).bind fun unpacks unpacks' hunpacks => ?_
  refine (Keeps.of_eq rfl).bind fun identifier identifier' hidentifier => ?_
  refine (mapping_same _ (value_same hentries "fields")).bind fun fieldDocs fieldDocs' hdocs => ?_
  refine (readEntries_same _ readField_same hdocs).bind fun fields fields' hfields => ?_
  refine (keyed_same _ _ (value_same hentries "renames")).bind fun found found' hfound => ?_
  refine (mapping_same _ (setValue_same hfound "operations")).bind fun docs docs' hdocs => ?_
  refine (readEntries_same _ readRenames_same hdocs).bind fun renames renames' hrenames => ?_
  exact .pure ⟨hfields.same, hrenames, hunpacks, hidentifier⟩

theorem readIgnore_same (h : d.Same d') : Keeps Eq (readIgnore d) (readIgnore d') := by
  refine (keyed_same _ _ h).bind fun entries entries' hentries => .of_eq ?_
  rw [textList_eq hentries, textList_eq hentries, textList_eq hentries, textList_eq hentries]

/-- A configuration can be read from every order of its document. -/
theorem read_same (h : d.Same d') : Keeps Config.Same (read d) (read d') := by
  refine (keyed_same _ _ h).bind fun sections sections' hsections => ?_
  refine (readIgnore_same (value_same hsections "ignore")).bind fun ignore ignore' hignore => ?_
  refine (mapping_same _ (setValue_same hsections "resources")).bind fun docs docs' hdocs => ?_
  refine (readEntries_same _ readResource_same hdocs).bind fun resources resources' hsame => ?_
  exact .pure ⟨hignore, hsame⟩

end Config

end ResourceVersions
