import ResourceVersions.Proofs.BuiltResource
import ResourceVersions.Proofs.EqualStructure
import ResourceVersions.Proofs.FieldPartition

/-! # Deltas in the opposite direction

Without renames a delta depends on the two fields of its name alone. So a comparison in the other
direction has the same names, and each of its deltas is the one from before with the sides
exchanged. Only which version keeps a secret may be seen differently. -/
namespace ResourceVersions

/-- What a change may be called by the other version. -/
inductive PairChange.Mirrors : PairChange → PairChange → Prop where
  | intact : Mirrors .intact .intact
  | unknown : Mirrors .unknown .unknown
  | shape {c c' : PairChange} (h : c = .shapeChanged ∨ c = .shapeChangedToSecret)
      (h' : c' = .shapeChanged ∨ c' = .shapeChangedToSecret) : Mirrors c c'

/-- A delta and one between the same fields the other way round. -/
inductive FieldDelta.Mirrors : FieldDelta → FieldDelta → Prop where
  | pair {c c' : PairChange} (f g : Field) (h : c.Mirrors c') : Mirrors (.pair c f g) (.pair c' g f)
  | added (f : Field) : Mirrors (.added f) (.removed f)
  | removed (f : Field) : Mirrors (.removed f) (.added f)

namespace FieldDelta.Mirrors

variable {d d' : FieldDelta}

theorem isSupported (h : d.Mirrors d') : d.isSupported = d'.isSupported := by
  cases h with
  | pair f g h =>
    cases h with
    | intact => rfl
    | unknown => rfl
    | shape h h' => rcases h with rfl | rfl <;> rcases h' with rfl | rfl <;> rfl
  | added f => rfl
  | removed f => rfl

theorem sides (h : d.Mirrors d') : d.spoke? = d'.hub? ∧ d.hub? = d'.spoke? := by
  cases h <;> exact ⟨rfl, rfl⟩

end FieldDelta.Mirrors

namespace ResourceDelta

variable {s h : ResourceSide} {a b : Table Field} {n : String}
  {classify : Field → Field → PairChange} {deltas : List FieldDelta}

/-- The delta of a name when nothing is renamed. -/
def deltaAt (classify : Field → Field → PairChange) (spoke hub : Table Field) (name : String) :
    Option FieldDelta :=
  match spoke.get? name, hub.get? name with
  | some f, some g => some (.pair (classify f g) f g)
  | some f, none => some (.removed f)
  | none, some g => some (.added g)
  | none, none => none

theorem paired_plain {m : String} :
    Paired ∅ a b n m ↔ n = m ∧ n ∈ a.keys ∧ n ∈ b.keys := by
  constructor
  · rintro ⟨ha, hb, rfl | ⟨-, hrename⟩⟩
    · exact ⟨rfl, ha, hb⟩
    · cases hrename
  · rintro ⟨rfl, ha, hb⟩
    exact ⟨ha, hb, .inl rfl⟩

/-- A delta between two names that belong together is the delta of that name. -/
theorem Describes.deltaAt {n? m? : Option String} {d : FieldDelta}
    (hd : Describes classify ∅ a b n? m? d) :
    ∃ n, n?.or m? = some n ∧ deltaAt classify a b n = some d := by
  cases hd with
  | same n f g hf hg _ =>
    refine ⟨n, rfl, ?_⟩
    rw [ResourceDelta.deltaAt, hf, hg]
  | renamed n m f g _ _ hrename _ => cases hrename
  | removed n f hf hnone =>
    have hb : b.get? n = none := Table.get?_eq_none_iff.mpr fun hin =>
      hnone n (paired_plain.mpr ⟨rfl, Table.mem_keys_of_get? hf, hin⟩)
    refine ⟨n, rfl, ?_⟩
    rw [ResourceDelta.deltaAt, hf, hb]
  | added n g hg hnone =>
    have ha : a.get? n = none := Table.get?_eq_none_iff.mpr fun hin =>
      hnone n (paired_plain.mpr ⟨rfl, hin, Table.mem_keys_of_get? hg⟩)
    refine ⟨n, rfl, ?_⟩
    rw [ResourceDelta.deltaAt, ha, hg]

/-- Described deltas are the deltas of the names that they describe. -/
theorem filterMap_deltaAt {labels : List (Option String × Option String)}
    (h : List.Forall₂ (fun l d => Describes classify ∅ a b l.1 l.2 d) labels deltas) :
    (labels.filterMap fun l => l.1.or l.2).filterMap (deltaAt classify a b) = deltas := by
  induction h with
  | nil => rfl
  | cons hd _ ih =>
    obtain ⟨n, hn, hdelta⟩ := Describes.deltaAt hd
    simp only [List.filterMap_cons, hn, hdelta, ih]

/-- Without renames a comparison succeeds and gives the delta of every name once. -/
theorem diffFields_plain (hc : ∀ f g, classify f g ≠ .renamed) (a b : Table Field) :
    ∃ names : List String, names.Nodup ∧ (∀ n, n ∈ names ↔ n ∈ a.keys ∨ n ∈ b.keys) ∧
      diffFields classify ∅ a b = .ok (names.filterMap (deltaAt classify a b)) := by
  cases hrun : diffFields classify ∅ a b with
  | error e =>
    rcases diffFields_error_iff.mp ⟨e, hrun⟩ with ⟨_, _, _, -, hrename, -⟩ |
      ⟨_, -, -, _, hrename, -⟩ <;> cases hrename
  | ok deltas =>
    obtain ⟨pairs, rest, hpart⟩ := partition_of_ok hc hrun
    have hhub := hpart.hub_once.nodup_iff.mpr b.keys_nodup
    have hfirst : ∀ n, n ∈ pairs.map Prod.fst ↔ n ∈ a.keys := fun n => by
      rw [hpart.spoke_once, Table.mem_sortedKeys_iff]
    -- what is left of the hub has no namesake
    have hrest : ∀ n, n ∈ rest ↔ n ∈ b.keys ∧ n ∉ a.keys := by
      intro n
      have hmem : n ∈ b.keys ↔ n ∈ pairs.filterMap Prod.snd ∨ n ∈ rest := by
        rw [← hpart.hub_once.mem_iff, List.mem_append]
      have hclaimed : n ∈ pairs.filterMap Prod.snd ↔ n ∈ a.keys ∧ n ∈ b.keys := by
        simp [List.mem_filterMap, hpart.paired_iff, paired_plain]
      have hdisjoint := List.disjoint_of_nodup_append hhub
      constructor
      · intro hn
        have hb := hmem.mpr (.inr hn)
        exact ⟨hb, fun ha => hdisjoint (hclaimed.mpr ⟨ha, hb⟩) hn⟩
      · rintro ⟨hb, ha⟩
        exact (hmem.mp hb).resolve_left fun hn => ha (hclaimed.mp hn).1
    refine ⟨pairs.map Prod.fst ++ rest, ?_, fun n => ?_, ?_⟩
    · refine List.Nodup.append ?_ hhub.of_append_right fun n hn hn' => ?_
      · rw [hpart.spoke_once]
        exact a.sortedKeys_perm.nodup_iff.mpr a.keys_nodup
      · exact ((hrest n).mp hn').2 ((hfirst n).mp hn)
    · rw [List.mem_append, hfirst, hrest]
      tauto
    · have hnames : (pairs.map (fun p => (some p.1, p.2)) ++
          rest.map fun m => ((none : Option String), some m)).filterMap (fun l => l.1.or l.2) =
            pairs.map Prod.fst ++ rest := by
        simp [List.filterMap_append, List.filterMap_map, Function.comp_def]
      rw [← hnames, filterMap_deltaAt hpart.describes]

theorem sameStructure_comm (a b : Api) (x y : String) :
    Api.sameStructure a b x y = Api.sameStructure b a y x :=
  Bool.eq_iff_iff.mpr ⟨Api.sameStructure_symm, Api.sameStructure_symm⟩

/-- The change between two fields by their shapes alone. -/
def changeOfShapes (same : String → String → Bool) : Option String → Option String → PairChange
  | none, none => .intact
  | some x, some y => if same x y then .intact else .shapeChanged
  | _, _ => .unknown

theorem changeOfShapes_mirrors {same same' : String → String → Bool}
    (hsame : ∀ x y, same x y = same' y x) (x? y? : Option String) :
    (changeOfShapes same x? y?).Mirrors (changeOfShapes same' y? x?) := by
  cases x? with
  | none => cases y? <;> constructor
  | some x =>
    cases y? with
    | none => exact .unknown
    | some y =>
      simp only [changeOfShapes, hsame]
      split
      · exact .intact
      · exact .shape (.inl rfl) (.inl rfl)

/-- Only in which version a value is kept as a secret can look different from the other side. -/
theorem classify_mirrors (s h : ResourceSide) (f g : Field) :
    (ResourceDelta.classify s h f g).Mirrors (ResourceDelta.classify h s g f) := by
  simp only [ResourceDelta.classify]
  cases f.isSecret <;> cases g.isSecret
  case false.true => exact .shape (.inr rfl) (.inl rfl)
  case true.false => exact .shape (.inl rfl) (.inr rfl)
  all_goals
    -- secrets below the fields: only the hub's, only the spoke's, or some of both
    simp only [Bool.not_true, Bool.not_false, Bool.and_true, Bool.and_false, Bool.false_eq_true,
      if_false]
    split
    · exact .shape (.inr rfl) (by split <;> simp)
    · split
      · exact .shape (.inl rfl) (.inr rfl)
      · exact changeOfShapes_mirrors (sameStructure_comm s.api h.api) f.shape? g.shape?

/-- The deltas that a name has in the two directions: the fields of that name, and their mirror
image. -/
structure Across (a b : Table Field) (name : String) (d d' : FieldDelta) : Prop where
  spoke : d.spoke? = a.get? name
  hub : d.hub? = b.get? name
  mirrors : d.Mirrors d'

/-- A name of either section has a delta in both directions. -/
theorem exists_across (s h : ResourceSide) (hn : n ∈ a.keys ∨ n ∈ b.keys) :
    ∃ d d', deltaAt (ResourceDelta.classify s h) a b n = some d ∧
      deltaAt (ResourceDelta.classify h s) b a n = some d' ∧ Across a b n d d' := by
  rw [Table.mem_keys_iff, Table.mem_keys_iff] at hn
  unfold deltaAt
  cases ha : a.get? n with
  | some f =>
    cases hb : b.get? n with
    | some g =>
      exact ⟨_, _, rfl, rfl, ha.symm, hb.symm, .pair f g (classify_mirrors s h f g)⟩
    | none => exact ⟨_, _, rfl, rfl, ha.symm, hb.symm, .removed f⟩
  | none =>
    cases hb : b.get? n with
    | some g => exact ⟨_, _, rfl, rfl, ha.symm, hb.symm, .added g⟩
    | none => simp [ha, hb] at hn

/-- A name with its delta and the delta in the opposite direction. -/
abbrev Row := String × FieldDelta × FieldDelta

theorem exists_rows (s h : ResourceSide) {names : List String}
    (hnames : ∀ n ∈ names, n ∈ a.keys ∨ n ∈ b.keys) :
    ∃ rows : List Row, rows.map Prod.fst = names ∧
      rows.map (fun row => row.2.1) =
        names.filterMap (deltaAt (ResourceDelta.classify s h) a b) ∧
      rows.map (fun row => row.2.2) =
        names.filterMap (deltaAt (ResourceDelta.classify h s) b a) ∧
      ∀ row ∈ rows, Across a b row.1 row.2.1 row.2.2 := by
  induction names with
  | nil => exact ⟨[], rfl, rfl, rfl, fun _ hrow => absurd hrow List.not_mem_nil⟩
  | cons n names ih =>
    obtain ⟨hn, hrest⟩ := List.forall_mem_cons.mp hnames
    obtain ⟨d, d', hd, hd', hacross⟩ := exists_across s h hn
    obtain ⟨rows, hfirst, hforth, hback, hrows⟩ := ih hrest
    refine ⟨(n, d, d') :: rows, ?_, ?_, ?_, ?_⟩
    · rw [List.map_cons, hfirst]
    · rw [List.map_cons, hforth, List.filterMap_cons_some hd]
    · rw [List.map_cons, hback, List.filterMap_cons_some hd']
    · intro row hrow
      rcases List.mem_cons.mp hrow with rfl | hrow
      · exact hacross
      · exact hrows row hrow

/-- Two sections compared in both directions: every name has one delta in either, and the two
mirror each other. -/
structure Opposite (s h : ResourceSide) (a b : Table Field) (deltas deltas' : List FieldDelta)
    (rows : List Row) : Prop where
  forth : diffFields (ResourceDelta.classify s h) ∅ a b = .ok deltas
  back : diffFields (ResourceDelta.classify h s) ∅ b a = .ok deltas'
  names_nodup : (rows.map Prod.fst).Nodup
  mem_names : ∀ n, n ∈ rows.map Prod.fst ↔ n ∈ a.keys ∨ n ∈ b.keys
  forth_once : deltas.Perm (rows.map fun row => row.2.1)
  back_once : deltas'.Perm (rows.map fun row => row.2.2)
  across : ∀ row ∈ rows, Across a b row.1 row.2.1 row.2.2

theorem exists_opposite (s h : ResourceSide) (a b : Table Field) :
    ∃ deltas deltas' rows, Opposite s h a b deltas deltas' rows := by
  obtain ⟨names, hnodup, hmem, hforth⟩ := diffFields_plain (classify_ne_renamed s h) a b
  obtain ⟨names', hnodup', hmem', hback⟩ := diffFields_plain (classify_ne_renamed h s) b a
  have hperm : names'.Perm names := (List.perm_ext_iff_of_nodup hnodup' hnodup).mpr fun n => by
    rw [hmem', hmem, or_comm]
  obtain ⟨rows, hfirst, hdeltas, hdeltas', hrows⟩ := exists_rows s h fun n hn => (hmem n).mp hn
  refine ⟨_, _, rows, hforth, hback, ?_, ?_, ?_, ?_, hrows⟩
  · rw [hfirst]
    exact hnodup
  · rw [hfirst]
    exact hmem
  · rw [hdeltas]
  · rw [hdeltas']
    exact hperm.filterMap _

section Unsupported

variable {deltas deltas' : List FieldDelta} {rows : List Row}

/-- The same names have unsupported deltas in both directions. -/
theorem Opposite.unsupported {β : Type} {f f' : FieldDelta → β}
    (ho : Opposite s h a b deltas deltas' rows)
    (hf : ∀ row ∈ rows, f row.2.1 = f' row.2.2) :
    ((deltas.filter fun d => !d.isSupported).map f).Perm
      ((deltas'.filter fun d => !d.isSupported).map f') := by
  have hrows : ((rows.map fun row => row.2.1).filter fun d => !d.isSupported).map f =
      ((rows.map fun row => row.2.2).filter fun d => !d.isSupported).map f' := by
    rw [List.filter_map, List.filter_map, List.map_map, List.map_map]
    have hfilter : rows.filter ((fun d => !d.isSupported) ∘ fun row => row.2.1) =
        rows.filter ((fun d => !d.isSupported) ∘ fun row => row.2.2) :=
      List.filter_congr fun row hrow => by
        simp only [Function.comp_apply, (ho.across row hrow).mirrors.isSupported]
    rw [hfilter]
    exact List.map_congr_left fun row hrow => hf row (List.mem_of_mem_filter hrow)
  have hforth := (ho.forth_once.filter fun d => !d.isSupported).map f
  have hback := (ho.back_once.filter fun d => !d.isSupported).map f'
  exact (hforth.trans (.of_eq hrows)).trans hback.symm

/-- A delta between fields that stand under their own names has the name of its fields. -/
theorem name_of_sides {d : FieldDelta} (ha : Resource.Keyed a) (hb : Resource.Keyed b)
    (hspoke : d.spoke? = a.get? n) (hhub : d.hub? = b.get? n) : d.name = n := by
  cases d with
  | pair c f g => exact ha n f hspoke.symm
  | added g => exact hb n g hhub.symm
  | removed f => exact ha n f hspoke.symm

theorem Opposite.names (ho : Opposite s h a b deltas deltas' rows) (ha : Resource.Keyed a)
    (hb : Resource.Keyed b) : ∀ row ∈ rows, row.2.1.name = row.2.2.name := by
  intro row hrow
  obtain ⟨hspoke, hhub, hmirrors⟩ := ho.across row hrow
  rw [name_of_sides ha hb hspoke hhub,
    name_of_sides hb ha (hmirrors.sides.2.symm.trans hhub) (hmirrors.sides.1.symm.trans hspoke)]

end Unsupported

/-- Without renames the deltas of two resources in opposite directions mirror each other, section
by section: what was added there is removed here, and fields of one name are intact, unknown or
changed for both. The unsupported deltas are between the same fields, and so have the same names
where the fields stand under their names. -/
theorem opposite_deltas (s h : ResourceSide) (spec spec' status status' : Table Field) :
    ∃ (delta delta' : ResourceDelta) (rows rows' : List Row),
      Opposite s h spec spec' delta.spec delta'.spec rows ∧
      Opposite s h status status' delta.status delta'.status rows' ∧
      (delta.unsupported.map fun d => (d.spoke?, d.hub?)).Perm
        (delta'.unsupported.map fun d => (d.hub?, d.spoke?)) ∧
      (Resource.Keyed spec → Resource.Keyed spec' → Resource.Keyed status →
        Resource.Keyed status' →
          (delta.unsupported.map FieldDelta.name).Perm
            (delta'.unsupported.map FieldDelta.name)) := by
  obtain ⟨deltas, deltas', rows, hspec⟩ := exists_opposite s h spec spec'
  obtain ⟨others, others', rows', hstatus⟩ := exists_opposite s h status status'
  have hsides : ∀ {a b : Table Field} {rows : List Row} {l l' : List FieldDelta},
      Opposite s h a b l l' rows → ∀ row ∈ rows,
        (row.2.1.spoke?, row.2.1.hub?) = (row.2.2.hub?, row.2.2.spoke?) := by
    intro a b rows l l' ho row hrow
    obtain ⟨hspoke, hhub⟩ := (ho.across row hrow).mirrors.sides
    rw [hspoke, hhub]
  refine ⟨⟨deltas, others⟩, ⟨deltas', others'⟩, rows, rows', hspec, hstatus, ?_, ?_⟩
  · simp only [ResourceDelta.unsupported, ResourceDelta.all, List.filter_append, List.map_append]
    exact (hspec.unsupported (hsides hspec)).append (hstatus.unsupported (hsides hstatus))
  · intro ha hb hc hd
    simp only [ResourceDelta.unsupported, ResourceDelta.all, List.filter_append, List.map_append]
    exact (hspec.unsupported (hspec.names ha hb)).append
      (hstatus.unsupported (hstatus.names hc hd))

namespace Sample

/-- Nodes with a child that is a node. -/
def trees : Api where
  serviceId := ""
  apiVersion := ""
  shapes := .ofList [("Node", ⟨.struct (.ofList [("Child", ⟨"Node", ""⟩)]), [], false, ""⟩)]
  operations := ∅

def treeField (path : String) (shape? : Option String) (isSecret : Bool) : Field where
  path
  names := ⟨path, path, path, path⟩
  ref? := shape?.map fun shape => ⟨shape, ""⟩
  config? := some { isSecret }

/-- A version with one secret, below the field `Root`. -/
def treeSide (secret : String) : ResourceSide where
  api := trees
  resource := {
    names := ⟨"Tree", "Tree", "tree", "tree"⟩
    ops := ⟨⟨"CreateTree", none, none⟩, none, none, none, none, none, none⟩
    settings := {}
    fields := .ofList [(secret, treeField secret none true)] }

def leafy : Table Field := .ofList [("Root", treeField "Root" (some "Node") false),
  ("Note", treeField "Note" none false), ("Size", treeField "Size" none false)]

def bare : Table Field := .ofList [("Note", treeField "Note" (some "Node") false),
  ("Root", treeField "Root" (some "Node") false)]

theorem keyed_of_entries {fields : Table Field}
    (h : ∀ e ∈ fields.entries, e.2.names.camel = e.1) : Resource.Keyed fields :=
  fun _ _ hf => h _ (Table.get?_eq_some_iff.mp hf)

end Sample

open Sample in
/-- Each version has a secret below `Root` that the other lacks, and only one has a shape for
`Note`; the same names are unsupported both ways. -/
theorem opposite_deltas_trees : ∃ delta delta' : ResourceDelta,
    diffFields (ResourceDelta.classify (treeSide "Root.Key") (treeSide "Root.Pin")) ∅ leafy bare =
      .ok delta.spec ∧
    diffFields (ResourceDelta.classify (treeSide "Root.Pin") (treeSide "Root.Key")) ∅ bare leafy =
      .ok delta'.spec ∧
    (delta.unsupported.map FieldDelta.name).Perm (delta'.unsupported.map FieldDelta.name) := by
  have hleafy : Resource.Keyed leafy := keyed_of_entries (by decide)
  have hbare : Resource.Keyed bare := keyed_of_entries (by decide)
  have hempty : Resource.Keyed ∅ := nofun
  obtain ⟨delta, delta', _, _, hspec, -, -, hnames⟩ :=
    opposite_deltas (treeSide "Root.Key") (treeSide "Root.Pin") leafy bare ∅ ∅
  exact ⟨delta, delta', hspec.forth, hspec.back, hnames hleafy hbare hempty hempty⟩

end ResourceDelta

end ResourceVersions
