import ResourceVersions.Proofs.DocumentOrder

/-! # What ignore rules take away

An API refers to shapes at sites: the members, elements, keys and values of its shapes, and the
inputs and outputs of its operations. Ignoring names takes away the least set of shapes that holds
the names and, with a shape, the lists of it and the maps to it. A reference goes with its shape, or
alone if it can. Taking single members away first changes neither that set nor what else goes. -/
namespace ResourceVersions

/-- Where a shape can refer to others. -/
inductive Slot where
  | member (name : String)
  | element
  | key
  | value
deriving DecidableEq, Repr

/-- Where an API can refer to shapes: in a shape, or as the input or output of an operation. -/
inductive Site where
  | part (shape : String) (slot : Slot)
  | input (operation : String)
  | output (operation : String)
deriving DecidableEq, Repr

/-- What a form refers to somewhere. -/
def Form.ref? : Form → Slot → Option ShapeRef
  | .struct members, .member m => members.get? m
  | .list e, .element => some e
  | .map k _, .key => some k
  | .map _ v, .value => some v
  | _, _ => none

/-- A shape without its references. -/
def Shape.outline (s : Shape) : String × List String × Bool × String :=
  (s.form.typeText, s.enum, s.isException, s.documentation)

namespace Api

/-- What an API refers to somewhere. -/
def ref? (api : Api) : Site → Option ShapeRef
  | .part x slot => (api.shapes.get? x).bind fun s => s.form.ref? slot
  | .input name => (api.operations.get? name).bind Operation.input?
  | .output name => (api.operations.get? name).bind Operation.output?

/-- A path names a member of a structure if it holds both names, with the first of its dots between
them. -/
def NamesMember (path shape member : String) : Prop :=
  path = shape ++ "." ++ member ∧ '.' ∉ shape.toList ∧ member ≠ ""

/-- The least set with the given names that has a list if it has the element, and a map if it has
the value. -/
inductive Ignored (api : Api) (names : List String) : String → Prop
  | named {x : String} : x ∈ names → Ignored api names x
  | list {x : String} {e : ShapeRef} : api.ref? (.part x .element) = some e →
      Ignored api names e.target → Ignored api names x
  | map {x : String} {v : ShapeRef} : api.ref? (.part x .value) = some v →
      Ignored api names v.target → Ignored api names x

/-- What the rules take away: everything in an ignored shape, the members at the paths, and the
members, inputs and outputs that refer to an ignored shape. -/
inductive Removed (api : Api) (names paths : List String) : Site → ShapeRef → Prop
  | shape {x : String} {slot : Slot} {ref : ShapeRef} : api.Ignored names x →
      Removed api names paths (.part x slot) ref
  | path {path x m : String} {ref : ShapeRef} : path ∈ paths → NamesMember path x m →
      Removed api names paths (.part x (.member m)) ref
  | member {x m : String} {ref : ShapeRef} : api.Ignored names ref.target →
      Removed api names paths (.part x (.member m)) ref
  | input {operation : String} {ref : ShapeRef} : api.Ignored names ref.target →
      Removed api names paths (.input operation) ref
  | output {operation : String} {ref : ShapeRef} : api.Ignored names ref.target →
      Removed api names paths (.output operation) ref

variable {api api' base : Api} {names paths : List String} {path x m : String} {site : Site}
  {ref : ShapeRef}

section Forms

variable {form : Form} {slot : Slot} {ref : ShapeRef} {keep : String → ShapeRef → Bool}

theorem ref?_of_element? (h : form.element? = some ref) :
    form.ref? .element = some ref ∨ form.ref? .value = some ref := by
  cases form with
  | scalar | struct => cases h
  | list e => exact .inl h
  | map k v => exact .inr h

theorem element?_of_ref? (h : form.ref? .element = some ref ∨ form.ref? .value = some ref) :
    form.element? = some ref := by
  cases form with
  | scalar | struct => rcases h with h | h <;> cases h
  | list e => exact h.resolve_right nofun
  | map k v => exact h.resolve_left nofun

theorem mem_refs_of_ref? (h : form.ref? slot = some ref) : ∃ label, (label, ref) ∈ form.refs := by
  cases form with
  | scalar => cases slot <;> cases h
  | struct members =>
    cases slot with
    | member m => exact ⟨m, Table.mem_sorted_iff.mpr h⟩
    | _ => cases h
  | list e =>
    cases slot with
    | element =>
      cases h
      exact ⟨_, List.mem_cons_self⟩
    | _ => cases h
  | map k v =>
    cases slot with
    | key =>
      cases h
      exact ⟨_, List.mem_cons_self⟩
    | value =>
      cases h
      exact ⟨_, List.mem_cons_of_mem _ List.mem_cons_self⟩
    | _ => cases h

theorem typeText_filterMembers : (Form.filterMembers keep form).typeText = form.typeText := by
  cases form <;> rfl

theorem ref?_filterMembers_member (m : String) :
    (Form.filterMembers keep form).ref? (.member m) = (form.ref? (.member m)).filter (keep m) := by
  cases form with
  | struct members => exact Table.get?_filter members keep m
  | _ => rfl

theorem ref?_filterMembers (h : ∀ m, slot ≠ .member m) :
    (Form.filterMembers keep form).ref? slot = form.ref? slot := by
  cases form with
  | struct members =>
    cases slot with
    | member m => exact absurd rfl (h m)
    | _ => rfl
  | _ => rfl

end Forms

section Closure

/-- The names that are collected are those of the least set. -/
theorem mem_closeIgnored_iff : x ∈ closeIgnored api.shapes names ↔ api.Ignored names x := by
  have href : ∀ {x slot} {ref : ShapeRef}, api.ref? (.part x slot) = some ref ↔
      ∃ s, api.shapes.get? x = some s ∧ s.form.ref? slot = some ref := Option.bind_eq_some_iff
  constructor
  · refine closeIgnored_least (fun x hx => .named hx) (fun x s ref hs hform hin => ?_) x
    rcases ref?_of_element? hform with h | h
    · exact .list (href.mpr ⟨s, hs, h⟩) hin
    · exact .map (href.mpr ⟨s, hs, h⟩) hin
  · intro h
    induction h with
    | named hx => exact closeIgnored_superset hx
    | list he _ ih =>
      obtain ⟨s, hs, hform⟩ := href.mp he
      exact closeIgnored_collects _ s _ hs (element?_of_ref? (.inl hform)) ih
    | map hv _ ih =>
      obtain ⟨s, hs, hform⟩ := href.mp hv
      exact closeIgnored_collects _ s _ hs (element?_of_ref? (.inr hform)) ih

end Closure

section Paths

theorem memberPath_eq_iff : (memberPath path = (x, m) ∧ m ≠ "") ↔ NamesMember path x m := by
  have hparts : NamesMember path x m ↔
      Text.cut? '.' path.toList = some (x.toList, m.toList) ∧ m ≠ "" := by
    rw [Text.cut?_eq_some_iff, NamesMember, ← String.toList_inj]
    simp [and_assoc]
  rw [hparts, memberPath]
  refine and_congr_left fun hne => ?_
  cases Text.cut? '.' path.toList with
  | none => simp [hne.symm]
  | some parts =>
    constructor
    · rintro ⟨⟩
      simp
    · rintro ⟨⟩
      simp

theorem NamesMember.unique {y k : String} (h : NamesMember path x m) (h' : NamesMember path y k) :
    y = x ∧ k = m := by
  obtain ⟨hpath, -⟩ := memberPath_eq_iff.mpr h
  obtain ⟨hpath', -⟩ := memberPath_eq_iff.mpr h'
  cases hpath.symm.trans hpath'
  exact ⟨rfl, rfl⟩

/-- The site of a member that a path names. -/
def AtPath (path : String) (site : Site) : Prop :=
  ∃ x m, site = .part x (.member m) ∧ NamesMember path x m

/-- The same shapes and operations without some of their references. -/
structure Trimmed (gone : Site → Prop) (api api' : Api) : Prop where
  outline : ∀ x, (api'.shapes.get? x).map Shape.outline = (api.shapes.get? x).map Shape.outline
  ref : ∀ site ref, api'.ref? site = some ref ↔ api.ref? site = some ref ∧ ¬gone site

/-- A shape in which a member is missing. -/
def withoutMember (api : Api) (x m : String) (s : Shape) : Api :=
  { api with
    shapes := api.shapes.insert x { s with form := Form.filterMembers (fun k _ => k != m) s.form } }

theorem dropMember?_eq_some (h : api.dropMember? path = some api') :
    ∃ x m s, NamesMember path x m ∧ api.shapes.get? x = some s ∧
      api' = api.withoutMember x m s := by
  unfold dropMember? at h
  generalize hpath : memberPath path = parts at h
  obtain ⟨x, m⟩ := parts
  dsimp only at h
  split at h
  · cases h
  rename_i s hs
  split at h
  · cases h
  rename_i hm
  cases h
  exact ⟨x, m, s, memberPath_eq_iff.mp ⟨hpath, by simpa using hm⟩, hs, rfl⟩

theorem trimmed_of_none (h : api.dropMember? path = none) : Trimmed (AtPath path) api api where
  outline _ := rfl
  ref site ref := by
    refine ⟨fun href => ⟨href, ?_⟩, And.left⟩
    rintro ⟨x, m, rfl, hnames⟩
    obtain ⟨hpath, hm⟩ := memberPath_eq_iff.mpr hnames
    obtain ⟨s, hs, -⟩ := Option.bind_eq_some_iff.mp href
    simp [dropMember?, hpath, shape?, hs, hm] at h

theorem ref?_withoutMember {s : Shape} (hs : api.shapes.get? x = some s) :
    (api.withoutMember x m s).ref? site = some ref ↔
      api.ref? site = some ref ∧ site ≠ .part x (.member m) := by
  cases site with
  | part y slot =>
    by_cases hy : y = x
    · subst hy
      simp only [ref?, withoutMember, Table.get?_insert, if_true, hs, Option.bind_some]
      cases slot with
      | member k =>
        rw [ref?_filterMembers_member, Option.filter_eq_some_iff]
        simp
      | _ =>
        rw [ref?_filterMembers (by simp)]
        simp
    · simp only [ref?, withoutMember, Table.get?_insert, if_neg hy]
      simp [hy]
  | input name | output name => exact (and_iff_left nofun).symm

theorem trimmed_of_some (h : api.dropMember? path = some api') :
    Trimmed (AtPath path) api api' := by
  obtain ⟨x, m, s, hnames, hs, rfl⟩ := dropMember?_eq_some h
  constructor
  case outline =>
    intro y
    rw [withoutMember, Table.get?_insert]
    split
    · rename_i hy
      rw [hy, hs]
      simp [Shape.outline, typeText_filterMembers]
    · rfl
  case ref =>
    intro site ref
    rw [ref?_withoutMember hs]
    refine and_congr_right fun _ => not_congr ⟨fun hsite => ⟨x, m, hsite, hnames⟩, ?_⟩
    rintro ⟨y, k, rfl, hyk⟩
    obtain ⟨rfl, rfl⟩ := hnames.unique hyk
    rfl

theorem Trimmed.trans {gone gone' : Site → Prop} {api'' : Api} (h : Trimmed gone api api')
    (h' : Trimmed gone' api' api'') : Trimmed (fun site => gone site ∨ gone' site) api api'' where
  outline x := (h'.outline x).trans (h.outline x)
  ref site ref := by rw [h'.ref, h.ref, and_assoc, not_or]

/-- What is left when the members at some paths are gone. -/
theorem dropMembers_trimmed (paths : List String) (api : Api) (s : List Record) :
    Trimmed (fun site => ∃ path ∈ paths, AtPath path site) api
      ((dropMembers paths api).run s).1 := by
  induction paths generalizing api s with
  | nil => exact ⟨fun _ => rfl, fun _ _ => (and_iff_left (by simp)).symm⟩
  | cons path rest ih =>
    unfold dropMembers
    simp only [List.exists_mem_cons_iff]
    cases hdrop : api.dropMember? path with
    | some api' => exact (trimmed_of_some hdrop).trans (ih api' s)
    | none =>
      rw [StateT.run_bind]
      exact (trimmed_of_none hdrop).trans (ih api _)

end Paths

section Rules

theorem Trimmed.ignored (h : Trimmed (fun site => ∃ path ∈ paths, AtPath path site) base api) :
    api.Ignored names x ↔ base.Ignored names x := by
  have hsame : ∀ {slot} x ref, (∀ m, slot ≠ .member m) →
      (api.ref? (.part x slot) = some ref ↔ base.ref? (.part x slot) = some ref) := by
    intro slot x ref hslot
    rw [h.ref, and_iff_left]
    rintro ⟨path, -, y, m, heq, -⟩
    cases heq
    exact hslot m rfl
  constructor
  · intro hx
    induction hx with
    | named hx => exact .named hx
    | list he _ ih => exact .list ((hsame _ _ (by simp)).mp he) ih
    | map hv _ ih => exact .map ((hsame _ _ (by simp)).mp hv) ih
  · intro hx
    induction hx with
    | named hx => exact .named hx
    | list he _ ih => exact .list ((hsame _ _ (by simp)).mpr he) ih
    | map hv _ ih => exact .map ((hsame _ _ (by simp)).mpr hv) ih

theorem get?_dropIgnored (ignored : List String) (x : String) :
    (api.dropIgnored ignored).shapes.get? x = if x ∈ ignored then none else
      (api.shapes.get? x).map fun s => { s with
        form := Form.filterMembers (fun _ ref => !ignored.contains ref.target) s.form } := by
  unfold dropIgnored
  dsimp only
  rw [Table.get?_map, Table.get?_filter]
  by_cases hx : x ∈ ignored
  · cases api.shapes.get? x <;> simp [hx]
  · cases api.shapes.get? x <;> simp [hx]

theorem not_ignored_nil : ¬api.Ignored [] x := by
  intro h
  induction h with
  | named hx => cases hx
  | list _ _ ih => exact ih
  | map _ _ ih => exact ih

theorem removed_part_iff {slot : Slot} (hx : ¬api.Ignored names x) :
    api.Removed names [] (.part x slot) ref ↔
      (∃ m, slot = .member m) ∧ api.Ignored names ref.target := by
  constructor
  · rintro (h | ⟨hpath, -⟩ | h)
    · exact absurd h hx
    · cases hpath
    · exact ⟨⟨_, rfl⟩, h⟩
  · rintro ⟨⟨m, rfl⟩, h⟩
    exact .member h

theorem ref?_dropIgnored {ignored : List String}
    (hignored : ∀ x, x ∈ ignored ↔ api.Ignored names x) :
    (api.dropIgnored ignored).ref? site = some ref ↔
      api.ref? site = some ref ∧ ¬api.Removed names [] site ref := by
  cases site with
  | part x slot =>
    simp only [ref?, get?_dropIgnored]
    split
    · rename_i hx
      have hremoved : api.Removed names [] (.part x slot) ref := .shape ((hignored x).mp hx)
      simp [hremoved]
    · rename_i hx
      rw [removed_part_iff (mt (hignored x).mpr hx)]
      cases hs : api.shapes.get? x with
      | none => simp
      | some s =>
        simp only [Option.map_some, Option.bind_some]
        cases slot with
        | member m =>
          rw [ref?_filterMembers_member, Option.filter_eq_some_iff]
          simp [hignored]
        | _ =>
          rw [ref?_filterMembers (by simp)]
          simp
  | input name =>
    have hremoved : api.Removed names [] (.input name) ref ↔ api.Ignored names ref.target :=
      ⟨fun | .input h => h, .input⟩
    rw [hremoved, ← hignored]
    simp only [ref?, dropIgnored, Table.get?_map]
    cases api.operations.get? name <;> simp [Option.filter_eq_some_iff]
  | output name =>
    have hremoved : api.Removed names [] (.output name) ref ↔ api.Ignored names ref.target :=
      ⟨fun | .output h => h, .output⟩
    rw [hremoved, ← hignored]
    simp only [ref?, dropIgnored, Table.get?_map]
    cases api.operations.get? name <;> simp [Option.filter_eq_some_iff]

theorem ref?_ignoreShapes : (api.ignoreShapes names).ref? site = some ref ↔
    api.ref? site = some ref ∧ ¬api.Removed names [] site ref := by
  unfold ignoreShapes
  split
  · rename_i hnone
    rw [List.isEmpty_iff] at hnone
    subst hnone
    refine (and_iff_left ?_).symm
    rintro (h | ⟨hpath, -⟩ | h | h | h)
    · exact not_ignored_nil h
    · cases hpath
    all_goals exact not_ignored_nil h
  · exact ref?_dropIgnored fun x => mem_closeIgnored_iff

theorem get?_ignoreShapes (x : String) :
    (api.Ignored names x → (api.ignoreShapes names).shapes.get? x = none) ∧
      (¬api.Ignored names x → ((api.ignoreShapes names).shapes.get? x).map Shape.outline =
        (api.shapes.get? x).map Shape.outline) := by
  unfold ignoreShapes
  split
  · rename_i hnone
    rw [List.isEmpty_iff] at hnone
    subst hnone
    exact ⟨fun h => absurd h not_ignored_nil, fun _ => rfl⟩
  · rw [get?_dropIgnored, ← mem_closeIgnored_iff]
    refine ⟨fun h => if_pos h, fun h => ?_⟩
    rw [if_neg h]
    cases api.shapes.get? x <;> simp [Shape.outline, typeText_filterMembers]

/-- Taking the members at the paths away first makes no difference to what is ignored. -/
theorem removed_iff (h : Trimmed (fun site => ∃ path ∈ paths, AtPath path site) base api) :
    base.Removed names paths site ref ↔
      (∃ path ∈ paths, AtPath path site) ∨ api.Removed names [] site ref := by
  constructor
  · rintro (hx | ⟨hpath, hnames⟩ | href | href | href)
    · exact .inr (.shape (h.ignored.mpr hx))
    · exact .inl ⟨_, hpath, _, _, rfl, hnames⟩
    · exact .inr (.member (h.ignored.mpr href))
    · exact .inr (.input (h.ignored.mpr href))
    · exact .inr (.output (h.ignored.mpr href))
  · rintro (⟨path, hpath, x, m, rfl, hnames⟩ | hx | ⟨hpath, -⟩ | href | href | href)
    · exact .path hpath hnames
    · exact .shape (h.ignored.mp hx)
    · cases hpath
    · exact .member (h.ignored.mp href)
    · exact .input (h.ignored.mp href)
    · exact .output (h.ignored.mp href)

/-- What is left of an API when shapes are ignored and the members at some paths are taken away. -/
structure Remains (base : Api) (names paths : List String) (api : Api) : Prop where
  shapes : ∀ x, x ∈ api.shapes.keys ↔ x ∈ base.shapes.keys ∧ ¬base.Ignored names x
  outline : ∀ x ∈ api.shapes.keys,
    (api.shapes.get? x).map Shape.outline = (base.shapes.get? x).map Shape.outline
  refs : ∀ site ref, api.ref? site = some ref ↔
    base.ref? site = some ref ∧ ¬base.Removed names paths site ref

theorem Trimmed.remains (h : Trimmed (fun site => ∃ path ∈ paths, AtPath path site) base api) :
    Remains base names paths (api.ignoreShapes names) := by
  have hgone : ∀ {x}, base.Ignored names x → (api.ignoreShapes names).shapes.get? x = none :=
    fun hx => (get?_ignoreShapes _).1 (h.ignored.mpr hx)
  have hkept : ∀ {x}, ¬base.Ignored names x →
      ((api.ignoreShapes names).shapes.get? x).map Shape.outline =
        (base.shapes.get? x).map Shape.outline :=
    fun hx => ((get?_ignoreShapes _).2 (mt h.ignored.mp hx)).trans (h.outline _)
  have hnot : ∀ x ∈ (api.ignoreShapes names).shapes.keys, ¬base.Ignored names x := by
    intro x hin hx
    exact Table.get?_eq_none_iff.mp (hgone hx) hin
  constructor
  case shapes =>
    intro x
    have hsame : ¬base.Ignored names x →
        (x ∈ (api.ignoreShapes names).shapes.keys ↔ x ∈ base.shapes.keys) := by
      intro hx
      rw [← not_iff_not, ← Table.get?_eq_none_iff, ← Table.get?_eq_none_iff,
        ← Option.map_eq_none_iff (f := Shape.outline), hkept hx, Option.map_eq_none_iff]
    exact ⟨fun hin => ⟨(hsame (hnot x hin)).mp hin, hnot x hin⟩,
      fun ⟨hin, hx⟩ => (hsame hx).mpr hin⟩
  case outline => exact fun x hin => hkept (hnot x hin)
  case refs =>
    intro site ref
    rw [ref?_ignoreShapes, h.ref, removed_iff h, not_or, and_assoc]

theorem ofDocument_run (doc : Json) (names paths : List String) :
    (ofDocument doc names paths).run = match read doc with
      | .error e => (.error (.schema e), [])
      | .ok base => (.ok (((dropMembers paths base).run []).1.ignoreShapes names),
          ((dropMembers paths base).run []).2) := by
  unfold ofDocument
  cases read doc <;> rfl

variable {doc : Json} {records : List Record}

theorem ofDocument_remains (h : (ofDocument doc names paths).run = (.ok api, records)) :
    ∃ base, read doc = .ok base ∧ Remains base names paths api := by
  rw [ofDocument_run] at h
  split at h
  · cases h
  · rename_i base hbase
    cases h
    exact ⟨base, hbase, (dropMembers_trimmed paths base []).remains⟩

/-- The rules take away the shapes of the least set and the references that they say, and nothing
else, in whatever order the shapes stand. -/
theorem ignore_rules_exact (h : (ofDocument doc names paths).run = (.ok api, records)) :
    ∃ base, read doc = .ok base ∧
      (∀ x, x ∈ api.shapes.keys ↔ x ∈ base.shapes.keys ∧ ¬base.Ignored names x) ∧
      (∀ x ∈ api.shapes.keys,
        (api.shapes.get? x).map Shape.outline = (base.shapes.get? x).map Shape.outline) ∧
      (∀ site ref, api.ref? site = some ref ↔
        base.ref? site = some ref ∧ ¬base.Removed names paths site ref) ∧
      ∀ doc', doc.Same doc' → ∃ api' records',
        (ofDocument doc' names paths).run = (.ok api', records') ∧ api.Same api' := by
  obtain ⟨base, hbase, hremains⟩ := ofDocument_remains h
  refine ⟨base, hbase, hremains.shapes, hremains.outline, hremains.refs, fun doc' hsame => ?_⟩
  obtain ⟨base', hbase', hbases⟩ := read_same hsame base hbase
  rw [ofDocument_run, hbase] at h
  rw [ofDocument_run, hbase']
  cases h
  exact ⟨_, _, rfl, (hbases.dropMembers paths [] []).ignoreShapes names⟩

end Rules

namespace Sample

def refTo (target : String) : Json := .obj [("shape", .str target)]

def structOf (members : List (String × String)) : Json :=
  .obj [("type", .str "structure"), ("members", .obj (members.map fun e => (e.1, refTo e.2)))]

def listOf (element : String) : Json := .obj [("type", .str "list"), ("member", refTo element)]

def mapOf (key value : String) : Json :=
  .obj [("type", .str "map"), ("key", refTo key), ("value", refTo value)]

def textOf : Json := .obj [("type", .str "string")]

/-- A box with its shapes; creating one gives a lid. -/
def boxed (shapes : List (String × Json)) : Json :=
  .obj [
    ("operations", .obj [("CreateBox", .obj [("input", refTo "Box"), ("output", refTo "Lid")])]),
    ("shapes", .obj shapes)]

def lidded : Json :=
  boxed [("LidMap", mapOf "Text" "Lids"),
    ("Box", structOf [("Lids", "LidMap"), ("Name", "Text"), ("Odd", "Ghost"), ("Size", "Text")]),
    ("Lids", listOf "Lid"), ("Lid", structOf []), ("Loop", listOf "Loop"), ("Text", textOf)]

/-- A reference without documentation. -/
def bare (target : String) : ShapeRef := ⟨target, ""⟩

def plain (form : Form) : Shape := ⟨form, [], false, ""⟩

def boxApi (shapes : List (String × Shape)) : Api where
  serviceId := ""
  apiVersion := ""
  shapes := .ofList shapes
  operations := .ofList [("CreateBox", ⟨"CreateBox", some (bare "Box"), some (bare "Lid")⟩)]

def liddedApi : Api :=
  boxApi [("LidMap", plain (.map (bare "Text") (bare "Lids"))),
    ("Box", plain (.struct (.ofList [("Lids", bare "LidMap"), ("Name", bare "Text"),
      ("Odd", bare "Ghost"), ("Size", bare "Text")]))),
    ("Lids", plain (.list (bare "Lid"))), ("Lid", plain (.struct ∅)),
    ("Loop", plain (.list (bare "Loop"))), ("Text", plain (.scalar .string))]

theorem lidded_read : read lidded = .ok liddedApi := by rfl

theorem lidded_runs : ((ofDocument lidded ["Lid", "Ghost"] ["Box.Name"]).run.1.toOption.any
    fun api => api.shapes.keys.contains "Loop") = true := by
  decide +kernel

end Sample

open Sample in
/-- The map of lists of lids goes with the lid, and so does the member with the undefined shape. -/
theorem ignore_rules_exact_lids : ∃ api records,
    (ofDocument lidded ["Lid", "Ghost"] ["Box.Name"]).run = (.ok api, records) ∧
      "LidMap" ∉ api.shapes.keys ∧ "Loop" ∈ api.shapes.keys ∧
      api.ref? (.part "Box" (.member "Odd")) = none := by
  have hloop := lidded_runs
  cases hrun : (ofDocument lidded ["Lid", "Ghost"] ["Box.Name"]).run with
  | mk result records =>
    rw [hrun] at hloop
    cases result with
    | error e => cases hloop
    | ok api =>
      obtain ⟨base, hbase, hshapes, -, hrefs, -⟩ := ignore_rules_exact hrun
      cases lidded_read.symm.trans hbase
      have hlids : liddedApi.Ignored ["Lid", "Ghost"] "Lids" :=
        .list (e := bare "Lid") rfl (.named (by decide))
      refine ⟨api, records, rfl, ?_, List.contains_iff_mem.mp hloop, ?_⟩
      · exact fun hin => ((hshapes _).mp hin).2 (.map (v := bare "Lids") rfl hlids)
      · refine Option.eq_none_iff_forall_ne_some.mpr fun ref href => ?_
        obtain ⟨hold, hstays⟩ := (hrefs _ _).mp href
        cases hold
        exact hstays (.member (.named (by decide)))

end Api

end ResourceVersions
