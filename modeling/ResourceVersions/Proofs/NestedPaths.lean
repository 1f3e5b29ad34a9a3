import ResourceVersions.Proofs.NestedFields

/-! # Which fields are below fields

Below a field there is one field for every way down along members of structures on which no
structure comes twice. Its path spells the way, and no other way is spelled like it. -/
namespace ResourceVersions

/-- One step down: the number of lists and maps passed, the structure behind them, a member of it
and what the member refers to. -/
structure Descent where
  depth : Nat
  owner : String
  member : String
  ref : ShapeRef

/-- The path of what a way below a path leads to. -/
def FieldPath.below (path : String) (way : List Descent) : String :=
  way.foldl (fun path d => child path (0 < d.depth) d.member) path

namespace Api

open Relation (ReflTransGen)

variable {api : Api} {active : List String} {shape name owner k : String} {n : Nat} {d : Descent}
  {way way' : List Descent}

/-- A way down from a shape; every step goes on from where the one before it has led. -/
def Descends (api : Api) : String → List Descent → Prop
  | _, [] => True
  | shape, d :: way =>
    (api.Behind d.depth shape d.owner ∧ api.Owns d.owner d.member d.ref) ∧
      api.Descends d.ref.target way

/-- A way down on which no structure comes twice, nor one of those around it. -/
structure Simple (api : Api) (active : List String) (shape : String) (way : List Descent) :
    Prop where
  descends : api.Descends shape way
  apart : (way.map Descent.owner).Nodup
  fresh : ∀ d ∈ way, d.owner ∉ active

/-- The shape that a way leads to. -/
def destination (shape : String) (way : List Descent) : String :=
  way.foldl (fun _ d => d.ref.target) shape

theorem Behind.isCollection (h : api.Behind n name owner) :
    api.isCollection name = decide (0 < n) := by
  cases h with
  | here hs hend => simp [Api.isCollection, shape?, hs, hend]
  | through hs href _ => simp [Api.isCollection, shape?, hs, href]

theorem destination_concat : destination shape (way ++ [d]) = d.ref.target := by
  simp [destination]

theorem descends_concat : api.Descends shape (way ++ [d]) ↔ api.Descends shape way ∧
    api.Behind d.depth (destination shape way) d.owner ∧ api.Owns d.owner d.member d.ref := by
  induction way generalizing shape with
  | nil => simp [Descends, destination]
  | cons e way ih => simp [Descends, ih, destination, and_assoc]

/-- The structure that the first step opens is one of those around the other steps. -/
theorem simple_cons : api.Simple active shape (d :: way) ↔
    (api.Behind d.depth shape d.owner ∧ api.Owns d.owner d.member d.ref) ∧ d.owner ∉ active ∧
      api.Simple (d.owner :: active) d.ref.target way := by
  constructor
  · rintro ⟨⟨hstep, hrest⟩, hapart, hfresh⟩
    obtain ⟨hd, hapart⟩ := List.nodup_cons.mp hapart
    obtain ⟨hnew, hfresh⟩ := List.forall_mem_cons.mp hfresh
    refine ⟨hstep, hnew, hrest, hapart, ?_⟩
    intro e he hin
    rcases List.mem_cons.mp hin with heq | hin
    · exact hd (heq ▸ List.mem_map_of_mem he)
    · exact hfresh e he hin
  · rintro ⟨hstep, hnew, hrest, hapart, hfresh⟩
    refine ⟨⟨hstep, hrest⟩, List.nodup_cons.mpr ⟨?_, hapart⟩, List.forall_mem_cons.mpr ⟨hnew, ?_⟩⟩
    · intro hin
      obtain ⟨e, he, heq⟩ := List.mem_map.mp hin
      exact hfresh e he (heq ▸ List.mem_cons_self)
    · intro e he hin
      exact hfresh e he (List.mem_cons_of_mem _ hin)

theorem Simple.init (h : api.Simple active shape (way ++ [d])) : api.Simple active shape way where
  descends := (descends_concat.mp h.descends).1
  apart := by
    have hapart := h.apart
    rw [List.map_append] at hapart
    exact hapart.of_append_left
  fresh e he := h.fresh e (List.mem_append_left _ he)

section Spelling

variable (hdot : api.Undotted) (hk : '.' ∉ k.toList)

theorem below_concat : FieldPath.below k (way ++ [d]) =
    FieldPath.child (FieldPath.below k way) (0 < d.depth) d.member := by
  simp [FieldPath.below]

theorem below_dotted : '.' ∈ (FieldPath.below k (way ++ [d])).toList :=
  below_concat ▸ Resource.child_dotted _ _ _

/-- A way leads from field to field. -/
theorem enters_below (h : api.Descends shape way) (hnamed : ∀ d ∈ way, d.member ≠ "") :
    ReflTransGen api.Enters ⟨k, shape⟩ ⟨FieldPath.below k way, destination shape way⟩ := by
  induction way using List.reverseRecOn with
  | nil => exact .refl
  | append_singleton way d ih =>
    obtain ⟨hway, hbehind, howns⟩ := descends_concat.mp h
    have hinit := ih hway fun e he => hnamed e (List.mem_append_left _ he)
    have hlast : api.Enters ⟨FieldPath.below k way, destination shape way⟩
        ⟨FieldPath.child (FieldPath.below k way) (api.isCollection (destination shape way)) d.member,
          d.ref.target⟩ := .member hbehind howns (hnamed d (by simp))
    rw [hbehind.isCollection, ← below_concat] at hlast
    rw [destination_concat]
    exact hinit.tail hlast

include hdot hk in
/-- The path without its last separator and member spells the way without its last step. -/
theorem parent_below (h : api.Descends shape (way ++ [d]))
    (hnamed : ∀ e ∈ way ++ [d], e.member ≠ "") :
    FieldPath.parent (FieldPath.below k (way ++ [d])) = FieldPath.below k way := by
  obtain ⟨hway, -, howns⟩ := descends_concat.mp h
  have hinit : ∀ e ∈ way, e.member ≠ "" := fun e he => hnamed e (List.mem_append_left _ he)
  rw [below_concat]
  exact FieldPath.parent_child (closed_of_enters hdot (enters_below hway hinit) hk)
    (hdot _ _ _ howns)

include hdot hk in
/-- Different ways from one field have different paths. -/
theorem below_inj (h : api.Descends shape way) (h' : api.Descends shape way')
    (hnamed : ∀ d ∈ way, d.member ≠ "") (hnamed' : ∀ d ∈ way', d.member ≠ "")
    (heq : FieldPath.below k way = FieldPath.below k way') : way = way' := by
  induction way using List.reverseRecOn generalizing way' with
  | nil =>
    cases way' using List.reverseRecOn with
    | nil => rfl
    | append_singleton way' d' =>
      have hdotted : '.' ∈ (FieldPath.below k []).toList := heq ▸ below_dotted
      exact absurd hdotted hk
  | append_singleton way d ih =>
    cases way' using List.reverseRecOn with
    | nil =>
      have hdotted : '.' ∈ (FieldPath.below k []).toList := heq ▸ below_dotted
      exact absurd hdotted hk
    | append_singleton way' d' =>
      have hparent := congrArg FieldPath.parent heq
      rw [parent_below hdot hk h hnamed, parent_below hdot hk h' hnamed'] at hparent
      obtain ⟨hway, hbehind, howns⟩ := descends_concat.mp h
      obtain ⟨hway', hbehind', howns'⟩ := descends_concat.mp h'
      -- the ways without their last steps are spelled alike, and they end at one shape
      obtain rfl := ih hway hway' (fun e he => hnamed e (List.mem_append_left _ he))
        (fun e he => hnamed' e (List.mem_append_left _ he)) hparent
      have hlast := congrArg FieldPath.last heq
      rw [below_concat, below_concat, FieldPath.last_child (hdot _ _ _ howns),
        FieldPath.last_child (hdot _ _ _ howns')] at hlast
      obtain ⟨depth, owner, member, ref⟩ := d
      obtain ⟨depth', owner', member', ref'⟩ := d'
      obtain ⟨rfl, rfl⟩ := hbehind.unique hbehind'
      obtain rfl : member = member' := hlast
      obtain rfl := howns.unique howns'
      rfl

end Spelling

end Api

namespace Resource

variable {api : Api} {r r' : Resource} {active : List String} {path shape owner member k : String}
  {ref : ShapeRef} {n : Nat} {nested : List NestedField} {f : NestedField} {o : Bool} {t : Field}
  {way : List Descent} {last : Descent}

/-- A member of a structure that is not open yet is listed, in front of what is below it. -/
theorem nestedFrom_member (h : nestedFrom api active path shape = .ok nested)
    (hbehind : api.Behind n shape owner) (howns : api.Owns owner member ref)
    (hactive : owner ∉ active) :
    ∃ names below, api.requireDefined ref = .ok () ∧ Names.of member = .ok names ∧
      nestedFrom api (owner :: active) (FieldPath.child path (0 < n) member) ref.target =
        .ok below ∧
      ∀ g ∈ ⟨FieldPath.child path (0 < n) member, names, ref⟩ :: below, g ∈ nested := by
  rw [nestedFrom, hbehind.isCollection] at h
  obtain ⟨inner, hinner, h⟩ := Fallible.bind_ok_iff.mp h
  obtain ⟨k, hinner⟩ := Api.behind_of_innermostFrom (Fallible.mapError_ok_iff.mp hinner)
  obtain ⟨rfl, rfl⟩ := hbehind.unique hinner
  obtain ⟨held, members, hs, hform, hmember⟩ := howns
  split at h
  · rename_i members' enum isException documentation hs'
    cases hs.symm.trans hs'
    cases hform
    rw [dif_neg hactive] at h
    obtain ⟨groups, hgroups, h⟩ := Fallible.bind_ok_iff.mp h
    cases h
    have hsorted := Table.mem_sorted_iff.mpr hmember
    obtain ⟨group, hgroup, hstep⟩ := Fallible.mapM_ok_step hgroups hsorted
    obtain ⟨⟨⟩, hdefined, hstep⟩ := Fallible.bind_ok_iff.mp hstep
    obtain ⟨names, hnames, hstep⟩ := Fallible.bind_ok_iff.mp hstep
    obtain ⟨below, hbelow, hstep⟩ := Fallible.bind_ok_iff.mp hstep
    cases hstep
    exact ⟨names, below, Fallible.mapError_ok_iff.mp hdefined, hnames, hbelow,
      fun g hg => List.mem_flatten.mpr ⟨_, hgroup, hg⟩⟩
  · rename_i hno
    obtain ⟨form, enum, isException, documentation⟩ := held
    cases hform
    exact absurd hs (hno _ _ _ _)

/-- What is listed below a path is where a way leads from there. -/
theorem nestedFrom_way (h : nestedFrom api active path shape = .ok nested) (hf : f ∈ nested) :
    ∃ way last, api.Simple active shape (way ++ [last]) ∧
      (∀ d ∈ way ++ [last], d.member ≠ "") ∧ f.path = FieldPath.below path (way ++ [last]) ∧
      f.ref = last.ref := by
  induction active, path, shape using nestedFrom.induct api generalizing nested with
  | case1 active path shape ih =>
    obtain ⟨inner, members, enum, isException, documentation, member, ref, names, below, hinner,
      hs, hactive, hmember, hnames, hbelow, hf, -⟩ := nestedFrom_mem h hf
    obtain ⟨n, hbehind⟩ := Api.behind_of_innermostFrom hinner
    rw [hbehind.isCollection] at hf
    have hne : member ≠ "" := Names.given_ne_empty hnames
    let d : Descent := ⟨n, inner, member, ref⟩
    have hstep : api.Behind d.depth shape d.owner ∧ api.Owns d.owner d.member d.ref :=
      ⟨hbehind, _, members, hs, rfl, hmember⟩
    rcases List.mem_cons.mp hf with rfl | hf
    · have hrest : api.Simple (inner :: active) ref.target [] :=
        ⟨trivial, List.nodup_nil, List.forall_mem_nil _⟩
      exact ⟨[], d, Api.simple_cons.mpr ⟨hstep, hactive, hrest⟩,
        List.forall_mem_singleton.mpr hne, rfl, rfl⟩
    · -- what is opened here stays open below, so the way does not come back to it
      obtain ⟨way, last, hway, hnamed, hpath, href⟩ :=
        ih inner members enum isException documentation hs hactive member ref hbelow hf
      refine ⟨d :: way, last, Api.simple_cons.mpr ⟨hstep, hactive, hway⟩,
        List.forall_mem_cons.mpr ⟨hne, hnamed⟩, ?_, href⟩
      rw [hpath, hbehind.isCollection]
      rfl

/-- Wherever a way leads, something is listed. -/
theorem way_listed (h : nestedFrom api active path shape = .ok nested)
    (hway : api.Simple active shape (way ++ [last])) :
    (∀ d ∈ way ++ [last], d.member ≠ "") ∧
      ∃ f ∈ nested, f.path = FieldPath.below path (way ++ [last]) ∧ f.ref = last.ref := by
  induction way generalizing active path shape nested with
  | nil =>
    obtain ⟨⟨hbehind, howns⟩, hactive, -⟩ := Api.simple_cons.mp hway
    obtain ⟨names, below, -, hnames, -, hsub⟩ := nestedFrom_member h hbehind howns hactive
    exact ⟨List.forall_mem_singleton.mpr (Names.given_ne_empty hnames), _,
      hsub _ List.mem_cons_self, rfl, rfl⟩
  | cons d way ih =>
    obtain ⟨⟨hbehind, howns⟩, hactive, hrest⟩ := Api.simple_cons.mp hway
    obtain ⟨names, below, -, hnames, hbelow, hsub⟩ := nestedFrom_member h hbehind howns hactive
    obtain ⟨hnamed, f, hf, hpath, href⟩ := ih hbelow hrest
    exact ⟨List.forall_mem_cons.mpr ⟨Names.given_ne_empty hnames, hnamed⟩, f,
      hsub f (List.mem_cons_of_mem _ hf), hpath, href⟩

/-- Whatever has a shape in the Spec or the Status is opened. -/
theorem nestedFields_top (h : r.nestedFields api = .ok nested) (ht : (r.part o).get? k = some t)
    (hshape : t.shape? = some shape) :
    ∃ group, nestedFrom api [] t.path shape = .ok group ∧ ∀ g ∈ group, g ∈ nested := by
  obtain ⟨groups, hgroups, h⟩ := Fallible.bind_ok_iff.mp h
  cases h
  have hin : t ∈ (r.spec.sorted ++ r.status.sorted).map Prod.snd := by
    apply List.mem_map.mpr
    refine ⟨(k, t), List.mem_append.mpr ?_, rfl⟩
    cases o with
    | false => exact .inl (Table.mem_sorted_iff.mpr ht)
    | true => exact .inr (Table.mem_sorted_iff.mpr ht)
  obtain ⟨group, hgroup, hopen⟩ := Fallible.mapM_ok_step hgroups hin
  rw [hshape] at hopen
  exact ⟨group, hopen, fun g hg => List.mem_flatten.mpr ⟨_, hgroup, hg⟩⟩

section Assembled

/-- What additions to the Spec and the Status make of a resource without fields. -/
inductive Assembled : Resource → Prop
  | blank {r : Resource} : r.Blank → Assembled r
  | addSpec {r : Resource} {given : String} {n : Names} (ref? : Option ShapeRef) :
      Assembled r → Names.of given = .ok n → Assembled (r.addSpec n ref?)
  | addStatus {r : Resource} {given : String} {n : Names} (ref? : Option ShapeRef) :
      Assembled r → Names.of given = .ok n → Assembled (r.addStatus n ref?)
  | identify {r : Resource} (member : String) :
      Assembled r → Assembled { r with identifier? := some member }

theorem assembled_kept : Kept Assembled := ⟨.addSpec, .addStatus, .identify⟩

/-- What a resource without fields has, and keeps, every assembled resource has. -/
theorem Kept.assembled {P : Resource → Prop} (hP : Kept P) (hblank : ∀ {r}, r.Blank → P r)
    (h : r.Assembled) : P r := by
  induction h with
  | blank h => exact hblank h
  | addSpec ref? _ hn ih => exact hP.addSpec ref? ih hn
  | addStatus ref? _ hn ih => exact hP.addStatus ref? ih hn
  | identify member _ ih => exact hP.identify member ih

/-- The resource of a create operation is assembled when its fields are opened. -/
theorem assembled_topFields (api : Api) (names : Names) (ops : ResourceOps)
    (settings : ResourceConfig) :
    Yields Assembled (addTopFields api { names, ops, settings }) := by
  refine assembled_kept.addTopFields (.blank ⟨?_, rfl, rfl⟩)
  intro o
  cases o <;> rfl

/-- The fields of a part stand under their paths, which are keys of all fields. -/
def Filed (r : Resource) : Prop :=
  ∀ o k t, (r.part o).get? k = some t → t.path = k ∧ k ∈ r.fields.keys

theorem Filed.write (h : r.Filed) {f : Field} (o : Bool)
    (hfields : r'.fields = r.fields.insert f.path f)
    (hpart : ∀ o', r'.part o' = if o' = o then (r.part o').insert f.path f else r.part o') :
    r'.Filed := by
  intro o' k t ht
  rw [hfields, Table.mem_keys_insert]
  have hkept : (r.part o').get? k = some t → t.path = k ∧ (k = f.path ∨ k ∈ r.fields.keys) := by
    intro hold
    obtain ⟨hpath, hk⟩ := h o' k t hold
    exact ⟨hpath, .inr hk⟩
  rw [hpart] at ht
  split at ht
  · rw [Table.get?_insert] at ht
    split at ht
    · rename_i hk
      cases ht
      exact ⟨hk.symm, .inl hk⟩
    · exact hkept ht
  · exact hkept ht

theorem filed_kept : Kept Filed where
  addSpec _ h _ := h.write false rfl fun o => by cases o <;> rfl
  addStatus _ h _ := h.write true rfl fun o => by cases o <;> rfl
  identify _ h := h

theorem Blank.flat (h : r.Blank) : r.Flat := by
  intro k f hf
  rw [h.fields] at hf
  cases hf

theorem Blank.filed (h : r.Blank) : r.Filed := by
  intro o k t ht
  rw [h.part] at ht
  cases ht

end Assembled

section Exactly

/-- A path below a field of the Spec or the Status, spelled by a way from the field's shape on
which no structure comes twice. -/
def NestedPath (api : Api) (r : Resource) (path : String) (way : List Descent) : Prop :=
  ∃ o top t shape, (r.part o).get? top = some t ∧ t.shape? = some shape ∧
    api.Simple [] shape way ∧ path = FieldPath.below top way

variable {p : String} {s s' : List Record}

/-- The path says which field a way starts from, and which way it is. -/
theorem NestedPath.unique (hflat : r.Flat) (hfiled : r.Filed)
    (halone : ∀ k, k ∉ r.spec.keys ∨ k ∉ r.status.keys) (hdot : api.Undotted)
    {way' : List Descent} (h : r.NestedPath api p way) (h' : r.NestedPath api p way')
    (hnamed : ∀ d ∈ way, d.member ≠ "") (hnamed' : ∀ d ∈ way', d.member ≠ "") : way = way' := by
  obtain ⟨o, k, t, shape, ht, hshape, hway, rfl⟩ := h
  obtain ⟨o', k', t', shape', ht', hshape', hway', heq⟩ := h'
  have hdotless : ∀ {o k t}, (r.part o).get? k = some t → '.' ∉ k.toList := by
    intro o k t ht
    obtain ⟨f, hf⟩ := Table.mem_keys_iff.mp (hfiled o k t ht).2
    exact (hflat k f hf).1
  have htop := congrArg FieldPath.top heq
  rw [Api.top_of_enters (Api.enters_below hway.descends hnamed) (hdotless ht),
    Api.top_of_enters (Api.enters_below hway'.descends hnamed') (hdotless ht')] at htop
  subst htop
  obtain rfl := part_alone (halone k) (Table.mem_keys_iff.mpr ⟨t, ht⟩)
    (Table.mem_keys_iff.mpr ⟨t', ht'⟩)
  cases ht.symm.trans ht'
  cases hshape.symm.trans hshape'
  exact Api.below_inj hdot (hdotless ht) hway.descends hway'.descends hnamed hnamed' heq

/-- What is listed has a nested path. -/
theorem nestedPath_of_listed (hfiled : r.Filed) (h : r.nestedFields api = .ok nested)
    (hf : f ∈ nested) : ∃ way last, r.NestedPath api f.path (way ++ [last]) ∧
      (∀ d ∈ way ++ [last], d.member ≠ "") ∧ f.ref = last.ref := by
  obtain ⟨o, k, t, shape, group, ht, hshape, hgroup, hf, -⟩ := nestedFields_mem h hf
  obtain ⟨way, last, hway, hnamed, hpath, href⟩ := nestedFrom_way hgroup hf
  rw [(hfiled o k t ht).1] at hpath
  exact ⟨way, last, ⟨o, k, t, shape, ht, hshape, hway, hpath⟩, hnamed, href⟩

/-- Every nested path is listed. -/
theorem NestedPath.listed (hfiled : r.Filed) (h : r.nestedFields api = .ok nested)
    (hp : r.NestedPath api p (way ++ [last])) : (∀ d ∈ way ++ [last], d.member ≠ "") ∧
      ∃ f ∈ nested, f.path = p ∧ f.ref = last.ref := by
  obtain ⟨o, k, t, shape, ht, hshape, hway, rfl⟩ := hp
  obtain ⟨group, hgroup, hsub⟩ := nestedFields_top h ht hshape
  obtain ⟨hnamed, f, hf, hpath, href⟩ := way_listed hgroup hway
  rw [(hfiled o k t ht).1] at hpath
  exact ⟨hnamed, f, hsub f hf, hpath, href⟩

/-- What a nested path continues is a field of the Spec or the Status, or has a nested path. -/
theorem NestedPath.parent (hflat : r.Flat) (hfiled : r.Filed) (hdot : api.Undotted)
    (h : r.NestedPath api p (way ++ [last])) (hnamed : ∀ d ∈ way ++ [last], d.member ≠ "") :
    p = FieldPath.child (FieldPath.parent p) (0 < last.depth) last.member ∧
      ((∃ o, FieldPath.parent p ∈ (r.part o).keys) ∨
        ∃ way' last', r.NestedPath api (FieldPath.parent p) (way' ++ [last'])) := by
  obtain ⟨o, k, t, shape, ht, hshape, hway, rfl⟩ := h
  obtain ⟨f, hf⟩ := Table.mem_keys_iff.mp (hfiled o k t ht).2
  have hparent := Api.parent_below hdot (hflat k f hf).1 hway.descends hnamed
  rw [hparent]
  refine ⟨Api.below_concat, ?_⟩
  cases way using List.reverseRecOn with
  | nil => exact .inl ⟨o, Table.mem_keys_iff.mpr ⟨t, ht⟩⟩
  | append_singleton way' last' =>
    exact .inr ⟨way', last', o, k, t, shape, ht, hshape, hway.init, rfl⟩

/-- The fields below those of the Spec and the Status are where the ways lead on which no structure
comes twice. Each holds what the last member on its way refers to, and is below a field. -/
theorem nested_fields_exact (hr : r.Assembled)
    (halone : ∀ k, k ∉ r.spec.keys ∨ k ∉ r.status.keys) (hdot : api.Undotted)
    (hrun : runFrom (r.addNestedFields api) s = (.ok r', s')) :
    (∀ p, p ∈ r'.fields.keys ∧ FieldPath.isNested p = true ↔
      ∃ way last, r.NestedPath api p (way ++ [last])) ∧
    ∀ p way last, r.NestedPath api p (way ++ [last]) →
      (∃ f, r'.fields.get? p = some f ∧ f.ref? = some last.ref) ∧
      p = FieldPath.child (FieldPath.parent p) (0 < last.depth) last.member ∧
      FieldPath.parent p ∈ r'.fields.keys := by
  have hflat : r.Flat := flat_kept.assembled Blank.flat hr
  have hfiled : r.Filed := filed_kept.assembled Blank.filed hr
  obtain ⟨nested, hopened⟩ := opened_addNestedFields hflat s r' s' hrun
  have hdeep := addNestedFields_deepened api r s r' s' hrun
  have hnested : r.nestedFields api = .ok nested :=
    (nestedFields_congr (hdeep.part false) (hdeep.part true)).symm.trans hopened.all
  have hkey : ∀ p, (∃ way last, r.NestedPath api p (way ++ [last])) →
      p ∈ r'.fields.keys ∧ '.' ∈ p.toList := by
    rintro p ⟨way, last, hp⟩
    obtain ⟨-, g, hg, rfl, -⟩ := hp.listed hfiled hnested
    exact ⟨Table.mem_keys_iff.mpr (hopened.listed g hg), nestedFields_dotted hnested g hg⟩
  constructor
  · intro p
    rw [FieldPath.isNested, List.contains_iff_mem]
    refine ⟨?_, hkey p⟩
    rintro ⟨hp, hdotted⟩
    obtain ⟨f, hf⟩ := Table.mem_keys_iff.mp hp
    obtain ⟨g, hg, rfl, -⟩ := hopened.found p f hdotted hf
    obtain ⟨way, last, hway, -, -⟩ := nestedPath_of_listed hfiled hnested hg
    exact ⟨way, last, hway⟩
  · intro p way last hp
    obtain ⟨hin, hdotted⟩ := hkey p ⟨way, last, hp⟩
    obtain ⟨hnamed, -⟩ := hp.listed hfiled hnested
    obtain ⟨hpath, hparent⟩ := hp.parent hflat hfiled hdot hnamed
    refine ⟨?_, hpath, ?_⟩
    · obtain ⟨f, hf⟩ := Table.mem_keys_iff.mp hin
      obtain ⟨g, hg, rfl, rfl⟩ := hopened.found p f hdotted hf
      obtain ⟨way', last', hp', hnamed', href⟩ := nestedPath_of_listed hfiled hnested hg
      have hsame := hp.unique hflat hfiled halone hdot hp' hnamed hnamed'
      obtain ⟨-, rfl⟩ := List.append_singleton_inj.mp hsame
      exact ⟨_, hf, congrArg some href⟩
    · rcases hparent with ⟨o, htop⟩ | hbelow
      · obtain ⟨t, ht⟩ := Table.mem_keys_iff.mp htop
        obtain ⟨f, hf⟩ := Table.mem_keys_iff.mp (hfiled o _ t ht).2
        have hkept := hdeep.fields _ (hflat _ f hf).1
        exact Table.mem_keys_iff.mpr ⟨f, hkept.trans hf⟩
      · exact (hkey _ hbelow).1

namespace Sample

/-- Nodes hold maps of rows of leaves, and every leaf has a node above it. -/
def forest : Api where
  serviceId := "S"
  apiVersion := "1"
  shapes := .ofList [
    ("Payload", ⟨.struct (.ofList [("Root", ⟨"Node", ""⟩)]), [], false, ""⟩),
    ("Node", ⟨.struct (.ofList [("Leaves", ⟨"Rows", ""⟩), ("Name", text)]), [], false, ""⟩),
    ("Rows", ⟨.map text ⟨"Row", ""⟩, [], false, ""⟩), ("Row", ⟨.list ⟨"Leaf", ""⟩, [], false, ""⟩),
    ("Leaf", ⟨.struct (.ofList [("Above", ⟨"Node", ""⟩), ("Size", text)]), [], false, ""⟩),
    ("Text", ⟨.scalar .string, [], false, ""⟩)]
  operations := ∅

/-- The top-level fields of a tree. -/
def treeRun : Except Error Resource × List Record :=
  let create := ⟨"CreateTree", some ⟨"Payload", ""⟩, none⟩
  runFrom (addTopFields forest { names := ⟨"Tree", "Tree", "tree", "tree"⟩
                                 ops := ⟨create, none, none, none, none, none, none⟩
                                 settings := {} }) []

/-- The Spec has the root alone, and what is below it can be opened. -/
def rooted (r : Resource) : Bool :=
  (r.spec.get? "Root").any (fun f => f.shape? == some "Node") && r.status.keys.isEmpty &&
    (runFrom (r.addNestedFields forest) []).1.isOk

theorem tree_built : ∃ r s t r' s', treeRun = (.ok r, s) ∧ r.spec.get? "Root" = some t ∧
    t.shape? = some "Node" ∧ r.status.keys = [] ∧
    runFrom (r.addNestedFields forest) [] = (.ok r', s') := by
  have hcheck : treeRun.1.toOption.any rooted = true := by cbv
  cases hrun : treeRun with
  | mk result s =>
    rw [hrun] at hcheck
    cases result with
    | error e => cases hcheck
    | ok r =>
      have hrooted : rooted r = true := hcheck
      simp only [rooted, Bool.and_eq_true, Option.any_eq_true, beq_iff_eq,
        List.isEmpty_iff] at hrooted
      obtain ⟨⟨⟨t, ht, hshape⟩, hstatus⟩, hopens⟩ := hrooted
      cases hopened : runFrom (r.addNestedFields forest) [] with
      | mk result' s' =>
        rw [hopened] at hopens
        cases result' with
        | error e => cases hopens
        | ok r' => exact ⟨r, s, t, r', s', rfl, ht, hshape, hstatus, hopened⟩

/-- From the root of a tree to the size of a leaf: through a map and a list. -/
def sizeWay : List Descent := [⟨0, "Node", "Leaves", ⟨"Rows", ""⟩⟩]

theorem sizeWay_simple : forest.Simple [] "Node" (sizeWay ++ [⟨2, "Leaf", "Size", text⟩]) := by
  have hleaf : forest.Behind 2 "Rows" "Leaf" := .through rfl rfl (.through rfl rfl (.here rfl rfl))
  refine ⟨⟨⟨.here rfl rfl, _, _, rfl, rfl, rfl⟩, ⟨hleaf, _, _, rfl, rfl, rfl⟩, trivial⟩, ?_, ?_⟩
  · decide
  · simp

end Sample

open Sample in
/-- The size of a leaf is below the leaves of the root. -/
theorem nested_fields_exact_leaf : ∃ (r r' : Resource) (s' : List Record), r.Assembled ∧
    runFrom (r.addNestedFields forest) [] = (.ok r', s') ∧
    (∃ f, r'.fields.get? "Root.Leaves..Size" = some f ∧ f.ref? = some text) ∧
    FieldPath.parent "Root.Leaves..Size" = "Root.Leaves" ∧ "Root.Leaves" ∈ r'.fields.keys := by
  obtain ⟨r, s, t, r', s', hrun, ht, hshape, hstatus, hopened⟩ := tree_built
  have hr : r.Assembled := assembled_topFields _ _ _ _ _ _ _ hrun
  have halone : ∀ k, k ∉ r.spec.keys ∨ k ∉ r.status.keys := fun k => .inr (by simp [hstatus])
  have hdot : forest.Undotted := Api.undotted_of_entries (by decide +kernel)
  have hparent : FieldPath.parent "Root.Leaves..Size" = "Root.Leaves" := by decide +kernel
  have hpath : r.NestedPath forest "Root.Leaves..Size" (sizeWay ++ [⟨2, "Leaf", "Size", text⟩]) :=
    ⟨false, "Root", t, "Node", ht, hshape, sizeWay_simple, rfl⟩
  obtain ⟨hfield, -, hlisted⟩ := (nested_fields_exact hr halone hdot hopened).2 _ _ _ hpath
  exact ⟨r, r', s', hr, hopened, hfield, hparent, hparent ▸ hlisted⟩

open Sample in
example : ((treeRun.1.toOption.bind fun r => (runFrom (r.addNestedFields forest) []).1.toOption).map
    fun r => r.fields.sortedKeys) = some ["Root", "Root.Leaves", "Root.Leaves..Above",
      "Root.Leaves..Size", "Root.Name"] := by
  cbv

end Exactly

end Resource

end ResourceVersions
