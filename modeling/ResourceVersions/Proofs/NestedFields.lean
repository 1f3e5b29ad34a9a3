import ResourceVersions.Proofs.ApiOrder
import ResourceVersions.Proofs.FieldOrigins

/-! # Fields below fields

The path of a field below another one continues the other's path with a member. If members hold no
dots, the path says which members lead to the field, and so the shape that it has below a top-level
field of a given shape. The field that its path continues is listed too; it has the structure that
holds the member, unless the Spec and the Status share the name of the top-level field. -/
namespace ResourceVersions

namespace FieldPath

variable {path path' member member' : String} {c c' : Bool}

/-- The name of the top-level field that a path starts with. -/
def top (path : String) : String := String.ofList (path.toList.takeWhile (· != '.'))

/-- The last component of a path. -/
def last (path : String) : String :=
  String.ofList (path.toList.reverse.takeWhile (· != '.')).reverse

/-- A path that something can be appended to: it ends with a component. -/
def Closed (path : String) : Prop := ∀ c ∈ path.toList.getLast?, c ≠ '.'

def separator (throughElements : Bool) : List Char := if throughElements then ['.', '.'] else ['.']

theorem toList_child (path : String) (c : Bool) (member : String) :
    (child path c member).toList = path.toList ++ separator c ++ member.toList := by
  unfold child separator
  split <;> simp

theorem closed_of_dotless (h : '.' ∉ path.toList) : Closed path := by
  rintro c hc rfl
  exact h (List.mem_of_getLast? hc)

theorem closed_child (hne : member ≠ "") (hdot : '.' ∉ member.toList) :
    Closed (child path c member) := by
  have hne : member.toList ≠ [] := by simpa using hne
  intro d hd
  rw [toList_child, List.getLast?_append_of_ne_nil _ hne] at hd
  exact closed_of_dotless hdot d hd

theorem takeWhile_dotless {s : List Char} (h : '.' ∉ s) : s.takeWhile (· != '.') = s := by
  rw [List.takeWhile_eq_self_iff]
  intro d hd
  rw [bne_iff_ne]
  rintro rfl
  exact h hd

theorem top_dotless (h : '.' ∉ path.toList) : top path = path := by
  rw [top, takeWhile_dotless h, String.ofList_toList]

theorem top_child : top (child path c member) = top path := by
  have hstop : (separator c ++ member.toList).takeWhile (· != '.') = [] := by
    cases c <;> rfl
  rw [top, top, toList_child, List.append_assoc, List.takeWhile_append, hstop]
  split
  · rename_i hall
    rw [List.append_nil, (List.takeWhile_prefix _).eq_of_length hall]
  · rfl

/-- The characters behind the last dot, and those in front of them, of a reversed path. -/
theorem reverse_child (hdot : '.' ∉ member.toList) :
    (child path c member).toList.reverse.takeWhile (· != '.') = member.toList.reverse ∧
    (child path c member).toList.reverse.dropWhile (· != '.') =
      separator c ++ path.toList.reverse := by
  have hreverse : (separator c).reverse = separator c := by cases c <;> rfl
  have hmember : ∀ d ∈ member.toList.reverse, (d != '.') = true := by
    intro d hd
    rw [bne_iff_ne]
    rintro rfl
    exact hdot (List.mem_reverse.mp hd)
  rw [toList_child, List.reverse_append, List.reverse_append, hreverse]
  constructor
  · rw [List.takeWhile_append_of_pos hmember]
    cases c <;> simp [separator]
  · rw [List.dropWhile_append_of_pos hmember]
    cases c <;> rfl

theorem last_child (hdot : '.' ∉ member.toList) : last (child path c member) = member := by
  rw [last, (reverse_child hdot).1, List.reverse_reverse, String.ofList_toList]

theorem parent_child (hpath : Closed path) (hdot : '.' ∉ member.toList) :
    parent (child path c member) = path := by
  have hrest : parentReversed (child path c member).toList.reverse = path.toList.reverse := by
    unfold parentReversed
    rw [(reverse_child hdot).2]
    cases c with
    | true => rfl
    | false =>
      cases hp : path.toList.reverse with
      | nil => rfl
      | cons d rest =>
        have hd : d ≠ '.' := hpath d (by rw [List.getLast?_eq_head?_reverse, hp]; rfl)
        split
        · rename_i heq
          obtain ⟨rfl, -⟩ := List.cons.inj (List.cons.inj heq).2
          exact absurd rfl hd
        · rename_i heq
          exact (List.cons.inj heq).2.symm
        · rename_i hno
          exact absurd rfl (hno _)
  rw [parent, hrest, List.reverse_reverse, String.ofList_toList]

/-- What a path adds to its parent, without the dots. -/
theorem drop_parent (hdot : '.' ∉ member.toList) :
    ((child path c member).toList.drop path.length).dropWhile (· == '.') = member.toList := by
  rw [toList_child, List.append_assoc, ← String.length_toList, List.drop_left]
  have hmember : member.toList.dropWhile (· == '.') = member.toList := by
    cases hm : member.toList with
    | nil => rfl
    | cons d rest =>
      have hd : (d == '.') = false := by
        rw [beq_eq_false_iff_ne]
        rintro rfl
        exact hdot (hm ▸ List.mem_cons_self)
      rw [List.dropWhile_cons, hd]
      rfl
  cases c <;> simpa [separator] using hmember

end FieldPath

/-- The path of a field and the shape of its values. -/
structure Place where
  path : String
  shape : String

namespace Api

open Relation (ReflTransGen)

variable {api : Api} {n k : Nat} {seen : List String} {name inner inner' owner member : String}
  {ref ref' : ShapeRef} {t a b : Place}

/-- Behind some lists and maps there is a shape that is neither. -/
inductive Behind (api : Api) : Nat → String → String → Prop
  | here {name : String} {shape : Shape} : api.shapes.get? name = some shape →
      shape.form.element? = none → Behind api 0 name name
  | through {n : Nat} {name inner : String} {shape : Shape} {ref : ShapeRef} :
      api.shapes.get? name = some shape → shape.form.element? = some ref →
      Behind api n ref.target inner → Behind api (n + 1) name inner

/-- A structure has a member. -/
def Owns (api : Api) (owner member : String) (ref : ShapeRef) : Prop :=
  ∃ shape members, api.shapes.get? owner = some shape ∧ shape.form = .struct members ∧
    members.get? member = some ref

/-- No member has a dot. -/
def Undotted (api : Api) : Prop :=
  ∀ owner member ref, api.Owns owner member ref → '.' ∉ member.toList

/-- From a field to one below it: a member of the structure behind its lists and maps. -/
inductive Enters (api : Api) : Place → Place → Prop
  | member {path name owner member : String} {n : Nat} {ref : ShapeRef} :
      api.Behind n name owner → api.Owns owner member ref → member ≠ "" →
      Enters api ⟨path, name⟩ ⟨FieldPath.child path (api.isCollection name) member, ref.target⟩

theorem Enters.dotted (h : api.Enters a b) : '.' ∈ b.path.toList := by
  cases h with
  | member _ _ _ => exact Resource.child_dotted _ _ _

theorem behind_of_innermostFrom (h : api.innermostFrom seen name = .ok inner) :
    ∃ n, api.Behind n name inner := by
  induction seen, name using innermostFrom.induct api with
  | case1 seen name hs =>
    rw [innermostFrom_undefined hs] at h
    cases h
  | case2 seen name shape hs hend =>
    rw [innermostFrom_eq hs, hend] at h
    cases h
    exact ⟨0, .here hs hend⟩
  | case3 seen name shape hs ref href hin =>
    rw [innermostFrom_eq hs, href] at h
    dsimp only at h
    rw [if_pos hin] at h
    cases h
  | case4 seen name shape hs ref href hin ih =>
    rw [innermostFrom_eq hs, href] at h
    dsimp only at h
    rw [if_neg hin] at h
    obtain ⟨n, hn⟩ := ih h
    exact ⟨n + 1, .through hs href hn⟩

theorem Behind.unique (h : api.Behind n name inner) (h' : api.Behind k name inner') :
    n = k ∧ inner = inner' := by
  induction h generalizing k with
  | here hs hend =>
    cases h' with
    | here _ _ => exact ⟨rfl, rfl⟩
    | through hs' href _ =>
      cases hs.symm.trans hs'
      cases hend.symm.trans href
  | through hs href _ ih =>
    cases h' with
    | here hs' hend =>
      cases hs.symm.trans hs'
      cases hend.symm.trans href
    | through hs' href' hrest =>
      cases hs.symm.trans hs'
      cases href.symm.trans href'
      obtain ⟨rfl, rfl⟩ := ih hrest
      exact ⟨rfl, rfl⟩

theorem Owns.unique (h : api.Owns owner member ref) (h' : api.Owns owner member ref') :
    ref = ref' := by
  obtain ⟨shape, members, hs, hform, hget⟩ := h
  obtain ⟨shape', members', hs', hform', hget'⟩ := h'
  cases hs.symm.trans hs'
  cases hform.symm.trans hform'
  exact Option.some.inj (hget.symm.trans hget')

theorem undotted_of_entries
    (h : ∀ e ∈ api.shapes.entries, ∀ k ∈ e.2.form.members.keys, '.' ∉ k.toList) :
    api.Undotted := by
  rintro owner member ref ⟨shape, members, hs, hform, hget⟩
  apply h (owner, shape) (Table.get?_eq_some_iff.mp hs)
  rw [hform]
  exact Table.mem_keys_iff.mpr ⟨ref, hget⟩

section Places

variable (hdot : api.Undotted) (h : ReflTransGen api.Enters t a) (htop : '.' ∉ t.path.toList)

include hdot h htop in
theorem closed_of_enters : FieldPath.Closed a.path := by
  induction h with
  | refl => exact FieldPath.closed_of_dotless htop
  | tail _ henters _ =>
    cases henters with
    | member _ howns hne => exact FieldPath.closed_child hne (hdot _ _ _ howns)

include hdot h htop in
/-- The path of a field below another one says where that one is. -/
theorem parent_of_enters (hab : api.Enters a b) : FieldPath.parent b.path = a.path := by
  cases hab with
  | member _ howns _ =>
    exact FieldPath.parent_child (closed_of_enters hdot h htop) (hdot _ _ _ howns)

include h htop in
theorem top_of_enters : FieldPath.top a.path = t.path := by
  induction h with
  | refl => exact FieldPath.top_dotless htop
  | tail _ henters ih =>
    cases henters with
    | member _ _ _ => rw [FieldPath.top_child, ih]

include hdot h htop in
/-- The path says which shape a field below a top-level field has. -/
theorem place_unique (h' : ReflTransGen api.Enters t b) (hpath : a.path = b.path) : a = b := by
  induction h generalizing b with
  | refl =>
    cases h' with
    | refl => rfl
    | tail _ henters => exact absurd (hpath ▸ henters.dotted) htop
  | tail ha henters ih =>
    cases h' with
    | refl => exact absurd (hpath ▸ henters.dotted) htop
    | tail hb henters' =>
      have hparent := congrArg FieldPath.parent hpath
      rw [parent_of_enters hdot ha htop henters, parent_of_enters hdot hb htop henters'] at hparent
      obtain rfl := ih hb hparent
      cases henters with
      | member hbehind howns _ =>
        cases henters' with
        | member hbehind' howns' _ =>
          obtain ⟨-, rfl⟩ := hbehind.unique hbehind'
          have hmember := congrArg FieldPath.last hpath
          rw [FieldPath.last_child (hdot _ _ _ howns),
            FieldPath.last_child (hdot _ _ _ howns')] at hmember
          subst hmember
          rw [howns.unique howns']

end Places

end Api

namespace Resource

open Relation (ReflTransGen)

variable {api : Api} {r r' : Resource} {nested : List NestedField} {p k : String} {f : Field}

def NestedField.place (f : NestedField) : Place := ⟨f.path, f.ref.target⟩

/-- What is listed below a field is below it, or below something that is listed too. -/
theorem nestedFrom_enters {active : List String} {path shape : String} {t : Place}
    (hstart : ReflTransGen api.Enters t ⟨path, shape⟩)
    (h : nestedFrom api active path shape = .ok nested) :
    ∀ f ∈ nested, ∃ a, ReflTransGen api.Enters t a ∧
      (a.path = path ∨ ∃ g ∈ nested, g.path = a.path) ∧ api.Enters a f.place := by
  induction active, path, shape using nestedFrom.induct api generalizing nested with
  | case1 active path shape ih =>
    intro f hf
    obtain ⟨inner, members, enum, isException, documentation, member, ref, names, below, hinner,
      hs, hactive, hmember, hnames, hbelow, hf, hsub⟩ := nestedFrom_mem h hf
    obtain ⟨n, hbehind⟩ := Api.behind_of_innermostFrom hinner
    have hne : member ≠ "" := Names.given_ne_empty hnames
    have henters : api.Enters ⟨path, shape⟩
        ⟨FieldPath.child path (api.isCollection shape) member, ref.target⟩ :=
      .member hbehind ⟨_, members, hs, rfl, hmember⟩ hne
    rcases List.mem_cons.mp hf with rfl | hf
    · exact ⟨⟨path, shape⟩, hstart, .inl rfl, henters⟩
    · obtain ⟨a, ha, hlisted, hfa⟩ := ih inner members enum isException documentation hs hactive
        member ref (hstart.tail henters) hbelow f hf
      refine ⟨a, ha, .inr ?_, hfa⟩
      rcases hlisted with hlisted | ⟨g, hg, hlisted⟩
      · exact ⟨_, hsub _ List.mem_cons_self, hlisted.symm⟩
      · exact ⟨g, hsub g (List.mem_cons_of_mem _ hg), hlisted⟩

section Opened

/-- The fields that a resource lists below others. -/
structure Opened (api : Api) (nested : List NestedField) (r : Resource) : Prop where
  all : r.nestedFields api = .ok nested
  found : ∀ k f, '.' ∈ k.toList → r.fields.get? k = some f →
    ∃ g ∈ nested, g.path = k ∧ f = r.newField k g.names (some g.ref)
  listed : ∀ g ∈ nested, ∃ f, r.fields.get? g.path = some f
  named : ∀ k f, r.fields.get? k = some f → k ≠ ""

/-- Only top-level fields are listed. -/
def Flat (r : Resource) : Prop := ∀ k f, r.fields.get? k = some f → '.' ∉ k.toList ∧ k ≠ ""

theorem Flat.insert {given : String} {n : Names} (h : r.Flat) (hn : Names.of given = .ok n)
    (hf : r.fields.insert n.camel f = r'.fields) : r'.Flat := by
  intro k g hg
  rw [← hf, Table.get?_insert] at hg
  split at hg
  · rename_i hk
    subst hk
    refine ⟨?_, Names.camel_ne_empty hn⟩
    rw [Names.camel_eq hn]
    exact camelOf_dotless given
  · exact h k g hg

theorem flat_kept : Kept Flat where
  addSpec _ h hn := h.insert hn rfl
  addStatus _ h hn := h.insert hn rfl
  identify _ h := h

theorem listed_foldl {r : Resource}
    (h : (∃ f, r.fields.get? k = some f) ∨ ∃ g ∈ nested, g.path = k) :
    ∃ f, (nested.foldl (fun r f => r.addNested f.path f.names f.ref) r).fields.get? k = some f := by
  induction nested generalizing r with
  | nil => simpa using h
  | cons g nested ih =>
    apply ih
    by_cases hk : k = g.path
    · subst hk
      exact .inl ⟨_, (Table.get?_insert ..).trans (if_pos rfl)⟩
    · rcases h with ⟨f, hf⟩ | ⟨g', hg', hpath⟩
      · exact .inl ⟨f, ((Table.get?_insert ..).trans (if_neg hk)).trans hf⟩
      · rcases List.mem_cons.mp hg' with rfl | hg'
        · exact absurd hpath.symm hk
        · exact .inr ⟨g', hg', hpath⟩

theorem found_foldl {r : Resource}
    (h : (nested.foldl (fun r f => r.addNested f.path f.names f.ref) r).fields.get? k = some f) :
    (∃ g ∈ nested, g.path = k ∧ f = r.newField k g.names (some g.ref)) ∨
      r.fields.get? k = some f := by
  induction nested generalizing r with
  | nil => exact .inr h
  | cons g nested ih =>
    rcases ih h with ⟨g', hg', hpath, rfl⟩ | hf
    · exact .inl ⟨g', List.mem_cons_of_mem _ hg', hpath, rfl⟩
    · have hf : (r.fields.insert g.path (r.newField g.path g.names (some g.ref))).get? k = some f :=
        hf
      rw [Table.get?_insert] at hf
      split at hf
      · rename_i hk
        cases hf
        exact .inl ⟨g, List.mem_cons_self, hk.symm, hk ▸ rfl⟩
      · exact .inr hf

theorem nestedFields_congr (hspec : r'.spec = r.spec) (hstatus : r'.status = r.status) :
    r'.nestedFields api = r.nestedFields api := by
  unfold nestedFields
  rw [hspec, hstatus]

theorem opened_addNestedFields (h : r.Flat) :
    Yields (fun r' => ∃ nested, Opened api nested r') (r.addNestedFields api) := by
  unfold addNestedFields
  refine .bind_of (.except fun nested hnested => hnested) fun nested hnested => ?_
  refine .bind fun _ => .pure ⟨nested, ?_⟩
  have hdeep := deepened_addNested (nestedFields_dotted hnested)
    (⟨rfl, rfl, rfl, rfl, fun _ => rfl, fun _ _ => rfl⟩ : Deepened r r)
  constructor
  case all => exact (nestedFields_congr (hdeep.part false) (hdeep.part true)).trans hnested
  case found =>
    intro k f hk hf
    rcases found_foldl hf with ⟨g, hg, hpath, rfl⟩ | hf
    · refine ⟨g, hg, hpath, ?_⟩
      unfold newField
      rw [hdeep.settings]
    · exact absurd hk (h k f hf).1
  case listed =>
    intro g hg
    exact listed_foldl (.inr ⟨g, hg, rfl⟩)
  case named =>
    intro k f hf
    rcases found_foldl hf with ⟨g, hg, rfl, -⟩ | hf
    · intro hempty
      have hdotted := nestedFields_dotted hnested g hg
      rw [hempty] at hdotted
      exact absurd hdotted (by decide)
    · exact (h k f hf).2

theorem build_opened (api : Api) (config : Config) (names : Names) (create : Operation) :
    Yields (fun r => ∃ nested, Opened api nested r) (build api config names create) := by
  refine .bind_of (flat_kept.addTopFields ?_) fun r hflat => opened_addNestedFields hflat
  intro k f hf
  cases hf

theorem part_alone {o o' : Bool} (halone : k ∉ r.spec.keys ∨ k ∉ r.status.keys)
    (h : k ∈ (r.part o).keys) (h' : k ∈ (r.part o').keys) : o = o' := by
  cases o with
  | false =>
    cases o' with
    | false => rfl
    | true => exact (halone.elim (fun hn => hn h) fun hn => hn h').elim
  | true =>
    cases o' with
    | false => exact (halone.elim (fun hn => hn h') fun hn => hn h).elim
    | true => rfl

variable {log : FieldLog} (hopened : Opened api nested r) (hlog : Logged api log r)
include hopened hlog

/-- Everything below is below a top-level field. -/
theorem Opened.enters {g : NestedField} (hg : g ∈ nested) : ∃ o t shape a,
    (r.part o).get? (FieldPath.top g.path) = some t ∧ t.shape? = some shape ∧
      ReflTransGen api.Enters ⟨FieldPath.top g.path, shape⟩ a ∧
      (a.path = FieldPath.top g.path ∨ ∃ g' ∈ nested, g'.path = a.path) ∧
      api.Enters a g.place := by
  obtain ⟨o, k, t, shape, group, ht, hshape, hgroup, hg, hsub⟩ := nestedFields_mem hopened.all hg
  have hk : k ∈ (r.part o).keys := Table.mem_keys_iff.mpr ⟨t, ht⟩
  obtain ⟨a, ha, hlisted, hag⟩ := nestedFrom_enters .refl hgroup g hg
  obtain ⟨w, rfl, rfl⟩ := hlog.part_field ht
  have htop : FieldPath.top g.path = w.key :=
    Api.top_of_enters (ha.tail hag) (hlog.key_dotless hk)
  rw [htop]
  refine ⟨o, _, shape, a, ht, hshape, ha, hlisted.imp_right ?_, hag⟩
  rintro ⟨g', hg', hpath⟩
  exact ⟨g', hsub g' hg', hpath⟩

/-- Below a top-level field that is not shared, what is listed under a path has the shape that the
path says. -/
theorem Opened.shape_of_listed (hdot : api.Undotted) {a : Place} {shape : String} {t : Field}
    {o : Bool} {g : NestedField}
    (halone : FieldPath.top a.path ∉ r.spec.keys ∨ FieldPath.top a.path ∉ r.status.keys)
    (ht : (r.part o).get? (FieldPath.top a.path) = some t) (hshape : t.shape? = some shape)
    (ha : ReflTransGen api.Enters ⟨FieldPath.top a.path, shape⟩ a) (hg : g ∈ nested)
    (hpath : g.path = a.path) : g.ref.target = a.shape := by
  obtain ⟨o', t', shape', b, ht', hshape', hb, -, hbg⟩ := hopened.enters hlog hg
  rw [hpath] at ht' hb
  have hk : FieldPath.top a.path ∈ (r.part o).keys := Table.mem_keys_iff.mpr ⟨t, ht⟩
  obtain rfl := part_alone halone hk (Table.mem_keys_iff.mpr ⟨t', ht'⟩)
  cases ht.symm.trans ht'
  cases hshape.symm.trans hshape'
  exact congrArg Place.shape (Api.place_unique hdot (hb.tail hbg) (hlog.key_dotless hk) ha hpath)

/-- The field that the path of a nested field continues is listed. It has the structure that holds
the member, if the Spec and the Status do not share the top-level field. -/
theorem Opened.parent_field (hdot : api.Undotted) (hf : r.fields.get? p = some f)
    (hp : FieldPath.isNested p = true)
    (halone : FieldPath.top p ∉ r.spec.keys ∨ FieldPath.top p ∉ r.status.keys) :
    ∃ parent shape target, r.fields.get? (FieldPath.parent p) = some parent ∧
      parent.shape? = some shape ∧ f.shape? = some target ∧
      api.Enters ⟨FieldPath.parent p, shape⟩ ⟨p, target⟩ := by
  have hp : '.' ∈ p.toList := by simpa [FieldPath.isNested] using hp
  obtain ⟨g, hg, rfl, rfl⟩ := hopened.found p f hp hf
  obtain ⟨o, t, shape, a, ht, hshape, ha, hlisted, hag⟩ := hopened.enters hlog hg
  have hk : FieldPath.top g.path ∈ (r.part o).keys := Table.mem_keys_iff.mpr ⟨t, ht⟩
  have hkdot := hlog.key_dotless hk
  have hparent := Api.parent_of_enters hdot ha hkdot hag
  dsimp only [NestedField.place] at hparent
  rw [hparent]
  suffices hmeant : ∃ parent, r.fields.get? a.path = some parent ∧
      parent.shape? = some a.shape by
    obtain ⟨parent, hget, hshape⟩ := hmeant
    exact ⟨parent, a.shape, g.ref.target, hget, hshape, rfl, hag⟩
  rcases hlisted with htop | ⟨g', hg', hpath⟩
  · have hstart : a = ⟨FieldPath.top g.path, shape⟩ :=
      Api.place_unique hdot ha hkdot .refl htop
    subst hstart
    refine ⟨t, ?_, hshape⟩
    rw [fields_of_part hlog hk ?_, ht]
    intro hk'
    cases o <;> cases part_alone halone hk hk'
  · obtain ⟨parent, hget⟩ := hopened.listed g' hg'
    have hnested := nestedFields_dotted hopened.all g' hg'
    obtain ⟨last, hlast, hsame, rfl⟩ := hopened.found _ _ hnested hget
    have htop : FieldPath.top a.path = FieldPath.top g.path := Api.top_of_enters ha hkdot
    rw [← htop] at ht ha halone
    have hmeant := hopened.shape_of_listed hlog hdot halone ht hshape ha hlast (hsame.trans hpath)
    rw [← hpath]
    exact ⟨_, hget, congrArg some hmeant⟩

end Opened

end Resource

end ResourceVersions
