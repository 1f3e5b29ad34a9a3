import ResourceVersions.Proofs.FailureIsolation
import ResourceVersions.Proofs.NestedPaths
import ResourceVersions.Proofs.CompleteModel
import ResourceVersions.Proofs.ReachableTypes

/-! # References that lead to nothing

A resource whose fields lead to an undefined shape fails alone if the way leads through members,
elements and the values of maps. The fields below its fields are listed then, and that meets every
shape on the way. Nothing is listed below the keys of a map, but the search for structures follows
them too. So a key that leads to an undefined shape ends the whole build. -/
namespace ResourceVersions

open Relation (ReflTransGen)

/-- Two structures want one class name, or two values of an enumeration want one identifier. -/
def SchemaError.isClash : SchemaError → Bool
  | classClash .. => true
  | enumClash .. => true
  | _ => false

namespace Api

variable {api : Api} {seen avoid todo names : List String} {x y name owner : String} {n : Nat}
  {e : SchemaError}

def Defined (api : Api) (x : String) : Prop := ∃ shape, api.shapes.get? x = some shape

/-- From a structure to a member, from a list to its elements and from a map to its values. -/
inductive Unfolds (api : Api) : String → String → Prop
  | member {owner member : String} {ref : ShapeRef} :
      api.Owns owner member ref → Unfolds api owner ref.target
  | element {name : String} {shape : Shape} {ref : ShapeRef} :
      api.shapes.get? name = some shape → shape.form.element? = some ref →
      Unfolds api name ref.target

/-- From a map to its keys. -/
def KeyedBy (api : Api) (x y : String) : Prop :=
  ∃ shape key value, api.shapes.get? x = some shape ∧ shape.form = .map key value ∧ y = key.target

/-- Some of the names lead to a shape by way of a map's keys. -/
def BehindKey (api : Api) (names : List String) (x : String) : Prop :=
  ∃ name ∈ names, ∃ a k, ReflTransGen api.Unfolds name a ∧ api.KeyedBy a k ∧
    ReflTransGen api.Refers k x

section Edges

theorem unfolds_or_keyed (h : api.Refers x y) : api.Unfolds x y ∨ api.KeyedBy x y := by
  obtain ⟨⟨form, enum, isException, documentation⟩, hs, hy⟩ := h
  cases form with
  | scalar type => cases hy
  | struct members =>
    obtain ⟨⟨member, ref⟩, hin, rfl⟩ := List.mem_map.mp hy
    have hget := Table.mem_sorted_iff.mp (List.mem_reverse.mp hin)
    exact .inl (.member ⟨_, members, hs, rfl, hget⟩)
  | list element =>
    obtain rfl := List.mem_singleton.mp hy
    exact .inl (.element hs rfl)
  | map key value =>
    rcases List.mem_cons.mp hy with rfl | hy
    · exact .inl (.element hs rfl)
    · exact .inr ⟨_, key, value, hs, rfl, List.mem_singleton.mp hy⟩

/-- What is not reached by unfolding is behind the first key on the way. -/
theorem unfolded_or_behindKey (h : api.Reached names x) :
    (∃ name ∈ names, ReflTransGen api.Unfolds name x) ∨ api.BehindKey names x := by
  obtain ⟨name, hname, hleads⟩ := h
  induction hleads with
  | refl => exact .inl ⟨name, hname, .refl⟩
  | tail _ hstep ih =>
    rcases ih with ⟨name, hname, hunfolds⟩ | ⟨name, hname, a, k, ha, hk, hleads⟩
    · rcases unfolds_or_keyed hstep with hstep | hkey
      · exact .inl ⟨name, hname, hunfolds.tail hstep⟩
      · exact .inr ⟨name, hname, _, _, hunfolds, hkey, .refl⟩
    · exact .inr ⟨name, hname, a, k, ha, hk, hleads.tail hstep⟩

theorem Unfolds.refers (h : api.Unfolds x y) : api.Refers x y := by
  cases h with
  | member howns =>
    obtain ⟨⟨form, enum, isException, documentation⟩, members, hs, rfl, hget⟩ := howns
    have hin := List.mem_reverse.mpr (Table.mem_sorted_iff.mpr hget)
    exact ⟨_, hs, List.mem_map.mpr ⟨_, hin, rfl⟩⟩
  | @element shape ref hs href =>
    obtain ⟨form, enum, isException, documentation⟩ := shape
    cases form with
    | list element =>
      cases href
      exact ⟨_, hs, List.mem_cons_self⟩
    | map key value =>
      cases href
      exact ⟨_, hs, List.mem_cons_self⟩
    | _ => cases href

theorem BehindKey.reached (h : api.BehindKey names x) : api.Reached names x := by
  obtain ⟨name, hname, a, k, hunfolds, ⟨shape, key, value, hs, hform, rfl⟩, hleads⟩ := h
  refine ⟨name, hname, (hunfolds.lift id fun _ _ => Unfolds.refers).trans (.head ?_ hleads)⟩
  refine ⟨shape, hs, ?_⟩
  rw [hform]
  exact List.mem_cons_of_mem _ (List.mem_singleton_self _)

/-- Unfolding that leaves some structures closed. -/
def UnfoldsBut (api : Api) (avoid : List String) (x y : String) : Prop :=
  x ∉ avoid ∧ api.Unfolds x y

/-- A way from a shape need not come back to it. -/
theorem last_visit (h : ReflTransGen (api.UnfoldsBut avoid) x y) : y = x ∨
    ∃ z, api.UnfoldsBut avoid x z ∧ ReflTransGen (api.UnfoldsBut (x :: avoid)) z y := by
  induction h with
  | refl => exact .inl rfl
  | @tail b c _ hstep ih =>
    by_cases hb : b = x
    · subst hb
      exact .inr ⟨c, hstep, .refl⟩
    · obtain ⟨z, hz, hrest⟩ := ih.resolve_left hb
      refine .inr ⟨z, hz, hrest.tail ⟨?_, hstep.2⟩⟩
      rintro hin
      exact (List.mem_cons.mp hin).elim hb hstep.1

/-- Lists and maps unfold to what is behind them alone, and that exists. -/
theorem Behind.unfolded (h : api.Behind n name owner)
    (hleads : ReflTransGen (api.UnfoldsBut avoid) name y) :
    api.Defined y ∨ ReflTransGen (api.UnfoldsBut avoid) owner y := by
  induction h with
  | here _ _ => exact .inr hleads
  | @through n name inner shape ref hs href _ ih =>
    rcases ReflTransGen.cases_head hleads with rfl | ⟨z, ⟨-, hstep⟩, hrest⟩
    · exact .inl ⟨shape, hs⟩
    · cases hstep with
      | member howns =>
        obtain ⟨held, members, hs', hform, -⟩ := howns
        cases hs.symm.trans hs'
        rw [hform] at href
        cases href
      | element hs' href' =>
        cases hs.symm.trans hs'
        cases href.symm.trans href'
        exact ih hrest

/-- What is behind lists and maps is neither. -/
theorem Behind.owner_end (h : api.Behind n name owner) :
    ∃ shape, api.shapes.get? owner = some shape ∧ shape.form.element? = none := by
  induction h with
  | here hs hend => exact ⟨_, hs, hend⟩
  | through _ _ _ ih => exact ih

end Edges

section Search

/-- A search can fail on an undefined shape only. -/
theorem reachFrom_error (h : api.reachFrom seen todo = .error e) :
    ∃ x, e = .undefinedShape x ∧ ¬api.Defined x ∧ api.Reached todo x := by
  induction seen, todo using reachFrom.induct api with
  | case1 seen =>
    rw [reachFrom] at h
    cases h
  | case2 seen name rest hs =>
    rw [reachFrom_undefined hs] at h
    cases h
    refine ⟨name, rfl, ?_, name, List.mem_cons_self, .refl⟩
    rintro ⟨shape, hshape⟩
    cases hs.symm.trans hshape
  | case3 seen name rest shape hs hplain ih =>
    rw [reachFrom_plain hs (by simpa using hplain)] at h
    obtain ⟨x, he, hx, t, ht, hleads⟩ := ih h
    exact ⟨x, he, hx, t, List.mem_cons_of_mem _ ht, hleads⟩
  | case4 seen name rest shape hs hstruct hin ih =>
    rw [reachFrom_seen hs hin] at h
    obtain ⟨x, he, hx, t, ht, hleads⟩ := ih h
    exact ⟨x, he, hx, t, List.mem_cons_of_mem _ ht, hleads⟩
  | case5 seen name rest shape hs hstruct hin ih =>
    rw [reachFrom_new hs (by simpa using hstruct) hin] at h
    obtain ⟨x, he, hx, t, ht, hleads⟩ := ih h
    refine ⟨x, he, hx, ?_⟩
    rcases List.mem_append.mp ht with ht | ht
    · obtain ⟨y, hy, ht⟩ := List.mem_flatMap.mp ht
      have hyt := Holds.leads (leads_of_mem_endsFrom ht)
      exact ⟨name, List.mem_cons_self, .head ⟨shape, hs, hy⟩ (hyt.trans hleads)⟩
    · exact ⟨t, List.mem_cons_of_mem _ ht, hleads⟩

theorem reachableStructures_error (h : api.reachableStructures names = .error e) :
    ∃ x, e = .undefinedShape x ∧ ¬api.Defined x ∧ api.Reached names x := by
  unfold reachableStructures at h
  cases hfound : api.reachFrom [] (names.flatMap api.ends) with
  | ok found =>
    rw [hfound] at h
    cases h
  | error e' =>
    rw [hfound] at h
    cases h
    obtain ⟨x, he, hx, t, ht, hleads⟩ := reachFrom_error hfound
    obtain ⟨name, hname, ht⟩ := List.mem_flatMap.mp ht
    exact ⟨x, he, hx, name, hname, (Holds.leads (leads_of_mem_endsFrom ht)).trans hleads⟩

/-- The search fails if an undefined shape can be reached. -/
theorem reachableStructures_fails (hguard : ∀ n ∈ names, api.Guarded n)
    (hx : api.Reached names x) (hundefined : ¬api.Defined x) :
    ∃ y, api.reachableStructures names = .error (.undefinedShape y) := by
  cases hfound : api.reachableStructures names with
  | ok structures =>
    obtain ⟨found, hreach, -⟩ := Fallible.bind_ok_iff.mp hfound
    exact absurd (hx.defined hguard hreach) hundefined
  | error e =>
    obtain ⟨y, rfl, -⟩ := reachableStructures_error hfound
    exact ⟨y, rfl⟩

end Search

end Api

namespace Resource

variable {api : Api} {config : Config} {r : Resource} {active : List String}
  {path shape x : String} {nested : List NestedField}

/-- Where fields can be listed, everything that is unfolded exists. -/
theorem nestedFrom_defined (h : nestedFrom api active path shape = .ok nested)
    (hleads : ReflTransGen (api.UnfoldsBut active) shape x) : api.Defined x := by
  induction active, path, shape using nestedFrom.induct api generalizing nested with
  | case1 active path shape ih =>
    have hopen := h
    rw [nestedFrom] at hopen
    obtain ⟨inner, hinner, -⟩ := Fallible.bind_ok_iff.mp hopen
    obtain ⟨n, hbehind⟩ := Api.behind_of_innermostFrom (Fallible.mapError_ok_iff.mp hinner)
    rcases hbehind.unfolded hleads with hdefined | hleads
    · exact hdefined
    obtain ⟨held, hs, hend⟩ := hbehind.owner_end
    rcases Api.last_visit hleads with rfl | ⟨z, ⟨hactive, hstep⟩, hrest⟩
    · exact ⟨held, hs⟩
    -- the way goes on through a member, and what is listed below it has the structure open
    cases hstep with
    | @member member ref howns =>
      obtain ⟨names, below, -, -, hbelow, -⟩ := nestedFrom_member h hbehind howns hactive
      obtain ⟨⟨form, enum, isException, documentation⟩, members, hs, rfl, -⟩ := howns
      rw [← hbehind.isCollection] at hbelow
      exact ih inner members enum isException documentation hs hactive member ref hbelow hrest
    | element hs' href =>
      cases hs.symm.trans hs'
      cases hend.symm.trans href

variable {resources : List Resource}

theorem mem_fieldShapes_part {name : String} (h : name ∈ fieldShapes resources) :
    ∃ r ∈ resources, ∃ o k t, (r.part o).get? k = some t ∧ t.shape? = some name := by
  obtain ⟨t, ht, hshape⟩ := List.mem_filterMap.mp (List.mem_reverse.mp h)
  obtain ⟨r, hr, ht⟩ := List.mem_flatMap.mp ht
  obtain ⟨⟨k, t⟩, hin, rfl⟩ := List.mem_map.mp ht
  refine ⟨r, hr, ?_⟩
  rcases List.mem_append.mp hin with ht | ht
  · exact ⟨false, k, t, Table.mem_sorted_iff.mp ht, hshape⟩
  · exact ⟨true, k, t, Table.mem_sorted_iff.mp ht, hshape⟩

/-- Whatever the fields of the resources unfold to exists. -/
def Unfolded (api : Api) (resources : List Resource) : Prop :=
  ∀ name ∈ fieldShapes resources, ∀ x, ReflTransGen api.Unfolds name x → api.Defined x

/-- A resource can be built only if its fields unfold to shapes that exist. -/
theorem build_unfolded (api : Api) (config : Config) (names : Names) (create : Operation) :
    Yields (fun r => Unfolded api [r]) (build api config names create) := by
  rintro s r s' hrun name hname x hleads
  obtain ⟨nested, hopened⟩ := build_opened api config names create s r s' hrun
  obtain ⟨r', hr, o, k, t, ht, hshape⟩ := mem_fieldShapes_part hname
  obtain rfl := List.mem_singleton.mp hr
  obtain ⟨group, hgroup, -⟩ := nestedFields_top hopened.all ht hshape
  have hopen : ∀ a b, api.Unfolds a b → api.UnfoldsBut [] a b :=
    fun a b hstep => ⟨List.not_mem_nil, hstep⟩
  exact nestedFrom_defined hgroup (hleads.lift id hopen)

theorem unfolded_of_each (h : ∀ r ∈ resources, Unfolded api [r]) : Unfolded api resources := by
  intro name hname x hleads
  obtain ⟨r, hr, o, k, t, ht, hshape⟩ := mem_fieldShapes_part hname
  have hvalue : t ∈ r.spec.values ∨ t ∈ r.status.values := by
    have hin := Table.get?_eq_some_iff.mp ht
    cases o with
    | false => exact .inl (List.mem_map_of_mem hin)
    | true => exact .inr (List.mem_map_of_mem hin)
  exact h r hr name (mem_fieldShapes (List.mem_singleton_self r) hvalue hshape) x hleads

section Collecting

variable {s s' s₁ : List Record} {built kept : List Resource} {failures : List Failure}

/-- Work on a resource ends with no schema error if failures are collected. -/
theorem guard_raises {α : Type} {name : String} {describe : String → String} {work : Attempt α} :
    Raises (fun e => ∀ c, e ≠ .schema c) (OnFailure.collect.guard name describe work) := by
  intro s e s' hrun c hc
  rw [guard_run] at hrun
  cases hwork : runFrom work s with
  | mk result t =>
    rw [hwork] at hrun
    cases result with
    | ok a => cases hrun
    | error e' =>
      cases e' with
      | schema c' => cases hrun
      | _ =>
        cases hrun
        cases hc

/-- No schema error ends the work on the resources when failures are collected. -/
theorem buildAll_raises (api : Api) (config : Config) :
    Raises (fun e => ∀ c, e ≠ .schema c) (buildAll api config .collect) := by
  unfold buildAll
  refine Raises.bind (Raises.foldlM (fun acc entry => ?_) _ _) fun progress => .pure _ _
  obtain ⟨given, create⟩ := entry
  simp only [addResource]
  split
  · exact .pure _ _
  · refine .bind (.except fun e he => ?_) fun names => ?_
    · obtain ⟨text, rfl⟩ := Names.of_wordless given e he
      intro c hc
      cases hc
    · split
      · exact .pure _ _
      · refine .bind guard_raises fun result => ?_
        cases result with
        | ok r => exact .pure _ _
        | error failure => exact .pure _ _

/-- The resources that are kept when failures are collected, and the failures. -/
structure Sifted (api : Api) (config : Config) (s : List Record) (kept : List Resource)
    (failures : List Failure) : Prop where
  made : ∃ built first s₁, runFrom (buildAll api config .collect) s = (.ok (built, first), s₁) ∧
    failures = first ++ built.filterMap (secretFailure? api) ∧
    kept = built.filter fun r => !(failures.map Failure.name).contains r.names.camel
  accounted : ∀ given camel, Creates api config given camel →
    camel ∈ failures.map Failure.name ∨ ∃ r ∈ kept, r.names.camel = camel
  leftOut : ∀ r ∈ kept, r.names.camel ∉ failures.map Failure.name
  unfolded : Unfolded api kept

/-- A create operation that is not ignored leads to a resource or to a failure of its name. -/
theorem buildAll_accounts {failed : List String} {given camel : String}
    (hrun : runFrom (buildAll api config .collect) s = (.ok (built, failures), s'))
    (hfailed : ∀ f ∈ failures, f.name ∈ failed) (hcreates : Creates api config given camel) :
    camel ∈ failed ∨ ∃ r ∈ built.filter (fun r => !failed.contains r.names.camel),
      r.names.camel = camel := by
  by_cases hin : camel ∈ failed
  · exact .inl hin
  right
  obtain ⟨hlisted, hkept, names, hnames, rfl⟩ := hcreates
  obtain ⟨op, hop⟩ := Table.mem_keys_iff.mp hlisted
  -- the others are built alike without what has failed, and then no failure is left
  obtain ⟨t, hrun'⟩ := buildAll_isolated failed .stop s hrun hfailed
  have hkept' : (config.ignoring (originalNames api config failed)).isIgnoredResource given =
      false := by
    have hother := mt (mem_originalNames hlisted hnames).mp hin
    simp [Config.isIgnoredResource_ignoring, hkept, hother]
  have hop' : (api.operationsOf (config.ignoring
      (originalNames api config failed)).ignore.operations .create).get? given = some op := hop
  obtain ⟨names', hnames', hall⟩ := buildAll_complete hop' hkept' s _ t hrun'
  cases hnames.symm.trans hnames'
  exact hall rfl

theorem sifted_of_run
    (hrun : runFrom (buildAll api config .collect) s = (.ok (built, failures), s')) :
    Sifted api config s
      (built.filter fun r => !((failures ++ built.filterMap (secretFailure? api)).map
        Failure.name).contains r.names.camel)
      (failures ++ built.filterMap (secretFailure? api)) where
  made := ⟨built, failures, s', hrun, rfl, rfl⟩
  accounted given camel hcreates := by
    refine buildAll_accounts hrun ?_ hcreates
    intro f hf
    exact List.mem_map_of_mem (List.mem_append_left _ hf)
  leftOut r hr := by simpa using (List.mem_filter.mp hr).2
  unfolded := by
    apply unfolded_of_each
    intro r hr
    exact buildAll_each .collect (build_unfolded api config) s _ s' hrun r (List.mem_filter.mp hr).1

end Collecting

end Resource

namespace Types

open Fallible

variable {api : Api} {resources : List Resource} {secrets : Table (List String)}
  {taken : List String}

/-- If the error is about the API description, two names clash. -/
def Clashes (e : Error) : Prop := ∀ c, e = .schema c → c.isClash = true

theorem names_clash (given : String) : Fails Clashes (Names.of given) := by
  rintro e he c rfl
  obtain ⟨text, htext⟩ := Names.of_wordless given _ he
  cases htext

theorem clashes_mapError {α : Type} {x : Except SchemaError α}
    (h : Fails (fun c => c.isClash = true) x) : Fails Clashes (x.mapError Error.schema) := by
  rintro e he c rfl
  cases x with
  | ok a => cases he
  | error c' =>
    cases he
    exact h c rfl

theorem classNames_clash (shape : String) : Fails Clashes (classNames taken shape) := by
  refine (names_clash shape).bind fun names => ?_
  split
  · exact .ok _ _
  · exact .ok _ _

theorem addTypeDef_clash (defs : List TypeDef) (entry : String × Shape) :
    Fails Clashes (addTypeDef taken secrets defs entry) := by
  obtain ⟨name, shape⟩ := entry
  refine (classNames_clash name).bind fun ⟨names, suffixed⟩ => ?_
  dsimp only
  split
  · refine .error ?_
    rintro c ⟨⟩
    rfl
  · refine Fails.bind (.mapM (fun member => ?_) _) fun attrs => .ok _ _
    exact (names_clash member.1).bind fun _ => .ok _ _

theorem addEnumValue_clash (shape : String) (values : List EnumValue) (value : String) :
    Fails (fun c => c.isClash = true) (addEnumValue shape values value) := by
  unfold addEnumValue
  dsimp only
  split
  · exact .error rfl
  · exact .ok _ _

theorem enumDef_clash (entry : String × Shape) : Fails Clashes (enumDef taken entry) := by
  refine (classNames_clash entry.1).bind fun ⟨names, suffixed⟩ => ?_
  refine Fails.bind ?_ fun values => .ok _ _
  exact clashes_mapError (.foldlM (addEnumValue_clash entry.1) _ _)

theorem enumDefs_clash : Fails Clashes (enumDefs api resources) := by
  unfold enumDefs
  exact Fails.bind (.mapM enumDef_clash _) fun defs => .ok _ _

/-- The classes for structures fail with the search for structures or with a clash. -/
theorem typeDefs_error {c : SchemaError} (h : typeDefs api resources secrets = .error (.schema c)) :
    api.reachableStructures (Resource.fieldShapes resources) = .error c ∨ c.isClash = true := by
  unfold typeDefs at h
  cases hreach : api.reachableStructures (Resource.fieldShapes resources) with
  | error e =>
    rw [hreach] at h
    cases h
    exact .inl rfl
  | ok structures =>
    rw [hreach] at h
    have hrest : Fails Clashes (do
        let defs ← (structures.sorted.filter fun e =>
          !(api.payloads.contains e.1 || e.2.isException)).foldlM
            (addTypeDef (reserved resources) secrets) []
        return defs.mergeSort fun a b => decide (a.className ≤ b.className)) :=
      Fails.bind (.foldlM addTypeDef_clash _ _) fun defs => .ok _ _
    exact .inr (hrest _ h c rfl)

end Types

namespace VersionModel

open Fallible Resource

variable {version : String} {api : Api} {config : Config} {group? : Option String}
  {s s' : List Record} {c : SchemaError} {m : VersionModel} {kept : List Resource}
  {failures : List Failure}

theorem checkClassNames_clash (typeDefs : List TypeDef) (enumDefs : List EnumDef) :
    Fails (fun c => c.isClash = true) (checkClassNames typeDefs enumDefs) := by
  unfold checkClassNames
  induction enumDefs with
  | nil => exact .ok _ _
  | cons e enumDefs ih =>
    refine Fails.bind ?_ fun _ => ih
    dsimp only
    split
    · exact .error rfl
    · exact .ok _ _

/-- A model has the resources that are kept, and the failures of all others. -/
theorem build_sifted (hrun : runFrom (build version api config group? .collect) s = (.ok m, s')) :
    Sifted api config s m.resources m.failures := by
  obtain ⟨⟨built, first⟩, s₁, hbuilt, hrun⟩ := runFrom_bind_ok hrun
  obtain ⟨s₂, hsecrets⟩ := @resolveSecrets_run api .collect built (.inl rfl) s₁
  rw [runFrom_bind_eq hsecrets] at hrun
  obtain ⟨typeDefs, s₃, -, hrun⟩ := runFrom_bind_ok hrun
  obtain ⟨enumDefs, s₄, -, hrun⟩ := runFrom_bind_ok hrun
  obtain ⟨-, s₅, -, hrun⟩ := runFrom_bind_ok hrun
  obtain ⟨-, s₆, -, hrun⟩ := runFrom_bind_ok hrun
  cases hrun
  exact sifted_of_run hbuilt

/-- If the error is about the API description, the search for structures has failed, or two names
clash. -/
def SearchOrClash (api : Api) (kept : List Resource) (e : Error) : Prop :=
  ∀ c, e = .schema c →
    api.reachableStructures (fieldShapes kept) = .error c ∨ c.isClash = true

/-- Behind the work on the resources a build fails with the search for structures or a clash. -/
theorem build_schemaError
    (hrun : runFrom (build version api config group? .collect) s = (.error (.schema c), s')) :
    ∃ kept failures, Sifted api config s kept failures ∧
      (api.reachableStructures (fieldShapes kept) = .error c ∨ c.isClash = true) := by
  unfold build at hrun
  rw [runFrom_bind] at hrun
  cases hbuilt : runFrom (buildAll api config .collect) s with
  | mk result s₁ =>
    rw [hbuilt] at hrun
    cases result with
    | error e =>
      cases hrun
      exact absurd rfl (buildAll_raises api config s _ _ hbuilt c)
    | ok res =>
      obtain ⟨built, first⟩ := res
      obtain ⟨s₂, hsecrets⟩ := @resolveSecrets_run api .collect built (.inl rfl) s₁
      dsimp only at hrun
      rw [runFrom_bind_eq hsecrets] at hrun
      refine ⟨_, _, sifted_of_run hbuilt, ?_⟩
      suffices hends : SearchOrClash api _ (.schema c) from hends c rfl
      refine (Raises.bind (.except fun e he => ?_) fun typeDefs => .bind (.except fun e he => ?_)
        fun enumDefs => .bind (.except fun e he => ?_) fun _ => .bind (.lift _ _) fun _ =>
          .pure _ _) s₂ _ s' hrun
      · rintro c rfl
        exact Types.typeDefs_error he
      · exact fun c hc => .inr (Types.enumDefs_clash e he c hc)
      · exact fun c hc => .inr (Types.clashes_mapError (checkClassNames_clash _ _) e he c hc)

/-- A build ends with the error of the search for structures. -/
theorem build_unreachable (h : Sifted api config s kept failures)
    (hreach : api.reachableStructures (fieldShapes kept) = .error c) :
    ∃ s', runFrom (build version api config group? .collect) s = (.error (.schema c), s') := by
  obtain ⟨built, first, s₁, hbuilt, rfl, rfl⟩ := h.made
  obtain ⟨s₂, hsecrets⟩ := @resolveSecrets_run api .collect built (.inl rfl) s₁
  unfold build
  rw [runFrom_bind_eq hbuilt]
  dsimp only
  rw [runFrom_bind_eq hsecrets]
  dsimp only
  unfold Types.typeDefs
  rw [hreach]
  exact ⟨s₂, rfl⟩

/-- With collected failures the resources whose fields unfold to an undefined shape are left out and
recorded. A schema error ends the build only if two names clash or a key leads to an undefined
shape, and such a key does end it. -/
theorem collected_references (version : String) (api : Api) (config : Config)
    (group? : Option String) (s : List Record) :
    (∀ m s', runFrom (build version api config group? .collect) s = (.ok m, s') →
      Sifted api config s m.resources m.failures) ∧
    (∀ c s', runFrom (build version api config group? .collect) s = (.error (.schema c), s') →
      ∃ kept failures, Sifted api config s kept failures ∧ (c.isClash = true ∨
        ∃ x, c = .undefinedShape x ∧ ¬api.Defined x ∧ api.BehindKey (fieldShapes kept) x)) ∧
    (∀ kept failures x, Sifted api config s kept failures →
      (∀ n ∈ fieldShapes kept, api.Guarded n) → api.BehindKey (fieldShapes kept) x →
      ¬api.Defined x → ∃ y s', ¬api.Defined y ∧
        runFrom (build version api config group? .collect) s =
          (.error (.schema (.undefinedShape y)), s')) := by
  refine ⟨fun m s' hrun => build_sifted hrun, ?_, ?_⟩
  · intro c s' hrun
    obtain ⟨kept, failures, hsifted, hreach | hclash⟩ := build_schemaError hrun
    · obtain ⟨x, rfl, hx, hreached⟩ := Api.reachableStructures_error hreach
      refine ⟨kept, failures, hsifted, .inr ⟨x, rfl, hx, ?_⟩⟩
      rcases Api.unfolded_or_behindKey hreached with ⟨name, hname, hleads⟩ | hkey
      · exact absurd (hsifted.unfolded name hname x hleads) hx
      · exact hkey
    · exact ⟨kept, failures, hsifted, .inl hclash⟩
  · intro kept failures x hsifted hguard hkey hx
    obtain ⟨y, hreach⟩ := Api.reachableStructures_fails hguard hkey.reached hx
    obtain ⟨z, hz, hundefined, -⟩ := Api.reachableStructures_error hreach
    cases hz
    have hfails : ∃ s', runFrom (build version api config group? .collect) s =
      (.error (.schema (.undefinedShape y)), s') := build_unreachable hsifted hreach
    obtain ⟨s', hrun⟩ := hfails
    exact ⟨y, s', hundefined, hrun⟩

namespace Sample

/-- Boxes with tags, which are a map. -/
def taggedBoxes (key value : String) : Api where
  serviceId := "S"
  apiVersion := "1"
  shapes := .ofList [
    ("Payload", ⟨.struct (.ofList [("Tags", ⟨"Tags", ""⟩)]), [], false, ""⟩),
    ("Tags", ⟨.map ⟨key, ""⟩ ⟨value, ""⟩, [], false, ""⟩),
    ("Text", ⟨.scalar .string, [], false, ""⟩)]
  operations := .ofList [("CreateBox", ⟨"CreateBox", some ⟨"Payload", ""⟩, none⟩)]

def boxesRun (key value : String) : Except Error VersionModel × List Record :=
  runFrom (build "v1" (taggedBoxes key value) {} none .collect) []

/-- The shapes of the fields of the boxes that are kept. -/
def keptShapes (key value : String) : Option (List String) :=
  (runFrom (buildAll (taggedBoxes key value) {} .collect) []).1.toOption.map fun res =>
    fieldShapes (res.1.filter fun r => !((res.2 ++
      res.1.filterMap (secretFailure? (taggedBoxes key value))).map Failure.name).contains
        r.names.camel)

theorem boxes_kept : ∃ kept failures, Sifted (taggedBoxes "Key" "Text") {} [] kept failures ∧
    fieldShapes kept = ["Tags"] := by
  have hcheck : keptShapes "Key" "Text" = some ["Tags"] := by cbv
  unfold keptShapes at hcheck
  cases hrun : runFrom (buildAll (taggedBoxes "Key" "Text") {} .collect) [] with
  | mk result s =>
    rw [hrun] at hcheck
    cases result with
    | error e => cases hcheck
    | ok res => exact ⟨_, _, sifted_of_run hrun, Option.some.inj hcheck⟩

theorem boxes_fail : ∃ s, boxesRun "Key" "Text" =
    (.error (.schema (.undefinedShape "Key")), s) := by
  have hcheck : (boxesRun "Key" "Text").1.map (fun _ => ()) =
      .error (.schema (.undefinedShape "Key")) := by cbv
  cases hrun : boxesRun "Key" "Text" with
  | mk result s =>
    rw [hrun] at hcheck
    cases result with
    | ok m => cases hcheck
    | error e =>
      cases hcheck
      exact ⟨s, rfl⟩

theorem tags_keyed : (taggedBoxes "Key" "Text").KeyedBy "Tags" "Key" :=
  ⟨_, ⟨"Key", ""⟩, ⟨"Text", ""⟩, rfl, rfl, rfl⟩

theorem boxes_guarded (x : String) : (taggedBoxes "Key" "Text").Guarded x :=
  Api.guarded_of_entries (by decide +kernel) x

end Sample

open Sample in
/-- No box is left out, and the build ends. -/
theorem collected_references_boxes : ∃ kept failures y s,
    Sifted (taggedBoxes "Key" "Text") {} [] kept failures ∧ fieldShapes kept = ["Tags"] ∧
      boxesRun "Key" "Text" = (.error (.schema (.undefinedShape y)), s) := by
  obtain ⟨kept, failures, hsifted, hshapes⟩ := boxes_kept
  have hkey : (taggedBoxes "Key" "Text").BehindKey (fieldShapes kept) "Key" :=
    ⟨"Tags", hshapes ▸ List.mem_singleton_self _, "Tags", "Key", .refl, tags_keyed, .refl⟩
  have hundefined : ¬(taggedBoxes "Key" "Text").Defined "Key" := by
    rintro ⟨shape, hs⟩
    cases hs
  obtain ⟨-, -, hends⟩ := collected_references "v1" (taggedBoxes "Key" "Text") {} none []
  obtain ⟨y, s, -, hrun⟩ := hends kept failures "Key" hsifted (fun n _ => boxes_guarded n) hkey
    hundefined
  exact ⟨kept, failures, y, s, hsifted, hshapes, hrun⟩

open Sample in
/-- A schema error ends the build though failures are collected and no names clash. -/
theorem undefined_key_raised : ∃ kept failures s,
    Sifted (taggedBoxes "Key" "Text") {} [] kept failures ∧
      (taggedBoxes "Key" "Text").Reached (fieldShapes kept) "Key" ∧
      (taggedBoxes "Key" "Text").shapes.get? "Key" = none ∧
      boxesRun "Key" "Text" = (.error (.schema (.undefinedShape "Key")), s) ∧
      (SchemaError.undefinedShape "Key").isClash = false := by
  obtain ⟨kept, failures, hsifted, hshapes⟩ := boxes_kept
  obtain ⟨s, hrun⟩ := boxes_fail
  have hkey : (taggedBoxes "Key" "Text").BehindKey (fieldShapes kept) "Key" :=
    ⟨"Tags", hshapes ▸ List.mem_singleton_self _, "Tags", "Key", .refl, tags_keyed, .refl⟩
  exact ⟨kept, failures, s, hsifted, hkey.reached, rfl, hrun, rfl⟩

open Sample in
/-- The boxes alone fail if the values are undefined. -/
example : ((runFrom (buildAll (taggedBoxes "Text" "Value") {} .collect) []).1.toOption.map
    fun res => (res.1.length, res.2)) =
      some (0, [⟨"Box", .schema (.undefinedShape "Value")⟩]) := by
  decide +kernel

end VersionModel

end ResourceVersions
