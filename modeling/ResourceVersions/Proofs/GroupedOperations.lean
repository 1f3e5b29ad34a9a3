import Mathlib
import ResourceVersions.Proofs.BuiltResource
import ResourceVersions.Proofs.SingularNouns

/-! # Operations grouped under one noun

The noun behind `Create`, `Delete` or `Update` names the resource; behind `List` it stands in the
plural. What lists the resources of a noun in `e` goes by this noun only if it is the singular of
its plural. Otherwise it goes by another noun, and the resource does without it. -/
namespace ResourceVersions

theorem Text.after?_eq_some_iff {start text rest : List Char} :
    Text.after? start text = some rest ↔ text = start ++ rest := by
  induction start generalizing text with
  | nil => simp [Text.after?, eq_comm]
  | cons w start ih =>
    cases text with
    | nil => simp [Text.after?]
    | cons c text =>
      rw [Text.after?]
      split
      · rename_i hw
        rw [ih, hw, List.cons_append, List.cons.injEq, and_iff_right rfl]
      · rename_i hw
        simp [Ne.symm hw]

namespace OpKind

open Name

variable {name verb noun : List Char} {kind : OpKind}

theorem noun?_eq_some_iff : noun? verb name = some noun ↔ noun ≠ [] ∧ name = verb ++ noun := by
  unfold noun?
  split
  · rename_i c rest h
    rw [Text.after?_eq_some_iff.mp h]
    simp only [Option.some.injEq, List.append_cancel_left_eq]
    constructor
    · rintro rfl
      exact ⟨by simp, rfl⟩
    · rintro ⟨-, h⟩
      exact h
  · rename_i h
    constructor
    · intro hnone
      cases hnone
    · rintro ⟨hne, rfl⟩
      obtain ⟨c, rest, rfl⟩ := List.exists_cons_of_ne_nil hne
      exact (h c rest (Text.after?_eq_some_iff.mpr rfl)).elim

/-- An operation with one of the verbs that say alone what it does. -/
theorem classifyChars_verb (h : (verb, kind) ∈ verbs) (hnoun : noun ≠ []) :
    classifyChars (verb ++ noun) =
      (kind, if kind = readMany then singularChars noun else noun) := by
  obtain ⟨c, rest, rfl⟩ := List.exists_cons_of_ne_nil hnoun
  simp only [verbs, List.mem_cons, Prod.mk.injEq, List.not_mem_nil, or_false] at h
  rcases h with ⟨rfl, rfl⟩ | ⟨rfl, rfl⟩ | ⟨rfl, rfl⟩ | ⟨rfl, rfl⟩ | ⟨rfl, rfl⟩ | ⟨rfl, rfl⟩ <;> rfl

/-- What reads many goes by the singular of what stands behind its verb. -/
theorem readMany_verb (h : classifyChars name = (readMany, noun)) :
    ∃ verb ∈ ["Describe".toList, "Get".toList, "List".toList], ∃ plural,
      name = verb ++ plural ∧ singularChars plural = noun := by
  have hread : ∀ plural, readKind plural = (readMany, noun) → singularChars plural = noun := by
    intro plural h
    unfold readKind at h
    dsimp only at h
    split at h
    · cases h
    · exact congrArg Prod.snd h
  unfold classifyChars at h
  split at h
  · cases h
  split at h
  · cases h
  split at h
  · rename_i plural hverb
    exact ⟨_, by simp, plural, (noun?_eq_some_iff.mp hverb).2, hread plural h⟩
  split at h
  · rename_i plural hverb
    exact ⟨_, by simp, plural, (noun?_eq_some_iff.mp hverb).2, hread plural h⟩
  cases hfound : verbKind? name with
  | none =>
    rw [hfound] at h
    cases h
  | some found =>
    rw [hfound, Option.getD_some] at h
    subst h
    obtain ⟨⟨verb, kind⟩, hin, hverb⟩ := List.exists_of_findSome?_eq_some hfound
    obtain ⟨plural, hplural, heq⟩ := Option.map_eq_some_iff.mp hverb
    obtain ⟨rfl, rfl⟩ := Prod.mk.inj heq
    have hlist : verb = "List".toList := by
      have honly : ∀ e ∈ verbs, e.2 = readMany → e.1 = "List".toList := by decide
      exact honly _ hin rfl
    exact ⟨verb, by simp [hlist], plural, (noun?_eq_some_iff.mp hplural).2, rfl⟩

theorem classify_eq_iff {name noun : String} :
    classify name = (kind, noun) ↔ classifyChars name.toList = (kind, noun.toList) := by
  unfold classify
  cases classifyChars name.toList with
  | mk k chars =>
    simp only [Prod.mk.injEq]
    constructor
    · rintro ⟨rfl, rfl⟩
      exact ⟨rfl, String.toList_ofList.symm⟩
    · rintro ⟨rfl, rfl⟩
      exact ⟨rfl, String.ofList_toList⟩

theorem classify_verb {verb noun : String} (h : (verb.toList, kind) ∈ verbs) (hnoun : noun ≠ "")
    (hkind : kind ≠ readMany) : classify (verb ++ noun) = (kind, noun) := by
  have hne : noun.toList ≠ [] := by simpa using hnoun
  rw [classify_eq_iff, String.toList_append, classifyChars_verb h hne, if_neg hkind]

/-- The operation that lists the resources of a noun, by the noun with an `s`. -/
def listing (noun : String) : String := "List" ++ noun ++ "s"

theorem toList_listing (noun : String) :
    (listing noun).toList = "List".toList ++ (noun.toList ++ ['s']) := by
  simp [listing]

theorem classify_listing_iff {noun s : String} :
    classify (listing noun) = (readMany, s) ↔
      singularChars (noun.toList ++ ['s']) = s.toList := by
  have hlist : ("List".toList, readMany) ∈ verbs := by decide
  rw [classify_eq_iff, toList_listing, classifyChars_verb hlist (by simp), if_pos rfl,
    Prod.mk.injEq, and_iff_right rfl]

/-- Whatever else reads many of a noun in `e` comes before what lists its resources. -/
theorem le_listing {name noun : String} (he : ['e'] <:+ noun.toList)
    (h : classify name = (readMany, noun)) : name ≤ listing noun := by
  obtain ⟨stem, hstem⟩ := he
  rw [classify_eq_iff, ← hstem] at h
  obtain ⟨verb, hverb, plural, hname, hsingular⟩ := readMany_verb h
  rw [String.le_iff_toList_le, hname, toList_listing, ← hstem]
  have hearlier : ∀ {c d : Char} (l l' : List Char), c < d → c :: l ≤ d :: l' :=
    fun l l' h => le_of_lt (List.Lex.rel h)
  simp only [List.mem_cons, List.not_mem_nil, or_false] at hverb
  rcases hverb with rfl | rfl | rfl
  · exact hearlier _ _ (by decide)
  · exact hearlier _ _ (by decide)
  · have hsingular : Singular plural (stem ++ ['e']) := hsingular ▸ singular_singularChars plural
    rcases hsingular.to_e with rfl | rfl
    · have hbehind : [] < ['s'] := List.Lex.nil
      have hlt : "List".toList ++ (stem ++ ['e']) ++ [] <
          "List".toList ++ (stem ++ ['e']) ++ ['s'] :=
        List.append_left_lt hbehind
      rw [List.append_nil, List.append_assoc] at hlt
      exact le_of_lt hlt
    · exact le_of_eq (by simp)

end OpKind

namespace Api

variable {api : Api} {ignored : List String} {kind : OpKind} {resource : String}

/-- The operations of a kind on a resource, in code-point order of their names. -/
def candidates (api : Api) (ignored : List String) (kind : OpKind) (resource : String) :
    List (String × Operation) :=
  api.operations.sorted.filter fun e =>
    decide (OpKind.classify e.1 = (kind, resource)) && !ignored.contains e.1

/-- The last of the operations of a kind on a resource counts. -/
theorem operationsOf_get? (api : Api) (ignored : List String) (kind : OpKind) (resource : String) :
    (api.operationsOf ignored kind).get? resource =
      (api.candidates ignored kind resource).getLast?.map Prod.snd := by
  have hrun : ∀ (l : List (String × Operation)) (t : Table Operation),
      (l.foldl (fun t e => if (OpKind.classify e.1).1 = kind
        then t.insert (OpKind.classify e.1).2 e.2 else t) t).get? resource =
      ((l.filter fun e => decide (OpKind.classify e.1 = (kind, resource))).getLast?.map
        Prod.snd).or (t.get? resource) := by
    intro l
    induction l with
    | nil => exact fun t => rfl
    | cons e l ih =>
      intro t
      rw [List.foldl_cons, ih, List.filter_cons]
      cases hkind : OpKind.classify e.1 with
      | mk k other =>
        dsimp only
        by_cases hk : k = kind
        · subst hk
          by_cases hother : other = resource
          · subst hother
            simp only [if_true, Table.get?_insert, decide_true, List.getLast?_cons, Option.map_some,
              Option.some_or]
            cases (l.filter _).getLast? <;> rfl
          · simp [Table.get?_insert, hother, Ne.symm hother]
        · simp [hk]
  unfold candidates
  rw [← List.filter_filter]
  exact (hrun _ ∅).trans Option.or_none

/-- The API without one of its operations. -/
def without (api : Api) (operation : String) : Api :=
  { api with operations := api.operations.erase operation }

/-- An operation that is no candidate can be left out. -/
theorem candidates_without {operation : String}
    (h : OpKind.classify operation ≠ (kind, resource)) :
    (api.without operation).candidates ignored kind resource =
      api.candidates ignored kind resource := by
  have hsorted : (api.without operation).operations.sorted =
      api.operations.sorted.filter fun e => e.1 != operation :=
    Table.sorted_filter api.operations (· != operation)
  unfold candidates
  rw [hsorted, List.filter_filter]
  refine List.filter_congr fun e _ => ?_
  by_cases he : e.1 = operation
  · simp [he, h]
  · simp [he]

theorem candidates_last {e : String × Operation} (hop : api.operations.get? e.1 = some e.2)
    (hignored : e.1 ∉ ignored) (hkind : OpKind.classify e.1 = (kind, resource))
    (hle : ∀ name, OpKind.classify name = (kind, resource) → name ≤ e.1) :
    (api.candidates ignored kind resource).getLast? = some e := by
  have hin : e ∈ api.candidates ignored kind resource :=
    List.mem_filter.mpr ⟨Table.mem_sorted_iff.mpr hop, by simp [hkind, hignored]⟩
  cases hlast : (api.candidates ignored kind resource).getLast? with
  | none =>
    rw [List.getLast?_eq_none_iff] at hlast
    rw [hlast] at hin
    cases hin
  | some last =>
    obtain ⟨before, hsplit⟩ := List.getLast?_eq_some_iff.mp hlast
    have hpairs : (before ++ [last]).Pairwise fun a b => a.1 ≤ b.1 :=
      hsplit ▸ api.operations.sorted_pairwise_le.filter _
    obtain ⟨hmem, hclass⟩ := List.mem_filter.mp (List.mem_of_getLast? hlast)
    rw [Bool.and_eq_true, decide_eq_true_eq] at hclass
    have hbehind : e = last ∨ e.1 ≤ last.1 := by
      rw [hsplit, List.mem_append, List.mem_singleton] at hin
      refine hin.symm.imp_right fun hbefore => ?_
      exact (List.pairwise_append.mp hpairs).2.2 e hbefore last (List.mem_singleton_self last)
    rcases hbehind with rfl | hbehind
    · rfl
    · have hname := le_antisymm (hle last.1 hclass.1) hbehind
      have hget := Table.mem_sorted_iff.mp hmem
      rw [hname, hop] at hget
      rw [Prod.ext hname (Option.some.inj hget).symm]

/-- What lists the resources of a regular noun is what reads many of them. -/
theorem readMany_of_regular {noun : String} {op : Operation} (he : ['e'] <:+ noun.toList)
    (hlisted : OpKind.classify (OpKind.listing noun) = (.readMany, noun))
    (hop : api.operations.get? (OpKind.listing noun) = some op)
    (hignored : OpKind.listing noun ∉ ignored) :
    (api.operationsOf ignored .readMany).get? noun = some op := by
  have hlast := candidates_last (e := (OpKind.listing noun, op)) hop hignored hlisted
    fun name hname => OpKind.le_listing he hname
  rw [operationsOf_get?, hlast]
  rfl

end Api

namespace Resource

/-- A built resource has the operations of the API on its noun. -/
theorem buildAll_ops (api : Api) (config : Config) (mode : OnFailure) :
    Yields (fun res => ∀ r ∈ res.1, ∃ create,
      r.ops = .ofApi api config.ignore.operations r.names.given create)
      (buildAll api config mode) := by
  refine buildAll_each mode fun names create => ?_
  have hkept : Kept fun r => ∃ create,
      r.ops = .ofApi api config.ignore.operations r.names.given create :=
    ⟨fun _ h _ => h, fun _ h _ => h, fun _ h => h⟩
  exact hkept.build (fun _ _ _ h => h) ⟨create, rfl⟩

end Resource

namespace OpKind

open Name

/-- The operations on a noun in `e` go by the noun, except for what lists its resources if the
plural has one of the longer endings. In that case the resource does without it. -/
theorem operations_grouped_iff {noun : String} (he : ['e'] <:+ noun.toList) :
    isPlural noun = false ∧
    (classify ("Create" ++ noun) = (create, noun) ∧ classify ("Delete" ++ noun) = (delete, noun) ∧
      classify ("Update" ++ noun) = (update, noun)) ∧
    (classify (listing noun) = (readMany, noun) ↔ Regular noun) ∧
    (∀ stem, noun = stem ++ "ie" → classify (listing noun) = (readMany, stem ++ "y")) ∧
    (∀ stem, noun = stem ++ "e" → ¬ Regular noun → ¬ ['i'] <:+ stem.toList →
      classify (listing noun) = (readMany, stem)) ∧
    ∀ api config mode log resources failures log',
      runFrom (Resource.buildAll api config mode) log = (.ok (resources, failures), log') →
      ∀ r ∈ resources, r.names.given = noun → ∀ op, api.operations.get? (listing noun) = some op →
      listing noun ∉ config.ignore.operations →
      (Regular noun → r.ops.readMany? = some op) ∧
      (¬ Regular noun → r.ops.readMany? = ((api.without (listing noun)).operationsOf
        config.ignore.operations readMany).get? noun) := by
  obtain ⟨stem, hstem⟩ := he
  have he : ['e'] <:+ noun.toList := ⟨stem, hstem⟩
  have hnoun : noun ≠ "" := by
    rintro rfl
    simp at hstem
  have hplural : noun.toList ++ ['s'] = stem ++ "es".toList := by simp [← hstem]
  have hregular : classify (listing noun) = (readMany, noun) ↔ Regular noun := by
    rw [classify_listing_iff, regular_iff, hplural, ← hstem]
    exact singular_of_plain_iff
  refine ⟨?_, ⟨?_, ?_, ?_⟩, hregular, ?_, ?_, ?_⟩
  · rw [isPlural, singularize, ← hstem, (singular_singularChars _).of_e, hstem,
      String.ofList_toList, bne_self_eq_false]
  · exact classify_verb (by decide) hnoun (by decide)
  · exact classify_verb (by decide) hnoun (by decide)
  · exact classify_verb (by decide) hnoun (by decide)
  · rintro u rfl
    have hies : (u ++ "ie").toList ++ ['s'] = u.toList ++ ['i'] ++ "es".toList := by simp
    rw [classify_listing_iff, hies, singular_of_ies, String.toList_append]
    rfl
  · rintro u rfl hirregular hi
    have hes : (u ++ "e").toList ++ ['s'] = u.toList ++ "es".toList := by simp
    rw [regular_iff, not_not, hes] at hirregular
    rw [classify_listing_iff, hes]
    rcases hirregular with ⟨v, hv⟩ | ⟨ending, hin, hsuffix⟩
    · have hv : (v ++ ['i']) ++ "es".toList = u.toList ++ "es".toList := by
        rw [← hv, List.append_assoc]
        rfl
      exact (hi ⟨v, List.append_cancel_right hv⟩).elim
    · exact singular_of_sibilant hin hsuffix
  · intro api config mode log resources failures log' hrun r hr hgiven op hop hignored
    obtain ⟨create, hops⟩ := Resource.buildAll_ops api config mode _ _ _ hrun r hr
    have hread : r.ops.readMany? =
        (api.operationsOf config.ignore.operations readMany).get? noun := by
      rw [hops, hgiven]
      rfl
    rw [hread, ← hregular]
    constructor
    · intro hlisted
      exact Api.readMany_of_regular he hlisted hop hignored
    · intro hlisted
      rw [Api.operationsOf_get?, Api.operationsOf_get?, Api.candidates_without hlisted]

namespace Sample

/-- An API that creates something and lists it. -/
def stock (noun : String) : Api where
  serviceId := "S"
  apiVersion := "1"
  shapes := .ofList [("In", ⟨.struct (.ofList [("Name", ⟨"Text", ""⟩)]), [], false, ""⟩),
    ("Text", ⟨.scalar .string, [], false, ""⟩)]
  operations := .ofList [("Create" ++ noun, ⟨"Create" ++ noun, some ⟨"In", ""⟩, none⟩),
    (listing noun, ⟨listing noun, none, none⟩)]

/-- The nouns of the resources of an API, with the operations that read many of them. -/
def listed (api : Api) : Option (List (String × Option String)) :=
  (runFrom (Resource.buildAll api {} .stop) []).1.toOption.map fun res =>
    res.1.map fun r => (r.names.given, r.ops.readMany?.map Operation.name)

theorem of_listed {api : Api} {given : String} {name? : Option String}
    (h : listed api = some [(given, name?)]) : ∃ resources failures log r,
      runFrom (Resource.buildAll api {} .stop) [] = (.ok (resources, failures), log) ∧
      r ∈ resources ∧ r.names.given = given ∧ r.ops.readMany?.map Operation.name = name? := by
  unfold listed at h
  cases hrun : runFrom (Resource.buildAll api {} .stop) [] with
  | mk result log =>
    rw [hrun] at h
    cases result with
    | error e => cases h
    | ok res =>
      obtain ⟨r, hr, hlisted⟩ := List.map_eq_singleton_iff.mp (Option.some.inj h)
      obtain ⟨hgiven, hname⟩ := Prod.mk.inj hlisted
      exact ⟨res.1, res.2, log, r, rfl, by simp [hr], hgiven, hname⟩

end Sample

open Sample in
/-- Queues are listed by `ListQueues`. -/
theorem operations_grouped_iff_queue : ∃ resources failures log r,
    ['e'] <:+ "Queue".toList ∧
    runFrom (Resource.buildAll (stock "Queue") {} .stop) [] = (.ok (resources, failures), log) ∧
    r ∈ resources ∧ r.names.given = "Queue" ∧ Regular "Queue" ∧
    classify "CreateQueue" = (create, "Queue") ∧ classify "ListQueues" = (readMany, "Queue") ∧
    r.ops.readMany? = some ⟨"ListQueues", none, none⟩ := by
  have he : ['e'] <:+ "Queue".toList := by decide
  have hregular : Regular "Queue" := by decide
  have hlisted : listed (stock "Queue") = some [("Queue", some "ListQueues")] := by cbv
  have hname : listing "Queue" = "ListQueues" := by decide +kernel
  have hcreate : "Create" ++ "Queue" = "CreateQueue" := by decide +kernel
  have hop : (stock "Queue").operations.get? (listing "Queue") =
      some ⟨"ListQueues", none, none⟩ := by
    cbv
  obtain ⟨resources, failures, log, r, hrun, hr, hgiven, -⟩ := of_listed hlisted
  obtain ⟨-, ⟨hcreated, -⟩, hgrouped, -, -, hattached⟩ := operations_grouped_iff he
  refine ⟨resources, failures, log, r, he, hrun, hr, hgiven, hregular, ?_, ?_, ?_⟩
  · rw [← hcreate, hcreated]
  · rw [← hname, hgrouped.mpr hregular]
  · exact (hattached _ _ _ _ _ _ _ hrun r hr hgiven _ hop (by simp)).1 hregular

open Sample in
/-- Caches are created by `CreateCache`, but `ListCaches` goes by another noun, and the resource
does without it. -/
theorem caches_listed_apart : isPlural "Cache" = false ∧
    classify "CreateCache" = (create, "Cache") ∧ classify "ListCaches" = (readMany, "Cach") ∧
    (stock "Cache").operations.get? "ListCaches" = some ⟨"ListCaches", none, none⟩ ∧
    ∃ resources failures log r,
      runFrom (Resource.buildAll (stock "Cache") {} .stop) [] = (.ok (resources, failures), log) ∧
      r ∈ resources ∧ r.names.given = "Cache" ∧ r.ops.readMany? = none := by
  have hlisted : listed (stock "Cache") = some [("Cache", none)] := by cbv
  obtain ⟨resources, failures, log, r, hrun, hr, hgiven, hname⟩ := of_listed hlisted
  refine ⟨by decide +kernel, by decide +kernel, by decide +kernel, by cbv, ?_⟩
  exact ⟨resources, failures, log, r, hrun, hr, hgiven, Option.map_eq_none_iff.mp hname⟩

end OpKind

end ResourceVersions
