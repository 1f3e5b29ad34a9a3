import ResourceVersions.Conversion.Functions
import ResourceVersions.Proofs.SectionDeltas
import ResourceVersions.Proofs.Table
import ResourceVersions.Stash.Store

/-! # The stash during a conversion

A delta that stands alone stashes its field on the way out and takes it back on the way in. Every
such delta has a key of its own, so nothing is left of what was stashed after both ways. -/
namespace ResourceVersions

namespace Table

variable {α : Type} {t t' : Table α} {name other : String}

theorem get?_erase (t : Table α) (name other : String) :
    (t.erase name).get? other = if other = name then none else t.get? other := by
  have hlookup : ∀ l : List (String × α), (l.filter fun e => e.1 != name).lookup other =
      if other = name then none else l.lookup other := by
    intro l
    induction l with
    | nil => simp
    | cons e l ih =>
      obtain ⟨k, v⟩ := e
      by_cases hk : k = name
      · subst hk
        rw [List.filter_cons_of_neg (by simp), ih, lookup_cons_if]
        by_cases ho : other = k
        · rw [if_pos ho, if_pos ho]
        · rw [if_neg ho, if_neg ho, if_neg ho]
      · by_cases ho : other = k
        · subst ho
          simp [hk]
        · simp [hk, ho, lookup_cons_if, ih]
  exact hlookup t.entries

theorem erase_absent (h : t.get? name = none) : t.erase name = t := by
  refine eq_of_entries (List.filter_eq_self.mpr fun e he => ?_)
  simp only [bne_iff_ne]
  rintro rfl
  rw [get?_eq_some_iff.mpr he] at h
  cases h

theorem ofList_entries (t : Table α) : Table.ofList t.entries = t :=
  eq_of_entries (entries_ofList t.nodup)

theorem filter_erase_dropped (t : Table α) (keep : String → Bool) (h : keep name = false) :
    (t.erase name).filter (fun k _ => keep k) = t.filter fun k _ => keep k := by
  refine eq_of_entries ((List.filter_filter ..).trans (List.filter_congr fun e _ => ?_))
  by_cases he : e.1 = name <;> simp [he, h]

end Table

namespace Stash

variable {t t' : Table String} {id id' : String}

/-- Whether a name is the key of a stashed value. -/
def isKey (name : String) : Bool := keyStart.toList.isPrefixOf name.toList

theorem isKey_key (id : String) : isKey (key id) = true := by
  unfold isKey key
  rw [String.toList_append, List.isPrefixOf_iff_prefix]
  exact List.prefix_append _ _

theorem key_inj : key id = key id' ↔ id = id' := String.append_right_inj _

/-- The annotations that hold no stashed values. -/
def others (t : Table String) : List (String × String) := t.entries.filter fun e => !isKey e.1

theorem others_insert (t : Table String) (id text : String) :
    others (t.insert (key id) text) = others t :=
  congrArg Table.entries (t.filter_insert_dropped (fun n => !isKey n) text (by simp [isKey_key]))

theorem others_erase (t : Table String) (id : String) : others (t.erase (key id)) = others t :=
  congrArg Table.entries (t.filter_erase_dropped (fun n => !isKey n) (by simp [isKey_key]))

/-- Nothing is stashed. -/
def Clear (t : Table String) : Prop := ∀ name, isKey name = true → t.get? name = none

theorem others_of_clear (h : Clear t) : others t = t.entries := by
  refine List.filter_eq_self.mpr fun e he => ?_
  cases hkey : isKey e.1 with
  | false => rfl
  | true =>
    have hnone := h e.1 hkey
    rw [Table.get?_eq_some_iff.mpr he] at hnone
    cases hnone

theorem eq_of_clear (h : Clear t) (h' : Clear t') (ho : others t = others t') : t = t' := by
  rw [others_of_clear h, others_of_clear h'] at ho
  exact Table.eq_of_entries ho

end Stash

namespace Conversion

/-- The way back. -/
def Way.back : Way → Way
  | .toHub => .fromHub
  | .fromHub => .toHub

@[simp] theorem Way.back_back (way : Way) : way.back.back = way := by
  cases way <;> rfl

end Conversion

namespace FieldDelta

open Conversion

/-- The field of a delta that a conversion reads. -/
def source? (way : Way) (d : FieldDelta) : Option Field :=
  match way with
  | .toHub => d.spoke?
  | .fromHub => d.hub?

/-- The field of a delta that a conversion fills. -/
def dest? (way : Way) (d : FieldDelta) : Option Field := d.source? way.back

theorem dest?_back (way : Way) (d : FieldDelta) : d.dest? way.back = d.source? way := by
  rw [dest?, Way.back_back]

/-- The field of a delta that has no partner. -/
def lone? : FieldDelta → Option Field
  | pair _ _ _ => none
  | added h => some h
  | removed s => some s

theorem source?_or_dest? (way : Way) (d : FieldDelta) :
    (∃ f g, d.source? way = some f ∧ d.dest? way = some g ∧ d.lone? = none) ∨
    (∃ f, d.source? way = some f ∧ d.dest? way = none ∧ d.lone? = some f) ∨
    ∃ g, d.source? way = none ∧ d.dest? way = some g ∧ d.lone? = some g := by
  cases way <;> cases d <;> simp [source?, dest?, Way.back, spoke?, hub?, lone?]

end FieldDelta

namespace Conversion

open Direction ResourceDelta

/-- A delta of one of the parts of an object. -/
abbrev Step := Part × FieldDelta

/-- The deltas of a resource in the order in which conversions go through them. -/
def steps (delta : ResourceDelta) : List Step :=
  delta.spec.map (Prod.mk .spec) ++ delta.status.map (Prod.mk .status)

/-- The key under which a delta that stands alone stashes. -/
def stepKey (s : Step) : Option String := s.2.lone?.map fun f => Stash.key (fieldId s.1 f)

/-- What a step of a conversion does to the annotations, given the values that it reads. -/
def stashStep (way : Way) (values : Part → String → Value) (t : Table String) (s : Step) :
    Table String :=
  match s.2.source? way, s.2.dest? way with
  | some f, none =>
    let v := values s.1 (fieldName f)
    if v.isNull then t else t.insert (Stash.key (fieldId s.1 f)) (Stash.encode v)
  | none, some g => t.erase (Stash.key (fieldId s.1 g))
  | _, _ => t

/-- The annotations after the steps of a conversion. -/
def stashAfter (way : Way) (values : Part → String → Value) (l : List Step) (t : Table String) :
    Table String := l.foldl (stashStep way values) t

variable {way : Way} {values values' : Part → String → Value} {t t' : Table String} {s : Step}
  {l : List Step} {name : String} {f g : Field}

theorem stashStep_pair (h : s.2.lone? = none) : stashStep way values t s = t := by
  unfold stashStep
  rcases s.2.source?_or_dest? way with ⟨f, g, hf, hg, -⟩ | ⟨f, -, -, hl⟩ | ⟨g, -, -, hl⟩
  · rw [hf, hg]
  · rw [h] at hl
    cases hl
  · rw [h] at hl
    cases hl

theorem stashStep_source (hf : s.2.source? way = some f) (hg : s.2.dest? way = none) :
    stashStep way values t s = if (values s.1 (fieldName f)).isNull then t else
      t.insert (Stash.key (fieldId s.1 f)) (Stash.encode (values s.1 (fieldName f))) := by
  unfold stashStep
  rw [hf, hg]

theorem stashStep_dest (hf : s.2.source? way = none) (hg : s.2.dest? way = some g) :
    stashStep way values t s = t.erase (Stash.key (fieldId s.1 g)) := by
  unfold stashStep
  rw [hf, hg]

theorem others_stashStep : Stash.others (stashStep way values t s) = Stash.others t := by
  rcases s.2.source?_or_dest? way with ⟨f, g, -, -, hl⟩ | ⟨f, hf, hg, -⟩ | ⟨g, hf, hg, -⟩
  · rw [stashStep_pair hl]
  · rw [stashStep_source hf hg]
    split
    · rfl
    · exact Stash.others_insert _ _ _
  · rw [stashStep_dest hf hg]
    exact Stash.others_erase _ _

theorem others_stashAfter : Stash.others (stashAfter way values l t) = Stash.others t := by
  induction l generalizing t with
  | nil => rfl
  | cons s l ih => exact ih.trans others_stashStep

/-- A step leaves every other key alone. -/
theorem stashStep_other (h : stepKey s ≠ some name) :
    (stashStep way values t s).get? name = t.get? name := by
  have hne : ∀ f, s.2.lone? = some f → name ≠ Stash.key (fieldId s.1 f) := by
    rintro f hf rfl
    exact h (by rw [stepKey, hf]; rfl)
  rcases s.2.source?_or_dest? way with ⟨f, g, -, -, hl⟩ | ⟨f, hf, hg, hl⟩ | ⟨g, hf, hg, hl⟩
  · rw [stashStep_pair hl]
  · rw [stashStep_source hf hg]
    split
    · rfl
    · rw [Table.get?_insert, if_neg (hne f hl)]
  · rw [stashStep_dest hf hg, Table.get?_erase, if_neg (hne g hl)]

theorem stashAfter_other (h : name ∉ l.filterMap stepKey) :
    (stashAfter way values l t).get? name = t.get? name := by
  induction l generalizing t with
  | nil => rfl
  | cons s l ih =>
    have hs : stepKey s ≠ some name := by
      intro hs
      exact h (List.mem_filterMap.mpr ⟨s, by simp, hs⟩)
    have hl : name ∉ l.filterMap stepKey := by
      intro hl
      obtain ⟨s', hs', hname⟩ := List.mem_filterMap.mp hl
      exact h (List.mem_filterMap.mpr ⟨s', by simp [hs'], hname⟩)
    exact (ih hl).trans (stashStep_other hs)

/-- What a step does to its own key depends on that key alone. -/
theorem stashStep_congr (hs : stepKey s = some name) (h : t.get? name = t'.get? name) :
    (stashStep way values t s).get? name = (stashStep way values t' s).get? name := by
  rcases s.2.source?_or_dest? way with ⟨f, g, -, -, hl⟩ | ⟨f, hf, hg, hl⟩ | ⟨g, hf, hg, hl⟩
  · rw [stepKey, hl] at hs
    cases hs
  · rw [stashStep_source hf hg, stashStep_source hf hg]
    split
    · exact h
    · rw [Table.get?_insert, Table.get?_insert, h]
  · rw [stashStep_dest hf hg, stashStep_dest hf hg, Table.get?_erase, Table.get?_erase, h]

/-- Where keys are different, a key is only touched by its own step. -/
theorem stashAfter_own (hl : (l.filterMap stepKey).Nodup) (hs : s ∈ l)
    (hname : stepKey s = some name) :
    (stashAfter way values l t).get? name = (stashStep way values t s).get? name := by
  obtain ⟨pre, post, rfl⟩ := List.append_of_mem hs
  rw [List.filterMap_append, List.filterMap_cons_some hname, List.nodup_append,
    List.nodup_cons] at hl
  obtain ⟨-, ⟨hpost, -⟩, hpre⟩ := hl
  unfold stashAfter
  rw [List.foldl_append, List.foldl_cons]
  refine (stashAfter_other hpost).trans (stashStep_congr hname (stashAfter_other fun hin => ?_))
  exact hpre name hin name (by simp) rfl

/-- After the way out and the way in the annotations are as before, if the fields that only the
other version has were not set there. -/
theorem stashAfter_back (hl : (l.filterMap stepKey).Nodup) (ht : Stash.Clear t)
    (hnull : ∀ s ∈ l, ∀ g, s.2.source? way = none → s.2.dest? way = some g →
      values' s.1 (fieldName g) = .null) :
    stashAfter way.back values' l (stashAfter way values l t) = t := by
  refine Stash.eq_of_clear (fun name hkey => ?_) ht
    (others_stashAfter.trans others_stashAfter)
  by_cases hin : name ∈ l.filterMap stepKey
  · obtain ⟨s, hs, hname⟩ := List.mem_filterMap.mp hin
    rw [stashAfter_own hl hs hname]
    have hself : ∀ f, s.2.lone? = some f → name = Stash.key (fieldId s.1 f) := by
      intro f hf
      rw [stepKey, hf] at hname
      exact (Option.some.inj hname).symm
    rcases s.2.source?_or_dest? way with ⟨f, g, -, -, hlone⟩ | ⟨f, hf, hg, hlone⟩ |
      ⟨g, hf, hg, hlone⟩
    · rw [stepKey, hlone] at hname
      cases hname
    · have hf' : s.2.dest? way.back = some f := by rw [FieldDelta.dest?_back, hf]
      rw [stashStep_dest hg hf', Table.get?_erase, if_pos (hself f hlone)]
    · have hf' : s.2.dest? way.back = none := by rw [FieldDelta.dest?_back, hf]
      rw [stashStep_source hg hf', hnull s hs g hf hg]
      rw [show (Value.null).isNull = true from rfl, if_pos rfl, stashAfter_own hl hs hname,
        stashStep_dest hf hg, Table.get?_erase, if_pos (hself g hlone)]
  · rw [stashAfter_other hin, stashAfter_other hin]
    exact ht name hkey

/-- What only the source has is found in the annotations afterwards, unless it is null. -/
theorem stashAfter_source (values : Part → String → Value) (hl : (l.filterMap stepKey).Nodup)
    (ht : Stash.Clear t) (hs : s ∈ l) (hf : s.2.source? way = some f)
    (hg : s.2.dest? way = none) :
    (stashAfter way values l t).get? (Stash.key (fieldId s.1 f)) =
      if (values s.1 (fieldName f)).isNull then none
      else some (Stash.encode (values s.1 (fieldName f))) := by
  have hname : stepKey s = some (Stash.key (fieldId s.1 f)) := by
    rcases s.2.source?_or_dest? way with ⟨f', g, -, hg', -⟩ | ⟨f', hf', -, hlone⟩ | ⟨g, hf', -, -⟩
    · rw [hg] at hg'
      cases hg'
    · cases hf.symm.trans hf'
      rw [stepKey, hlone]
      rfl
    · rw [hf] at hf'
      cases hf'
  rw [stashAfter_own hl hs hname, stashStep_source hf hg]
  split
  · exact ht _ (Stash.isKey_key _)
  · rw [Table.get?_insert, if_pos rfl]

section Keys

variable {spoke hub : Table Field} {deltas : List FieldDelta} {delta : ResourceDelta}

/-- The fields that stand alone have different names. -/
theorem lone_nodup (h : Sections spoke hub deltas) :
    (deltas.filterMap fun d => d.lone?.map fieldName).Nodup := by
  have hs := List.pairwise_filterMap.mp (h.ofSpoke.once.nodup_iff.mpr spoke.keys_nodup)
  have hh := List.pairwise_filterMap.mp (h.ofHub.once.nodup_iff.mpr hub.keys_nodup)
  refine List.pairwise_filterMap.mpr ((hs.and hh).imp_of_mem ?_)
  intro d d' hd hd' hne n hn n' hn'
  have hcross : ∀ d ∈ deltas, ∀ d' ∈ deltas, ∀ f g, d = .removed f → d' = .added g →
      fieldName f ≠ fieldName g := by
    rintro _ hd _ hd' f g rfl rfl e
    refine h.ofSpoke.alone _ hd f rfl rfl ?_
    rw [e]
    exact Table.mem_keys_of_get? (h.ofHub.get? _ hd' g rfl)
  cases d with
  | pair c f g => cases hn
  | added g =>
    cases d' with
    | pair c f g => cases hn'
    | added g' => exact hne.2 n hn n' hn'
    | removed f =>
      cases hn
      cases hn'
      exact (hcross _ hd' _ hd f g rfl rfl).symm
  | removed f =>
    cases d' with
    | pair c f g => cases hn'
    | added g =>
      cases hn
      cases hn'
      exact hcross _ hd _ hd' f g rfl rfl
    | removed f' => exact hne.1 n hn n' hn'

theorem stepKeys_part (p : Part) (deltas : List FieldDelta) :
    (deltas.map (Prod.mk p)).filterMap stepKey =
      (deltas.filterMap fun d => d.lone?.map fieldName).map
        fun n => Stash.key (p.text ++ "." ++ n) := by
  rw [List.filterMap_map, List.map_filterMap]
  refine List.filterMap_congr fun d _ => ?_
  cases d <;> rfl

/-- No two steps stash under one key. -/
theorem stepKeys_nodup {spoke' hub' : Table Field} (hspec : Sections spoke hub delta.spec)
    (hstatus : Sections spoke' hub' delta.status) : ((steps delta).filterMap stepKey).Nodup := by
  have hinj : ∀ p : Part, Function.Injective fun n => Stash.key (p.text ++ "." ++ n) := by
    intro p n n' e
    exact (String.append_right_inj _).mp (Stash.key_inj.mp e)
  rw [steps, List.filterMap_append, stepKeys_part, stepKeys_part, List.nodup_append]
  refine ⟨(lone_nodup hspec).map (hinj .spec), (lone_nodup hstatus).map (hinj .status), ?_⟩
  rintro _ hn _ hn' rfl
  obtain ⟨n, -, rfl⟩ := List.mem_map.mp hn
  obtain ⟨n', -, e⟩ := List.mem_map.mp hn'
  have e := congrArg String.toList (Stash.key_inj.mp e)
  simp only [Part.text, String.toList_append] at e
  cases (List.cons.inj (List.cons.inj e).2).1

end Keys

end Conversion

end ResourceVersions
