import Mathlib.Data.String.Basic
import Mathlib.Data.List.Sort
import ResourceVersions.Table

/-! # Reading and sorting tables

A table is read by `get?`, and the sorted entries are the same entries in strictly ascending
order of their names. -/
namespace ResourceVersions

theorem sortNames_perm (names : List String) : (sortNames names).Perm names :=
  List.mergeSort_perm names _

theorem sortNames_pairwise_le (names : List String) :
    (sortNames names).Pairwise (· ≤ ·) := by
  have h := @List.pairwise_mergeSort _ (fun a b : String => decide (a ≤ b))
    (by simpa using fun a b c => le_trans (a := a) (b := b) (c := c))
    (by simpa using fun a b => le_total a b) names
  exact h.imp (by simp)

namespace Table

universe u v
variable {α : Type u} {β : Type v} {t : Table α} {name : String} {value : α}

theorem lookup_cons_if (k other : String) (v : α) (l : List (String × α)) :
    ((k, v) :: l).lookup other = if other = k then some v else l.lookup other := by
  by_cases h : other = k
  · subst h
    simp
  · have hb : (other == k) = false := by simpa using h
    simp [List.lookup_cons, hb, h]

theorem lookup_of_mem {l : List (String × α)} (hk : (l.map Prod.fst).Nodup)
    (hm : (name, value) ∈ l) : l.lookup name = some value := by
  induction l with
  | nil => simp at hm
  | cons e rest ih =>
    obtain ⟨k, v⟩ := e
    simp only [List.map_cons, List.nodup_cons] at hk
    rw [lookup_cons_if]
    rcases List.mem_cons.mp hm with h | h
    · obtain ⟨rfl, rfl⟩ := Prod.mk.inj h
      simp
    · have hne : name ≠ k := by
        rintro rfl
        exact hk.1 (List.mem_map.mpr ⟨_, h, rfl⟩)
      rw [if_neg hne]
      exact ih hk.2 h

theorem get?_eq_some_iff : t.get? name = some value ↔ (name, value) ∈ t.entries :=
  ⟨lookup_eq_some_mem, lookup_of_mem t.nodup⟩

theorem mem_keys_iff : name ∈ t.keys ↔ ∃ v, t.get? name = some v := by
  simp [keys, get?_eq_some_iff]

theorem get?_eq_none_iff : t.get? name = none ↔ name ∉ t.keys := by
  rw [mem_keys_iff]
  cases t.get? name <;> simp

theorem contains_iff_mem_keys : t.contains name = true ↔ name ∈ t.keys := by
  rw [mem_keys_iff, contains, Option.isSome_iff_exists]

theorem keys_nodup (t : Table α) : t.keys.Nodup := t.nodup

theorem sorted_perm (t : Table α) : t.sorted.Perm t.entries := List.mergeSort_perm _ _

theorem mem_sorted_iff : (name, value) ∈ t.sorted ↔ t.get? name = some value := by
  rw [t.sorted_perm.mem_iff, get?_eq_some_iff]

theorem sortedKeys_perm (t : Table α) : t.sortedKeys.Perm t.keys := sortNames_perm _

theorem mem_sortedKeys_iff : name ∈ t.sortedKeys ↔ name ∈ t.keys :=
  t.sortedKeys_perm.mem_iff

theorem sortedKeys_pairwise_lt (t : Table α) : t.sortedKeys.Pairwise (· < ·) := by
  have hn : t.sortedKeys.Nodup := t.sortedKeys_perm.nodup_iff.mpr t.keys_nodup
  exact ((sortNames_pairwise_le t.keys).and hn).imp fun h => lt_of_le_of_ne h.1 h.2

/-- Names in order are determined by which names they are. -/
theorem eq_sortedKeys {names : List String} (hp : names.Perm t.keys)
    (hs : names.Pairwise (· ≤ ·)) : names = t.sortedKeys :=
  (hp.trans t.sortedKeys_perm.symm).eq_of_pairwise (fun _ _ _ _ => le_antisymm) hs
    (sortNames_pairwise_le _)

theorem fst_sorted (t : Table α) : t.sorted.map Prod.fst = t.sortedKeys := by
  apply eq_sortedKeys (t.sorted_perm.map Prod.fst)
  have h := @List.pairwise_mergeSort _ (fun a b : String × α => decide (a.1 ≤ b.1))
    (by simpa using fun a _ b _ c _ => le_trans (a := a) (b := b) (c := c))
    (by simpa using fun a _ b _ => le_total a b) t.entries
  rw [List.pairwise_map]
  exact h.imp (by simp)

theorem sortedKeys_eq_iff {s : Table β} :
    s.sortedKeys = t.sortedKeys ↔ ∀ name, name ∈ s.keys ↔ name ∈ t.keys := by
  constructor
  · intro h name
    rw [← mem_sortedKeys_iff, h, mem_sortedKeys_iff]
  · intro h
    refine eq_sortedKeys ?_ (sortNames_pairwise_le _)
    exact s.sortedKeys_perm.trans
      ((List.perm_ext_iff_of_nodup s.keys_nodup t.keys_nodup).mpr h)

theorem lookup_putEntry (l : List (String × α)) (name other : String) (value : α) :
    (putEntry name value l).lookup other =
      if other = name then some value else l.lookup other := by
  induction l with
  | nil => exact lookup_cons_if name other value []
  | cons e rest ih =>
    obtain ⟨k, v⟩ := e
    by_cases hk : k = name
    · subst hk
      by_cases h : other = k <;> simp [putEntry, lookup_cons_if, h]
    · by_cases h : other = k
      · subst h
        simp [putEntry, hk]
      · simp [putEntry, hk, lookup_cons_if, h, ih]

theorem get?_insert (t : Table α) (name other : String) (value : α) :
    (t.insert name value).get? other = if other = name then some value else t.get? other :=
  lookup_putEntry t.entries name other value

theorem mem_keys_insert {other : String} :
    other ∈ (t.insert name value).keys ↔ other = name ∨ other ∈ t.keys := by
  rw [mem_keys_iff, mem_keys_iff, get?_insert]
  by_cases h : other = name <;> simp [h]

theorem putEntry_same {l : List (String × α)} (h : l.lookup name = some value) :
    putEntry name value l = l := by
  induction l with
  | nil => cases h
  | cons e l ih =>
    obtain ⟨k, v⟩ := e
    rw [lookup_cons_if] at h
    by_cases hk : name = k
    · subst hk
      rw [if_pos rfl] at h
      cases h
      simp [putEntry]
    · rw [if_neg hk] at h
      rw [putEntry, if_neg (Ne.symm hk), ih h]

theorem eq_of_entries {s : Table α} (h : s.entries = t.entries) : s = t := by
  cases s
  cases t
  cases h
  rfl

/-- Only an entry that is there already changes nothing. -/
theorem insert_eq_self_iff : t.insert name value = t ↔ t.get? name = some value := by
  constructor
  · intro h
    have hget := get?_insert t name name value
    rwa [h, if_pos rfl] at hget
  · exact fun h => eq_of_entries (putEntry_same h)

theorem putEntry_new {k : String} {v : α} {l : List (String × α)}
    (h : k ∉ l.map Prod.fst) : putEntry k v l = l ++ [(k, v)] := by
  induction l with
  | nil => rfl
  | cons e l ih =>
    simp only [List.map_cons, List.mem_cons, not_or] at h
    rw [putEntry, if_neg (Ne.symm h.1), ih h.2, List.cons_append]

theorem putEntry_mid {k : String} {v v' : α} {l rest : List (String × α)}
    (h : k ∉ l.map Prod.fst) :
    putEntry k v (l ++ (k, v') :: rest) = l ++ (k, v) :: rest := by
  induction l with
  | nil => simp [putEntry]
  | cons e l ih =>
    simp only [List.map_cons, List.mem_cons, not_or] at h
    rw [List.cons_append, putEntry, if_neg (Ne.symm h.1), ih h.2, List.cons_append]

theorem entries_ofList {l : List (String × α)} (h : (l.map Prod.fst).Nodup) :
    (Table.ofList l).entries = l := by
  have run : ∀ (l : List (String × α)) (t : Table α),
      ((t.entries ++ l).map Prod.fst).Nodup →
      (l.foldl (fun t e => t.insert e.1 e.2) t).entries = t.entries ++ l := by
    intro l
    induction l with
    | nil => simp
    | cons e l ih =>
      intro t h
      have hnew : e.1 ∉ t.entries.map Prod.fst := by
        rw [List.map_append, List.map_cons, List.nodup_append] at h
        intro hin
        exact h.2.2 e.1 hin e.1 (List.mem_cons_self ..) rfl
      have hentries : (t.insert e.1 e.2).entries = t.entries ++ [e] :=
        putEntry_new hnew
      rw [List.foldl_cons, ih, hentries]
      · simp
      · rw [hentries]
        simpa using h
  exact run l empty h

theorem get?_ofList {l : List (String × α)} {name : String} {value : α}
    (h : (l.map Prod.fst).Nodup) (hm : (name, value) ∈ l) :
    (Table.ofList l).get? name = some value := by
  rw [get?_eq_some_iff, entries_ofList h]
  exact hm

theorem mem_of_get?_ofList {l : List (String × α)} {name : String} {value : α}
    (h : (Table.ofList l).get? name = some value) : (name, value) ∈ l := by
  have run : ∀ (l : List (String × α)) (t : Table α),
      (l.foldl (fun t e => t.insert e.1 e.2) t).get? name = some value →
      (name, value) ∈ l ∨ t.get? name = some value := by
    intro l
    induction l with
    | nil => exact fun t h => .inr h
    | cons e l ih =>
      intro t h
      rcases ih _ h with hin | hget
      · exact .inl (List.mem_cons_of_mem e hin)
      · rw [get?_insert] at hget
        split at hget
        · rename_i hname
          cases hget
          exact .inl (by simp [hname])
        · exact .inr hget
  rcases run l empty h with hin | hempty
  · exact hin
  · cases hempty

section Filter

variable (t : Table α) (keep : String → Bool)

theorem filter_insert_kept {name : String} (value : α) (h : keep name = true) :
    (t.insert name value).filter (fun k _ => keep k) =
      (t.filter fun k _ => keep k).insert name value := by
  apply eq_of_entries
  change (putEntry name value t.entries).filter (fun e => keep e.1) =
    putEntry name value (t.entries.filter fun e => keep e.1)
  induction t.entries with
  | nil => simp [putEntry, h]
  | cons e l ih =>
    obtain ⟨k, v⟩ := e
    by_cases hk : k = name
    · subst hk
      simp [putEntry, h]
    · by_cases hkept : keep k <;> simp [putEntry, hk, hkept, ih]

theorem filter_insert_dropped {name : String} (value : α) (h : keep name = false) :
    (t.insert name value).filter (fun k _ => keep k) = t.filter fun k _ => keep k := by
  apply eq_of_entries
  change (putEntry name value t.entries).filter (fun e => keep e.1) =
    t.entries.filter fun e => keep e.1
  induction t.entries with
  | nil => simp [putEntry, h]
  | cons e l ih =>
    obtain ⟨k, v⟩ := e
    by_cases hk : k = name
    · subst hk
      simp [putEntry, h]
    · simp only [putEntry, if_neg hk, List.filter_cons, ih]

theorem mem_keys_filter {name : String} :
    name ∈ (t.filter fun k _ => keep k).keys ↔ name ∈ t.keys ∧ keep name = true := by
  simp only [keys, filter, List.mem_map, List.mem_filter]
  constructor
  · rintro ⟨e, ⟨he, hkept⟩, rfl⟩
    exact ⟨⟨e, he, rfl⟩, hkept⟩
  · rintro ⟨⟨e, he, rfl⟩, hkept⟩
    exact ⟨e, ⟨he, hkept⟩, rfl⟩

theorem sorted_pairwise_le : t.sorted.Pairwise fun a b => a.1 ≤ b.1 := by
  have h := (sortNames_pairwise_le t.keys)
  rw [show sortNames t.keys = t.sortedKeys from rfl, ← fst_sorted, List.pairwise_map] at h
  exact h

/-- Sorting what is kept is keeping of what is sorted. -/
theorem sorted_filter :
    (t.filter fun k _ => keep k).sorted = t.sorted.filter fun e => keep e.1 := by
  have hperm : (t.filter fun k _ => keep k).sorted.Perm (t.sorted.filter fun e => keep e.1) :=
    (sorted_perm _).trans (t.sorted_perm.filter _).symm
  refine hperm.eq_of_pairwise (fun a b ha hb hab hba => ?_) (sorted_pairwise_le _)
    (t.sorted_pairwise_le.filter _)
  have ha' := mem_sorted_iff.mp ((List.mem_filter.mp (hperm.mem_iff.mp ha)).1)
  have hb' := mem_sorted_iff.mp (List.mem_filter.mp hb).1
  have hname := le_antisymm hab hba
  rw [hname] at ha'
  exact Prod.ext hname (Option.some.inj (ha'.symm.trans hb'))

end Filter

theorem length_unseen_le (t : Table α) (seen : List String) :
    (t.unseen seen).length ≤ t.size := by
  have hle := List.length_filter_le (fun k => !seen.contains k) t.keys
  rwa [keys, List.length_map] at hle

end Table

end ResourceVersions
