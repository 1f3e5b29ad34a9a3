import ResourceVersions.Proofs.Table

/-! # Tables in another order

Two tables are alike if they have related values under the same names. The order of their entries
shows neither in what is read from them nor in their sorted entries. -/
namespace ResourceVersions

/-- Two optional values are related if both are missing, or both are there and related. -/
theorem rel_cases {α β : Type*} {R : α → β → Prop} {x : Option α} {y : Option β}
    (h : Option.Rel R x y) :
    (x = none ∧ y = none) ∨ ∃ a b, x = some a ∧ y = some b ∧ R a b := by
  cases h with
  | none => exact .inl ⟨rfl, rfl⟩
  | some hab => exact .inr ⟨_, _, rfl, rfl, hab⟩

namespace Table

universe u v
variable {α : Type u} {β : Type v} {R : α → β → Prop} {t : Table α} {t' : Table β} {s s' : Table α}
  {name : String}

/-- Related values under the same names, in any order. -/
def Alike (R : α → β → Prop) (t : Table α) (t' : Table β) : Prop :=
  ∀ name, Option.Rel R (t.get? name) (t'.get? name)

/-- The same values under the same names, in any order. -/
def Same (s s' : Table α) : Prop := ∀ name, s.get? name = s'.get? name

theorem alike_empty (R : α → β → Prop) : Alike R ∅ ∅ := fun _ => .none

theorem Same.refl (s : Table α) : Same s s := fun _ => rfl

namespace Alike

theorem get?_some (h : Alike R t t') {a : α} (ha : t.get? name = some a) :
    ∃ b, t'.get? name = some b ∧ R a b := by
  rcases rel_cases (h name) with ⟨hnone, -⟩ | ⟨x, y, hx, hy, hxy⟩
  · cases ha.symm.trans hnone
  · cases ha.symm.trans hx
    exact ⟨y, hy, hxy⟩

theorem get?_none (h : Alike R t t') (ha : t.get? name = none) : t'.get? name = none := by
  rcases rel_cases (h name) with ⟨-, hnone⟩ | ⟨x, y, hx, -⟩
  · exact hnone
  · cases ha.symm.trans hx

theorem mem_keys (h : Alike R t t') : name ∈ t.keys ↔ name ∈ t'.keys := by
  constructor
  · intro hin
    obtain ⟨a, ha⟩ := mem_keys_iff.mp hin
    obtain ⟨b, hb, -⟩ := h.get?_some ha
    exact mem_keys_of_get? hb
  · intro hin
    by_contra hnot
    exact get?_eq_none_iff.mp (h.get?_none (get?_eq_none_iff.mpr hnot)) hin

theorem contains_eq (h : Alike R t t') (name : String) : t.contains name = t'.contains name := by
  rw [Bool.eq_iff_iff, contains_iff_mem_keys, contains_iff_mem_keys, h.mem_keys]

theorem sortedKeys_eq (h : Alike R t t') : t.sortedKeys = t'.sortedKeys :=
  sortedKeys_eq_iff.mpr fun _ => h.mem_keys

/-- In order of their names the entries correspond to each other. -/
theorem sorted (h : Alike R t t') :
    List.Forall₂ (fun e e' => e.1 = e'.1 ∧ R e.2 e'.2) t.sorted t'.sorted := by
  have hnames : t.sorted.map Prod.fst = t'.sorted.map Prod.fst := by
    rw [fst_sorted, fst_sorted, h.sortedKeys_eq]
  have hmem : ∀ e ∈ t.sorted, t.get? e.1 = some e.2 := fun e he => mem_sorted_iff.mp he
  have hmem' : ∀ e ∈ t'.sorted, t'.get? e.1 = some e.2 := fun e he => mem_sorted_iff.mp he
  generalize t.sorted = l at hnames hmem
  generalize t'.sorted = l' at hnames hmem'
  induction l generalizing l' with
  | nil =>
    cases List.map_eq_nil_iff.mp hnames.symm
    exact .nil
  | cons e l ih =>
    cases l' with
    | nil => cases hnames
    | cons e' l' =>
      obtain ⟨hname, hrest⟩ := List.cons.inj hnames
      obtain ⟨b, hb, hab⟩ := h.get?_some (hmem e (by simp))
      have hb' := hmem' e' (by simp)
      rw [← hname, hb] at hb'
      cases hb'
      exact .cons ⟨hname, hab⟩ (ih (fun e he => hmem e (by simp [he])) l' hrest
        fun e he => hmem' e (by simp [he]))

theorem symm {S : β → α → Prop} (h : Alike R t t') (himp : ∀ a b, R a b → S b a) :
    Alike S t' t := by
  intro name
  rcases rel_cases (h name) with ⟨hx, hy⟩ | ⟨x, y, hx, hy, hxy⟩
  · rw [hx, hy]
    exact .none
  · rw [hx, hy]
    exact .some (himp x y hxy)

theorem insert (h : Alike R t t') (name : String) {a : α} {b : β} (hab : R a b) :
    Alike R (t.insert name a) (t'.insert name b) := by
  intro other
  rw [get?_insert, get?_insert]
  split
  · exact .some hab
  · exact h other

theorem ofList {l : List (String × α)} {l' : List (String × β)}
    (h : List.Forall₂ (fun e e' => e.1 = e'.1 ∧ R e.2 e'.2) l l') :
    Alike R (.ofList l) (.ofList l') := by
  unfold Table.ofList
  have hrun : ∀ {t : Table α} {t' : Table β}, Alike R t t' →
      Alike R (l.foldl (fun t e => t.insert e.1 e.2) t)
        (l'.foldl (fun t e => t.insert e.1 e.2) t') := by
    induction h with
    | nil => exact id
    | @cons e e' _ _ he _ ih =>
      intro t t' ht
      rw [List.foldl_cons, List.foldl_cons, he.1]
      exact ih (ht.insert _ he.2)
  exact hrun (alike_empty R)

end Alike

theorem Alike.same (h : Alike Eq s s') : Same s s' := by
  intro name
  rcases rel_cases (h name) with ⟨hx, hy⟩ | ⟨x, y, hx, hy, rfl⟩
  · rw [hx, hy]
  · rw [hx, hy]

theorem get?_filter (t : Table α) (keep : String → α → Bool) (name : String) :
    (t.filter keep).get? name = (t.get? name).filter (keep name) := by
  cases hget : t.get? name with
  | none =>
    have hnot := get?_eq_none_iff.mp hget
    refine get?_eq_none_iff.mpr fun hin => hnot ?_
    obtain ⟨a, ha⟩ := mem_keys_iff.mp hin
    exact mem_keys_of_get? (get?_eq_some_iff.mpr (List.mem_filter.mp (get?_eq_some_iff.mp ha)).1)
  | some a =>
    have hin := get?_eq_some_iff.mp hget
    cases hkeep : keep name a with
    | true =>
      rw [Option.filter_some, if_pos hkeep]
      exact get?_eq_some_iff.mpr (List.mem_filter.mpr ⟨hin, hkeep⟩)
    | false =>
      rw [Option.filter_some, if_neg (by simp [hkeep])]
      refine get?_eq_none_iff.mpr fun hkept => ?_
      obtain ⟨b, hb⟩ := mem_keys_iff.mp hkept
      obtain ⟨hb, hkeeps⟩ := List.mem_filter.mp (get?_eq_some_iff.mp hb)
      cases hget.symm.trans (get?_eq_some_iff.mpr hb)
      rw [hkeep] at hkeeps
      cases hkeeps

theorem get?_map (t : Table α) (f : String → α → β) (name : String) :
    (t.map f).get? name = (t.get? name).map (f name) := by
  cases hget : t.get? name with
  | none =>
    have hnot := get?_eq_none_iff.mp hget
    refine get?_eq_none_iff.mpr fun hin => hnot ?_
    simpa [keys, Table.map] using hin
  | some a =>
    exact get?_eq_some_iff.mpr (List.mem_map.mpr ⟨_, get?_eq_some_iff.mp hget, rfl⟩)

theorem Alike.filter (h : Alike R t t') {keep : String → α → Bool} {keep' : String → β → Bool}
    (hkeep : ∀ name a b, R a b → keep name a = keep' name b) :
    Alike R (t.filter keep) (t'.filter keep') := by
  intro name
  rw [get?_filter, get?_filter]
  rcases rel_cases (h name) with ⟨hx, hy⟩ | ⟨x, y, hx, hy, hxy⟩
  · rw [hx, hy]
    exact .none
  · rw [hx, hy, Option.filter_some, Option.filter_some, hkeep name x y hxy]
    split
    · exact .some hxy
    · exact .none

theorem Alike.map {γ δ : Type} {S : γ → δ → Prop} (h : Alike R t t') {f : String → α → γ}
    {g : String → β → δ} (hfg : ∀ name a b, R a b → S (f name a) (g name b)) :
    Alike S (t.map f) (t'.map g) := by
  intro name
  rw [get?_map, get?_map]
  rcases rel_cases (h name) with ⟨hx, hy⟩ | ⟨x, y, hx, hy, hxy⟩
  · rw [hx, hy]
    exact .none
  · rw [hx, hy]
    exact .some (hfg name x y hxy)

namespace Same

theorem alike (h : Same s s') : Alike Eq s s' := by
  intro name
  rw [h name]
  cases s'.get? name with
  | none => exact .none
  | some a => exact .some rfl

theorem sorted_eq (h : Same s s') : s.sorted = s'.sorted := by
  have hsorted := h.alike.sorted
  generalize s.sorted = l at hsorted
  generalize s'.sorted = l' at hsorted
  induction hsorted with
  | nil => rfl
  | cons heq _ ih => rw [Prod.ext heq.1 heq.2, ih]

theorem sortedKeys_eq (h : Same s s') : s.sortedKeys = s'.sortedKeys := h.alike.sortedKeys_eq

theorem contains_eq (h : Same s s') (name : String) : s.contains name = s'.contains name :=
  h.alike.contains_eq name

theorem getD_eq (h : Same s s') (name : String) (fallback : α) :
    s.getD name fallback = s'.getD name fallback := by
  rw [getD, getD, h name]

theorem entries_perm (h : Same s s') : s.entries.Perm s'.entries :=
  s.sorted_perm.symm.trans (h.sorted_eq ▸ s'.sorted_perm)

theorem values_perm (h : Same s s') : s.values.Perm s'.values := h.entries_perm.map _

theorem filter (h : Same s s') (keep : String → α → Bool) :
    Same (s.filter keep) (s'.filter keep) := by
  intro name
  rw [get?_filter, get?_filter, h name]

end Same

/-- Entries with different names in another order give the same table but for the order. -/
theorem same_of_perm {l l' : List (String × α)} (hnodup : (l.map Prod.fst).Nodup)
    (hperm : l.Perm l') : Same (Table.ofList l) (Table.ofList l') := by
  have hnodup' : (l'.map Prod.fst).Nodup := (hperm.map Prod.fst).nodup_iff.mp hnodup
  intro name
  cases hget : (Table.ofList l).get? name with
  | none =>
    symm
    rw [get?_eq_none_iff, keys, entries_ofList hnodup] at hget
    rw [get?_eq_none_iff, keys, entries_ofList hnodup', ← (hperm.map Prod.fst).mem_iff]
    exact hget
  | some a =>
    have hin := mem_of_get?_ofList hget
    rw [get?_ofList hnodup' (hperm.mem_iff.mp hin)]

/-- Entries that have a value, under their names. -/
def chosen {α : Type} (l : List (String × Option α)) : List (String × α) :=
  l.filterMap fun e => e.2.map fun a => (e.1, a)

theorem mem_chosen {α : Type} {l : List (String × Option α)} {name : String} {a : α} :
    (name, a) ∈ chosen l ↔ (name, some a) ∈ l := by
  unfold chosen
  rw [List.mem_filterMap]
  constructor
  · rintro ⟨⟨n, v⟩, hin, heq⟩
    obtain ⟨b, rfl, heq⟩ := Option.map_eq_some_iff.mp heq
    cases heq
    exact hin
  · exact fun hin => ⟨_, hin, rfl⟩

theorem chosen_nodup {α : Type} {l : List (String × Option α)} (h : (l.map Prod.fst).Nodup) :
    ((chosen l).map Prod.fst).Nodup := by
  refine List.Nodup.sublist ?_ h
  unfold chosen
  clear h
  induction l with
  | nil => exact .refl _
  | cons e l ih =>
    rw [List.filterMap_cons]
    cases e.2 with
    | none => exact ih.cons _
    | some a => exact ih.cons_cons _

theorem get?_chosen {α : Type} {l : List (String × Option α)} (h : (l.map Prod.fst).Nodup)
    (name : String) :
    (Table.ofList (chosen l)).get? name = ((Table.ofList l).get? name).join := by
  have hmem : ∀ a, (Table.ofList (chosen l)).get? name = some a ↔
      (Table.ofList l).get? name = some (some a) := by
    intro a
    rw [get?_eq_some_iff, entries_ofList (chosen_nodup h), get?_eq_some_iff, entries_ofList h,
      mem_chosen]
  cases hget : (Table.ofList l).get? name with
  | none =>
    refine Option.eq_none_iff_forall_ne_some.mpr fun a ha => ?_
    rw [hmem, hget] at ha
    cases ha
  | some v =>
    cases v with
    | none =>
      refine Option.eq_none_iff_forall_ne_some.mpr fun a ha => ?_
      rw [hmem, hget] at ha
      cases ha
    | some a => exact (hmem a).mpr hget

end Table

end ResourceVersions
