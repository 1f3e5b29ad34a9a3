/-!
# Tables

A table maps names to values and keeps its entries in the order in which their names first
arrived. Writing to a name that is present replaces its value and keeps its place, so no name
occurs twice.
-/
namespace ResourceVersions

universe u v

/-- Names in code-point order. -/
def sortNames (names : List String) : List String :=
  names.mergeSort (fun a b => decide (a ≤ b))

/-- The entries in the order of their first arrival, no name twice. -/
structure Table (α : Type u) where
  entries : List (String × α)
  nodup : (entries.map Prod.fst).Nodup

namespace Table

variable {α : Type u} {β : Type v}

def empty : Table α := ⟨[], by simp⟩

instance : Inhabited (Table α) := ⟨empty⟩
instance : EmptyCollection (Table α) := ⟨empty⟩

def keys (t : Table α) : List String := t.entries.map Prod.fst
def values (t : Table α) : List α := t.entries.map Prod.snd
def size (t : Table α) : Nat := t.entries.length
def isEmpty (t : Table α) : Bool := t.entries.isEmpty

def get? (t : Table α) (name : String) : Option α := t.entries.lookup name

def contains (t : Table α) (name : String) : Bool := (t.get? name).isSome

def getD (t : Table α) (name : String) (fallback : α) : α := (t.get? name).getD fallback

/-- Replaces the value of a present name, or adds the name at the end. -/
def putEntry (name : String) (value : α) : List (String × α) → List (String × α)
  | [] => [(name, value)]
  | (k, v) :: rest =>
    if k = name then (name, value) :: rest else (k, v) :: putEntry name value rest

theorem fst_putEntry (name : String) (value : α) (l : List (String × α)) :
    (putEntry name value l).map Prod.fst =
      if name ∈ l.map Prod.fst then l.map Prod.fst else l.map Prod.fst ++ [name] := by
  induction l with
  | nil => simp [putEntry]
  | cons e rest ih =>
    obtain ⟨k, v⟩ := e
    by_cases h : k = name
    · simp [putEntry, h]
    · have h' : ¬ name = k := fun e => h e.symm
      by_cases hm : name ∈ rest.map Prod.fst <;> simp_all [putEntry]

theorem nodup_putEntry (name : String) (value : α) {l : List (String × α)}
    (h : (l.map Prod.fst).Nodup) : ((putEntry name value l).map Prod.fst).Nodup := by
  rw [fst_putEntry]
  split
  · exact h
  · rename_i hm
    rw [List.nodup_append]
    refine ⟨h, by simp, ?_⟩
    intro a ha b hb
    simp only [List.mem_singleton] at hb
    subst hb
    exact fun e => hm (e ▸ ha)

def insert (t : Table α) (name : String) (value : α) : Table α :=
  ⟨putEntry name value t.entries, nodup_putEntry name value t.nodup⟩

/-- Keeps the entries that satisfy a test, in their order. -/
def filter (t : Table α) (keep : String → α → Bool) : Table α :=
  ⟨t.entries.filter (fun e => keep e.1 e.2),
    (List.filter_sublist.map Prod.fst).nodup t.nodup⟩

def erase (t : Table α) (name : String) : Table α := t.filter (fun k _ => k != name)

def map (t : Table α) (f : String → α → β) : Table β :=
  ⟨t.entries.map (fun e => (e.1, f e.1 e.2)), by
    have := t.nodup
    simpa [List.map_map, Function.comp_def] using this⟩

/-- The entries of a list, a later one replacing an earlier one of the same name. -/
def ofList (l : List (String × α)) : Table α :=
  l.foldl (fun t e => t.insert e.1 e.2) empty

def sortedKeys (t : Table α) : List String := sortNames t.keys

/-- The entries in code-point order of their names. -/
def sorted (t : Table α) : List (String × α) :=
  t.entries.mergeSort (fun a b => decide (a.1 ≤ b.1))

/-- The names of the table that are not in a list: what a walk has still to visit. -/
def unseen (t : Table α) (seen : List String) : List String :=
  t.keys.filter (fun k => !seen.contains k)

theorem lookup_eq_some_mem {name : String} {value : α} {l : List (String × α)}
    (h : l.lookup name = some value) : (name, value) ∈ l := by
  induction l with
  | nil => simp at h
  | cons e rest ih =>
    obtain ⟨k, v⟩ := e
    by_cases hk : name = k
    · subst hk; simp_all
    · have : (name == k) = false := by simpa using hk
      simp [List.lookup_cons, this] at h
      simp [ih h]

theorem mem_keys_of_get? {t : Table α} {name : String} {value : α}
    (h : t.get? name = some value) : name ∈ t.keys := by
  have := lookup_eq_some_mem (l := t.entries) h
  exact List.mem_map.mpr ⟨_, this, rfl⟩

theorem unseen_cons (t : Table α) (name : String) (seen : List String) :
    t.unseen (name :: seen) = (t.unseen seen).filter (fun k => k != name) := by
  simp only [unseen, List.filter_filter]
  congr 1
  funext k
  by_cases h : k = name <;> simp [h]

/-- Visiting a new name of the table leaves fewer names to visit. -/
theorem unseen_cons_lt {t : Table α} {name : String} {seen : List String} {value : α}
    (h : t.get? name = some value) (hn : name ∉ seen) :
    (t.unseen (name :: seen)).length < (t.unseen seen).length := by
  rw [unseen_cons, List.length_filter_lt_length_iff_exists]
  exact ⟨name, by simp [unseen, mem_keys_of_get? h, hn], by simp⟩

end Table

end ResourceVersions
