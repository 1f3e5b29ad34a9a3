import Mathlib.Tactic.Common
import ResourceVersions.Delta.Diff
import ResourceVersions.Proofs.Except
import ResourceVersions.Proofs.Table

/-! # Field deltas partition the fields

A hub field could be claimed by the spoke field of its name and by a renamed one. The renames
are one-to-one, and a rename to a name that the spoke has is refused, so each hub field is
claimed at most once. -/
namespace ResourceVersions.ResourceDelta

open Fallible

variable {renames : Table String} {spoke hub : Table Field} {n m : String}
  {classify : Field → Field → PairChange}

/-- Two old names that share a new one. -/
def SharedTarget (renames : Table String) : Prop :=
  ∃ old old' new, old ≠ old' ∧ renames.get? old = some new ∧ renames.get? old' = some new

/-- A name that only the spoke has is renamed to one that the hub lacks or the spoke has. -/
def UnusableTarget (renames : Table String) (spoke hub : Table Field) (name : String) : Prop :=
  name ∉ hub.keys ∧ ∃ new, renames.get? name = some new ∧ (new ∉ hub.keys ∨ new ∈ spoke.keys)

/-- A spoke name and the hub name that belongs to it. -/
def Paired (renames : Table String) (spoke hub : Table Field) (n m : String) : Prop :=
  n ∈ spoke.keys ∧ m ∈ hub.keys ∧ (n = m ∨ n ∉ hub.keys ∧ renames.get? n = some m)

theorem checkRenamesFrom_ok_iff {seen : Table String} {l : List (String × String)} :
    checkRenamesFrom seen l = .ok () ↔
      (l.map Prod.snd).Nodup ∧ ∀ new ∈ l.map Prod.snd, seen.get? new = none := by
  induction l generalizing seen with
  | nil => simp [checkRenamesFrom]
  | cons e rest ih =>
    obtain ⟨old, new⟩ := e
    rw [checkRenamesFrom, List.map_cons, List.nodup_cons, List.forall_mem_cons]
    cases hs : seen.get? new with
    | some first => simp
    | none =>
      simp only [ih, Table.get?_insert]
      constructor
      · rintro ⟨hn, hnone⟩
        refine ⟨⟨fun hm => ?_, hn⟩, trivial, fun k hk => ?_⟩
        · have := hnone new hm
          simp at this
        · have := hnone k hk
          split at this
          · cases this
          · exact this
      · rintro ⟨⟨hm, hn⟩, -, hnone⟩
        refine ⟨hn, fun k hk => ?_⟩
        have hne : k ≠ new := fun e => hm (e ▸ hk)
        rw [if_neg hne]
        exact hnone k hk

theorem checkRenames_ok_iff : checkRenames renames = .ok () ↔ ¬ SharedTarget renames := by
  have hk : (renames.sorted.map Prod.fst).Nodup := by
    rw [renames.fst_sorted]
    exact renames.sortedKeys_perm.nodup_iff.mpr renames.keys_nodup
  have hget : ∀ new : String, (∅ : Table String).get? new = none := fun _ => rfl
  rw [checkRenames, checkRenamesFrom_ok_iff]
  simp only [hget, implies_true, and_true]
  rw [List.nodup_map_iff_inj_on (List.Nodup.of_map _ hk)]
  constructor
  · rintro hinj ⟨old, old', new, hne, h, h'⟩
    have e := hinj (old, new) (Table.mem_sorted_iff.mpr h) (old', new)
      (Table.mem_sorted_iff.mpr h') rfl
    exact hne (Prod.mk.inj e).1
  · rintro hshared ⟨old, new⟩ h ⟨old', new'⟩ h' (rfl : new = new')
    by_contra hne
    exact hshared ⟨old, old', new, fun e => hne (by rw [e]), Table.mem_sorted_iff.mp h,
      Table.mem_sorted_iff.mp h'⟩

theorem partner_error_iff :
    (∃ e, partner? renames spoke hub n = .error e) ↔ UnusableTarget renames spoke hub n := by
  unfold partner? UnusableTarget
  rw [← Table.get?_eq_none_iff]
  cases hub.get? n with
  | some g => exact ⟨nofun, nofun⟩
  | none =>
    cases renames.get? n with
    | none => exact ⟨nofun, nofun⟩
    | some new =>
      simp only [true_and, Option.some.injEq, exists_eq_left', ← Table.contains_iff_mem_keys,
        Table.contains]
      cases hub.get? new with
      | none => simp
      | some g => by_cases hs : (spoke.get? new).isSome <;> simp [hs]

/-- A spoke field belongs to the hub field of its name, or else to the one that a rename names
and that the spoke does not have, or to none. -/
theorem partner_cases {r : Option (String × Field)}
    (h : partner? renames spoke hub n = .ok r) :
    (∃ g, hub.get? n = some g ∧ r = some (n, g)) ∨
    (hub.get? n = none ∧ ∃ m g, renames.get? n = some m ∧ hub.get? m = some g ∧
      m ∉ spoke.keys ∧ r = some (m, g)) ∨
    (hub.get? n = none ∧ renames.get? n = none ∧ r = none) := by
  unfold partner? at h
  cases hn : hub.get? n with
  | some g =>
    rw [hn] at h
    cases h
    exact .inl ⟨g, rfl, rfl⟩
  | none =>
    rw [hn] at h
    cases hr : renames.get? n with
    | none =>
      rw [hr] at h
      cases h
      exact .inr (.inr ⟨rfl, rfl, rfl⟩)
    | some m =>
      simp only [hr] at h
      cases hm : hub.get? m with
      | none =>
        rw [hm] at h
        cases h
      | some g =>
        simp only [hm] at h
        split at h
        · cases h
        · rename_i hs
          cases h
          rw [Table.contains_iff_mem_keys] at hs
          exact .inr (.inl ⟨rfl, m, g, rfl, hm, hs, rfl⟩)

theorem partner_some {g : Field} (hn : n ∈ spoke.keys)
    (h : partner? renames spoke hub n = .ok (some (m, g))) :
    Paired renames spoke hub n m ∧ hub.get? m = some g := by
  rcases partner_cases h with ⟨g', hg, e⟩ | ⟨hnone, m', g', hr, hg, -, e⟩ | ⟨-, -, e⟩
  · obtain ⟨rfl, rfl⟩ := Prod.mk.inj (Option.some.inj e)
    exact ⟨⟨hn, Table.mem_keys_of_get? hg, .inl rfl⟩, hg⟩
  · obtain ⟨rfl, rfl⟩ := Prod.mk.inj (Option.some.inj e)
    exact ⟨⟨hn, Table.mem_keys_of_get? hg, .inr ⟨Table.get?_eq_none_iff.mp hnone, hr⟩⟩, hg⟩
  · cases e

/-- What belongs to a spoke field is found, unless it is refused. -/
theorem partner_of_paired {r : Option (String × Field)}
    (h : partner? renames spoke hub n = .ok r) (hp : Paired renames spoke hub n m) :
    ∃ g, r = some (m, g) := by
  obtain ⟨-, hm, hnm⟩ := hp
  rcases partner_cases h with ⟨g, hg, rfl⟩ | ⟨hnone, m', g, hr, hg, -, rfl⟩ | ⟨hnone, hr, rfl⟩
  · rcases hnm with rfl | ⟨hn, -⟩
    · exact ⟨g, rfl⟩
    · exact absurd (Table.mem_keys_of_get? hg) hn
  · rcases hnm with rfl | ⟨-, hr'⟩
    · exact absurd hm (Table.get?_eq_none_iff.mp hnone)
    · cases hr.symm.trans hr'
      exact ⟨g, rfl⟩
  · rcases hnm with rfl | ⟨-, hr'⟩
    · exact absurd hm (Table.get?_eq_none_iff.mp hnone)
    · rw [hr] at hr'
      cases hr'

/-- No hub field is claimed twice: the spoke has no field of the name that a rename names, and
two renames do not name the same. -/
theorem paired_injective {n' : String} {r r' : Option (String × Field)}
    (hshared : ¬ SharedTarget renames) (h : partner? renames spoke hub n = .ok r)
    (h' : partner? renames spoke hub n' = .ok r') (hp : Paired renames spoke hub n m)
    (hp' : Paired renames spoke hub n' m) : n = n' := by
  have unclaimed : ∀ {k : String} {r : Option (String × Field)},
      partner? renames spoke hub k = .ok r → Paired renames spoke hub k m → k = m ∨
        m ∉ spoke.keys ∧ renames.get? k = some m := by
    intro k r h hp
    obtain ⟨g, rfl⟩ := partner_of_paired h hp
    rcases partner_cases h with ⟨g', -, e⟩ | ⟨-, m', g', hr, -, hs, e⟩ | ⟨-, -, e⟩
    · exact .inl (Prod.mk.inj (Option.some.inj e)).1.symm
    · cases e
      exact .inr ⟨hs, hr⟩
    · cases e
  rcases unclaimed h hp with rfl | ⟨hs, hr⟩ <;> rcases unclaimed h' hp' with rfl | ⟨hs', hr'⟩
  · rfl
  · exact absurd hp.1 hs'
  · exact absurd hp'.1 hs
  · by_contra hne
    exact hshared ⟨n, n', m, hne, hr, hr'⟩

/-- What a delta says about the fields of a spoke name and a hub name. -/
inductive Describes (classify : Field → Field → PairChange) (renames : Table String)
    (spoke hub : Table Field) : Option String → Option String → FieldDelta → Prop where
  | same (n f g) : spoke.get? n = some f → hub.get? n = some g → classify f g ≠ .renamed →
      Describes classify renames spoke hub (some n) (some n) (.pair (classify f g) f g)
  | renamed (n m f g) : spoke.get? n = some f → hub.get? n = none →
      renames.get? n = some m → hub.get? m = some g →
      Describes classify renames spoke hub (some n) (some m) (.pair .renamed f g)
  | removed (n f) : spoke.get? n = some f → (∀ m, ¬ Paired renames spoke hub n m) →
      Describes classify renames spoke hub (some n) none (.removed f)
  | added (m g) : hub.get? m = some g → (∀ n, ¬ Paired renames spoke hub n m) →
      Describes classify renames spoke hub none (some m) (.added g)

theorem spokeDelta_describes {f : Field} {r : Option (String × Field)}
    (hc : ∀ f g, classify f g ≠ .renamed) (hf : spoke.get? n = some f)
    (h : partner? renames spoke hub n = .ok r) :
    Describes classify renames spoke hub (some n) (r.map Prod.fst)
      (spokeDelta classify n f r) := by
  rcases partner_cases h with ⟨g, hg, rfl⟩ | ⟨hnone, m, g, hr, hg, -, rfl⟩ | ⟨hnone, hr, rfl⟩
  · simpa [spokeDelta] using Describes.same n f g hf hg (hc f g)
  · have hne : m ≠ n := by
      rintro rfl
      rw [hnone] at hg
      cases hg
    simpa [spokeDelta, hne] using Describes.renamed n m f g hf hnone hr hg
  · refine Describes.removed n f hf fun m hp => ?_
    obtain ⟨g, e⟩ := partner_of_paired h hp
    cases e

/-- Spoke fields in order of their names, each with what belongs to it. -/
structure Found (renames : Table String) (spoke hub : Table Field)
    (found : List (String × Field × Option (String × Field))) : Prop where
  fields : found.map (fun p => (p.1, p.2.1)) = spoke.sorted
  partners : ∀ p ∈ found, partner? renames spoke hub p.1 = .ok p.2.2

/-- The names of both sides. -/
def namesOf (found : List (String × Field × Option (String × Field))) :
    List (String × Option String) := found.map fun p => (p.1, p.2.2.map Prod.fst)

/-- A successful comparison pairs every spoke field off, in order, and adds what is left. -/
theorem diffFields_ok {deltas : List FieldDelta}
    (h : diffFields classify renames spoke hub = .ok deltas) :
    ¬ SharedTarget renames ∧ ∃ found, Found renames spoke hub found ∧
      deltas = found.map (fun p => spokeDelta classify p.1 p.2.1 p.2.2) ++
        (hub.sorted.filter fun e =>
          !((namesOf found).filterMap Prod.snd).contains e.1).map fun e => .added e.2 := by
  obtain ⟨⟨⟩, hcheck, h⟩ := bind_ok_iff.mp h
  obtain ⟨found, hfound, h⟩ := bind_ok_iff.mp h
  have hstep := mapM_ok_iff.mp hfound
  refine ⟨checkRenames_ok_iff.mp hcheck, found, ⟨?_, ?_⟩, ?_⟩
  · clear h hfound
    generalize spoke.sorted = entries at hstep
    induction hstep with
    | nil => rfl
    | cons hp _ ih =>
      obtain ⟨r, -, e⟩ := bind_ok_iff.mp hp
      cases e
      rw [List.map_cons, ih]
  · clear h hfound
    generalize spoke.sorted = entries at hstep
    induction hstep with
    | nil => simp
    | cons hp _ ih =>
      obtain ⟨r, hr, e⟩ := bind_ok_iff.mp hp
      cases e
      exact List.forall_mem_cons.mpr ⟨hr, ih⟩
  · cases h
    simp [namesOf, List.filterMap_map]

theorem diffFields_error_iff :
    (∃ e, diffFields classify renames spoke hub = .error e) ↔
      SharedTarget renames ∨ ∃ n ∈ spoke.keys, UnusableTarget renames spoke hub n := by
  have hcheck : (∃ e, checkRenames renames = .error e) ↔ SharedTarget renames := by
    rw [← not_iff_not, ← checkRenames_ok_iff]
    cases checkRenames renames with
    | error e => simp
    | ok u => simp
  have hstep : (∃ e, (spoke.sorted.mapM fun entry => do
      return (entry.1, entry.2, ← partner? renames spoke hub entry.1)) = .error e) ↔
      ∃ n ∈ spoke.keys, UnusableTarget renames spoke hub n := by
    rw [mapM_error_iff]
    constructor
    · rintro ⟨⟨n, f⟩, hm, h⟩
      rcases bind_error_iff.mp h with h | ⟨r, -, e, h⟩
      · exact ⟨n, Table.mem_keys_of_get? (Table.mem_sorted_iff.mp hm), partner_error_iff.mp h⟩
      · cases h
    · rintro ⟨n, hn, h⟩
      obtain ⟨f, hf⟩ := Table.mem_keys_iff.mp hn
      exact ⟨(n, f), Table.mem_sorted_iff.mpr hf,
        bind_error_iff.mpr (.inl (partner_error_iff.mpr h))⟩
  unfold diffFields
  rw [bind_error_iff, hcheck]
  constructor
  · rintro (h | ⟨-, -, h⟩)
    · exact .inl h
    · rcases bind_error_iff.mp h with h | ⟨pairs, -, e, h⟩
      · exact .inr (hstep.mp h)
      · cases h
  · rintro (h | h)
    · exact .inl h
    · cases hc : checkRenames renames with
      | error e => exact .inl (hcheck.mp ⟨e, hc⟩)
      | ok u => exact .inr ⟨u, rfl, bind_error_iff.mpr (.inl (hstep.mpr h))⟩

theorem classify_ne_renamed (s h : ResourceSide) (f g : Field) :
    ResourceDelta.classify s h f g ≠ .renamed := by
  simp only [ResourceDelta.classify]
  split_ifs <;> try decide
  split <;> try split
  all_goals decide

/-- The names that a comparison describes: a spoke name with the hub name that belongs to it,
and the hub names that are left. -/
structure Partition (classify : Field → Field → PairChange) (renames : Table String)
    (spoke hub : Table Field) (deltas : List FieldDelta) (pairs : List (String × Option String))
    (rest : List String) : Prop where
  spoke_once : pairs.map Prod.fst = spoke.sortedKeys
  hub_once : (pairs.filterMap Prod.snd ++ rest).Perm hub.keys
  rest_order : rest.Pairwise (· < ·)
  paired_iff : ∀ n m, (n, some m) ∈ pairs ↔ Paired renames spoke hub n m
  describes : List.Forall₂ (fun l d => Describes classify renames spoke hub l.1 l.2 d)
    (pairs.map (fun p => (some p.1, p.2)) ++ rest.map fun m => (none, some m)) deltas

namespace Found

variable {found : List (String × Field × Option (String × Field))}

theorem get? (h : Found renames spoke hub found) :
    ∀ p ∈ found, spoke.get? p.1 = some p.2.1 := by
  intro p hp
  rw [← Table.mem_sorted_iff, ← h.fields]
  exact List.mem_map.mpr ⟨p, hp, rfl⟩

theorem names (h : Found renames spoke hub found) :
    (namesOf found).map Prod.fst = spoke.sortedKeys := by
  rw [← spoke.fst_sorted, ← h.fields]
  simp [namesOf]

theorem paired_iff (h : Found renames spoke hub found) (n m : String) :
    (n, some m) ∈ namesOf found ↔ Paired renames spoke hub n m := by
  constructor
  · intro hm
    obtain ⟨⟨n', f, r⟩, hp, e⟩ := List.mem_map.mp hm
    obtain ⟨rfl, hr⟩ := Prod.mk.inj e
    obtain ⟨⟨m', g⟩, rfl, rfl⟩ := Option.map_eq_some_iff.mp hr
    exact (partner_some (Table.mem_keys_of_get? (h.get? _ hp)) (h.partners _ hp)).1
  · intro hp
    have hn : n ∈ (namesOf found).map Prod.fst := by
      rw [h.names, Table.mem_sortedKeys_iff]
      exact hp.1
    obtain ⟨p, hin, rfl⟩ := List.mem_map.mp hn
    obtain ⟨q, hq, rfl⟩ := List.mem_map.mp hin
    obtain ⟨g, hg⟩ := partner_of_paired (h.partners q hq) hp
    exact List.mem_map.mpr ⟨q, hq, by rw [hg]; rfl⟩

theorem mem_claimed_iff (h : Found renames spoke hub found) (m : String) :
    m ∈ (namesOf found).filterMap Prod.snd ↔ ∃ n, Paired renames spoke hub n m := by
  simp only [List.mem_filterMap, Prod.exists, exists_eq_right, h.paired_iff]

theorem claimed_nodup (h : Found renames spoke hub found) (hshared : ¬ SharedTarget renames) :
    ((namesOf found).filterMap Prod.snd).Nodup := by
  have hkeys : ((namesOf found).map Prod.fst).Nodup := by
    rw [h.names]
    exact spoke.sortedKeys_perm.nodup_iff.mpr spoke.keys_nodup
  rw [List.Nodup, List.pairwise_filterMap]
  refine (List.pairwise_map.mp hkeys).imp_of_mem ?_
  rintro ⟨n, o⟩ ⟨n', o'⟩ hn hn' hne m (rfl : o = some m) m' (rfl : o' = some m') rfl
  obtain ⟨q, hq, e⟩ := List.mem_map.mp hn
  obtain ⟨q', hq', e'⟩ := List.mem_map.mp hn'
  have hp := (h.paired_iff n m).mp hn
  have hp' := (h.paired_iff n' m).mp hn'
  rw [← (Prod.mk.inj e).1] at hp hne
  rw [← (Prod.mk.inj e').1] at hp' hne
  exact hne (paired_injective hshared (h.partners q hq) (h.partners q' hq') hp hp')

/-- The claimed hub names and the others are all hub names, each once. -/
theorem claimed_append_perm (h : Found renames spoke hub found)
    (hshared : ¬ SharedTarget renames) :
    let claimed := (namesOf found).filterMap Prod.snd
    (claimed ++ hub.sortedKeys.filter fun k => !claimed.contains k).Perm hub.keys := by
  intro claimed
  have hmem : ∀ m ∈ claimed, m ∈ hub.keys := by
    intro m hm
    obtain ⟨n, hp⟩ := (h.mem_claimed_iff m).mp hm
    exact hp.2.1
  refine (List.perm_ext_iff_of_nodup ?_ hub.keys_nodup).mpr ?_
  · refine (h.claimed_nodup hshared).append
      (hub.sortedKeys_pairwise_lt.imp ne_of_lt |>.filter _) ?_
    intro m hm hrest
    simp [claimed, hm] at hrest
  · intro m
    by_cases hm : m ∈ claimed
    · simp [hm, hmem m hm]
    · simp [hm, Table.mem_sortedKeys_iff]

end Found

theorem partition_of_ok {deltas : List FieldDelta} (hc : ∀ f g, classify f g ≠ .renamed)
    (h : diffFields classify renames spoke hub = .ok deltas) :
    ∃ pairs rest, Partition classify renames spoke hub deltas pairs rest := by
  obtain ⟨hshared, found, hfound, rfl⟩ := diffFields_ok h
  let claimed := (namesOf found).filterMap Prod.snd
  let unclaimed := hub.sorted.filter fun e => !claimed.contains e.1
  have hrest : unclaimed.map Prod.fst = hub.sortedKeys.filter fun k => !claimed.contains k := by
    rw [← hub.fst_sorted, List.filter_map]
    rfl
  refine ⟨namesOf found, unclaimed.map Prod.fst, hfound.names, ?_, ?_, hfound.paired_iff, ?_⟩
  · rw [hrest]
    exact hfound.claimed_append_perm hshared
  · rw [hrest]
    exact hub.sortedKeys_pairwise_lt.filter _
  · apply List.rel_append
    · rw [namesOf, List.map_map, List.forall₂_map_left_iff, List.forall₂_map_right_iff,
        List.forall₂_same]
      intro p hp
      exact spokeDelta_describes hc (hfound.get? p hp) (hfound.partners p hp)
    · rw [List.map_map, List.forall₂_map_left_iff, List.forall₂_map_right_iff, List.forall₂_same]
      intro e he
      obtain ⟨hmem, hnot⟩ := List.mem_filter.mp he
      refine Describes.added e.1 e.2 (Table.mem_sorted_iff.mp hmem) fun n hp => ?_
      have := (hfound.mem_claimed_iff e.1).mpr ⟨n, hp⟩
      simp [claimed, this] at hnot

/-- Comparing two sections fails exactly for renames that are not one-to-one or that send a name
of the spoke alone to a name that the hub lacks or the spoke has. Otherwise every spoke field and
every hub field is in exactly one delta: fields of one name belong together, and so do those
that a rename connects if the hub lacks the old name. The deltas of spoke fields come first, by
spoke name, and the added fields follow, by their names. Each delta could have been put together
from its change and its two sides. -/
theorem diffFields_partitions (s h : ResourceSide) (renames : Table String)
    (spoke hub : Table Field) :
    ((∃ e, diffFields (ResourceDelta.classify s h) renames spoke hub = .error e) ↔
      SharedTarget renames ∨ ∃ n ∈ spoke.keys, UnusableTarget renames spoke hub n) ∧
    ∀ deltas, diffFields (ResourceDelta.classify s h) renames spoke hub = .ok deltas →
      (∃ pairs rest,
        Partition (ResourceDelta.classify s h) renames spoke hub deltas pairs rest) ∧
      ∀ d ∈ deltas, ∀ resource,
        FieldDelta.ofSides d.change resource d.spoke? d.hub? = .ok d := by
  refine ⟨diffFields_error_iff, fun deltas hd => ⟨?_, fun d _ resource => ?_⟩⟩
  · exact partition_of_ok (classify_ne_renamed s h) hd
  · cases d <;> rfl

end ResourceVersions.ResourceDelta
