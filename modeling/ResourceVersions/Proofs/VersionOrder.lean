import Mathlib.Data.Prod.Lex
import Mathlib.Data.String.Basic
import ResourceVersions.Proofs.Table
import ResourceVersions.Registry.Basic

/-! # The order of versions

Versions are ordered by major number, track and minor number, and versions beside their texts
also by the text. Both are orders of keys. -/
namespace ResourceVersions

namespace Version

theorem rank_injective : Function.Injective Track.rank := by
  intro a b h
  cases a <;> cases b <;> first | rfl | cases h

/-- What versions are ordered by. -/
def key (v : Version) : ℕ ×ₗ ℕ ×ₗ ℕ := toLex (v.major, toLex (v.track.rank, v.minor))

theorem key_injective : Function.Injective key := by
  rintro ⟨major, track, minor⟩ ⟨major', track', minor'⟩ h
  simp only [key, EmbeddingLike.apply_eq_iff_eq, Prod.mk.injEq] at h
  obtain ⟨rfl, hrank, rfl⟩ := h
  rw [rank_injective hrank]

theorem le_iff_key (a b : Version) : a.le b = true ↔ a.key ≤ b.key := by
  have htrack : a.track = b.track ↔ a.track.rank = b.track.rank :=
    ⟨congrArg _, fun h => rank_injective h⟩
  simp only [le, key, Prod.Lex.toLex_le_toLex, Bool.or_eq_true, Bool.and_eq_true,
    decide_eq_true_eq, beq_iff_eq, htrack]

/-- Versions beside the texts that name them. -/
def named (texts : List String) : List (Version × String) :=
  texts.filterMap fun text => (parse text).toOption.map fun v => (v, text)

theorem mem_named {texts : List String} {v : Version} {text : String} :
    (v, text) ∈ named texts ↔ text ∈ texts ∧ parse text = .ok v := by
  simp only [named, List.mem_filterMap]
  constructor
  · rintro ⟨t, ht, h⟩
    cases hp : parse t with
    | error e =>
      rw [hp] at h
      cases h
    | ok w =>
      rw [hp] at h
      cases h
      exact ⟨ht, hp⟩
  · rintro ⟨ht, hp⟩
    refine ⟨text, ht, ?_⟩
    rw [hp]
    rfl

/-- The versions oldest first; equal ones keep their places. -/
def oldestFirst (l : List (Version × String)) : List (Version × String) :=
  l.mergeSort fun a b => a.1.le b.1

variable {l l' : List (Version × String)} {a b : Version × String}

theorem oldestFirst_perm (l : List (Version × String)) : (oldestFirst l).Perm l :=
  List.mergeSort_perm _ _

theorem le_chain (a b c : Version × String) (hab : a.1.le b.1 = true) (hbc : b.1.le c.1 = true) :
    a.1.le c.1 = true := by
  rw [le_iff_key] at *
  exact hab.trans hbc

theorem le_either (a b : Version × String) : (a.1.le b.1 || b.1.le a.1) = true := by
  simp only [Bool.or_eq_true, le_iff_key]
  exact le_total _ _

theorem oldestFirst_pairwise (l : List (Version × String)) :
    (oldestFirst l).Pairwise fun a b => a.1.key ≤ b.1.key :=
  (List.pairwise_mergeSort le_chain le_either l).imp fun h => (le_iff_key _ _).mp h

/-- Different versions have one order. -/
theorem oldestFirst_eq (h : l.Perm l') (hdistinct : ∀ a ∈ l, ∀ b ∈ l, a.1 = b.1 → a = b) :
    oldestFirst l = oldestFirst l' := by
  apply (((oldestFirst_perm l).trans h).trans (oldestFirst_perm l').symm).eq_of_pairwise ?_
    (oldestFirst_pairwise l) (oldestFirst_pairwise l')
  intro a b ha hb hle hge
  rw [(oldestFirst_perm _).mem_iff] at ha hb
  exact hdistinct a ha b (h.mem_iff.mpr hb) (key_injective (le_antisymm hle hge))

/-- Equal versions that stand one behind the other do so afterwards. -/
theorem oldestFirst_stable (h : [a, b].Sublist l) (heq : a.1 = b.1) :
    [a, b].Sublist (oldestFirst l) := by
  apply List.pair_sublist_mergeSort le_chain le_either _ h
  rw [le_iff_key, heq]

end Version

namespace Registry

/-- What the versions of an audit are ordered by. -/
def auditKey (e : Version × String) : (ℕ ×ₗ ℕ ×ₗ ℕ) ×ₗ String := toLex (e.1.key, e.2)

theorem auditBefore_iff (a b : Version × String) :
    auditBefore a b = true ↔ auditKey a ≤ auditKey b := by
  have hne : a.1 ≠ b.1 ↔ a.1.key ≠ b.1.key := Version.key_injective.ne_iff.symm
  simp only [auditBefore, auditKey, Prod.Lex.toLex_le_toLex, Bool.and_eq_true, Bool.or_eq_true,
    bne_iff_ne, decide_eq_true_eq, Version.le_iff_key, hne]
  constructor
  · rintro ⟨hle, h⟩
    rcases hle.lt_or_eq with hlt | heq
    · exact .inl hlt
    · exact .inr ⟨heq, h.resolve_left (not_not_intro heq)⟩
  · rintro (hlt | ⟨heq, h⟩)
    · exact ⟨hlt.le, .inl hlt.ne⟩
    · exact ⟨heq.le, .inr h⟩

theorem auditKey_injective : Function.Injective auditKey := by
  rintro ⟨v, text⟩ ⟨v', text'⟩ h
  simp only [auditKey, EmbeddingLike.apply_eq_iff_eq, Prod.mk.injEq] at h
  obtain ⟨hkey, rfl⟩ := h
  rw [Version.key_injective hkey]

theorem sorted_pairwise (l : List (Version × String)) :
    (l.mergeSort auditBefore).Pairwise fun a b => auditKey a ≤ auditKey b := by
  refine (List.pairwise_mergeSort ?_ ?_ l).imp fun h => (auditBefore_iff _ _).mp h
  · intro a b c hab hbc
    rw [auditBefore_iff] at *
    exact hab.trans hbc
  · intro a b
    simp only [Bool.or_eq_true, auditBefore_iff]
    exact le_total _ _

theorem mem_parsed {infos : Table VersionInfo} {v : Version} {text : String} :
    (v, text) ∈ parsed infos ↔ text ∈ infos.keys ∧ Version.parse text = .ok v :=
  Version.mem_named

/-- The texts of the parsed versions keep their order. -/
theorem parsed_texts (infos : Table VersionInfo) :
    ((parsed infos).map Prod.snd).Sublist infos.keys := by
  unfold parsed
  induction infos.keys with
  | nil => simp
  | cons text texts ih =>
    rw [List.filterMap_cons]
    cases Version.parse text with
    | error e => exact ih.cons text
    | ok v => exact ih.cons_cons text

theorem parsed_nodup (infos : Table VersionInfo) : (parsed infos).Nodup :=
  ((parsed_texts infos).nodup infos.keys_nodup).of_map _

/-- The names of the versions that objects can have, in any order. -/
theorem mem_versions {r : Registry} {text : String} :
    text ∈ r.versions ↔ text ∈ r.infos.keys ∧ ∃ v, Version.parse text = .ok v := by
  simp only [versions, List.mem_map, (List.mergeSort_perm _ _).mem_iff]
  constructor
  · rintro ⟨⟨v, t⟩, h, rfl⟩
    obtain ⟨ht, hv⟩ := mem_parsed.mp h
    exact ⟨ht, v, hv⟩
  · rintro ⟨ht, v, hv⟩
    exact ⟨(v, text), mem_parsed.mpr ⟨ht, hv⟩, rfl⟩

theorem mem_spokeVersions {r : Registry} {text : String} :
    text ∈ r.spokeVersions ↔
      text ∈ r.infos.keys ∧ (∃ v, Version.parse text = .ok v) ∧ text ≠ r.hubVersion := by
  simp [spokeVersions, mem_versions, and_assoc]

end Registry

end ResourceVersions
