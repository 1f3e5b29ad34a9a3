import Mathlib
import ResourceVersions.Proofs.VersionOrder

/-! # The deprecation policy

The audit goes once through the spokes in version order and remembers the oldest available
version of the track. It accepts exactly the tables in which the hub is available and the
deprecated spokes of every track are its oldest ones. -/
namespace ResourceVersions.Registry

variable {infos : Table VersionInfo} {a b o : Version × String} {l : List (Version × String)}

/-- An earlier version of the same track. -/
structure Older (a b : Version × String) : Prop where
  major : a.1.major = b.1.major
  track : a.1.track = b.1.track
  before : a.1.minor < b.1.minor ∨ a.1.minor = b.1.minor ∧ a.2 < b.2

/-- Within its track no deprecated version of a list comes after an available one. -/
def OldestFirst (infos : Table VersionInfo) (l : List (Version × String)) : Prop :=
  ∀ a ∈ l, ∀ b ∈ l, Older a b → isDeprecated infos b.2 = true → isDeprecated infos a.2 = true

theorem sameTrack_iff {v w : Version} :
    sameTrack v w = true ↔ v.major = w.major ∧ v.track = w.track := by
  simp [sameTrack]

theorem older_iff : Older a b ↔ sameTrack a.1 b.1 = true ∧ auditKey a < auditKey b := by
  rw [sameTrack_iff]
  constructor
  · rintro ⟨hmajor, htrack, hbefore⟩
    refine ⟨⟨hmajor, htrack⟩, ?_⟩
    simp only [auditKey, Version.key, Prod.Lex.toLex_lt_toLex, EmbeddingLike.apply_eq_iff_eq,
      Prod.mk.injEq, hmajor, htrack]
    tauto
  · rintro ⟨⟨hmajor, htrack⟩, hlt⟩
    refine ⟨hmajor, htrack, ?_⟩
    simp only [auditKey, Version.key, Prod.Lex.toLex_lt_toLex, EmbeddingLike.apply_eq_iff_eq,
      Prod.mk.injEq, hmajor, htrack] at hlt
    simpa using hlt

/-- In version order a track has no gaps. -/
theorem sameTrack_between {c : Version × String} (hab : auditKey a ≤ auditKey b)
    (hbc : auditKey b ≤ auditKey c) (hac : sameTrack a.1 c.1 = true) :
    sameTrack a.1 b.1 = true := by
  rw [sameTrack_iff] at *
  obtain ⟨hmajor, htrack⟩ := hac
  simp only [auditKey, Version.key, Prod.Lex.toLex_le_toLex, Prod.Lex.toLex_lt_toLex,
    EmbeddingLike.apply_eq_iff_eq, Prod.mk.injEq, hmajor, htrack] at hab hbc ⊢
  have hrank : c.1.track.rank = b.1.track.rank := by omega
  exact ⟨by omega, Version.rank_injective hrank⟩

/-- Of two versions of a track in a list, the later one is not the only deprecated one. -/
def Lawful (infos : Table VersionInfo) (a b : Version × String) : Prop :=
  sameTrack a.1 b.1 = true → isDeprecated infos b.2 = true → isDeprecated infos a.2 = true

/-- What an audit accepts behind an available version. -/
def Accepts (infos : Table VersionInfo) (available? : Option (Version × String))
    (l : List (Version × String)) : Prop :=
  (∀ o ∈ available?, ∀ b ∈ l, sameTrack o.1 b.1 = true → isDeprecated infos b.2 = false) ∧
    l.Pairwise (Lawful infos)

theorem accepts_cons {available? : Option (Version × String)} {v : Version} {text : String} :
    Accepts infos available? ((v, text) :: l) ↔
      (∀ o ∈ available?, sameTrack o.1 v = true → isDeprecated infos text = false) ∧
      (∀ b ∈ l, Lawful infos (v, text) b) ∧ Accepts infos available? l := by
  simp only [Accepts, List.forall_mem_cons, List.pairwise_cons]
  constructor
  · rintro ⟨h, hv, hl⟩
    exact ⟨fun o ho => (h o ho).1, hv, fun o ho => (h o ho).2, hl⟩
  · rintro ⟨h, hv, h', hl⟩
    exact ⟨fun o ho => ⟨h o ho, h' o ho⟩, hv, hl⟩

theorem auditFrom_ok_iff {available? : Option (Version × String)}
    (hsorted : l.Pairwise fun a b => auditKey a ≤ auditKey b)
    (hbefore : ∀ o ∈ available?, ∀ b ∈ l, auditKey o ≤ auditKey b) :
    auditFrom infos available? l = .ok () ↔ Accepts infos available? l := by
  induction l generalizing available? with
  | nil => simp [auditFrom, Accepts]
  | cons e l ih =>
    obtain ⟨v, text⟩ := e
    obtain ⟨hhead, hsorted⟩ := List.pairwise_cons.mp hsorted
    rw [accepts_cons, auditFrom]
    cases hkept : available?.filter fun older => sameTrack older.1 v with
    | some o =>
      obtain ⟨rfl, hsame⟩ := Option.filter_eq_some_iff.mp hkept
      have hrest : ∀ o' ∈ some o, ∀ b ∈ l, auditKey o' ≤ auditKey b :=
        fun o' ho' b hb => hbefore o' ho' b (List.mem_cons_of_mem _ hb)
      cases hdep : isDeprecated infos text with
      | true =>
        constructor
        · intro h
          cases h
        · intro h
          cases h.1 o rfl hsame
      | false =>
        refine (ih hsorted hrest).trans ⟨fun h => ⟨fun _ _ _ => rfl, ?_, h⟩, fun h => h.2.2⟩
        -- what follows in the track of `v` is in the track of `o`
        intro b hb hvb hb'
        have hob : sameTrack o.1 b.1 = true := by
          rw [sameTrack_iff] at *
          exact ⟨hsame.1.trans hvb.1, hsame.2.trans hvb.2⟩
        rw [h.1 o rfl b hb hob] at hb'
        cases hb'
    | none =>
      have hgone : ∀ o ∈ available?, ¬ sameTrack o.1 v = true :=
        Option.filter_eq_none_iff.mp hkept
      -- the track of an older version has ended before `v`
      have hends : ∀ o ∈ available?, ∀ b ∈ l, sameTrack o.1 b.1 = true →
          isDeprecated infos b.2 = false := by
        intro o ho b hb hob
        have hov := sameTrack_between (hbefore o ho _ (List.mem_cons_self ..)) (hhead b hb) hob
        exact absurd hov (hgone o ho)
      cases hdep : isDeprecated infos text with
      | true =>
        refine (ih hsorted (by simp)).trans
          ⟨fun h => ⟨?_, fun _ _ _ _ => hdep, hends, h.2⟩, fun h => ⟨by simp, h.2.2.2⟩⟩
        exact fun o ho hov => absurd hov (hgone o ho)
      | false =>
        have hrest : ∀ o ∈ some (v, text), ∀ b ∈ l, auditKey o ≤ auditKey b := by
          rintro o ⟨⟩
          exact hhead
        refine (ih hsorted hrest).trans
          ⟨fun h => ⟨fun _ _ _ => rfl, ?_, hends, h.2⟩, fun h => ⟨?_, h.2.2.2⟩⟩
        · intro b hb hvb hb'
          rw [h.1 _ rfl b hb hvb] at hb'
          cases hb'
        · rintro o ⟨⟩ b hb hvb
          by_contra hb'
          have hlater := h.2.1 b hb hvb (by simpa using hb')
          rw [hdep] at hlater
          cases hlater

theorem oldestFirst_iff_pairwise (hnodup : l.Nodup)
    (hsorted : l.Pairwise fun a b => auditKey a ≤ auditKey b) :
    OldestFirst infos l ↔ l.Pairwise (Lawful infos) := by
  constructor
  · intro h
    refine (hsorted.and hnodup).imp_of_mem fun ha hb hab hsame => ?_
    have hlt := hab.1.lt_of_ne fun hkey => hab.2 (auditKey_injective hkey)
    exact h _ ha _ hb (older_iff.mpr ⟨hsame, hlt⟩)
  · intro h a ha b hb hab
    obtain ⟨hsame, hlt⟩ := older_iff.mp hab
    -- in the sorted list the two stand in this order
    induction l with
    | nil => cases ha
    | cons e l ih =>
      obtain ⟨hhead, hl⟩ := List.pairwise_cons.mp h
      obtain ⟨hfirst, hsorted⟩ := List.pairwise_cons.mp hsorted
      rcases List.mem_cons.mp ha with hae | hae
      · subst hae
        rcases List.mem_cons.mp hb with hbe | hbl
        · exact absurd hlt (hbe ▸ lt_irrefl _)
        · exact hhead b hbl hsame
      · rcases List.mem_cons.mp hb with hbe | hbl
        · exact absurd hlt (hbe ▸ hfirst a hae).not_gt
        · exact ih (List.nodup_cons.mp hnodup).2 hsorted hl hae hbl

/-- The spokes that a table has versions for. -/
def spokes (hubVersion : String) (infos : Table VersionInfo) : List (Version × String) :=
  (parsed infos).filter fun e => e.2 != hubVersion

/-- The audit accepts what the policy allows. -/
theorem audit_ok_iff {hubVersion : String} : audit hubVersion infos = .ok () ↔
    isDeprecated infos hubVersion = false ∧ OldestFirst infos (spokes hubVersion infos) := by
  have hperm := List.mergeSort_perm (spokes hubVersion infos) auditBefore
  have hsorted := sorted_pairwise (spokes hubVersion infos)
  have hspokes : OldestFirst infos (spokes hubVersion infos) ↔
      OldestFirst infos ((spokes hubVersion infos).mergeSort auditBefore) := by
    simp only [OldestFirst, hperm.mem_iff]
  have hnodup : ((spokes hubVersion infos).mergeSort auditBefore).Nodup :=
    hperm.nodup_iff.mpr ((parsed_nodup infos).filter _)
  rw [audit, hspokes, oldestFirst_iff_pairwise hnodup hsorted]
  cases hdep : isDeprecated infos hubVersion with
  | true => simp
  | false =>
    have hrun : auditFrom infos none ((spokes hubVersion infos).mergeSort auditBefore) = .ok () ↔
        Accepts infos none ((spokes hubVersion infos).mergeSort auditBefore) :=
      auditFrom_ok_iff hsorted (by simp)
    simpa [Accepts, spokes] using hrun

/-- A deprecated version of a list has an available one before it. -/
def Overtaken (before : Version × String → Version × String → Prop) (infos : Table VersionInfo)
    (l : List (Version × String)) : Prop :=
  ∃ a ∈ l, ∃ b ∈ l, before a b ∧ isDeprecated infos a.2 = false ∧ isDeprecated infos b.2 = true

theorem not_oldestFirst_iff : ¬ OldestFirst infos l ↔ Overtaken Older infos l := by
  unfold OldestFirst Overtaken
  push Not
  simp only [Bool.not_eq_true]
  refine exists_congr fun a => and_congr_right fun _ => exists_congr fun b =>
    and_congr_right fun _ => and_congr_right fun _ => and_comm

/-- The audit refuses a deprecated hub and a deprecated spoke with an older available spoke in its
track, and nothing else. Older is a smaller minor number; two spellings of one version are ordered
by their texts. The hub is left out of its track. -/
theorem audit_fails_iff {hubVersion : String} : (∃ e, audit hubVersion infos = .error e) ↔
    isDeprecated infos hubVersion = true ∨
      Overtaken Older infos (spokes hubVersion infos) := by
  have hfails : (∃ e, audit hubVersion infos = .error e) ↔
      ¬ audit hubVersion infos = .ok () := by
    cases audit hubVersion infos with
    | error e => simp
    | ok u => simp
  rw [hfails, audit_ok_iff, not_and_or, Bool.not_eq_false, not_oldestFirst_iff]

/-- An earlier version of the same track by the minor number alone. -/
def OlderByMinor (a b : Version × String) : Prop :=
  a.1.major = b.1.major ∧ a.1.track = b.1.track ∧ a.1.minor < b.1.minor

namespace Sample

/-- A hub with a deprecated successor in its own track. -/
def hubBehind : Table VersionInfo :=
  .ofList [("v1beta1", {}), ("v1beta2", { status := .deprecated })]

/-- A version in two spellings, of which the one that is sorted behind is deprecated. -/
def twoSpellings : Table VersionInfo :=
  .ofList [("v2", {}), ("v01alpha1", {}), ("v1alpha1", { status := .deprecated })]

theorem hubBehind_parsed : parsed hubBehind =
    [(⟨1, .beta, 1⟩, "v1beta1"), (⟨1, .beta, 2⟩, "v1beta2")] := by
  decide

theorem twoSpellings_parsed : parsed twoSpellings =
    [(⟨2, .ga, 0⟩, "v2"), (⟨1, .alpha, 1⟩, "v01alpha1"), (⟨1, .alpha, 1⟩, "v1alpha1")] := by
  decide

end Sample

open Sample in
/-- Where the hub counts, its deprecated successor breaks the policy, but the audit leaves the hub
out. Where only the minor number counts, no version of the other table is older than another of
its track, but the audit goes by the texts as well. -/
theorem audit_leaves_hub_out :
    (audit "v1beta1" hubBehind = .ok () ∧
      Overtaken OlderByMinor hubBehind (parsed hubBehind)) ∧
    audit "v2" twoSpellings = .error (.outOfOrder "v1alpha1" "v01alpha1") ∧
      ¬ (isDeprecated twoSpellings "v2" = true ∨
        Overtaken OlderByMinor twoSpellings (parsed twoSpellings)) := by
  refine ⟨⟨by cbv, ?_⟩, by cbv, ?_⟩
  · rw [hubBehind_parsed]
    exact ⟨(⟨1, .beta, 1⟩, "v1beta1"), by simp, (⟨1, .beta, 2⟩, "v1beta2"), by simp,
      ⟨rfl, rfl, by decide⟩, by decide, by decide⟩
  · rw [twoSpellings_parsed, not_or]
    refine ⟨by decide, ?_⟩
    simp [Overtaken, OlderByMinor]

end ResourceVersions.Registry
