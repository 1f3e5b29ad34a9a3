import Mathlib
import ResourceVersions.Proofs.FieldPartition
import ResourceVersions.Proofs.Spelling
import ResourceVersions.Resource.Renames

/-! # Renames are one-to-one

The renames of all operations are collected pair by pair into a map and its inverse. What has been
collected holds exactly the pairs so far, so the collection fails at the first pair that
contradicts one before it, and what it gives does not depend on where the pairs come from. -/
namespace ResourceVersions

open Fallible

variable {P Q : String → String → Prop} {old new : String} {m : Renaming} {resource : String}
  {pairs : List (String × String)} {r r' : Resource}

/-- A text with a given capitalised spelling. -/
def SpelledAs (given camel : String) : Prop :=
  ∃ names, Names.of given = .ok names ∧ names.camel = camel

theorem SpelledAs.unique {given camel camel' : String} (h : SpelledAs given camel)
    (h' : SpelledAs given camel') : camel = camel' := by
  obtain ⟨names, hnames, rfl⟩ := h
  obtain ⟨names', hnames', rfl⟩ := h'
  cases hnames.symm.trans hnames'
  rfl

/-- A map that holds exactly the pairs of a relation, and its inverse. -/
structure Renaming.Holds (m : Renaming) (P : String → String → Prop) : Prop where
  newOf : ∀ old new, m.newOf.get? old = some new ↔ P old new
  oldOf : ∀ new old, m.oldOf.get? new = some old ↔ P old new

/-- A relation that is read from both sides is one-to-one. -/
theorem Renaming.Holds.biUnique (h : m.Holds P) : Relator.BiUnique P := by
  constructor
  · intro old old' new hold hold'
    exact Option.some.inj (((h.oldOf _ _).mpr hold).symm.trans ((h.oldOf _ _).mpr hold'))
  · intro old new new' hnew hnew'
    exact Option.some.inj (((h.newOf _ _).mpr hnew).symm.trans ((h.newOf _ _).mpr hnew'))

/-- Maps that hold the same pairs have the same entries. -/
theorem Renaming.Holds.get?_eq {m' : Renaming} (h : m.Holds P) (h' : m'.Holds P) :
    (∀ old, m.newOf.get? old = m'.newOf.get? old) ∧
      ∀ new, m.oldOf.get? new = m'.oldOf.get? new :=
  ⟨fun old => Option.ext fun new => by rw [h.newOf, h'.newOf],
    fun new => Option.ext fun old => by rw [h.oldOf, h'.oldOf]⟩

/-- An error that names two renames of a relation which contradict each other. -/
inductive Contradiction (resource : String) (P : String → String → Prop) : RenameError → Prop where
  | targets {old first second} : P old first → P old second → first ≠ second →
      Contradiction resource P (.twoTargets resource old first second)
  | sources {first second new} : P first new → P second new → first ≠ second →
      Contradiction resource P (.twoSources resource first second new)

theorem Contradiction.not_biUnique {e : RenameError} (h : Contradiction resource P e) :
    ¬ Relator.BiUnique P := by
  intro hP
  cases h with
  | targets hfirst hsecond hne => exact hne (hP.2 hfirst hsecond)
  | sources hfirst hsecond hne => exact hne (hP.1 hfirst hsecond)

theorem Contradiction.mono {e : RenameError} (h : Contradiction resource P e)
    (hPQ : ∀ old new, P old new → Q old new) : Contradiction resource Q e := by
  cases h with
  | targets hfirst hsecond hne => exact .targets (hPQ _ _ hfirst) (hPQ _ _ hsecond) hne
  | sources hfirst hsecond hne => exact .sources (hPQ _ _ hfirst) (hPQ _ _ hsecond) hne

/-- A relation with one pair more. -/
def Joined (P : String → String → Prop) (old new : String) (o n : String) : Prop :=
  P o n ∨ o = old ∧ n = new

/-- A value other than the fallback is an entry. -/
theorem Table.get?_of_getD_ne {t : Table String} {name value : String}
    (h : t.getD name value ≠ value) : t.get? name = some (t.getD name value) := by
  unfold Table.getD at h ⊢
  cases hget : t.get? name with
  | none =>
    rw [hget] at h
    exact absurd rfl h
  | some v => rfl

theorem Table.eq_of_getD {t : Table String} {name value v : String} (h : t.getD name value = value)
    (hget : t.get? name = some v) : v = value := by
  rwa [Table.getD, hget] at h

/-- With a pair that contradicts none of those before it, the maps hold one pair more. -/
theorem Renaming.Holds.insert (h : m.Holds P) (htargets : ∀ n, P old n → n = new)
    (hsources : ∀ o, P o new → o = old) :
    Renaming.Holds ⟨m.newOf.insert old new, m.oldOf.insert new old⟩ (Joined P old new) := by
  constructor
  · intro o n
    rw [Table.get?_insert]
    by_cases ho : o = old
    · subst ho
      rw [if_pos rfl, Option.some.injEq]
      exact ⟨fun hn => .inr ⟨rfl, hn.symm⟩, fun hn => (hn.elim (htargets n) And.right).symm⟩
    · rw [if_neg ho, h.newOf]
      exact ⟨.inl, fun hn => hn.resolve_right fun hpair => ho hpair.1⟩
  · intro n o
    rw [Table.get?_insert]
    by_cases hn : n = new
    · subst hn
      rw [if_pos rfl, Option.some.injEq]
      exact ⟨fun ho => .inr ⟨ho.symm, rfl⟩, fun ho => (ho.elim (hsources o) And.left).symm⟩
    · rw [if_neg hn, h.oldOf]
      exact ⟨.inl, fun ho => ho.resolve_right fun hpair => hn hpair.2⟩

namespace Resource

/-- A pair is added, or it contradicts one that is there. -/
theorem addRename_cases (h : m.Holds P) (resource old new : String) :
    (∃ m', addRename resource m old new = .ok m' ∧ m'.Holds (Joined P old new)) ∨
      ∃ e, addRename resource m old new = .error e ∧
        Contradiction resource (Joined P old new) e := by
  have hnew : Joined P old new old new := .inr ⟨rfl, rfl⟩
  unfold addRename
  dsimp only
  split
  · rename_i htarget
    have hthere := (h.newOf _ _).mp (Table.get?_of_getD_ne htarget)
    exact .inr ⟨_, rfl, .targets (.inl hthere) hnew htarget⟩
  rename_i htarget
  split
  · rename_i hsource
    have hthere := (h.oldOf _ _).mp (Table.get?_of_getD_ne hsource)
    exact .inr ⟨_, rfl, .sources (.inl hthere) hnew hsource⟩
  rename_i hsource
  rw [not_not] at htarget hsource
  refine .inl ⟨_, rfl, h.insert (fun n hn => ?_) fun o ho => ?_⟩
  · exact Table.eq_of_getD htarget ((h.newOf _ _).mpr hn)
  · exact Table.eq_of_getD hsource ((h.oldOf _ _).mpr ho)

/-- One step of the collection of renames. -/
def collect (resource : String) (m : Renaming) (pair : String × String) :
    Except Error Renaming := do
  let old ← Names.of pair.1
  let new ← Names.of pair.2
  (addRename resource m old.camel new.camel).mapError .rename

theorem renames_collect (r : Resource) :
    r.renames = r.renamePairs.foldlM (collect r.names.camel) {} := rfl

/-- The given renames between capitalised names. -/
def RenamedBy (pairs : List (String × String)) (old new : String) : Prop :=
  ∃ pair ∈ pairs, SpelledAs pair.1 old ∧ SpelledAs pair.2 new

/-- Texts that hold words. -/
def Worded (pairs : List (String × String)) : Prop :=
  ∀ pair ∈ pairs, Name.splitWords pair.1 ≠ [] ∧ Name.splitWords pair.2 ≠ []

/-- A collection ends with maps of all pairs, or with two that contradict each other. -/
theorem collect_cases (resource : String) (h : m.Holds P) (hwords : Worded pairs) :
    (∃ m', pairs.foldlM (collect resource) m = .ok m' ∧
        m'.Holds fun old new => P old new ∨ RenamedBy pairs old new) ∨
      ∃ e, pairs.foldlM (collect resource) m = .error (.rename e) ∧
        Contradiction resource (fun old new => P old new ∨ RenamedBy pairs old new) e := by
  induction pairs generalizing m P with
  | nil =>
    refine .inl ⟨m, rfl, ?_⟩
    simpa [RenamedBy] using h
  | cons pair pairs ih =>
    obtain ⟨hpair, hrest⟩ := List.forall_mem_cons.mp hwords
    obtain ⟨old, hold⟩ := exists_names_of_words hpair.1
    obtain ⟨new, hnew⟩ := exists_names_of_words hpair.2
    have hspelled : ∀ o n, Joined P old.camel new.camel o n ∨ RenamedBy pairs o n ↔
        P o n ∨ RenamedBy (pair :: pairs) o n := by
      intro o n
      have hhead : SpelledAs pair.1 o ∧ SpelledAs pair.2 n ↔ o = old.camel ∧ n = new.camel :=
        ⟨fun hs => ⟨hs.1.unique ⟨old, hold, rfl⟩, hs.2.unique ⟨new, hnew, rfl⟩⟩,
          fun hs => ⟨⟨old, hold, hs.1.symm⟩, ⟨new, hnew, hs.2.symm⟩⟩⟩
      simp only [Joined, RenamedBy, List.exists_mem_cons_iff, hhead, or_assoc]
    have hstep : (pair :: pairs).foldlM (collect resource) m =
        (addRename resource m old.camel new.camel).mapError .rename >>=
          pairs.foldlM (collect resource) := by
      rw [List.foldlM_cons, collect, hold, hnew]
      rfl
    rw [hstep]
    simp only [← hspelled]
    rcases addRename_cases h resource old.camel new.camel with ⟨m', hm', hholds⟩ | ⟨e, he, hcontra⟩
    · rw [hm']
      exact ih hholds hrest
    · rw [he]
      exact .inr ⟨e, rfl, hcontra.mono fun _ _ => .inl⟩

/-- A rename of the input of one of the operations, between capitalised names. -/
def Renamed (r : Resource) (old new : String) : Prop :=
  ∃ op ∈ r.ops.toList, ∃ given given',
    (r.settings.renamesOf op.name).get? given = some given' ∧
      SpelledAs given old ∧ SpelledAs given' new

/-- All names in the renames of the operations hold words. -/
def RenamesWorded (r : Resource) : Prop :=
  ∀ op ∈ r.ops.toList, ∀ given given',
    (r.settings.renamesOf op.name).get? given = some given' →
      Name.splitWords given ≠ [] ∧ Name.splitWords given' ≠ []

theorem mem_renamePairs {given given' : String} : (given, given') ∈ r.renamePairs ↔
    ∃ op ∈ r.ops.toList, (r.settings.renamesOf op.name).get? given = some given' := by
  simp only [renamePairs, List.mem_flatMap, Table.mem_sorted_iff]

theorem renamed_iff : r.Renamed old new ↔ RenamedBy r.renamePairs old new := by
  constructor
  · rintro ⟨op, hop, given, given', hget, hspelled⟩
    exact ⟨(given, given'), mem_renamePairs.mpr ⟨op, hop, hget⟩, hspelled⟩
  · rintro ⟨⟨given, given'⟩, hmem, hspelled⟩
    obtain ⟨op, hop, hget⟩ := mem_renamePairs.mp hmem
    exact ⟨op, hop, given, given', hget, hspelled⟩

theorem worded_renamePairs (h : r.RenamesWorded) : Worded r.renamePairs := by
  rintro ⟨given, given'⟩ hmem
  obtain ⟨op, hop, hget⟩ := mem_renamePairs.mp hmem
  exact h op hop given given' hget

/-- The renames of a resource are all collected, or two of them contradict each other. -/
theorem renames_cases (h : r.RenamesWorded) :
    (∃ m, r.renames = .ok m ∧ m.Holds r.Renamed) ∨
      ∃ e, r.renames = .error (.rename e) ∧ Contradiction r.names.camel r.Renamed e := by
  have hempty : Renaming.Holds {} fun _ _ => False :=
    ⟨fun _ _ => ⟨nofun, False.elim⟩, fun _ _ => ⟨nofun, False.elim⟩⟩
  have hrenamed : (fun old new => False ∨ RenamedBy r.renamePairs old new) = r.Renamed := by
    funext old new
    rw [false_or, renamed_iff]
  have hrun := collect_cases r.names.camel hempty (worded_renamePairs h)
  rwa [hrenamed, ← renames_collect] at hrun

/-- Two collections end alike: with the same entries, or both with an error of the renames. -/
inductive SameOutcome : Except Error Renaming → Except Error Renaming → Prop where
  | collected {m m' : Renaming} : (∀ old, m.newOf.get? old = m'.newOf.get? old) →
      (∀ new, m.oldOf.get? new = m'.oldOf.get? new) → SameOutcome (.ok m) (.ok m')
  | refused (e e' : RenameError) : SameOutcome (.error (.rename e)) (.error (.rename e'))

theorem checkRenames_of_holds (h : m.Holds P) : ResourceDelta.checkRenames m.newOf = .ok () := by
  rw [ResourceDelta.checkRenames_ok_iff]
  rintro ⟨old, old', new, hne, hold, hold'⟩
  exact hne (h.biUnique.1 ((h.newOf _ _).mp hold) ((h.newOf _ _).mp hold'))

/-- The renames of a resource are collected exactly if they are one-to-one between capitalised
names. Then they are given as a map together with its inverse, which passes the check of a
comparison; otherwise the error names two of them that contradict each other. The outcome is that
of any other resource with the same renames, whichever operations hold them. -/
theorem renames_one_to_one (r : Resource) (h : r.RenamesWorded) :
    ((∃ m, r.renames = .ok m) ↔ Relator.BiUnique r.Renamed) ∧
    (∀ m, r.renames = .ok m →
      m.Holds r.Renamed ∧ ResourceDelta.checkRenames m.newOf = .ok ()) ∧
    (¬ Relator.BiUnique r.Renamed →
      ∃ e, r.renames = .error (.rename e) ∧ Contradiction r.names.camel r.Renamed e) ∧
    ∀ r' : Resource, r'.RenamesWorded → (∀ old new, r'.Renamed old new ↔ r.Renamed old new) →
      SameOutcome r.renames r'.renames := by
  have hsame : ∀ r' : Resource, (∀ old new, r'.Renamed old new ↔ r.Renamed old new) →
      r'.Renamed = r.Renamed := fun r' hr' => by
    funext old new
    exact propext (hr' old new)
  rcases renames_cases h with ⟨m, hm, hholds⟩ | ⟨e, he, hcontra⟩
  · refine ⟨⟨fun _ => hholds.biUnique, fun _ => ⟨m, hm⟩⟩, ?_, fun hnot => ?_, fun r' h' hr' => ?_⟩
    · rintro m' hm'
      cases hm.symm.trans hm'
      exact ⟨hholds, checkRenames_of_holds hholds⟩
    · exact absurd hholds.biUnique hnot
    · rcases renames_cases h' with ⟨m', hm', hholds'⟩ | ⟨e', he', hcontra'⟩
      · rw [hsame r' hr'] at hholds'
        obtain ⟨hnew, hold⟩ := hholds.get?_eq hholds'
        rw [hm, hm']
        exact .collected hnew hold
      · rw [hsame r' hr'] at hcontra'
        exact absurd hholds.biUnique hcontra'.not_biUnique
  · refine ⟨⟨?_, fun hone => absurd hone hcontra.not_biUnique⟩, ?_, fun _ => ⟨e, he, hcontra⟩,
      fun r' h' hr' => ?_⟩
    · rintro ⟨m, hm⟩
      cases he.symm.trans hm
    · rintro m hm
      cases he.symm.trans hm
    · rcases renames_cases h' with ⟨m', hm', hholds'⟩ | ⟨e', he', hcontra'⟩
      · rw [hsame r' hr'] at hholds'
        exact absurd hholds'.biUnique hcontra.not_biUnique
      · rw [he, he']
        exact .refused e e'

namespace Sample

/-- Two operations with the renames of the input of tickets. -/
def ticketsRenamed (create update : List (String × String)) : Resource where
  names := ⟨"Ticket", "Ticket", "ticket", "ticket"⟩
  ops := ⟨⟨"CreateTicket", none, none⟩, none, none, some ⟨"UpdateTicket", none, none⟩, none, none,
    none⟩
  settings := { renames := .ofList [("CreateTicket", .ofList create),
    ("UpdateTicket", .ofList update)] }

/-- One rename in two spellings, and one that only the update has. -/
def twiceRenamed : Resource :=
  ticketsRenamed [("ticket_name", "Title")] [("TicketName", "title"), ("size", "Count")]

theorem renamesWorded_of_entries (h : ∀ op ∈ r.ops.toList,
    ∀ e ∈ (r.settings.renamesOf op.name).entries,
      Name.splitWords e.1 ≠ [] ∧ Name.splitWords e.2 ≠ []) : r.RenamesWorded :=
  fun op hop given given' hget => h op hop (given, given') (Table.get?_eq_some_iff.mp hget)

end Sample

open Sample in
/-- The two spellings of a rename are one rename. -/
theorem renames_one_to_one_tickets : twiceRenamed.RenamesWorded ∧
    Relator.BiUnique twiceRenamed.Renamed ∧ twiceRenamed.Renamed "TicketName" "Title" := by
  have hworded : twiceRenamed.RenamesWorded := renamesWorded_of_entries (by decide)
  obtain ⟨hiff, hmaps, -, -⟩ := renames_one_to_one twiceRenamed hworded
  have hget : (twiceRenamed.renames.toOption.bind fun m => m.newOf.get? "TicketName") =
      some "Title" := by
    cbv
  cases hrun : twiceRenamed.renames with
  | error e =>
    rw [hrun] at hget
    cases hget
  | ok m =>
    rw [hrun] at hget
    exact ⟨hworded, hiff.mp ⟨m, hrun⟩, ((hmaps m hrun).1.newOf _ _).mp hget⟩

end Resource

end ResourceVersions
