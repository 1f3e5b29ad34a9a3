import ResourceVersions.Proofs.BuiltResource
import ResourceVersions.Proofs.Effects
import ResourceVersions.Proofs.FieldPartition

/-! # The deltas of a section

Seen from either version, the deltas of a section hold each of its fields once, and what only one
version has is found under no name of the other. -/
namespace ResourceVersions.ResourceDelta

/-- The name under which a field stands. -/
def fieldName (f : Field) : String := f.names.camel

/-- The deltas between two sections, seen from one that has its own field of a delta at hand. -/
structure Covers (own other : FieldDelta → Option Field) (fields others : Table Field)
    (deltas : List FieldDelta) : Prop where
  once : (deltas.filterMap fun d => (own d).map fieldName).Perm fields.keys
  get? : ∀ d ∈ deltas, ∀ f, own d = some f → fields.get? (fieldName f) = some f
  alone : ∀ d ∈ deltas, ∀ f, own d = some f → other d = none → fieldName f ∉ others.keys

/-- The deltas between two sections, seen from both. -/
structure Sections (spoke hub : Table Field) (deltas : List FieldDelta) : Prop where
  ofSpoke : Covers FieldDelta.spoke? FieldDelta.hub? spoke hub deltas
  ofHub : Covers FieldDelta.hub? FieldDelta.spoke? hub spoke deltas

variable {classify : Field → Field → PairChange} {renames : Table String}
  {spoke hub : Table Field} {deltas : List FieldDelta}

/-- A delta has the fields at hand whose names it describes, and what stands alone has no
namesake. -/
structure Sided (spoke hub : Table Field) (n? m? : Option String) (d : FieldDelta) : Prop where
  spokeName : d.spoke?.map fieldName = n?
  hubName : d.hub?.map fieldName = m?
  spokeGet : ∀ f, d.spoke? = some f → spoke.get? (fieldName f) = some f
  hubGet : ∀ g, d.hub? = some g → hub.get? (fieldName g) = some g
  spokeAlone : ∀ f, d.spoke? = some f → d.hub? = none → fieldName f ∉ hub.keys
  hubAlone : ∀ g, d.hub? = some g → d.spoke? = none → fieldName g ∉ spoke.keys

theorem Describes.sided {n? m? : Option String} {d : FieldDelta}
    (hspoke : Resource.Keyed spoke) (hhub : Resource.Keyed hub)
    (h : Describes classify renames spoke hub n? m? d) : Sided spoke hub n? m? d := by
  cases h with
  | same n f g hf hg =>
    obtain rfl := hspoke n f hf
    have hname := hhub _ g hg
    refine ⟨rfl, congrArg some hname, ?_, ?_, ?_, ?_⟩
    · rintro _ ⟨⟩
      exact hf
    · rintro _ ⟨⟩
      rwa [fieldName, hname]
    · rintro _ _ ⟨⟩
    · rintro _ _ ⟨⟩
  | renamed n m f g hf _ _ hg =>
    obtain rfl := hspoke n f hf
    obtain rfl := hhub m g hg
    refine ⟨rfl, rfl, ?_, ?_, ?_, ?_⟩
    · rintro _ ⟨⟩
      exact hf
    · rintro _ ⟨⟩
      exact hg
    · rintro _ _ ⟨⟩
    · rintro _ _ ⟨⟩
  | removed n f hf hnone =>
    obtain rfl := hspoke n f hf
    refine ⟨rfl, rfl, ?_, nofun, ?_, nofun⟩
    · rintro _ ⟨⟩
      exact hf
    · rintro _ ⟨⟩ _ hin
      exact hnone _ ⟨Table.mem_keys_of_get? hf, hin, .inl rfl⟩
  | added m g hg hnone =>
    obtain rfl := hhub m g hg
    refine ⟨rfl, rfl, nofun, ?_, nofun, ?_⟩
    · rintro _ ⟨⟩
      exact hg
    · rintro _ ⟨⟩ _ hin
      exact hnone _ ⟨hin, Table.mem_keys_of_get? hg, .inl rfl⟩

/-- The names that a list of deltas describes are those of its fields. -/
theorem sided_names {labels : List (Option String × Option String)}
    (h : List.Forall₂ (fun l d => Sided spoke hub l.1 l.2 d) labels deltas) :
    (deltas.filterMap fun d => d.spoke?.map fieldName) = labels.filterMap Prod.fst ∧
      (deltas.filterMap fun d => d.hub?.map fieldName) = labels.filterMap Prod.snd ∧
      ∀ d ∈ deltas, ∃ n? m?, Sided spoke hub n? m? d := by
  induction h with
  | nil => exact ⟨rfl, rfl, by simp⟩
  | @cons l d _ _ hd _ ih =>
    obtain ⟨hs, hh, hall⟩ := ih
    refine ⟨?_, ?_, List.forall_mem_cons.mpr ⟨⟨_, _, hd⟩, hall⟩⟩
    · simp only [List.filterMap_cons, hd.spokeName, hs]
    · simp only [List.filterMap_cons, hd.hubName, hh]

/-- A comparison that succeeds covers both sections. -/
theorem sections_of_ok (hspoke : Resource.Keyed spoke) (hhub : Resource.Keyed hub)
    (hc : ∀ f g, classify f g ≠ .renamed)
    (h : diffFields classify renames spoke hub = .ok deltas) : Sections spoke hub deltas := by
  obtain ⟨pairs, rest, hpart⟩ := partition_of_ok hc h
  obtain ⟨hspokes, hhubs, hall⟩ :=
    sided_names (hpart.describes.imp fun _ _ h => Describes.sided hspoke hhub h)
  refine ⟨⟨?_, ?_, ?_⟩, ⟨?_, ?_, ?_⟩⟩
  · rw [hspokes]
    have hnames : (pairs.map (fun p => (some p.1, p.2)) ++
        rest.map fun m => ((none : Option String), some m)).filterMap Prod.fst =
          pairs.map Prod.fst := by
      simp [List.filterMap_append, List.filterMap_map]
    rw [hnames, hpart.spoke_once]
    exact spoke.sortedKeys_perm
  · intro d hd f hf
    obtain ⟨_, _, hs⟩ := hall d hd
    exact hs.spokeGet f hf
  · intro d hd f hf hnone
    obtain ⟨_, _, hs⟩ := hall d hd
    exact hs.spokeAlone f hf hnone
  · rw [hhubs]
    have hnames : (pairs.map (fun p => (some p.1, p.2)) ++
        rest.map fun m => ((none : Option String), some m)).filterMap Prod.snd =
          pairs.filterMap Prod.snd ++ rest := by
      simp [List.filterMap_append, List.filterMap_map]
    rw [hnames]
    exact hpart.hub_once
  · intro d hd f hf
    obtain ⟨_, _, hs⟩ := hall d hd
    exact hs.hubGet f hf
  · intro d hd f hf hnone
    obtain ⟨_, _, hs⟩ := hall d hd
    exact hs.hubAlone f hf hnone

/-- What is computed for two resources covers their Specs and their Statuses. -/
theorem compute_sections {s h : ResourceSide} {delta : ResourceDelta}
    (hs : Resource.Keyed s.resource.spec ∧ Resource.Keyed s.resource.status)
    (hh : Resource.Keyed h.resource.spec ∧ Resource.Keyed h.resource.status)
    (hd : (compute s h).run.1 = .ok delta) :
    Sections s.resource.spec h.resource.spec delta.spec ∧
      Sections s.resource.status h.resource.status delta.status := by
  have hdiff : ∀ {a b : Table Field} {renames : Table String} {l : List FieldDelta}
      {r r' : List Record}, Resource.Keyed a → Resource.Keyed b →
      runFrom (Attempt.ofExcept ((diffFields (classify s h) renames a b).mapError .rename)) r =
        (.ok l, r') → Sections a b l := by
    intro a b renames l r r' ha hb hrun
    apply sections_of_ok ha hb (classify_ne_renamed s h)
    have hok := congrArg Prod.fst hrun
    cases hfields : diffFields (classify s h) renames a b with
    | error e =>
      rw [hfields] at hok
      cases hok
    | ok l' =>
      rw [hfields] at hok
      cases hok
      rfl
  have hrun : runFrom (compute s h) [] = (.ok delta, (compute s h).run.2) := Prod.ext hd rfl
  obtain ⟨renames, r₁, -, hrun⟩ := runFrom_bind_ok hrun
  obtain ⟨spec, r₂, hspec, hrun⟩ := runFrom_bind_ok hrun
  obtain ⟨status, r₃, hstatus, hrun⟩ := runFrom_bind_ok hrun
  obtain ⟨-, r₄, -, hrun⟩ := runFrom_bind_ok hrun
  obtain ⟨-, r₅, -, hrun⟩ := runFrom_bind_ok hrun
  cases hrun
  exact ⟨hdiff hs.1 hh.1 hspec, hdiff hs.2 hh.2 hstatus⟩

end ResourceVersions.ResourceDelta
