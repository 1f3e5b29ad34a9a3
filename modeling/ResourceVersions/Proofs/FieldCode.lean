import ResourceVersions.Proofs.CopyCode
import ResourceVersions.Proofs.StashSteps

/-! # What conversions emit

The code for one delta copies, stashes or restores a field; the body of a conversion function
goes through the deltas of both parts in their order. -/
namespace ResourceVersions.Conversion

open Code ResourceDelta

/-- The code for one delta and its requests. -/
structure DeltaCode where
  delta : FieldDelta
  code : List Stmt
  requests : List HelperRequest

namespace Direction

variable (d : Direction)

/-- The attribute of the part that a field is stored in. -/
def fieldSlot (p : Part) (g : Field) : Target := .assign (.attr (.name p.copyVar) g.attrName)

/-- The code for a supported delta, with its requests. -/
inductive FieldCode (way : Way) (p : Part) (owner : TypeRef) :
    FieldDelta → List Stmt → List HelperRequest → Prop where
  | whole {δ f g} : δ.source? way = some f → δ.dest? way = some g → f.isSecret = g.isSecret →
      (f.isSecret = false → f.shape? = none ∧ g.shape? = none) →
      FieldCode way p owner δ [(fieldSlot p g).store (.attr p.source f.attrName)] []
  | copy {δ f g x y code requests} : δ.source? way = some f → δ.dest? way = some g →
      f.isSecret = false → g.isSecret = false → f.shape? = some x → g.shape? = some y →
      Api.sameStructure d.src.api d.dst.api x y = true →
      CopyCode d [] (.attr p.source f.attrName) x y 1 (fieldSlot p g) false code requests →
      FieldCode way p owner δ code requests
  | stash {δ f} : δ.source? way = some f → δ.dest? way = none →
      FieldCode way p owner δ [stashField p f] []
  | unstash {δ g} : δ.source? way = none → δ.dest? way = some g →
      FieldCode way p owner δ [unstashField p owner g] []

/-- The code for the deltas of a part, in their order. -/
structure PartCode (way : Way) (p : Part) (owner : TypeRef) (deltas : List FieldDelta)
    (parts : List DeltaCode) : Prop where
  deltas : parts.map DeltaCode.delta = deltas
  each : ∀ part ∈ parts, d.FieldCode way p owner part.delta part.code part.requests

/-- The class of a part of the destination. -/
def owner (p : Part) (dstResource : String) : TypeRef := ⟨dstResource ++ p.classSuffix, d.dstAlias?⟩

/-- The statements that carry over what a part has besides its fields. -/
def leadCode : Part → List Stmt
  | .spec => []
  | .status => [.assign (.attr (.name Part.status.copyVar) "resourceMetadata")
      (.valueCopy (.attr Part.status.source "resourceMetadata"))]

/-- The body of the guard of a part. -/
def partBody (p : Part) (dstResource : String) (parts : List DeltaCode) : List Stmt :=
  .allocate p.copyVar (.struct (d.owner p dstResource)) :: leadCode p ++
    parts.flatMap DeltaCode.code ++ [.assign (.attr (.name "dst") p.text) (.name p.copyVar)]

variable {d} {way : Way} {p : Part} {dst : String} {δ : FieldDelta} {f g : Field}
  {code : List Stmt} {s s' : List HelperRequest}

theorem deltaCode_both (hδ : δ.isSupported = true) (hf : δ.source? way = some f)
    (hg : δ.dest? way = some g) (owner : TypeRef) :
    d.deltaCode way p dst owner δ = d.copyField p dst f g := by
  cases way <;> cases δ <;> cases hf <;> cases hg <;>
    simp_all [deltaCode, FieldDelta.isSupported]

theorem deltaCode_source (hf : δ.source? way = some f) (hg : δ.dest? way = none)
    (owner : TypeRef) : d.deltaCode way p dst owner δ = pure [stashField p f] := by
  cases way <;> cases δ <;> cases hf <;> cases hg <;> rfl

theorem deltaCode_dest (hf : δ.source? way = none) (hg : δ.dest? way = some g)
    (owner : TypeRef) : d.deltaCode way p dst owner δ = pure [unstashField p owner g] := by
  cases way <;> cases δ <;> cases hf <;> cases hg <;> rfl

theorem copyField_emits (owner : TypeRef) (hf : δ.source? way = some f)
    (hg : δ.dest? way = some g)
    (h : runFrom (d.copyField p dst f g) s = (.ok code, s')) :
    ∃ requests, s' = s ++ requests ∧ d.FieldCode way p owner δ code requests := by
  unfold copyField at h
  dsimp only at h
  split at h
  · cases h
  · rename_i hsecret
    have hsame : f.isSecret = g.isSecret := by simpa using hsecret
    split at h
    · rename_i hs
      cases h
      refine ⟨[], by simp, .whole hf hg hsame fun hplain => ?_⟩
      rw [hs] at hplain
      cases hplain
    · rename_i hs
      have hplain : f.isSecret = false := by simpa using hs
      split at h
      · rename_i hx hy
        cases h
        exact ⟨[], by simp, .whole hf hg hsame fun _ => ⟨hx, hy⟩⟩
      · rename_i x y hx hy
        split at h
        · rename_i hstructure
          obtain ⟨requests, rfl, hcopy⟩ := copyFrom_emits h
          exact ⟨requests, rfl,
            .copy hf hg hplain (hsame.symm.trans hplain) hx hy hstructure hcopy⟩
        · cases h
      · cases h

theorem deltaCode_emits (owner : TypeRef) (hδ : δ.isSupported = true)
    (h : runFrom (d.deltaCode way p dst owner δ) s = (.ok code, s')) :
    ∃ part : DeltaCode, part.delta = δ ∧ part.code = code ∧ s' = s ++ part.requests ∧
      d.FieldCode way p owner part.delta part.code part.requests := by
  rcases δ.source?_or_dest? way with ⟨f, g, hf, hg, -⟩ | ⟨f, hf, hg, -⟩ | ⟨g, hf, hg, -⟩
  · rw [deltaCode_both hδ hf hg] at h
    obtain ⟨requests, rfl, hcode⟩ := copyField_emits owner hf hg h
    exact ⟨⟨δ, code, requests⟩, rfl, rfl, rfl, hcode⟩
  · rw [deltaCode_source hf hg] at h
    cases h
    exact ⟨⟨δ, _, []⟩, rfl, rfl, by simp, .stash hf hg⟩
  · rw [deltaCode_dest hf hg] at h
    cases h
    exact ⟨⟨δ, _, []⟩, rfl, rfl, by simp, .unstash hf hg⟩

theorem partCode_emits {deltas : List FieldDelta} (hδ : ∀ δ ∈ deltas, δ.isSupported = true)
    (h : runFrom (d.partCode way p dst deltas) s = (.ok code, s')) :
    ∃ parts, d.PartCode way p (d.owner p dst) deltas parts ∧
      code = [.guard p.source (d.partBody p dst parts) []] ∧
      s' = s ++ parts.flatMap DeltaCode.requests := by
  obtain ⟨codes, s₁, hcodes, h⟩ := runFrom_bind_ok h
  obtain ⟨parts, hdeltas, rfl, rfl, heach⟩ := runFrom_mapM_ok
    (fun δ hin s code s' h => deltaCode_emits (d.owner p dst) (hδ δ hin) h) hcodes
  refine ⟨parts, ⟨hdeltas, heach⟩, ?_, ?_⟩
  · cases p <;> cases h <;> simp [partBody, leadCode, owner, List.flatMap_def]
  · cases p <;> cases h <;> rfl

/-- The body of a conversion function, by what it does for each delta. -/
theorem functionBody_emits {delta : ResourceDelta} (hδ : ∀ δ ∈ delta.all, δ.isSupported = true)
    (h : runFrom (d.functionBody way dst delta) s = (.ok code, s')) :
    ∃ spec status, d.PartCode way .spec (d.owner .spec dst) delta.spec spec ∧
      d.PartCode way .status (d.owner .status dst) delta.status status ∧
      code = .assign (.name metaVar) (.valueCopy (.attr (.name "src") "metadata")) ::
        [.guard Part.spec.source (d.partBody .spec dst spec) []] ++
        [.guard Part.status.source (d.partBody .status dst status) []] ++
        [.assign (.attr (.name "dst") "metadata") (.name metaVar)] ∧
      s' = s ++ (spec ++ status).flatMap DeltaCode.requests := by
  obtain ⟨specCode, s₁, hspecRun, h⟩ := runFrom_bind_ok h
  obtain ⟨statusCode, s₂, hstatusRun, h⟩ := runFrom_bind_ok h
  obtain ⟨spec, hspec, rfl, rfl⟩ :=
    partCode_emits (fun δ hin => hδ δ (List.mem_append_left _ hin)) hspecRun
  obtain ⟨status, hstatus, rfl, rfl⟩ :=
    partCode_emits (fun δ hin => hδ δ (List.mem_append_right _ hin)) hstatusRun
  cases h
  exact ⟨spec, status, hspec, hstatus, rfl, by simp⟩

end Direction

end ResourceVersions.Conversion
