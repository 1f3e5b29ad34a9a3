import ResourceVersions.Proofs.ConversionCalls
import ResourceVersions.Proofs.DeepCopy
import ResourceVersions.Proofs.FieldCodec

/-! # Round trips

An object that is converted to the other version and back is the same object again. What both
versions have is copied, and what only its own version has waits in the annotations. -/
namespace ResourceVersions

open Code Conversion Direction ResourceDelta

/-- What a conversion function makes of a destination object, given a source object. -/
def Code.Func.convert (f : Func) (classes : Classes) (call : String → Value → Option Value)
    (src dst : Value) : Option Value :=
  match execAll classes call f.body (Frame.ofArgs (f.params.map Prod.fst) [src, dst]) with
  | some (.running g) => g "dst"
  | _ => none

/-- An object of a resource: its parts are set, and what their fields hold fits them. -/
structure Side.Typed (s : Side) (r : Resource) (o objectMeta cloud : Value)
    (values : Part → String → Value) : Prop where
  metadata : o.attr? "metadata" = some objectMeta
  part : ∀ p : Part, o.attr? p.text = some (s.part r p cloud (values p))
  fits : ∀ p name f, (p.fields r).get? name = some f → s.Fits f (values p name)

namespace Value

theorem annotated_annotated (m : Value) (t t' : Table String) :
    (m.annotated t).annotated t' = m.annotated t' := by
  cases m with
  | object c attrs => rw [annotated, annotated, putEntry_putEntry, annotated]
  | _ => rfl

mutual

/-- Ordering entries that are in order changes nothing. -/
theorem ordered_ordered : ∀ v : Value, v.ordered.ordered = v.ordered
  | .list items => by rw [ordered, ordered, orderedItems_orderedItems]
  | .dict entries => by
    rw [ordered, ordered, orderedEntries_eq (byKey _), map_byKey, ← orderedEntries_eq,
      orderedEntries_orderedEntries, byKey_byKey]
  | .object c attrs => by rw [ordered, ordered, orderedEntries_orderedEntries]
  | .null | .bool _ | .int _ | .float _ | .str _ | .datetime _ => rfl

theorem orderedItems_orderedItems :
    ∀ items : List Value, orderedItems (orderedItems items) = orderedItems items
  | [] => rfl
  | v :: rest => by
    rw [orderedItems, orderedItems, ordered_ordered v, orderedItems_orderedItems rest]

theorem orderedEntries_orderedEntries : ∀ entries : List (String × Value),
    orderedEntries (orderedEntries entries) = orderedEntries entries
  | [] => rfl
  | (_, v) :: rest => by
    rw [orderedEntries, orderedEntries, ordered_ordered v, orderedEntries_orderedEntries rest]

end

theorem size_pos (v : Value) : 0 < v.size := by
  cases v <;> simp [size]

end Value

/-- A value of a field is smaller than the object. -/
theorem Side.Typed.size_lt {s : Side} {r : Resource} {o m cloud : Value}
    {values : Part → String → Value} (ho : s.Typed r o m cloud values) {p : Part} {name : String}
    {f : Field} (hf : (p.fields r).get? name = some f) : (values p name).size < o.size := by
  have hpart : (values p name).size < (s.part r p cloud (values p)).size := by
    refine Value.size_attr (e := (f.attrName, values p name)) (List.mem_append_right _ ?_)
    exact List.mem_map.mpr ⟨(name, f), Table.mem_sorted_iff.mpr hf, rfl⟩
  have hobject : (s.part r p cloud (values p)).size < o.size := by
    have hattr := ho.part p
    cases o with
    | object k attrs => exact Value.size_attr (Table.lookup_eq_some_mem hattr)
    | _ => cases hattr
  omega

namespace Conversion

variable {c : Converter} {q : Call} {calls : List Call} {h : Helpers} {n : Nat} {way : Way}
  {call : String → Value → Option Value} {delta : ResourceDelta} {source dest : Resource}

/-- What conversions of a call take for granted. -/
structure Call.Prepared (q : Call) (c : Converter) (call : String → Value → Option Value)
    (n : Nat) : Prop where
  faithful : q.Faithful c
  grounded : ∀ way, (c.direction way).Grounded c.classes
  along : ∀ way, Along way (q.source way) (q.dest way) q.delta
  keysOnce : ((steps q.delta).filterMap stepKey).Nodup
  attrs : ∀ way, (q.source way).DistinctAttrs
  serves : ∀ way, ∀ r ∈ q.requests c way, Serves call (c.direction way) n r
  create : ∀ way p, create c.classes (.struct ((c.direction way).owner p
    (q.dest way).names.camel)) = some ((c.direction way).dstSide.part (q.dest way) p .null
      fun _ => .null)

/-- Every field of the destination is in a delta. -/
theorem Along.dest_field (ha : Along way source dest delta) {p : Part} {name : String}
    {g : Field} (hg : (p.fields dest).get? name = some g) :
    fieldName g = name ∧ ∃ δ ∈ p.deltas delta, δ.dest? way = some g := by
  have hname := (ha.ofDest p).once.mem_iff.mpr (Table.mem_keys_of_get? hg)
  obtain ⟨δ, hδ, hdest⟩ := List.mem_filterMap.mp hname
  obtain ⟨g', hg', rfl⟩ := Option.map_eq_some_iff.mp hdest
  cases hg.symm.trans ((ha.ofDest p).get? δ hδ g' hg')
  exact ⟨rfl, δ, hδ, hg'⟩

theorem Call.dest_back (q : Call) (way : Way) : q.dest way.back = q.source way := by
  cases way <;> rfl

theorem direction_back (c : Converter) (way : Way) :
    (c.direction way.back).srcSide = (c.direction way).dstSide ∧
      (c.direction way.back).dstSide = (c.direction way).srcSide := by
  cases way <;> exact ⟨rfl, rfl⟩

theorem mem_steps {p : Part} {δ : FieldDelta} :
    (p, δ) ∈ steps delta ↔ δ ∈ p.deltas delta := by
  cases p <;> simp [steps, Part.deltas]

/-- The steps before a part leave the keys of the part alone. -/
theorem Job.stashBefore_get? {j : Job} {p : Part} {δ : FieldDelta} {g : Field}
    (hkeys : ((steps delta).filterMap stepKey).Nodup) (hδ : δ ∈ p.deltas delta)
    (hg : δ.lone? = some g) : (j.stashBefore delta p).get? (Stash.key (fieldId p g)) =
      j.stash.get? (Stash.key (fieldId p g)) := by
  cases p with
  | spec => rfl
  | status =>
    rw [steps, List.filterMap_append, List.nodup_append] at hkeys
    refine stashAfter_other fun hin => ?_
    refine hkeys.2.2 _ hin _ (List.mem_filterMap.mpr ⟨(.status, δ), ?_, ?_⟩) rfl
    · exact List.mem_map_of_mem hδ
    · rw [stepKey, hg]
      rfl

/-- What one conversion does to the fields, seen as a whole. -/
structure Converted (c : Converter) (q : Call) (way : Way) (t : Table String)
    (values values' : Part → String → Value) : Prop where
  carried : ∀ p, ∀ δ ∈ p.deltas q.delta, ∀ f g, δ.source? way = some f → δ.dest? way = some g →
    Carried (c.direction way).dstSide g (values p (fieldName f)) (values' p (fieldName g))
  restored : ∀ p, ∀ δ ∈ p.deltas q.delta, ∀ g, δ.source? way = none → δ.dest? way = some g →
    Restored c.classes ((c.direction way).dstSide.partName (q.dest way) p) p t g
      (values' p (fieldName g))

/-- A conversion function carries over and restores every field of the destination. -/
theorem Call.Prepared.converts (hq : q.Prepared c call n) {o m cloud : Value}
    {values : Part → String → Value} {t : Table String} (className : String)
    (attrs : List (String × Value))
    (ho : (c.direction way).srcSide.Typed (q.source way) o m cloud values)
    (hm : m.attr? "annotations" = some (.ofStore (some t)))
    (hsize : ∀ p name f, (p.fields (q.source way)).get? name = some f → (values p name).size ≤ n)
    (hrestorable : ∀ p, ∀ δ ∈ p.deltas q.delta, ∀ g, δ.source? way = none →
      δ.dest? way = some g → ∃ w,
        Restored c.classes ((c.direction way).dstSide.partName (q.dest way) p) p t g w) :
    ∃ mid values', (q.func way).convert c.classes call o (.object className attrs) = some mid ∧
      mid.attr? "metadata" = some (m.annotated (stashAfter way values (steps q.delta) t)) ∧
      (∀ p : Part, mid.attr? p.text =
        some ((c.direction way).dstSide.part (q.dest way) p cloud (values' p))) ∧
      Converted c q way t values values' := by
  let j : Job := ⟨c.direction way, way, .spec, q.source way, q.dest way, m, cloud, values, t⟩
  have halong := hq.along way
  have hrestored : ∀ p, ∀ δ ∈ p.deltas q.delta, ∀ g, δ.source? way = none →
      δ.dest? way = some g → ∀ w,
        (Restored c.classes ((c.direction way).dstSide.partName (q.dest way) p) p
          (j.stashBefore q.delta p) g w ↔
        Restored c.classes ((c.direction way).dstSide.partName (q.dest way) p) p t g w) := by
    intro p δ hδ g hf hg w
    have hlone : δ.lone? = some g := by
      rcases δ.source?_or_dest? way with ⟨_, _, hs, -, -⟩ | ⟨_, hs, -, -⟩ | ⟨_, -, hs, hl⟩
      · rw [hf] at hs
        cases hs
      · rw [hf] at hs
        cases hs
      · cases hs.symm.trans hg
        exact hl
    unfold Restored
    rw [Job.stashBefore_get? hq.keysOnce hδ hlone]
  have hsound : ∀ p, (j.on q.delta p).Sound c.classes n (p.deltas q.delta) := by
    intro p
    refine ⟨hq.grounded way, hq.attrs way, ?_, (halong.ofSource p).get?, (halong.ofDest p).get?,
      ?_, ?_, fun f hf => ho.fits p _ f hf, fun f hf => hsize p _ f hf, ⟨_, hm⟩, ?_⟩
    · exact hq.attrs way.back
    · exact (halong.ofDest p).once.nodup_iff.mpr (Table.keys_nodup _)
    · have hkeys := hq.keysOnce
      rw [steps, List.filterMap_append, List.nodup_append] at hkeys
      cases p with
      | spec => exact hkeys.1
      | status => exact hkeys.2.1
    · intro δ hδ g hf hg
      obtain ⟨w, hw⟩ := hrestorable p δ hδ g hf hg
      exact ⟨w, (hrestored p δ hδ g hf hg w).mpr hw⟩
  obtain ⟨spec, status, hspec, hstatus, hcode, hrequests⟩ := functionBody_emits
    hq.faithful.supported (show runFrom _ [] = _ from hq.faithful.body way)
  have hcalls : ∀ r ∈ (spec ++ status).flatMap DeltaCode.requests,
      Serves call (c.direction way) n r := by
    intro r hr
    apply hq.serves way r
    rw [hrequests]
    simpa using hr
  obtain ⟨values', g, hrun, hdst, hvalues⟩ := body_runs className attrs hspec hstatus hsound
    hcalls (hq.create way) ho.part ho.metadata hm
  refine ⟨j.result q.delta values' className attrs, values', ?_, Job.result_metadata,
    Job.result_part, ⟨?_, ?_⟩⟩
  · rw [Func.convert, hq.faithful.params way, hcode, hrun]
    exact hdst
  · exact fun p δ hδ => ((hvalues p).1 δ hδ).carried
  · intro p δ hδ g hf hg
    exact (hrestored p δ hδ g hf hg _).mp (((hvalues p).1 δ hδ).restored g hf hg)

section Back

variable {t : Table String} {values values' back : Part → String → Value} {p : Part}
  {owner name : String} {f g : Field} {w : Value}

theorem Restored.of_clear (hw : Restored c.classes owner p t g w) (ht : Stash.Clear t) :
    w = .null := by
  unfold Restored at hw
  rwa [ht _ (Stash.isKey_key _)] at hw

/-- Where nothing was stashed, a field of the destination holds what a field of the source held,
or nothing. -/
theorem Converted.of_clear (hv : Converted c q way t values values')
    (ha : Along way (q.source way) (q.dest way) q.delta) (ht : Stash.Clear t)
    (hg : (p.fields (q.dest way)).get? name = some g) :
    values' p name = .null ∨ ∃ name' f, (p.fields (q.source way)).get? name' = some f ∧
      Carried (c.direction way).dstSide g (values p name') (values' p name) := by
  obtain ⟨rfl, δ, hδ, hdest⟩ := ha.dest_field hg
  cases hsource : δ.source? way with
  | none => exact .inl ((hv.restored p δ hδ g hsource hdest).of_clear ht)
  | some f =>
    exact .inr ⟨_, f, (ha.ofSource p).get? δ hδ f hsource, hv.carried p δ hδ f g hsource hdest⟩

/-- The values of the fields that the source alone has are found in the annotations again. -/
theorem restored_back (values : Part → String → Value)
    (hkeys : ((steps q.delta).filterMap stepKey).Nodup) (ht : Stash.Clear t)
    {δ : FieldDelta} (hδ : δ ∈ p.deltas q.delta) (hf : δ.source? way = some f)
    (hg : δ.dest? way = none)
    (hdecode : ∃ hint, c.classes.hint? owner f.attrName = some hint ∧
      Stash.decode c.classes (Stash.encode (values p (fieldName f))) hint =
        .ok (values p (fieldName f)).ordered) :
    ∀ w, Restored c.classes owner p (stashAfter way values (steps q.delta) t) f w ↔
      w = (values p (fieldName f)).ordered := by
  have hget := stashAfter_source values hkeys ht (mem_steps.mpr hδ) hf hg
  dsimp only at hget
  intro w
  unfold Restored
  rw [hget]
  cases hnull : (values p (fieldName f)).isNull with
  | true =>
    rw [if_pos rfl, Value.isNull_iff.mp hnull]
    rfl
  | false =>
    rw [if_neg (by decide)]
    obtain ⟨hint, hhint, hok⟩ := hdecode
    constructor
    · rintro ⟨hint', hhint', hok'⟩
      cases hhint.symm.trans hhint'
      cases hok.symm.trans hok'
      rfl
    · rintro rfl
      exact ⟨hint, hhint, hok⟩

/-- Parts whose fields hold the same up to the order of entries are the same up to that order. -/
theorem ordered_part {s : Side} {r : Resource} {cloud : Value} {values values' : String → Value}
    (hv : ∀ name f, (p.fields r).get? name = some f →
      (values name).ordered = (values' name).ordered) :
    (s.part r p cloud values).ordered = (s.part r p cloud values').ordered := by
  have hfields : ∀ e ∈ (p.fields r).sorted, (values e.1).ordered = (values' e.1).ordered :=
    fun e he => hv e.1 e.2 (Table.mem_sorted_iff.mp he)
  simp only [Side.part, Value.ordered, Value.orderedEntries_eq, Side.partAttrs, List.map_append,
    List.map_map, Value.object.injEq, true_and, List.append_cancel_left_eq]
  exact List.map_congr_left fun e he => congrArg (Prod.mk _) (hfields e he)

end Back

/-- The way out and the way back, for a call whose deltas and helpers are as they should be. -/
theorem Call.Prepared.round_trip (hq : q.Prepared c call n) {o m cloud : Value}
    {values : Part → String → Value} {t : Table String} {midClass outClass : String}
    {midAttrs outAttrs : List (String × Value)}
    (ho : (c.direction way).srcSide.Typed (q.source way) o m cloud values)
    (hm : m.attr? "annotations" = some (.ofStore (some t))) (ht : Stash.Clear t)
    (hn : 0 < n)
    (hsize : ∀ p name f, (p.fields (q.source way)).get? name = some f → (values p name).size ≤ n)
    (hdecode : ∀ p, ∀ δ ∈ p.deltas q.delta, ∀ f, δ.source? way = some f → δ.dest? way = none →
      ∃ hint, c.classes.hint? ((c.direction way).srcSide.partName (q.source way) p) f.attrName =
        some hint ∧ Stash.decode c.classes (Stash.encode (values p (fieldName f))) hint =
          .ok (values p (fieldName f)).ordered) :
    ∃ mid out, (q.func way).convert c.classes call o (.object midClass midAttrs) = some mid ∧
      (q.func way.back).convert c.classes call mid (.object outClass outAttrs) = some out ∧
      out.attr? "metadata" = o.attr? "metadata" ∧
      ∀ p : Part, (out.attr? p.text).map Value.ordered = (o.attr? p.text).map Value.ordered := by
  have halong := hq.along way
  obtain ⟨mid, values', hmid, hmidMeta, hmidPart, hv⟩ := hq.converts midClass midAttrs
    ho hm hsize fun p δ _ g _ _ => ⟨.null, by
      unfold Restored
      rw [ht _ (Stash.isKey_key _)]⟩
  have htyped : (c.direction way.back).srcSide.Typed (q.source way.back) mid
      (m.annotated (stashAfter way values (steps q.delta) t)) cloud values' := by
    rw [(direction_back c way).1]
    refine ⟨hmidMeta, hmidPart, fun p name g hg => ?_⟩
    rcases hv.of_clear halong ht hg with hnull | ⟨name', f, -, hcarried⟩
    · rw [hnull]
      exact Side.fits_null _ g
    · exact hcarried.fits
  have hsize' : ∀ p name g, (p.fields (q.source way.back)).get? name = some g →
      (values' p name).size ≤ n := by
    intro p name g hg
    rcases hv.of_clear halong ht hg with hnull | ⟨name', f, hf, hcarried⟩
    · rw [hnull]
      exact hn
    · rw [← Value.size_tree, hcarried.tree, Value.size_tree]
      exact hsize p name' f hf
  have hback := fun p δ (hδ : δ ∈ p.deltas q.delta) f hf hg =>
    restored_back values hq.keysOnce ht hδ hf hg (hdecode p δ hδ f hf hg)
  obtain ⟨out, back, hout, houtMeta, houtPart, hw⟩ := hq.converts outClass outAttrs
    htyped (Value.attr?_annotated hm _) hsize' fun p δ hδ f hg hf => by
      rw [(direction_back c way).2, Call.dest_back]
      rw [FieldDelta.dest?_back] at hf
      exact ⟨_, (hback p δ hδ f hf hg _).mpr rfl⟩
  refine ⟨mid, out, hmid, hout, ?_, fun p => ?_⟩
  · have hstash : stashAfter way.back values' (steps q.delta)
        (stashAfter way values (steps q.delta) t) = t := stashAfter_back hq.keysOnce ht
      fun s hs g hf hg => (hv.restored s.1 s.2 (mem_steps.mp hs) g hf hg).of_clear ht
    rw [houtMeta, hstash, Value.annotated_annotated, Value.annotated_same hm, ho.metadata]
  · rw [houtPart, ho.part, (direction_back c way).2, Call.dest_back, Option.map_some,
      Option.map_some, ordered_part fun name f hf => ?_]
    have hfBack : (p.fields (q.dest way.back)).get? name = some f := by rwa [Call.dest_back]
    obtain ⟨rfl, δ, hδ, hdest⟩ := (hq.along way.back).dest_field hfBack
    rw [FieldDelta.dest?_back] at hdest
    have hdest' : δ.dest? way.back = some f := by rw [FieldDelta.dest?_back, hdest]
    cases hg : δ.dest? way with
    | some g =>
      have hout := hv.carried p δ hδ f g hdest hg
      have hreturn := hw.carried p δ hδ g f hg hdest'
      rw [(direction_back c way).2] at hreturn
      rw [hreturn.fits.eq_of_tree (ho.fits p _ f hf) (hreturn.tree.trans hout.tree)]
    | none =>
      have hreturn := hw.restored p δ hδ f hg hdest'
      rw [(direction_back c way).2, Call.dest_back] at hreturn
      rw [(hback p δ hδ f hdest hg _).mp hreturn, Value.ordered_ordered]

/-- Every call of a clean run between built models is prepared. -/
theorem CleanCalls.prepared (hrun : CleanCalls c calls h) (hspoke : c.spoke.Built)
    (hhub : c.hub.Built) (hspokeAttrs : c.spoke.DistinctAttrs) (hhubAttrs : c.hub.DistinctAttrs)
    (hone : OnePair c (calls.flatMap fun q => q.roots c)) (hq : q ∈ calls)
    (hs : q.spoke ∈ c.spoke.resources) (hh : q.hub ∈ c.hub.resources)
    (hsAttrs : q.spoke.DistinctAttrs) (hhAttrs : q.hub.DistinctAttrs)
    (hdelta : (compute ⟨c.spoke.api, q.spoke⟩ ⟨c.hub.api, q.hub⟩).run.1 = .ok q.delta)
    (fuel : Nat) : q.Prepared c (callHelper c.classes h.table fuel) fuel := by
  have hkeyed : ∀ {m : VersionModel} {r : Resource}, m.Built → r ∈ m.resources →
      ∀ p : Part, Resource.Keyed (p.fields r) := by
    intro m r hm hr p
    cases p with
    | spec => exact hm.parts.1.spec r hr
    | status => exact hm.parts.1.status r hr
  have hspokeKeyed := hkeyed hspoke hs
  have hhubKeyed := hkeyed hhub hh
  obtain ⟨hspec, hstatus⟩ := compute_sections ⟨hspokeKeyed .spec, hspokeKeyed .status⟩
    ⟨hhubKeyed .spec, hhubKeyed .status⟩ hdelta
  have hdone := hrun.cleanRun.complete
  have hgrounded := c.grounded hspoke hhub hspokeAttrs hhubAttrs
  refine ⟨hrun.faithful hq, hgrounded, compute_along hspokeKeyed hhubKeyed hdelta,
    stepKeys_nodup hspec hstatus, fun way => ?_, fun way r hr => ?_, fun way p => ?_⟩
  · cases way with
    | toHub => exact hsAttrs
    | fromHub => exact hhAttrs
  · have hroot : (way, r) ∈ calls.flatMap fun q => q.roots c := by
      refine List.mem_flatMap.mpr ⟨q, hq, ?_⟩
      cases way with
      | toHub => exact List.mem_append_left _ (List.mem_map_of_mem hr)
      | fromHub => exact List.mem_append_right _ (List.mem_map_of_mem hr)
    exact callHelper_serves (hgrounded way) hone hdone (fun _ _ hf => hf) fuel (.root hroot)
      (hdone.known way r hroot)
  · cases way with
    | toHub => exact Converter.create_part hspoke hhub (.inr rfl) hh p
    | fromHub => exact Converter.create_part hspoke hhub (.inl rfl) hs p

/-- Converting an object to the other version and back gives its metadata, its Spec and its Status
again, up to the order of mapping entries. This holds for the functions that any call in a run
without failures returned, with the helpers of the whole run, in both directions. -/
theorem conversion_round_trip (hspoke : c.spoke.Built) (hhub : c.hub.Built)
    (hspokeAttrs : c.spoke.DistinctAttrs) (hhubAttrs : c.hub.DistinctAttrs)
    (hrun : CleanCalls c calls h) (hone : OnePair c (calls.flatMap fun q => q.roots c))
    (hq : q ∈ calls) (hs : q.spoke ∈ c.spoke.resources) (hh : q.hub ∈ c.hub.resources)
    (hsAttrs : q.spoke.DistinctAttrs) (hhAttrs : q.hub.DistinctAttrs)
    (hdelta : (compute ⟨c.spoke.api, q.spoke⟩ ⟨c.hub.api, q.hub⟩).run.1 = .ok q.delta)
    (way : Way) (hwritten : (c.direction way).src.Written) {o m cloud : Value}
    {values : Part → String → Value}
    (ho : (c.direction way).srcSide.Typed (q.source way) o m cloud values)
    {t : Table String} (hm : m.attr? "annotations" = some (.ofStore (some t)))
    (ht : Stash.Clear t)
    (hexact : ∀ p, ∀ δ ∈ p.deltas q.delta, ∀ f, δ.source? way = some f → δ.dest? way = none →
      (values p (fieldName f)).Each Value.Exact)
    {fuel : Nat} (hfuel : o.size ≤ fuel) (midClass outClass : String)
    (midAttrs outAttrs : List (String × Value)) :
    ∃ mid out,
      (q.func way).convert c.classes (callHelper c.classes h.table fuel) o
        (.object midClass midAttrs) = some mid ∧
      (q.func way.back).convert c.classes (callHelper c.classes h.table fuel) mid
        (.object outClass outAttrs) = some out ∧
      out.attr? "metadata" = o.attr? "metadata" ∧
      ∀ p : Part, (out.attr? p.text).map Value.ordered = (o.attr? p.text).map Value.ordered := by
  have hprepared := hrun.prepared hspoke hhub hspokeAttrs hhubAttrs hone hq hs hh hsAttrs hhAttrs
    hdelta fuel
  have hsource : q.source way ∈ (c.direction way).srcSide.model.resources := by
    cases way with
    | toHub => exact hs
    | fromHub => exact hh
  have hattrs : (c.direction way).srcSide.model.DistinctAttrs := by
    cases way with
    | toHub => exact hspokeAttrs
    | fromHub => exact hhubAttrs
  have hpos := Value.size_pos o
  refine hprepared.round_trip ho hm ht (by omega) (fun p name f hf => ?_)
    fun p δ hδ f hf hg => ?_
  · have := ho.size_lt hf
    omega
  · have hfield := ((hprepared.along way).ofSource p).get? δ hδ f hf
    exact Converter.decode_field hspoke hhub (Converter.side_cases way).1 hattrs hwritten hsource
      (hprepared.attrs way) hfield (ho.fits p _ f hfield) (hexact p δ hδ f hf hg)

namespace Sample

def field (f : Names × ShapeRef) : Field where
  path := f.1.camel
  names := f.1
  ref? := some f.2
  config? := none

def spokeA : Resource := resource spoke.api [boxField]
def hubA : Resource := resource hub.api [boxField, idField]

/-- Both versions have the box, only the hub has the text. -/
def fieldDeltas : ResourceDelta :=
  ⟨[.pair .intact (field boxField) (field boxField), .added (field idField)], []⟩

theorem deltas_computed :
    (compute ⟨spoke.api, spokeA⟩ ⟨hub.api, hubA⟩).run.1 = .ok fieldDeltas := by
  cbv

/-- Both functions copy the box with the help of a helper. -/
theorem functions_body (way : Way) : ∃ body, ((converter.direction way).functionBody way "A"
    fieldDeltas).run = (.ok body, [boxRequest]) := by
  have hbody : outline ((converter.direction way).functionBody way "A" fieldDeltas).run =
      (true, [boxRequest]) := by
    cases way <;> cbv
  exact of_outline_ok hbody

/-- A call for the two resources gives both functions. -/
theorem functions_returned : ∃ q h, q.spoke = spokeA ∧ q.hub = hubA ∧ q.delta = fieldDeltas ∧
    CleanCalls converter [q] h := by
  obtain ⟨body, hbody⟩ := functions_body .toHub
  obtain ⟨body', hbody'⟩ := functions_body .fromHub
  obtain ⟨h, hemit, hbegun⟩ := box_served .toHub (h := {}) (by simp) hbody
  obtain ⟨h', hemit', -⟩ := box_served .fromHub (h := h) (by rw [hbegun]; decide) hbody'
  have hfunction : ∀ {way body h h'}, (converter.direction way).emit h
      ((converter.direction way).functionBody way "A" fieldDeltas) = (.ok body, h') →
        ∃ f, converter.function h way spokeA hubA fieldDeltas = (.ok f, h') := by
    intro way body h h' hemit
    rw [function_eq, show (way.back.pick spokeA hubA).names.camel = "A" by cases way <;> rfl]
    dsimp only
    rw [hemit]
    exact ⟨_, rfl⟩
  obtain ⟨toHub, htoHub⟩ := hfunction hemit
  obtain ⟨fromHub, hfromHub⟩ := hfunction hemit'
  have hfunctions : converter.functions {} spokeA hubA fieldDeltas =
      (.ok [toHub, fromHub], h') := by
    unfold Converter.functions
    rw [if_neg (by decide), htoHub]
    dsimp only
    rw [hfromHub]
  exact ⟨⟨spokeA, hubA, fieldDeltas, toHub, fromHub⟩, h', rfl, rfl, rfl, .call .start hfunctions⟩

/-- The values of the fields of a hub object. -/
def hubValues (_ : Part) (name : String) : Value :=
  if name = "Box" then boxes ⟨hub, some "hub"⟩ else if name = "Id" then .str "a=b" else .null

/-- The metadata of an object with an annotation of its owner. -/
def hubMeta : Value :=
  .object "ObjectMeta" [("name", .str "a"), ("annotations", .dict [("owner", .str "me")])]

def hubObject : Value :=
  let part := fun p => Side.part ⟨hub, some "hub"⟩ hubA p .null (hubValues p)
  .object "hub.A" [("metadata", hubMeta), ("spec", part .spec), ("status", part .status)]

theorem hub_fields {p : Part} {name : String} {f : Field}
    (hf : (p.fields hubA).get? name = some f) :
    name = "Box" ∧ f = field boxField ∨ name = "Id" ∧ f = field idField := by
  have hin := Table.get?_eq_some_iff.mp hf
  cases p with
  | spec =>
    rw [show (Part.spec.fields hubA).entries =
      [("Box", field boxField), ("Id", field idField)] from rfl] at hin
    simpa using hin
  | status =>
    rw [show (Part.status.fields hubA).entries = [] from rfl] at hin
    cases hin

theorem hubObject_typed :
    Side.Typed ⟨hub, some "hub"⟩ hubA hubObject hubMeta .null hubValues := by
  refine ⟨rfl, fun p => by cases p <;> rfl, fun p name f hf => ?_⟩
  rcases hub_fields hf with ⟨rfl, rfl⟩ | ⟨rfl, rfl⟩
  · refine ⟨nofun, fun _ x hx => ?_, fun _ hx => ?_⟩
    · cases hx
      exact boxes_conform rfl
    · cases hx
  · refine ⟨nofun, fun _ x hx => ?_, fun _ hx => ?_⟩
    · cases hx
      have hshape : hub.api.shape? "Text" = some (plainShape (.scalar .string)) := rfl
      exact .scalar hshape rfl trivial
    · cases hx

theorem sample_attrs : spokeA.DistinctAttrs ∧ hubA.DistinctAttrs := by
  constructor <;>
    · intro p
      refine (((Table.sorted_perm _).map _).append_left _).nodup_iff.mpr ?_
      cases p <;> decide

theorem hub_written : hub.Written := by
  have hok : (Source.classes hub).isOk = true := by cbv
  cases hdefs : Source.classes hub with
  | error e =>
    rw [hdefs] at hok
    cases hok
  | ok defs => exact ⟨defs, hdefs⟩

theorem owner_clear : Stash.Clear (Table.ofList [("owner", "me")]) := by
  intro name hkey
  have howner : Stash.isKey "owner" = false := by decide
  have hne : name ≠ "owner" := by
    rintro rfl
    rw [howner] at hkey
    cases hkey
  exact (Table.lookup_cons_if "owner" name "me" []).trans (if_neg hne)

/-- Only the text is left alone on the way from the hub, and texts are read back. -/
theorem lone_exact {p : Part} {δ : FieldDelta} {f : Field} (hδ : δ ∈ p.deltas fieldDeltas)
    (hf : δ.source? .fromHub = some f) (hg : δ.dest? .fromHub = none) :
    (hubValues p (fieldName f)).Each Value.Exact := by
  cases p with
  | spec =>
    simp only [Part.deltas, fieldDeltas, List.mem_cons, List.not_mem_nil, or_false] at hδ
    rcases hδ with rfl | rfl
    · cases hg
    · cases hf
      exact trivial
  | status => cases hδ

end Sample

open Sample in
/-- The round trip of a hub object whose text the spoke does not have. -/
theorem conversion_round_trip_boxes : ∃ q h mid out, CleanCalls converter [q] h ∧
    q.fromHub.convert converter.classes
      (callHelper converter.classes h.table hubObject.size) hubObject (.object "A" []) =
        some mid ∧
    q.toHub.convert converter.classes
      (callHelper converter.classes h.table hubObject.size) mid (.object "hub.A" []) = some out ∧
    out.attr? "metadata" = hubObject.attr? "metadata" ∧
    ∀ p : Part,
      (out.attr? p.text).map Value.ordered = (hubObject.attr? p.text).map Value.ordered := by
  obtain ⟨q, h, hs, hh, hd, hrun⟩ := functions_returned
  have hrequests : ∀ way, q.requests converter way = [boxRequest] := by
    intro way
    obtain ⟨_, hbody⟩ := functions_body way
    unfold Call.requests Call.dest
    rw [hs, hh, hd, show (way.back.pick spokeA hubA).names.camel = "A" by cases way <;> rfl, hbody]
  have hone : OnePair converter ([q].flatMap fun q => q.roots converter) := by
    refine box_onePair fun p hp => ?_
    rw [List.flatMap_singleton, Call.roots, hrequests, hrequests] at hp
    simp only [List.map_cons, List.map_nil, List.mem_append, List.mem_singleton] at hp
    rcases hp with rfl | rfl <;> rfl
  obtain ⟨mid, out, hmid, hout, hmeta, hparts⟩ := conversion_round_trip spoke_built hub_built
    distinct_attrs distinct_attrs hrun hone (List.mem_singleton_self q)
    (by rw [hs]; exact List.mem_singleton.mpr rfl) (by rw [hh]; exact List.mem_singleton.mpr rfl)
    (by rw [hs]; exact sample_attrs.1) (by rw [hh]; exact sample_attrs.2)
    (by rw [hs, hh, hd]; exact deltas_computed) .fromHub hub_written (o := hubObject)
    (m := hubMeta) (by rw [Call.source, hh]; exact hubObject_typed) rfl owner_clear
    (by rw [hd]; exact fun _ _ hδ _ hf hg => lone_exact hδ hf hg) le_rfl "A" "hub.A" [] []
  exact ⟨q, h, mid, out, hrun, hmid, hout, hmeta, hparts⟩

end Conversion

end ResourceVersions
