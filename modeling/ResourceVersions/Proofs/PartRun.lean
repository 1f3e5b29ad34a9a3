import ResourceVersions.Proofs.FieldCode
import ResourceVersions.Proofs.PartObject

/-! # Running the code of a part

The code of a part goes through the deltas of its section. Between two of them the copy of the
part holds what the deltas so far have delivered, and the annotations what they have stashed. -/
namespace ResourceVersions.Conversion

open Code Direction ResourceDelta

/-- What a field gets from the annotations: a decoded value, or nothing if there is none. -/
def Restored (classes : Classes) (owner : String) (p : Part) (t : Table String) (g : Field)
    (w : Value) : Prop :=
  match t.get? (Stash.key (fieldId p g)) with
  | none => w = .null
  | some text => ∃ hint, classes.hint? owner g.attrName = some hint ∧
      Stash.decode classes text hint = .ok w

/-- What the code of a part works on: two resources, the metadata of the source, the values of
its fields and the annotations when the code starts. -/
structure Job where
  d : Direction
  way : Way
  part : Part
  source : Resource
  dest : Resource
  objectMeta : Value
  cloudMeta : Value
  values : Part → String → Value
  stash : Table String

namespace Job

variable (j : Job) (classes : Classes)

def input (name : String) : Value := j.values j.part name

/-- The part of the destination with some values of its fields. -/
def output (values : String → Value) : Value :=
  j.d.dstSide.part j.dest j.part j.cloudMeta values

/-- The annotations after some deltas. -/
def stashed (done : List FieldDelta) : Table String :=
  stashAfter j.way j.values (done.map (Prod.mk j.part)) j.stash

/-- A delta has done its work: its field is carried over or restored. -/
structure Delivers (values : String → Value) (δ : FieldDelta) : Prop where
  carried : ∀ f g, δ.source? j.way = some f → δ.dest? j.way = some g →
    Carried j.d.dstSide g (j.input (fieldName f)) (values (fieldName g))
  restored : ∀ g, δ.source? j.way = none → δ.dest? j.way = some g →
    Restored classes (j.d.dstSide.partName j.dest j.part) j.part j.stash g (values (fieldName g))

/-- What is taken for granted of the deltas of a part. -/
structure Sound (n : Nat) (deltas : List FieldDelta) : Prop where
  grounded : j.d.Grounded classes
  sourceAttrs : j.source.DistinctAttrs
  destAttrs : j.dest.DistinctAttrs
  sourceField : ∀ δ ∈ deltas, ∀ f, δ.source? j.way = some f →
    (j.part.fields j.source).get? (fieldName f) = some f
  destField : ∀ δ ∈ deltas, ∀ g, δ.dest? j.way = some g →
    (j.part.fields j.dest).get? (fieldName g) = some g
  destOnce : (deltas.filterMap fun δ => (δ.dest? j.way).map fieldName).Nodup
  keysOnce : ((deltas.map (Prod.mk j.part)).filterMap stepKey).Nodup
  fits : ∀ f, (j.part.fields j.source).get? (fieldName f) = some f →
    j.d.srcSide.Fits f (j.input (fieldName f))
  size : ∀ f, (j.part.fields j.source).get? (fieldName f) = some f →
    (j.input (fieldName f)).size ≤ n
  annotations : ∃ w, j.objectMeta.attr? "annotations" = some w
  restorable : ∀ δ ∈ deltas, ∀ g, δ.source? j.way = none → δ.dest? j.way = some g → ∃ w,
    Restored classes (j.d.dstSide.partName j.dest j.part) j.part j.stash g w

/-- The variables that change while the deltas of a part are gone through. -/
def Working (p : Part) (x : String) : Prop := x = metaVar ∨ x = p.copyVar ∨ Scratch 1 x

/-- The state between two deltas. -/
structure Reached (done : List FieldDelta) (values : String → Value) (f g : Frame) : Prop where
  agree : AgreeOff (Working j.part) f g
  annotations : g metaVar = some (j.objectMeta.annotated (j.stashed done))
  copy : g j.part.copyVar = some (j.output values)
  delivered : ∀ δ ∈ done, j.Delivers classes values δ
  rest : ∀ name, (∀ δ ∈ done, ∀ g, δ.dest? j.way = some g → fieldName g ≠ name) →
    values name = .null

end Job

theorem metaVar_ne_copyVar (p : Part) : metaVar ≠ p.copyVar := by
  cases p <;> decide

theorem copyVar_not_scratch (p : Part) : ¬ Scratch 1 p.copyVar := by
  cases p <;> exact not_scratch (by decide)

theorem metaVar_not_scratch : ¬ Scratch 1 metaVar := not_scratch (by decide)

theorem source_avoids (p : Part) : p.source.Avoids (Job.Working p) := by
  have hsrc : "src" ≠ metaVar := by decide
  have hcopy : "src" ≠ p.copyVar := by cases p <;> decide
  have hscratch : ¬ Scratch 1 "src" := not_scratch (by decide)
  rintro (h | h | h)
  · exact hsrc h
  · exact hcopy h
  · exact hscratch h

section Steps

variable {j : Job} {classes : Classes} {call : String → Value → Option Value} {n : Nat}
  {done : List FieldDelta} {δ : FieldDelta} {values : String → Value} {f g : Frame}
  {code : List Stmt} {requests : List HelperRequest} {t : Table String}

/-- The effect of the code of one delta. -/
structure Job.Steps (j : Job) (classes : Classes) (call : String → Value → Option Value)
    (δ : FieldDelta) (t : Table String) (values values' : String → Value) (code : List Stmt)
    (g g' : Frame) : Prop where
  run : execAll classes call code g = some (.running g')
  agree : AgreeOff (Working j.part) g g'
  annotations : g' metaVar =
    some (j.objectMeta.annotated (stashStep j.way j.values t (j.part, δ)))
  copy : g' j.part.copyVar = some (j.output values')
  delivers : j.Delivers classes values' δ
  other : ∀ name, (∀ h, δ.dest? j.way = some h → fieldName h ≠ name) →
    values' name = values name

/-- The value of a field is read from the source. -/
theorem Job.Sound.read {deltas : List FieldDelta} {h : Field} (hj : j.Sound classes n deltas)
    (hsrc : j.part.source.eval call g =
      some (j.d.srcSide.part j.source j.part j.cloudMeta (j.values j.part)))
    (hh : (j.part.fields j.source).get? (fieldName h) = some h) :
    (Expr.attr j.part.source h.attrName).eval call g = some (j.input (fieldName h)) := by
  rw [Expr.eval, hsrc]
  exact Side.attr?_part (s := j.d.srcSide) hj.sourceAttrs hh

/-- Storing a field of the destination changes the value of that field. -/
theorem Job.Sound.store {deltas : List FieldDelta} {h : Field} (hj : j.Sound classes n deltas)
    (hcopy : g j.part.copyVar = some (j.output values))
    (hh : (j.part.fields j.dest).get? (fieldName h) = some h) (w : Value) :
    ((fieldSlot j.part h).store (.const w)).exec classes call g = some (.running
      (g.set j.part.copyVar (j.output (Function.update values (fieldName h) w)))) := by
  rw [fieldSlot, exec_setAttr hcopy, Side.putEntry_part hj.destAttrs hh]
  rfl

/-- What is stored in a field as it was read, or as a copy of it, is carried over. -/
theorem Job.Sound.carries {deltas : List FieldDelta} {h h' : Field} {w : Value}
    (hj : j.Sound classes n deltas) (hδ : δ ∈ deltas) (hh : δ.source? j.way = some h)
    (hh' : δ.dest? j.way = some h')
    (hw : Carried j.d.dstSide h' (j.input (fieldName h)) w)
    (hrun : ∃ g₁, AgreeOff (Scratch 1) g g₁ ∧
      (execAll classes call code g =
          ((fieldSlot j.part h').store (.const w)).exec classes call g₁ ∨
        w = .null ∧ execAll classes call code g = some (.running g₁)))
    (hnull : values (fieldName h') = .null) (hmeta : g metaVar = some (j.objectMeta.annotated t))
    (hcopy : g j.part.copyVar = some (j.output values)) :
    ∃ values' g', j.Steps classes call δ t values values' code g g' := by
  obtain ⟨g₁, hg₁, hrun⟩ := hrun
  have hlone : δ.lone? = none := by
    rcases δ.source?_or_dest? j.way with ⟨_, _, -, -, hl⟩ | ⟨_, -, hn, -⟩ | ⟨_, hn, -, -⟩
    · exact hl
    · rw [hn] at hh'
      cases hh'
    · rw [hn] at hh
      cases hh
  have hstep : stashStep j.way j.values t (j.part, δ) = t := stashStep_pair hlone
  have hcopy₁ : g₁ j.part.copyVar = some (j.output values) := by
    rw [hg₁ _ (copyVar_not_scratch j.part), hcopy]
  have hmeta₁ : g₁ metaVar = some (j.objectMeta.annotated t) := by
    rw [hg₁ _ metaVar_not_scratch, hmeta]
  have hagree : AgreeOff (Job.Working j.part) g g₁ := hg₁.mono fun x hx => .inr (.inr hx)
  have hdelivers : ∀ values', values' (fieldName h') = w → j.Delivers classes values' δ := by
    intro values' hvalue
    refine ⟨fun f g hf hg => ?_, fun g hnone _ => ?_⟩
    · cases hf.symm.trans hh
      cases hg.symm.trans hh'
      rwa [hvalue]
    · rw [hh] at hnone
      cases hnone
  rcases hrun with hrun | ⟨rfl, hrun⟩
  · refine ⟨Function.update values (fieldName h') w, _,
      ⟨hrun.trans (hj.store hcopy₁ (hj.destField δ hδ h' hh') w), hagree.set (.inr (.inl rfl)) _,
        ?_, Frame.set_self .., hdelivers _ (Function.update_self ..), ?_⟩⟩
    · rw [Frame.set_ne _ (metaVar_ne_copyVar j.part), hmeta₁, hstep]
    · intro name hname
      exact Function.update_of_ne (Ne.symm (hname h' hh')) ..
  · refine ⟨values, g₁, ⟨hrun, hagree, ?_, hcopy₁, hdelivers _ hnull, fun _ _ => rfl⟩⟩
    rw [hmeta₁, hstep]

/-- Stashing a field does the work of a delta that only the source has. -/
theorem Job.Sound.stashes {deltas : List FieldDelta} {h : Field} (hj : j.Sound classes n deltas)
    (hδ : δ ∈ deltas) (hh : δ.source? j.way = some h) (hnone : δ.dest? j.way = none)
    (hsrc : j.part.source.eval call g =
      some (j.d.srcSide.part j.source j.part j.cloudMeta (j.values j.part)))
    (hmeta : g metaVar = some (j.objectMeta.annotated t))
    (hcopy : g j.part.copyVar = some (j.output values)) :
    ∃ values' g', j.Steps classes call δ t values values' [stashField j.part h] g g' := by
  obtain ⟨w, hw⟩ := hj.annotations
  have hstep : stashStep j.way j.values t (j.part, δ) = _ := stashStep_source hh hnone
  refine ⟨values, _, ⟨?_, (AgreeOff.refl _ g).set (.inl rfl) _, Frame.set_self .., ?_,
    ⟨fun _ g _ hg => ?_, fun g _ hg => ?_⟩, fun _ _ => rfl⟩⟩
  · rw [execAll_singleton, stashField, Stmt.exec,
      hj.read hsrc (hj.sourceField δ hδ h hh)]
    dsimp only [Option.bind_eq_bind, Option.bind_some]
    rw [putInto_annotated hw hmeta, hstep]
    rfl
  · rw [Frame.set_ne _ (metaVar_ne_copyVar j.part).symm, hcopy]
  · rw [hnone] at hg
    cases hg
  · rw [hnone] at hg
    cases hg

/-- Restoring a field does the work of a delta that only the destination has. -/
theorem Job.Sound.restores {deltas : List FieldDelta} {h : Field} (hj : j.Sound classes n deltas)
    (hδ : δ ∈ deltas) (hnone : δ.source? j.way = none) (hh : δ.dest? j.way = some h)
    (hown : t.get? (Stash.key (fieldId j.part h)) = j.stash.get? (Stash.key (fieldId j.part h)))
    (hmeta : g metaVar = some (j.objectMeta.annotated t))
    (hcopy : g j.part.copyVar = some (j.output values)) (hnull : values (fieldName h) = .null) :
    ∃ values' g', j.Steps classes call δ t values values'
      [unstashField j.part (j.d.owner j.part j.dest.names.camel) h] g g' := by
  obtain ⟨m, hm⟩ := hj.annotations
  obtain ⟨w, hw⟩ := hj.restorable δ hδ h hnone hh
  have hstep : stashStep j.way j.values t (j.part, δ) = _ := stashStep_dest hnone hh
  have hdelivers : ∀ values', values' (fieldName h) = w → j.Delivers classes values' δ := by
    intro values' hvalue
    refine ⟨fun f _ hf _ => ?_, fun g _ hg => ?_⟩
    · rw [hnone] at hf
      cases hf
    · cases hg.symm.trans hh
      rwa [hvalue]
  have hexec : ∀ g', takeInto classes call (.name metaVar) (fieldId j.part h)
      (.name j.part.copyVar) h.attrName (j.d.owner j.part j.dest.names.camel).qualified g =
        some g' → execAll classes call
          [unstashField j.part (j.d.owner j.part j.dest.names.camel) h] g = some (.running g') := by
    intro g' htake
    rw [execAll_singleton, unstashField, Stmt.exec, htake]
    rfl
  have hget := hown
  unfold Restored at hw
  cases hstash : j.stash.get? (Stash.key (fieldId j.part h)) with
  | none =>
    rw [hstash] at hw hget
    refine ⟨values, _, ⟨hexec _ (takeInto_absent hm hmeta hget),
      (AgreeOff.refl _ g).set (.inl rfl) _, ?_, ?_, hdelivers _ (hnull.trans hw.symm),
      fun _ _ => rfl⟩⟩
    · rw [Frame.set_self, hstep, Table.erase_absent hget]
    · rw [Frame.set_ne _ (metaVar_ne_copyVar j.part).symm, hcopy]
  | some text =>
    rw [hstash] at hw hget
    obtain ⟨hint, hhint, hdecode⟩ := hw
    refine ⟨Function.update values (fieldName h) w, _, ⟨hexec _ (takeInto_present hm hmeta
      (metaVar_ne_copyVar j.part).symm hcopy hget hhint hdecode),
      ((AgreeOff.refl _ g).set (.inl rfl) _).set (.inr (.inl rfl)) _, ?_, ?_,
      hdelivers _ (Function.update_self ..), ?_⟩⟩
    · rw [Frame.set_ne _ (metaVar_ne_copyVar j.part), Frame.set_self, hstep]
    · rw [Frame.set_self, Side.putEntry_part hj.destAttrs (hj.destField δ hδ h hh)]
      rfl
    · intro name hname
      exact Function.update_of_ne (Ne.symm (hname h hh)) ..

/-- The code of a delta does the work of the delta. -/
theorem Direction.FieldCode.steps {deltas : List FieldDelta}
    (hcode : j.d.FieldCode j.way j.part (j.d.owner j.part j.dest.names.camel) δ code requests)
    (hj : j.Sound classes n deltas) (hδ : δ ∈ deltas)
    (hcalls : ∀ q ∈ requests, Serves call j.d n q)
    (hsrc : j.part.source.eval call g =
      some (j.d.srcSide.part j.source j.part j.cloudMeta (j.values j.part)))
    (hown : ∀ h, δ.lone? = some h →
      t.get? (Stash.key (fieldId j.part h)) = j.stash.get? (Stash.key (fieldId j.part h)))
    (hmeta : g metaVar = some (j.objectMeta.annotated t))
    (hcopy : g j.part.copyVar = some (j.output values))
    (hnull : ∀ h, δ.dest? j.way = some h → values (fieldName h) = .null) :
    ∃ values' g', j.Steps classes call δ t values values' code g g' := by
  cases hcode with
  | @whole f h hf hh hsecret hplain =>
    have hfield := hj.sourceField δ hδ f hf
    have hfits := hj.fits f hfield
    refine hj.carries hδ hf hh ⟨rfl, ⟨fun hs => ?_, fun hs x hx => ?_, fun hs _ => ?_⟩⟩
      ⟨g, .refl _ g, .inl ?_⟩ (hnull h hh) hmeta hcopy
    · exact hfits.secret (hsecret.trans hs)
    · rw [(hplain (hsecret.trans hs)).2] at hx
      cases hx
    · exact hfits.text (hsecret.trans hs) (hplain (hsecret.trans hs)).1
    · rw [execAll_singleton]
      exact Target.exec_store _ (hj.read hsrc hfield)
  | @copy f h x y _ _ hf hh hs hs' hx hy hsame hcode =>
    have hfield := hj.sourceField δ hδ f hf
    have hvalue : (Expr.attr j.part.source f.attrName).Avoids (Scratch 1) :=
      (source_avoids j.part).mono fun _ h => .inr (.inr h)
    obtain ⟨w, hw, g₁, hg₁, hrun⟩ := hcode.copies hj.grounded hcalls hsame hvalue
      ((hj.fits f hfield).shaped hs x hx) (hj.size f hfield) (fun hne => absurd rfl hne)
      (hj.read hsrc hfield)
    refine hj.carries hδ hf hh ⟨hw.tree, ⟨fun hs => ?_, fun _ z hz => ?_, fun _ hz => ?_⟩⟩
      ⟨g₁, hg₁, ?_⟩ (hnull h hh) hmeta hcopy
    · rw [hs'] at hs
      cases hs
    · cases hy.symm.trans hz
      exact hw.conforms
    · rw [hy] at hz
      cases hz
    · rcases hrun with hrun | ⟨hv, -, hrun⟩
      · exact .inl hrun
      · refine .inr ⟨?_, hrun⟩
        have htree := hw.tree
        rw [hv] at htree
        exact (Value.tree_eq_null_iff w).mp htree
  | @stash f hf hh => exact hj.stashes hδ hf hh hsrc hmeta hcopy
  | @unstash h hf hh =>
    have hlone : δ.lone? = some h := by
      rcases δ.source?_or_dest? j.way with ⟨_, _, hs, -, -⟩ | ⟨_, hs, -, -⟩ | ⟨_, -, hs, hl⟩
      · rw [hf] at hs
        cases hs
      · rw [hf] at hs
        cases hs
      · cases hs.symm.trans hh
        exact hl
    exact hj.restores hδ hf hh (hown h hlone) hmeta hcopy (hnull h hh)

/-- What is found for one element of a list is found for no earlier one. -/
theorem filterMap_ne {α β : Type} {k : α → Option β} {pre rest : List α} {a a' : α} {b b' : β}
    (h : ((pre ++ a :: rest).filterMap k).Nodup) (ha : k a = some b) (ha' : a' ∈ pre)
    (hb' : k a' = some b') : b' ≠ b := by
  rw [List.filterMap_append, List.filterMap_cons_some ha, List.nodup_append] at h
  exact h.2.2 b' (List.mem_filterMap.mpr ⟨a', ha', hb'⟩) b (by simp)

theorem Job.Delivers.congr {values' : String → Value} (h : j.Delivers classes values δ)
    (hsame : ∀ g, δ.dest? j.way = some g → values' (fieldName g) = values (fieldName g)) :
    j.Delivers classes values' δ := by
  refine ⟨fun f g hf hg => ?_, fun g hf hg => ?_⟩
  · rw [hsame g hg]
    exact h.carried f g hf hg
  · rw [hsame g hg]
    exact h.restored g hf hg

/-- Behind the code of one more delta its field is delivered too. -/
theorem Job.Reached.next {values' : String → Value} {g' : Frame} {rest : List FieldDelta}
    (hj : j.Sound classes n (done ++ δ :: rest)) (hreach : j.Reached classes done values f g)
    (hsteps : j.Steps classes call δ (j.stashed done) values values' code g g') :
    j.Reached classes (done ++ [δ]) values' f g' where
  agree := hreach.agree.trans hsteps.agree
  annotations := by
    have hstash : j.stashed (done ++ [δ]) =
        stashStep j.way j.values (j.stashed done) (j.part, δ) := by
      simp [stashed, stashAfter]
    rw [hsteps.annotations, hstash]
  copy := hsteps.copy
  delivered := by
    intro δ' hδ'
    rcases List.mem_append.mp hδ' with hδ' | hδ'
    · refine (hreach.delivered δ' hδ').congr fun g hg => hsteps.other _ fun h hh => ?_
      exact (filterMap_ne hj.destOnce (by simp [hh]) hδ' (by simp [hg])).symm
    · obtain rfl := List.mem_singleton.mp hδ'
      exact hsteps.delivers
  rest := by
    intro name hname
    have hother := hsteps.other name fun h hh => hname δ (by simp) h hh
    rw [hother]
    exact hreach.rest name fun δ' hδ' => hname δ' (by simp [hδ'])

/-- The code for the deltas of a part delivers every field of the part. -/
theorem Direction.PartCode.reaches {deltas : List FieldDelta} {parts : List DeltaCode}
    (hcode : j.d.PartCode j.way j.part (j.d.owner j.part j.dest.names.camel) deltas parts)
    (hj : j.Sound classes n deltas)
    (hcalls : ∀ part ∈ parts, ∀ q ∈ part.requests, Serves call j.d n q)
    (hsrc : j.part.source.eval call f =
      some (j.d.srcSide.part j.source j.part j.cloudMeta (j.values j.part)))
    (hmeta : f metaVar = some (j.objectMeta.annotated j.stash))
    (hcopy : f j.part.copyVar = some (j.output fun _ => .null)) :
    ∃ values g, execAll classes call (parts.flatMap DeltaCode.code) f = some (.running g) ∧
      j.Reached classes deltas values f g := by
  have run : ∀ rest pre values g, parts = pre ++ rest →
      j.Reached classes (pre.map DeltaCode.delta) values f g → ∃ values' g',
        execAll classes call (rest.flatMap DeltaCode.code) g = some (.running g') ∧
          j.Reached classes deltas values' f g' := by
    intro rest
    induction rest with
    | nil =>
      intro pre values g hparts hreach
      rw [List.append_nil] at hparts
      rw [← hparts, hcode.deltas] at hreach
      exact ⟨values, g, rfl, hreach⟩
    | cons part rest ih =>
      intro pre values g hparts hreach
      have hdeltas : deltas = pre.map DeltaCode.delta ++ part.delta ::
          rest.map DeltaCode.delta := by
        rw [← hcode.deltas, hparts, List.map_append, List.map_cons]
      have hin : part ∈ parts := by simp [hparts]
      have hδ : part.delta ∈ deltas := by simp [hdeltas]
      have hj' := hj
      rw [hdeltas] at hj'
      have hown : ∀ h, part.delta.lone? = some h →
          (j.stashed (pre.map DeltaCode.delta)).get? (Stash.key (fieldId j.part h)) =
            j.stash.get? (Stash.key (fieldId j.part h)) := by
        intro h hh
        apply stashAfter_other
        intro hin
        obtain ⟨s, hs, hkey⟩ := List.mem_filterMap.mp hin
        have honce := hj'.keysOnce
        rw [List.map_append, List.map_cons] at honce
        refine filterMap_ne honce ?_ hs hkey rfl
        rw [stepKey, hh]
        rfl
      have hnull : ∀ h, part.delta.dest? j.way = some h → values (fieldName h) = .null := by
        intro h hh
        refine hreach.rest _ fun δ' hδ' g hg => ?_
        exact filterMap_ne hj'.destOnce (by simp [hh]) hδ' (by simp [hg])
      obtain ⟨values₁, g₁, hsteps⟩ := (hcode.each part hin).steps hj hδ (hcalls part hin)
        ((Expr.eval_congr (source_avoids j.part) hreach.agree).trans hsrc) hown
        hreach.annotations hreach.copy hnull
      obtain ⟨values₂, g₂, hrun, hreach₂⟩ := ih (pre ++ [part]) values₁ g₁ (by simp [hparts])
        (by simpa using hreach.next hj' hsteps)
      refine ⟨values₂, g₂, ?_, hreach₂⟩
      rw [List.flatMap_cons, execAll_append, hsteps.run]
      exact hrun
  exact run parts [] (fun _ => .null) f rfl ⟨.refl _ f, hmeta, hcopy, by simp, fun _ _ => rfl⟩

end Steps

end ResourceVersions.Conversion
