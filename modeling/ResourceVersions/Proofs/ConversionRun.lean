import ResourceVersions.Proofs.PartRun

/-! # Running a conversion function

A conversion function copies the metadata, converts the Spec and the Status and stores all three
in the destination. -/
namespace ResourceVersions.Conversion

open Code Direction ResourceDelta

namespace Part

/-- The deltas of a part. -/
def deltas (p : Part) (delta : ResourceDelta) : List FieldDelta :=
  match p with
  | .spec => delta.spec
  | .status => delta.status

end Part

section Run

variable {j : Job} {classes : Classes} {call : String → Value → Option Value} {n : Nat}
  {f g : Frame} {o m : Value} {className : String} {attrs : List (String × Value)}

theorem dst_not_working (p : Part) : ¬ Job.Working p "dst" := by
  have hmeta : "dst" ≠ metaVar := by decide
  have hcopy : "dst" ≠ p.copyVar := by cases p <;> decide
  have hscratch : ¬ Scratch 1 "dst" := not_scratch (by decide)
  rintro (h | h | h)
  · exact hmeta h
  · exact hcopy h
  · exact hscratch h

theorem src_not_working (p : Part) : ¬ Job.Working p "src" := source_avoids p

/-- An allocated part gets what the source has besides the fields. -/
theorem lead_runs (classes : Classes) (p : Part) {s t : Side} {r r' : Resource} {cloud : Value}
    {values values' : String → Value}
    (hsrc : p.source.eval call f = some (s.part r p cloud values))
    (hcopy : f p.copyVar = some (t.part r' p .null values')) :
    ∃ g, execAll classes call (leadCode p) f = some (.running g) ∧
      AgreeOff (Job.Working p) f g ∧ g metaVar = f metaVar ∧
      g p.copyVar = some (t.part r' p cloud values') := by
  cases p with
  | spec => exact ⟨f, rfl, .refl _ f, rfl, hcopy⟩
  | status =>
    have hread : (Expr.valueCopy (.attr Part.status.source "resourceMetadata")).eval call f =
        some cloud := by
      rw [Expr.eval, Expr.eval, hsrc]
      rfl
    refine ⟨_, ?_, (AgreeOff.refl _ f).set (.inr (.inl rfl)) _, ?_, Frame.set_self ..⟩
    · rw [leadCode, execAll_singleton]
      exact (Target.exec_store (.assign _) hread).trans (exec_setAttr hcopy)
    · exact Frame.set_ne _ (metaVar_ne_copyVar .status) _

/-- The state behind a part, or between the parts, of a conversion function. -/
structure Job.Between (j : Job) (o : Value) (t : Table String) (className : String)
    (attrs : List (String × Value)) (g : Frame) : Prop where
  src : g "src" = some o
  annotations : g metaVar = some (j.objectMeta.annotated t)
  dst : g "dst" = some (.object className attrs)

/-- The code of a part converts the part and stores it in the destination. -/
theorem part_runs {deltas : List FieldDelta} {parts : List DeltaCode}
    (hcode : j.d.PartCode j.way j.part (j.d.owner j.part j.dest.names.camel) deltas parts)
    (hj : j.Sound classes n deltas)
    (hcalls : ∀ part ∈ parts, ∀ q ∈ part.requests, Serves call j.d n q)
    (hcreate : create classes (.struct (j.d.owner j.part j.dest.names.camel)) =
      some (j.d.dstSide.part j.dest j.part .null fun _ => .null))
    (ho : o.attr? j.part.text =
      some (j.d.srcSide.part j.source j.part j.cloudMeta (j.values j.part)))
    (hf : j.Between o j.stash className attrs f) :
    ∃ values g, execAll classes call
        [.guard j.part.source (j.d.partBody j.part j.dest.names.camel parts) []] f =
          some (.running g) ∧
      j.Between o (j.stashed deltas) className
        (Table.putEntry j.part.text (j.output values) attrs) g ∧
      (∀ δ ∈ deltas, j.Delivers classes values δ) ∧
      ∀ name, (∀ δ ∈ deltas, ∀ g, δ.dest? j.way = some g → fieldName g ≠ name) →
        values name = .null := by
  have hsrc : ∀ {g}, AgreeOff (Job.Working j.part) f g → j.part.source.eval call g =
      some (j.d.srcSide.part j.source j.part j.cloudMeta (j.values j.part)) := by
    intro g hg
    rw [Expr.eval_congr (source_avoids j.part) hg, Part.source, Expr.eval, Expr.eval, hf.src]
    exact ho
  let f₁ := f.set j.part.copyVar (j.d.dstSide.part j.dest j.part .null fun _ => .null)
  have hf₁ : AgreeOff (Job.Working j.part) f f₁ := (AgreeOff.refl _ f).set (.inr (.inl rfl)) _
  have hallocate : (Stmt.allocate j.part.copyVar (.struct (j.d.owner j.part
      j.dest.names.camel))).exec classes call f = some (.running f₁) := exec_allocate hcreate
  obtain ⟨f₂, hlead, hf₂, hmeta, hcopy⟩ := lead_runs classes j.part (hsrc hf₁)
    (Frame.set_self f j.part.copyVar _)
  have hmeta₂ : f₂ metaVar = some (j.objectMeta.annotated j.stash) :=
    hmeta.trans ((Frame.set_ne f (metaVar_ne_copyVar j.part) _).trans hf.annotations)
  have hagree := hf₁.trans hf₂
  obtain ⟨values, g, hrun, hreach⟩ := hcode.reaches hj hcalls (hsrc hagree) hmeta₂ hcopy
  have hg := hagree.trans hreach.agree
  have hdst : g "dst" = some (.object className attrs) := by
    rw [hg _ (dst_not_working j.part), hf.dst]
  have hassign : (Stmt.assign (.attr (.name "dst") j.part.text)
      (.name j.part.copyVar)).exec classes call g = some (.running (g.set "dst"
        (.object className (Table.putEntry j.part.text (j.output values) attrs)))) :=
    (Target.exec_store (.assign _) (e := .name j.part.copyVar) hreach.copy).trans
      (exec_setAttr hdst)
  refine ⟨values, g.set "dst" (.object className (Table.putEntry j.part.text (j.output values)
    attrs)), ?_, ⟨?_, ?_, Frame.set_self ..⟩, hreach.delivered, hreach.rest⟩
  · have hset : (j.d.srcSide.part j.source j.part j.cloudMeta (j.values j.part)).isNull = false :=
      rfl
    rw [execAll_singleton, Stmt.exec, hsrc (.refl _ f)]
    dsimp only [Option.bind_eq_bind, Option.bind_some]
    rw [hset, partBody, List.cons_append, List.cons_append, execAll_running hallocate,
      List.append_assoc, execAll_append, hlead]
    dsimp only [Option.bind_some, Outcome.andThen]
    rw [execAll_append, hrun]
    exact (execAll_singleton _ _).trans hassign
  · rw [Frame.set_ne _ (by decide), hg _ (src_not_working j.part), hf.src]
  · rw [Frame.set_ne _ (by decide), hreach.annotations]

end Run

namespace Job

variable (j : Job) (delta : ResourceDelta)

/-- The annotations before a part. -/
def stashBefore : Part → Table String
  | .spec => j.stash
  | .status => stashAfter j.way j.values (delta.spec.map (Prod.mk .spec)) j.stash

/-- The work on one part of an object. -/
def on (p : Part) : Job := { j with part := p, stash := j.stashBefore delta p }

/-- The annotations when both parts are done. -/
def stashEnd : Table String := stashAfter j.way j.values (steps delta) j.stash

theorem stashed_status : (j.on delta .status).stashed delta.status = j.stashEnd delta := by
  simp [stashed, on, stashBefore, stashEnd, steps, stashAfter, List.foldl_append]

/-- The converted object: a given one with another Spec, another Status and other metadata. -/
def result (values : Part → String → Value) (className : String)
    (attrs : List (String × Value)) : Value :=
  let part := fun p => j.d.dstSide.part j.dest p j.cloudMeta (values p)
  .object className (Table.putEntry "metadata" (j.objectMeta.annotated (j.stashEnd delta))
    (Table.putEntry "status" (part .status) (Table.putEntry "spec" (part .spec) attrs)))

variable {j delta} {values : Part → String → Value} {className : String}
  {attrs : List (String × Value)}

theorem result_metadata : (j.result delta values className attrs).attr? "metadata" =
    some (j.objectMeta.annotated (j.stashEnd delta)) := by
  rw [result, Value.attr?, Table.lookup_putEntry, if_pos rfl]

theorem result_part (p : Part) : (j.result delta values className attrs).attr? p.text =
    some (j.d.dstSide.part j.dest p j.cloudMeta (values p)) := by
  cases p <;> simp [result, Value.attr?, Table.lookup_putEntry, Part.text]

end Job

section Function

variable {j : Job} {delta : ResourceDelta} {classes : Classes}
  {call : String → Value → Option Value} {n : Nat} {o : Value} {spec status : List DeltaCode}

/-- A conversion function converts both parts and carries the metadata over. -/
theorem body_runs (className : String) (attrs : List (String × Value))
    (hspec : j.d.PartCode j.way .spec (j.d.owner .spec j.dest.names.camel) delta.spec spec)
    (hstatus : j.d.PartCode j.way .status (j.d.owner .status j.dest.names.camel) delta.status
      status)
    (hj : ∀ p, (j.on delta p).Sound classes n (p.deltas delta))
    (hcalls : ∀ q ∈ (spec ++ status).flatMap DeltaCode.requests, Serves call j.d n q)
    (hcreate : ∀ p, create classes (.struct (j.d.owner p j.dest.names.camel)) =
      some (j.d.dstSide.part j.dest p .null fun _ => .null))
    (hparts : ∀ p, o.attr? p.text = some (j.d.srcSide.part j.source p j.cloudMeta (j.values p)))
    (hmeta : o.attr? "metadata" = some j.objectMeta)
    (hstash : j.objectMeta.attr? "annotations" = some (.ofStore (some j.stash))) :
    ∃ values g, execAll classes call
        (.assign (.name metaVar) (.valueCopy (.attr (.name "src") "metadata")) ::
          [.guard Part.spec.source (j.d.partBody .spec j.dest.names.camel spec) []] ++
          [.guard Part.status.source (j.d.partBody .status j.dest.names.camel status) []] ++
          [.assign (.attr (.name "dst") "metadata") (.name metaVar)])
        (Frame.ofArgs ["src", "dst"] [o, .object className attrs]) = some (.running g) ∧
      g "dst" = some (j.result delta values className attrs) ∧
      ∀ p, (∀ δ ∈ p.deltas delta, (j.on delta p).Delivers classes (values p) δ) ∧
        ∀ name, (∀ δ ∈ p.deltas delta, ∀ g, δ.dest? j.way = some g → fieldName g ≠ name) →
          values p name = .null := by
  let f := Frame.ofArgs ["src", "dst"] [o, .object className attrs]
  let f₁ := f.set metaVar j.objectMeta
  have hcopy : (Stmt.assign (.name metaVar) (.valueCopy (.attr (.name "src")
      "metadata"))).exec classes call f = some (.running f₁) := by
    have hread : (Expr.valueCopy (.attr (.name "src") "metadata")).eval call f =
        some j.objectMeta := hmeta
    rw [Stmt.exec, hread]
    rfl
  have hf₁ : (j.on delta .spec).Between o j.stash className attrs f₁ :=
    ⟨rfl, (Frame.set_self ..).trans (congrArg some (Value.annotated_same hstash).symm), rfl⟩
  obtain ⟨values, f₂, hrun, hf₂, hdelivers, hrest⟩ := part_runs hspec (hj .spec)
    (fun part hin q hq => hcalls q (List.mem_flatMap.mpr ⟨part, by simp [hin], hq⟩))
    (hcreate .spec) (hparts .spec) hf₁
  obtain ⟨values', f₃, hrun', hf₃, hdelivers', hrest'⟩ := part_runs hstatus (hj .status)
    (fun part hin q hq => hcalls q (List.mem_flatMap.mpr ⟨part, by simp [hin], hq⟩))
    (hcreate .status) (hparts .status) (f := f₂) ⟨hf₂.src, hf₂.annotations, hf₂.dst⟩
  have hassign : (Stmt.assign (.attr (.name "dst") "metadata") (.name metaVar)).exec classes call
      f₃ = _ := (Target.exec_store (.assign _) (e := .name metaVar)
        (j.stashed_status delta ▸ hf₃.annotations)).trans (exec_setAttr hf₃.dst)
  let parts : Part → String → Value := fun p =>
    match p with
    | .spec => values
    | .status => values'
  refine ⟨parts, f₃.set "dst" (j.result delta parts className attrs), ?_, Frame.set_self ..,
    fun p => ?_⟩
  · have hbehind : ∀ {a b : List Stmt} {f g : Frame}, execAll classes call a f =
        some (.running g) → execAll classes call (a ++ b) f = execAll classes call b g := by
      intro a b f g ha
      rw [execAll_append, ha]
      rfl
    rw [List.append_assoc, List.cons_append, execAll_running hcopy]
    refine (hbehind hrun).trans ((hbehind hrun').trans ?_)
    exact (execAll_singleton _ _).trans hassign
  · cases p with
    | spec => exact ⟨hdelivers, hrest⟩
    | status => exact ⟨hdelivers', hrest'⟩

end Function

end ResourceVersions.Conversion
