import ResourceVersions.Proofs.IgnoreRules

/-! # Traces of dropped shapes

A member, an input or an output that refers to a dropped shape goes, and a list of it or a map to it
goes too. A map stays whose key alone has been dropped: it is the only kind of trace, and the only
way in which ignoring shapes leaves a reference without its shape. -/
namespace ResourceVersions.Api

variable {api base : Api} {names paths : List String} {site : Site} {ref : ShapeRef} {doc : Json}
  {records : List Record}

section Traces

/-- A shape of the description that is not in the API any more. -/
def Dropped (base api : Api) (x : String) : Prop := x ∈ base.shapes.keys ∧ x ∉ api.shapes.keys

/-- A map that is left although its key has been dropped. -/
def KeyTrace (base api : Api) (x : String) (k : ShapeRef) : Prop :=
  x ∈ api.shapes.keys ∧ base.ref? (.part x .key) = some k ∧ Dropped base api k.target

/-- Every reference leads to a shape. -/
def Resolved (api : Api) : Prop := ∀ site ref, api.ref? site = some ref → api.isDefined ref = true

theorem Remains.trace_iff (h : Remains base names paths api) :
    api.ref? site = some ref ∧ Dropped base api ref.target ↔
      ∃ x, site = .part x .key ∧ KeyTrace base api x ref := by
  constructor
  · rintro ⟨href, hdropped⟩
    obtain ⟨hbase, hstays⟩ := (h.refs site ref).mp href
    have hignored : base.Ignored names ref.target := by
      by_contra hnot
      exact hdropped.2 ((h.shapes _).mpr ⟨hdropped.1, hnot⟩)
    cases site with
    | input name => exact absurd (.input hignored) hstays
    | output name => exact absurd (.output hignored) hstays
    | part x slot =>
      cases slot with
      | member m => exact absurd (.member hignored) hstays
      | element => exact absurd (.shape (.list hbase hignored)) hstays
      | value => exact absurd (.shape (.map hbase hignored)) hstays
      | key =>
        obtain ⟨s, hs, -⟩ := Option.bind_eq_some_iff.mp href
        exact ⟨x, rfl, Table.mem_keys_of_get? hs, hbase, hdropped⟩
  · rintro ⟨x, rfl, hx, hbase, hdropped⟩
    refine ⟨(h.refs _ _).mpr ⟨hbase, ?_⟩, hdropped⟩
    rintro ⟨hignored⟩
    exact ((h.shapes x).mp hx).2 hignored

theorem isDefined_iff : api.isDefined ref = true ↔ ref.target ∈ api.shapes.keys :=
  Table.contains_iff_mem_keys

theorem Remains.resolved_iff (h : Remains base names paths api) (hbase : base.Resolved) :
    api.Resolved ↔ ∀ x k, ¬KeyTrace base api x k := by
  constructor
  · intro hapi x k htrace
    obtain ⟨href, hdropped⟩ := h.trace_iff.mpr ⟨x, rfl, htrace⟩
    exact hdropped.2 (isDefined_iff.mp (hapi _ _ href))
  · intro hnone site ref href
    rw [isDefined_iff]
    by_contra hnot
    have hdefined := isDefined_iff.mp (hbase _ _ ((h.refs site ref).mp href).1)
    obtain ⟨x, -, htrace⟩ := h.trace_iff.mp ⟨href, hdefined, hnot⟩
    exact hnone x ref htrace

theorem resolved_of_entries
    (hshapes : ∀ e ∈ api.shapes.entries, ∀ r ∈ e.2.form.refs, api.isDefined r.2 = true)
    (hoperations : ∀ e ∈ api.operations.entries,
      ∀ ref ∈ e.2.input?.toList ++ e.2.output?.toList, api.isDefined ref = true) :
    api.Resolved := by
  intro site ref href
  cases site with
  | part x slot =>
    obtain ⟨s, hs, hform⟩ := Option.bind_eq_some_iff.mp href
    obtain ⟨label, hin⟩ := mem_refs_of_ref? hform
    exact hshapes _ (Table.get?_eq_some_iff.mp hs) _ hin
  | input name =>
    obtain ⟨op, hop, hin⟩ := Option.bind_eq_some_iff.mp href
    exact hoperations _ (Table.get?_eq_some_iff.mp hop) ref (by simp [hin])
  | output name =>
    obtain ⟨op, hop, hout⟩ := Option.bind_eq_some_iff.mp href
    exact hoperations _ (Table.get?_eq_some_iff.mp hop) ref (by simp [hout])

/-- Dropped shapes leave traces in the keys of maps and nowhere else. So a description without
unresolved references gives an API without them unless a map is left that has a dropped key. -/
theorem traces_are_keys (h : (ofDocument doc names paths).run = (.ok api, records)) :
    ∃ base, read doc = .ok base ∧
      (∀ site ref, api.ref? site = some ref ∧ Dropped base api ref.target ↔
        ∃ x, site = .part x .key ∧ KeyTrace base api x ref) ∧
      (base.Resolved → (api.Resolved ↔ ∀ x k, ¬KeyTrace base api x k)) := by
  obtain ⟨base, hbase, hremains⟩ := ofDocument_remains h
  exact ⟨base, hbase, fun site ref => hremains.trace_iff, hremains.resolved_iff⟩

end Traces

namespace Sample

/-- The lid is the key of a map. -/
def tagged : Json :=
  boxed [("Tags", mapOf "Lid" "Text"), ("Box", structOf [("Tags", "Tags")]), ("Lid", textOf),
    ("Text", textOf)]

def taggedApi : Api :=
  boxApi [("Tags", plain (.map (bare "Lid") (bare "Text"))),
    ("Box", plain (.struct (.ofList [("Tags", bare "Tags")]))), ("Lid", plain (.scalar .string)),
    ("Text", plain (.scalar .string))]

theorem tagged_read : read tagged = .ok taggedApi := by rfl

theorem tagged_resolved : taggedApi.Resolved :=
  resolved_of_entries (by decide +kernel) (by decide +kernel)

theorem tagged_runs : ∃ api records, (ofDocument tagged ["Lid"] []).run = (.ok api, records) ∧
    KeyTrace taggedApi api "Tags" (bare "Lid") := by
  have hkeys : ((ofDocument tagged ["Lid"] []).run.1.toOption.any fun api =>
      api.shapes.keys.contains "Tags" && !api.shapes.keys.contains "Lid") = true := by
    decide +kernel
  cases hrun : (ofDocument tagged ["Lid"] []).run with
  | mk result records =>
    rw [hrun] at hkeys
    cases result with
    | error e => cases hkeys
    | ok api =>
      simp only [Except.toOption, Option.any_some, Bool.and_eq_true, Bool.not_eq_true',
        List.contains_eq_mem, decide_eq_false_iff_not] at hkeys
      have hlid : "Lid" ∈ taggedApi.shapes.keys := by decide
      exact ⟨api, records, rfl, by simpa using hkeys.1, rfl, hlid, hkeys.2⟩

end Sample

open Sample in
/-- The key of the map is the trace of the lid. -/
theorem traces_are_keys_tags : ∃ api records,
    (ofDocument tagged ["Lid"] []).run = (.ok api, records) ∧
      KeyTrace taggedApi api "Tags" (bare "Lid") ∧
      api.ref? (.part "Tags" .key) = some (bare "Lid") := by
  obtain ⟨api, records, hrun, htrace⟩ := tagged_runs
  obtain ⟨base, hbase, htraces, -⟩ := traces_are_keys hrun
  cases tagged_read.symm.trans hbase
  exact ⟨api, records, hrun, htrace, ((htraces _ _).mpr ⟨"Tags", rfl, htrace⟩).1⟩

open Sample in
/-- Every reference has led to a shape before the lid was ignored, and afterwards one does not. -/
theorem dropped_key_unresolved : read tagged = .ok taggedApi ∧ taggedApi.Resolved ∧
    ∃ api records, (ofDocument tagged ["Lid"] []).run = (.ok api, records) ∧
      api.ref? (.part "Tags" .key) = some (bare "Lid") ∧ Dropped taggedApi api "Lid" ∧
      ¬api.Resolved := by
  obtain ⟨api, records, hrun, htrace⟩ := tagged_runs
  obtain ⟨base, hbase, hremains⟩ := ofDocument_remains hrun
  cases tagged_read.symm.trans hbase
  obtain ⟨href, hdropped⟩ := hremains.trace_iff.mpr ⟨"Tags", rfl, htrace⟩
  refine ⟨tagged_read, tagged_resolved, api, records, hrun, href, hdropped, fun hresolved => ?_⟩
  exact (hremains.resolved_iff tagged_resolved).mp hresolved _ _ htrace

end ResourceVersions.Api
