import ResourceVersions.Proofs.ConversionRun
import ResourceVersions.Proofs.HelperRun

/-! # Calls of a converter

A converter is called with pairs of resources and their deltas. What it returned for a pair stays
what the deltas ask for, whatever it is called with afterwards. -/
namespace ResourceVersions.Conversion

open Code Direction ResourceDelta

/-- The end of a way that it starts from. -/
def Way.pick {α : Type} (way : Way) (spoke hub : α) : α :=
  match way with
  | .toHub => spoke
  | .fromHub => hub

/-- The deltas of two resources, seen along a way. -/
structure Along (way : Way) (source dest : Resource) (delta : ResourceDelta) : Prop where
  ofSource : ∀ p : Part, Covers (FieldDelta.source? way) (FieldDelta.dest? way) (p.fields source)
    (p.fields dest) (p.deltas delta)
  ofDest : ∀ p : Part, Covers (FieldDelta.dest? way) (FieldDelta.source? way) (p.fields dest)
    (p.fields source) (p.deltas delta)

variable {c : Converter} {way : Way} {spoke hub : Resource} {delta : ResourceDelta}
  {h h' : Helpers}

/-- What is computed for two resources covers them along both ways. -/
theorem compute_along {s t : ResourceSide} (hs : ∀ p : Part, Resource.Keyed (p.fields s.resource))
    (ht : ∀ p : Part, Resource.Keyed (p.fields t.resource))
    (hd : (compute s t).run.1 = .ok delta) (way : Way) :
    Along way (way.pick s.resource t.resource) (way.back.pick s.resource t.resource) delta := by
  obtain ⟨hspec, hstatus⟩ := compute_sections ⟨hs .spec, hs .status⟩ ⟨ht .spec, ht .status⟩ hd
  have hsections : ∀ p : Part,
      Sections (p.fields s.resource) (p.fields t.resource) (p.deltas delta) := by
    intro p
    cases p with
    | spec => exact hspec
    | status => exact hstatus
  cases way with
  | toHub => exact ⟨fun p => (hsections p).ofSpoke, fun p => (hsections p).ofHub⟩
  | fromHub => exact ⟨fun p => (hsections p).ofHub, fun p => (hsections p).ofSpoke⟩

theorem function_eq (c : Converter) (h : Helpers) (way : Way) (spoke hub : Resource)
    (delta : ResourceDelta) : c.function h way spoke hub delta =
      let d := c.direction way
      let (body, h) := d.emit h (d.functionBody way (way.back.pick spoke hub).names.camel delta)
      (body.map fun body =>
        { name := functionName spoke way, body
          params := [("src", some ⟨(way.pick spoke hub).names.camel, d.srcAlias?⟩),
            ("dst", some ⟨(way.back.pick spoke hub).names.camel, d.dstAlias?⟩)]
          docstring? := some (c.functionDoc spoke.names.camel way) }, h) := by
  cases way <;> rfl

theorem function_ok {f : Func} (hf : c.function h way spoke hub delta = (.ok f, h')) :
    ∃ body, (c.direction way).emit h ((c.direction way).functionBody way
        (way.back.pick spoke hub).names.camel delta) = (.ok body, h') ∧
      f.name = functionName spoke way ∧ f.params.map Prod.fst = ["src", "dst"] ∧
      f.body = body := by
  rw [function_eq] at hf
  dsimp only at hf
  cases hemit : (c.direction way).emit h ((c.direction way).functionBody way
      (way.back.pick spoke hub).names.camel delta) with
  | mk result h₁ =>
    rw [hemit] at hf
    cases result with
    | error e => cases hf
    | ok body =>
      cases hf
      exact ⟨body, rfl, rfl, rfl, rfl⟩

theorem function_name {f : Func} (hf : c.function h way spoke hub delta = (.ok f, h')) :
    f.name = functionName spoke way := by
  obtain ⟨body, -, hname, -⟩ := function_ok hf
  exact hname

/-- A call is refused, or fails in the first function, or goes on to the second one. -/
theorem functions_cases (c : Converter) (h : Helpers) (spoke hub : Resource)
    (delta : ResourceDelta) :
    (delta.unsupported ≠ [] ∧ ∃ change,
      c.functions h spoke hub delta = (.error (.change change), h)) ∨
    (delta.unsupported = [] ∧ ∃ e h₁, c.function h .toHub spoke hub delta = (.error e, h₁) ∧
      c.functions h spoke hub delta = (.error e, h₁)) ∨
    (delta.unsupported = [] ∧ ∃ toHub h₁ last h₂,
      c.function h .toHub spoke hub delta = (.ok toHub, h₁) ∧
      c.function h₁ .fromHub spoke hub delta = (last, h₂) ∧
      c.functions h spoke hub delta = (last.map ([toHub, ·]), h₂)) := by
  unfold Converter.functions
  by_cases hnone : delta.unsupported = []
  · right
    rw [if_neg (by simp [hnone])]
    generalize c.function h .toHub spoke hub delta = first
    obtain ⟨e | toHub, h₁⟩ := first
    · exact .inl ⟨hnone, e, h₁, rfl, rfl⟩
    · refine .inr ⟨hnone, toHub, h₁, (c.function h₁ .fromHub spoke hub delta).1,
        (c.function h₁ .fromHub spoke hub delta).2, rfl, rfl, ?_⟩
      dsimp only
      generalize c.function h₁ .fromHub spoke hub delta = second
      obtain ⟨e | fromHub, h₂⟩ := second <;> rfl
  · rw [if_pos (by simpa using hnone)]
    exact .inl ⟨hnone, _, rfl⟩

theorem functions_of_function {toHub fromHub : Func} {h₁ : Helpers}
    (hδ : delta.unsupported = []) (hto : c.function h .toHub spoke hub delta = (.ok toHub, h₁))
    (hfrom : c.function h₁ .fromHub spoke hub delta = (.ok fromHub, h')) :
    c.functions h spoke hub delta = (.ok [toHub, fromHub], h') := by
  unfold Converter.functions
  rw [if_neg (by simp [hδ]), hto]
  dsimp only
  rw [hfrom]

/-- A call that returns is for supported changes, and returns what its two functions give. -/
theorem functions_ok {fs : List Func} (hf : c.functions h spoke hub delta = (.ok fs, h')) :
    (∀ δ ∈ delta.all, δ.isSupported = true) ∧ ∃ toHub fromHub h₁, fs = [toHub, fromHub] ∧
      c.function h .toHub spoke hub delta = (.ok toHub, h₁) ∧
      c.function h₁ .fromHub spoke hub delta = (.ok fromHub, h') := by
  obtain ⟨-, change, heq⟩ | ⟨-, e, h₁, -, heq⟩ | ⟨hnone, toHub, h₁, last, h₂, hto, hfrom, heq⟩ :=
    functions_cases c h spoke hub delta
  · cases heq.symm.trans hf
  · cases heq.symm.trans hf
  · cases last with
    | error e => cases heq.symm.trans hf
    | ok fromHub =>
      cases heq.symm.trans hf
      refine ⟨?_, toHub, fromHub, h₁, rfl, hto, hfrom⟩
      intro δ hδ
      by_contra hnot
      have hin : δ ∈ delta.unsupported := List.mem_filter.mpr ⟨hδ, by simp [hnot]⟩
      rw [hnone] at hin
      cases hin

/-- A call with two resources and their deltas, and the functions that were returned. -/
structure Call where
  spoke : Resource
  hub : Resource
  delta : ResourceDelta
  toHub : Func
  fromHub : Func

namespace Call

variable (q : Call)

def func : Way → Func
  | .toHub => q.toHub
  | .fromHub => q.fromHub

def source (way : Way) : Resource := way.pick q.spoke q.hub

def dest (way : Way) : Resource := way.back.pick q.spoke q.hub

/-- The helpers that a function of the call requests. -/
def requests (c : Converter) (way : Way) : List HelperRequest :=
  ((c.direction way).functionBody way (q.dest way).names.camel q.delta).run.2

/-- All requests of the call. -/
def roots (c : Converter) : List (Way × HelperRequest) :=
  (q.requests c .toHub).map (Way.toHub, ·) ++ (q.requests c .fromHub).map (Way.fromHub, ·)

/-- The functions have the bodies that the deltas ask for. -/
structure Faithful (c : Converter) : Prop where
  supported : ∀ δ ∈ q.delta.all, δ.isSupported = true
  params : ∀ way, (q.func way).params.map Prod.fst = ["src", "dst"]
  body : ∀ way, ((c.direction way).functionBody way (q.dest way).names.camel q.delta).run =
    (.ok (q.func way).body, q.requests c way)

end Call

/-- Runs of a converter in which no call failed. -/
inductive CleanCalls (c : Converter) : List Call → Helpers → Prop where
  | start : CleanCalls c [] {}
  | call {calls h q h'} : CleanCalls c calls h →
      c.functions h q.spoke q.hub q.delta = (.ok [q.toHub, q.fromHub], h') →
      CleanCalls c (calls ++ [q]) h'

variable {calls : List Call} {q : Call}

theorem call_faithful
    (hf : c.functions h q.spoke q.hub q.delta = (.ok [q.toHub, q.fromHub], h')) :
    q.Faithful c := by
  obtain ⟨hsupported, _, _, h₁, ⟨⟩, hto, hfrom⟩ := functions_ok hf
  obtain ⟨body, hemit, -, hparams, rfl⟩ := function_ok hto
  obtain ⟨body', hemit', -, hparams', rfl⟩ := function_ok hfrom
  refine ⟨hsupported, fun way => ?_, fun way => ?_⟩
  · cases way with
    | toHub => exact hparams
    | fromHub => exact hparams'
  · cases way with
    | toHub => exact Prod.ext (emit_ok hemit).1 rfl
    | fromHub => exact Prod.ext (emit_ok hemit').1 rfl

theorem CleanCalls.faithful (hrun : CleanCalls c calls h) (hq : q ∈ calls) : q.Faithful c := by
  induction hrun with
  | start => cases hq
  | call _ hf ih =>
    rcases List.mem_append.mp hq with hq | hq
    · exact ih hq
    · obtain rfl := List.mem_singleton.mp hq
      exact call_faithful hf

/-- Whole calls are calls for the code of each way. -/
theorem CleanCalls.cleanRun (hrun : CleanCalls c calls h) :
    CleanRun c (calls.flatMap fun q => q.roots c) h := by
  induction hrun with
  | start => exact .start
  | @call calls h q h' _ hf ih =>
    obtain ⟨-, _, _, h₁, ⟨⟩, hto, hfrom⟩ := functions_ok hf
    obtain ⟨body, hemit, -⟩ := function_ok hto
    obtain ⟨body', hemit', -⟩ := function_ok hfrom
    have hboth := (ih.emit .toHub hemit).emit .fromHub hemit'
    rw [List.append_assoc] at hboth
    rw [List.flatMap_append, List.flatMap_singleton]
    exact hboth

end ResourceVersions.Conversion
