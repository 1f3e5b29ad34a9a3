import ResourceVersions.Proofs.HelperTable

/-! # The helpers that are built

A helper is generated once, under a name that depends on the source structure alone. In a run
without failures each helper is built for a pair of structures that it is called for, and so is
what it calls itself. Where no name stands for two pairs, it is right for every call. -/
namespace ResourceVersions.Conversion

open Code Direction

/-- A helper has the name and the body for a pair. -/
structure BuiltFor (d : Direction) (r : HelperRequest) (f : Func) : Prop where
  name : d.helperName? r.src = some f.name
  params : f.params = [("src", none)]
  body : (d.helperBody r).1 = .ok f.body

/-- The pairs that helpers are called for: in returned code, and in the helpers built for such
pairs. -/
inductive Emitted (c : Converter) (roots : List (Way × HelperRequest)) (built : Func → Prop) :
    Way → HelperRequest → Prop where
  | root {way r} : (way, r) ∈ roots → Emitted c roots built way r
  | nested {way r f q} : Emitted c roots built way r → built f →
      BuiltFor (c.direction way) r f → q ∈ ((c.direction way).helperBody r).2 →
      Emitted c roots built way q

/-- The helpers that are in the table or will be when tasks are done. -/
def Underway (tasks : List HelperTask) (h : Helpers) (f : Func) : Prop :=
  (∃ name, h.table.get? name = some f) ∨ .finish f ∈ tasks

/-- What is requested by tasks is called for, and so is what helpers are built for. -/
structure Traced (c : Converter) (roots : List (Way × HelperRequest)) (way : Way)
    (tasks : List HelperTask) (h : Helpers) : Prop where
  need : ∀ r, .need r ∈ tasks → Emitted c roots (Underway tasks h) way r
  built : ∀ f, Underway tasks h f → ∃ way' r, Emitted c roots (Underway tasks h) way' r ∧
    BuiltFor (c.direction way') r f

variable {c : Converter} {roots roots' : List (Way × HelperRequest)} {built built' : Func → Prop}
  {way way' : Way} {h h₀ h' : Helpers} {tasks rest : List HelperTask} {r q : HelperRequest}
  {wanted : List HelperRequest} {name : String} {f g : Func}

theorem Emitted.mono (he : Emitted c roots built way r) (hroots : roots ⊆ roots')
    (hbuilt : ∀ f, built f → built' f) : Emitted c roots' built' way r := by
  induction he with
  | root hr => exact .root (hroots hr)
  | nested _ hf hfor hq ih => exact .nested ih (hbuilt _ hf) hfor hq

theorem Emitted.requested (he : Emitted c roots built way r) : Requested c roots way r := by
  induction he with
  | root hr => exact .root hr
  | nested _ _ _ hq ih => exact .nested ih hq

/-- Tasks put only helpers into the table that copy one structure to another. -/
theorem builtFor_preserved (way : Way) : (c.direction way).Preserved fun tasks h =>
    ∀ f, Underway tasks h f → ∃ way r, BuiltFor (c.direction way) r f where
  finish := by
    rintro h f rest hfor g (⟨name, hget⟩ | hg)
    · rw [Table.get?_insert] at hget
      split at hget
      · cases hget
        exact hfor f (.inr (List.mem_cons_self ..))
      · exact hfor g (.inl ⟨name, hget⟩)
    · exact hfor g (.inr (List.mem_cons_of_mem _ hg))
  skip := by
    rintro h r rest hfor - g (hget | hg)
    · exact hfor g (.inl hget)
    · exact hfor g (.inr (List.mem_cons_of_mem _ hg))
  start := by
    rintro h r rest name hfor hname - g (hget | hg)
    · exact hfor g (.inl hget)
    · rcases List.mem_append.mp hg with hg | hg
      · obtain ⟨body, hbody, rfl⟩ := finish_mem_tasksOf.mp hg
        exact ⟨way, r, hname, rfl, hbody⟩
      · exact hfor g (.inr (List.mem_cons_of_mem _ hg))

/-- Helpers stay underway, so what is called for stays so. -/
theorem Traced.step {tasks' : List HelperTask} (htr : Traced c roots way tasks h)
    (hneed : ∀ r, .need r ∈ tasks' → .need r ∈ tasks)
    (hiff : ∀ f, Underway tasks h f ↔ Underway tasks' h' f) : Traced c roots way tasks' h' where
  need r hr := (htr.need r (hneed r hr)).mono (fun _ hp => hp) fun f => (hiff f).mp
  built f hf := by
    obtain ⟨way', r, he, hfor⟩ := htr.built f ((hiff f).mpr hf)
    exact ⟨way', r, he.mono (fun _ hp => hp) fun f => (hiff f).mp, hfor⟩

theorem Traced.finish_step (htr : Traced c roots way (.finish f :: rest) h)
    (hnew : f.name ∉ h.table.keys) :
    Traced c roots way rest { h with table := h.table.insert f.name f } := by
  apply htr.step (fun r hr => List.mem_cons_of_mem _ hr)
  intro g
  constructor
  · rintro (⟨name, hg⟩ | hg)
    · have hne : name ≠ f.name := by
        rintro rfl
        exact hnew (Table.mem_keys_of_get? hg)
      exact .inl ⟨name, by rw [Table.get?_insert, if_neg hne, hg]⟩
    · rcases List.mem_cons.mp hg with hhead | hrest
      · cases hhead
        exact .inl ⟨f.name, by rw [Table.get?_insert, if_pos rfl]⟩
      · exact .inr hrest
  · rintro (⟨name, hg⟩ | hg)
    · rw [Table.get?_insert] at hg
      split at hg
      · cases hg
        exact .inr (List.mem_cons_self ..)
      · exact .inl ⟨name, hg⟩
    · exact .inr (List.mem_cons_of_mem _ hg)

theorem Traced.skip_step (htr : Traced c roots way (.need r :: rest) h) :
    Traced c roots way rest h :=
  htr.step (fun _ hq => List.mem_cons_of_mem _ hq) fun f => by simp [Underway]

/-- A begun helper is built for the pair that it was requested for. -/
theorem Traced.begin_step {body : List Stmt} (htr : Traced c roots way (.need r :: rest) h)
    (hname : (c.direction way).helperName? r.src = some name)
    (hbody : ((c.direction way).helperBody r).1 = .ok body) :
    Traced c roots way (tasksOf name ((c.direction way).helperBody r) ++ rest)
      { h with begun := name :: h.begun } := by
  have hnew : Underway (tasksOf name ((c.direction way).helperBody r) ++ rest)
      { h with begun := name :: h.begun } { name, params := [("src", none)], body } :=
    .inr (List.mem_append_left _ (finish_mem_tasksOf.mpr ⟨body, hbody, rfl⟩))
  have hold : ∀ g, Underway (.need r :: rest) h g →
      Underway (tasksOf name ((c.direction way).helperBody r) ++ rest)
        { h with begun := name :: h.begun } g := by
    rintro g (hg | hg)
    · exact .inl hg
    · exact .inr (List.mem_append_right _ (by simpa using hg))
  have hroot := (htr.need r (List.mem_cons_self ..)).mono (fun _ hp => hp) hold
  constructor
  case need =>
    intro q hq
    rcases List.mem_append.mp hq with hq | hq
    · exact .nested hroot hnew ⟨hname, rfl, hbody⟩ (need_mem_tasksOf.mp hq)
    · exact (htr.need q (List.mem_cons_of_mem _ hq)).mono (fun _ hp => hp) hold
  case built =>
    have hprior : ∀ g, Underway (.need r :: rest) h g → ∃ way' q, Emitted c roots
        (Underway (tasksOf name ((c.direction way).helperBody r) ++ rest)
          { h with begun := name :: h.begun }) way' q ∧ BuiltFor (c.direction way') q g := by
      intro g hg
      obtain ⟨way', q, he, hfor⟩ := htr.built g hg
      exact ⟨way', q, he.mono (fun _ hp => hp) hold, hfor⟩
    rintro g (hg | hg)
    · exact hprior g (.inl hg)
    · rcases List.mem_append.mp hg with hg | hg
      · obtain ⟨body', hbody', rfl⟩ := finish_mem_tasksOf.mp hg
        exact ⟨way, r, hroot, hname, rfl, hbody'⟩
      · exact hprior g (.inr (List.mem_cons_of_mem _ hg))

/-- Unless a task is to fail, helpers are built only for pairs that they are called for. -/
theorem traced_preserved : (c.direction way).Preserved fun tasks h =>
    (∃ e, .fail e ∈ tasks) ∨
      Orderly (c.direction way) h₀ wanted tasks h ∧ Traced c roots way tasks h where
  finish := by
    rintro h f rest (⟨e, he⟩ | ⟨hord, htr⟩)
    · exact .inl ⟨e, by simpa using he⟩
    · have hnew := (hord.waiting f.name (List.mem_cons_self ..)).2.1
      exact .inr ⟨hord.finish_step, htr.finish_step hnew⟩
  skip := by
    rintro h r rest (⟨e, he⟩ | ⟨hord, htr⟩) hknown
    · exact .inl ⟨e, by simpa using he⟩
    · exact .inr ⟨hord.skip_step hknown, htr.skip_step⟩
  start := by
    rintro h r rest name (⟨e, he⟩ | ⟨hord, htr⟩) hname hnew
    · exact .inl ⟨e, List.mem_append_right _ (by simpa using he)⟩
    · cases hbody : ((c.direction way).helperBody r).1 with
      | error e => exact .inl ⟨e, List.mem_append_left _ (fail_mem_tasksOf.mpr hbody)⟩
      | ok body => exact .inr ⟨hord.begin_step hname hnew, htr.begin_step hname hbody⟩

theorem serve_traced (hserve : (c.direction way).serve h tasks = (.ok (), h'))
    (hord : Orderly (c.direction way) h₀ wanted tasks h) (htr : Traced c roots way tasks h) :
    Traced c roots way [] h' := by
  rcases traced_preserved.serve_ok hserve (.inr ⟨hord, htr⟩) with ⟨e, he⟩ | ⟨-, htr⟩
  · cases he
  · exact htr

/-- After a run without failures all that was begun is finished, and what is requested is there. -/
structure Complete (c : Converter) (roots : List (Way × HelperRequest)) (h : Helpers) : Prop where
  closed : h.Closed
  finished : h.begun ⊆ h.table.keys
  known : ∀ way r, (way, r) ∈ roots → Known (c.direction way) h r
  traced : ∀ f ∈ h.toList, ∃ way r, Emitted c roots (· ∈ h.toList) way r ∧
    BuiltFor (c.direction way) r f

theorem underway_nil : Underway [] h f ↔ f ∈ h.toList := by
  simp [Underway, Helpers.mem_toList]

theorem Complete.traced_needs (hdone : Complete c roots h) (way : Way)
    (requests : List HelperRequest) :
    Traced c (roots ++ requests.map (way, ·)) way (requests.map .need) h where
  need r hr := by
    obtain ⟨q, hq, he⟩ := List.mem_map.mp hr
    cases he
    exact .root (List.mem_append_right _ (List.mem_map_of_mem hq))
  built f hf := by
    have hf : f ∈ h.toList := by simpa [Underway, Helpers.mem_toList] using hf
    obtain ⟨way', r, he, hfor⟩ := hdone.traced f hf
    exact ⟨way', r, he.mono (List.subset_append_left ..) fun g hg => .inl (Helpers.mem_toList.mp hg),
      hfor⟩

theorem CleanRun.complete (hrun : CleanRun c roots h) : Complete c roots h := by
  induction hrun with
  | start =>
    refine ⟨Helpers.closed_start, by simp, by simp, fun f hf => ?_⟩
    obtain ⟨name, hf⟩ := Helpers.mem_toList.mp hf
    cases hf
  | @emit roots h work code h' way _ hemit ih =>
    obtain ⟨hknown, hdone⟩ := emit_complete ih.closed hemit
    obtain ⟨hclosed, hgrows⟩ := emit_grows (d := c.direction way) ih.closed work
    rw [hemit] at hclosed hgrows
    have htr := serve_traced (emit_ok hemit).2 (orderly_needs ih.closed work.run.2)
      (ih.traced_needs way work.run.2)
    constructor
    case closed => exact hclosed
    case finished =>
      intro name hn
      rcases hdone name hn with hold | hnew
      · exact hgrows.keys (ih.finished hold)
      · exact hnew
    case known =>
      intro way' r hr
      rcases List.mem_append.mp hr with hr | hr
      · exact (ih.known way' r hr).mono hgrows.begun
      · obtain ⟨q, hq, he⟩ := List.mem_map.mp hr
        cases he
        exact hknown r hq
    case traced =>
      intro f hf
      obtain ⟨way', r, he, hfor⟩ := htr.built f (underway_nil.mpr hf)
      exact ⟨way', r, he.mono (fun _ hp => hp) fun g => underway_nil.mp, hfor⟩

theorem BuiltFor.callsFor (hfor : BuiltFor (c.direction way) r f) :
    CallsFor (c.direction way) f.calls ((c.direction way).helperBody r).2 :=
  helperBody_callsFor hfor.body

/-- Where each name stands for one pair, the helper of a known request is the one that was built
for it, and what that calls is known. -/
theorem Complete.helper (hdone : Complete c roots h) (hone : OnePair c roots) {shape : Shape}
    (hr : Requested c roots way r) (hknown : Known (c.direction way) h r)
    (hname : (c.direction way).helperName? r.src = some name)
    (hs : (c.direction way).src.api.shape? r.src = some shape) :
    ∃ f, h.table.get? name = some f ∧ BuiltFor (c.direction way) r f ∧
      ∀ q ∈ ((c.direction way).helperBody r).2,
        Requested c roots way q ∧ Known (c.direction way) h q := by
  obtain ⟨f, hf⟩ := Table.mem_keys_iff.mp (hdone.finished (hknown name shape hname hs))
  obtain rfl := hdone.closed.named name f hf
  -- the helper of that name was built for a pair, and there is one pair of that name
  obtain ⟨way', r', he, hfor⟩ := hdone.traced f (Helpers.mem_toList.mpr ⟨_, hf⟩)
  obtain rfl := helperName_way hname hfor.name
  obtain rfl := hone way r r' f.name hr he.requested hname hfor.name
  refine ⟨f, hf, hfor, fun q hq => ⟨.nested hr hq, ?_⟩⟩
  intro name' shape' hname' hs'
  obtain ⟨called, hcalled, hcall⟩ := hfor.callsFor.call hq
  obtain rfl := Option.some.inj (hcall.name.symm.trans hname')
  exact hdone.closed.calls f.name f hf hcalled

end ResourceVersions.Conversion
