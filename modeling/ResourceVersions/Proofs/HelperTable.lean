import ResourceVersions.Proofs.ConversionCalls
import ResourceVersions.Proofs.HelperCalls

/-! # The table of helpers

What requests do to the helpers of a converter, failures included. No name is begun twice, a helper
that stands in the table stays there, and it calls only helpers that have been begun. Whatever was
begun without a failure has been finished. -/
namespace ResourceVersions.Conversion

open Code

namespace Helpers

/-- The helpers stand under their names, and what they call has been begun like them. -/
structure Closed (h : Helpers) : Prop where
  named : ∀ name f, h.table.get? name = some f → f.name = name
  begun : h.table.keys ⊆ h.begun
  calls : ∀ name f, h.table.get? name = some f → f.calls ⊆ h.begun

/-- Helpers are kept, and none is added under a name that had been begun before. -/
structure Grows (h h' : Helpers) : Prop where
  begun : h.begun ⊆ h'.begun
  kept : ∀ name f, h.table.get? name = some f → h'.table.get? name = some f
  fresh : ∀ name ∈ h'.table.keys, name ∈ h.table.keys ∨ name ∉ h.begun

variable {h h' h'' : Helpers} {f : Func}

theorem Grows.refl (h : Helpers) : h.Grows h := ⟨fun _ hn => hn, fun _ _ hf => hf, fun _ => .inl⟩

theorem Grows.trans (hg : h.Grows h') (hg' : h'.Grows h'') : h.Grows h'' where
  begun _ hn := hg'.begun (hg.begun hn)
  kept name f hf := hg'.kept name f (hg.kept name f hf)
  fresh name hn := by
    rcases hg'.fresh name hn with hn | hn
    · exact hg.fresh name hn
    · exact .inr fun hold => hn (hg.begun hold)

theorem Grows.keys (hg : h.Grows h') : h.table.keys ⊆ h'.table.keys := by
  intro name hn
  obtain ⟨f, hf⟩ := Table.mem_keys_iff.mp hn
  exact Table.mem_keys_of_get? (hg.kept name f hf)

/-- A helper is put into the table after it and what it calls have been begun. -/
theorem Closed.insert (hc : h.Closed) (hbegun : f.name ∈ h.begun) (hcalls : f.calls ⊆ h.begun) :
    Closed { h with table := h.table.insert f.name f } := by
  have hget : ∀ {name g}, (h.table.insert f.name f).get? name = some g →
      (name = f.name ∧ g = f) ∨ h.table.get? name = some g := by
    intro name g hg
    rw [Table.get?_insert] at hg
    split at hg
    · exact .inl ⟨‹_›, (Option.some.inj hg).symm⟩
    · exact .inr hg
  constructor
  · intro name g hg
    rcases hget hg with ⟨rfl, rfl⟩ | hg
    · rfl
    · exact hc.named name g hg
  · intro name hn
    rcases Table.mem_keys_insert.mp hn with rfl | hn
    · exact hbegun
    · exact hc.begun hn
  · intro name g hg
    rcases hget hg with ⟨rfl, rfl⟩ | hg
    · exact hcalls
    · exact hc.calls name g hg

theorem Closed.start (hc : h.Closed) (name : String) :
    Closed { h with begun := name :: h.begun } where
  named := hc.named
  begun _ hn := List.mem_cons_of_mem _ (hc.begun hn)
  calls n g hg _ hm := List.mem_cons_of_mem _ (hc.calls n g hg hm)

/-- A helper under a name that is new takes the place of none. -/
theorem Grows.insert (hg : h.Grows h') (hnew : f.name ∉ h'.table.keys) (hlate : f.name ∉ h.begun) :
    h.Grows { h' with table := h'.table.insert f.name f } where
  begun := hg.begun
  kept name g hget := by
    have hold := hg.kept name g hget
    have hne : name ≠ f.name := by
      rintro rfl
      exact hnew (Table.mem_keys_of_get? hold)
    rw [Table.get?_insert, if_neg hne]
    exact hold
  fresh name hn := by
    rcases Table.mem_keys_insert.mp hn with rfl | hn
    · exact .inr hlate
    · exact hg.fresh name hn

theorem Grows.start (hg : h.Grows h') (name : String) :
    h.Grows { h' with begun := name :: h'.begun } where
  begun _ hn := List.mem_cons_of_mem _ (hg.begun hn)
  kept := hg.kept
  fresh := hg.fresh

theorem closed_start : Closed {} := ⟨nofun, nofun, nofun⟩

theorem mem_toList : f ∈ h.toList ↔ ∃ name, h.table.get? name = some f := by
  unfold toList
  constructor
  · intro hf
    obtain ⟨⟨name, f'⟩, he, rfl⟩ := List.mem_map.mp hf
    exact ⟨name, Table.mem_sorted_iff.mp he⟩
  · rintro ⟨name, hf⟩
    exact List.mem_map_of_mem (Table.mem_sorted_iff.mpr hf)

theorem Closed.exists_named (hc : h.Closed) {name : String} :
    (∃ f ∈ h.toList, f.name = name) ↔ name ∈ h.table.keys := by
  rw [Table.mem_keys_iff]
  constructor
  · rintro ⟨f, hf, rfl⟩
    obtain ⟨name, hf⟩ := mem_toList.mp hf
    exact ⟨f, hc.named name f hf ▸ hf⟩
  · rintro ⟨f, hf⟩
    exact ⟨f, mem_toList.mpr ⟨name, hf⟩, hc.named name f hf⟩

theorem Closed.unique {g : Func} (hc : h.Closed) (hf : f ∈ h.toList) (hg : g ∈ h.toList)
    (hname : f.name = g.name) : f = g := by
  obtain ⟨n, hf⟩ := mem_toList.mp hf
  obtain ⟨m, hg⟩ := mem_toList.mp hg
  obtain rfl : n = m := by
    rw [← hc.named n f hf, ← hc.named m g hg, hname]
  exact Option.some.inj (hf.symm.trans hg)

end Helpers

namespace Direction

/-- The helper that a task finishes. -/
def HelperTask.finishes? : HelperTask → Option String
  | .finish f => some f.name
  | .need _ | .fail _ => none

/-- The helpers that tasks finish. -/
def unfinished (tasks : List HelperTask) : List String := tasks.filterMap HelperTask.finishes?

/-- Helpers are finished after what they call has been begun, and the helpers of wanted requests
have been begun when all is done. -/
def Ordered (d : Direction) (wanted : List HelperRequest) (known : String → Prop) :
    List HelperTask → Prop
  | [] => ∀ r ∈ wanted, ∀ name, CallFor d name r → known name
  | .need r :: rest => Ordered d wanted (fun name => known name ∨ CallFor d name r) rest
  | .finish f :: rest => (∀ name ∈ f.calls, known name) ∧ Ordered d wanted known rest
  | .fail _ :: _ => True

/-- What holds while tasks are done that were set when the helpers were those of `h₀`. -/
structure Orderly (d : Direction) (h₀ : Helpers) (wanted : List HelperRequest)
    (tasks : List HelperTask) (h : Helpers) : Prop where
  closed : h.Closed
  grows : h₀.Grows h
  ordered : Ordered d wanted (· ∈ h.begun) tasks
  distinct : (unfinished tasks).Nodup
  waiting : ∀ name ∈ unfinished tasks, name ∈ h.begun ∧ name ∉ h.table.keys ∧ name ∉ h₀.begun
  done : ∀ name ∈ h.begun, name ∈ h₀.begun ∨ name ∈ h.table.keys ∨ name ∈ unfinished tasks ∨
    ∃ e, .fail e ∈ tasks

variable {d : Direction} {h₀ h h' : Helpers} {wanted requests : List HelperRequest}
  {tasks rest : List HelperTask} {known known' : String → Prop} {name : String} {r : HelperRequest}
  {f : Func} {result : Except Error (List Stmt)}

theorem Ordered.mono (ho : Ordered d wanted known tasks) (hk : ∀ n, known n → known' n) :
    Ordered d wanted known' tasks := by
  induction tasks generalizing known known' with
  | nil => exact fun r hr n hn => hk n (ho r hr n hn)
  | cons t tasks ih =>
    cases t with
    | need r =>
      have hmore : ∀ n, known n ∨ CallFor d n r → known' n ∨ CallFor d n r :=
        fun n hn => hn.imp_left (hk n)
      exact ih ho hmore
    | finish f => exact ⟨fun n hn => hk n (ho.1 n hn), ih ho.2 hk⟩
    | fail e => trivial

theorem ordered_needs_append :
    Ordered d wanted known (requests.map .need ++ rest) ↔
      Ordered d wanted (fun n => known n ∨ ∃ r ∈ requests, CallFor d n r) rest := by
  induction requests generalizing known with
  | nil => simp
  | cons r requests ih =>
    rw [List.map_cons, List.cons_append, Ordered, ih]
    simp only [List.exists_mem_cons_iff, or_assoc]

theorem ordered_tasksOf
    (hcalls : ∀ body, result = .ok body → CallsFor d (callsAll body) requests)
    (ho : Ordered d wanted known rest) (hk : ∀ n, known n → known' n) :
    Ordered d wanted known' (tasksOf name (result, requests) ++ rest) := by
  cases result with
  | error e =>
    rw [tasksOf, List.append_assoc, ordered_needs_append]
    trivial
  | ok body =>
    rw [tasksOf, List.append_assoc, ordered_needs_append]
    constructor
    · intro n hn
      exact .inr ((hcalls body rfl).request hn)
    · exact ho.mono fun n hn => .inl (hk n hn)

@[simp] theorem unfinished_needs : unfinished (requests.map .need) = [] := by
  induction requests with
  | nil => rfl
  | cons r requests ih => exact ih

/-- The tasks of a body finish the helper of its name, or fail. -/
theorem unfinished_tasksOf : unfinished (tasksOf name (result, requests) ++ rest) =
    if result.isOk then name :: unfinished rest else unfinished rest := by
  have hneeds : requests.filterMap (HelperTask.finishes? ∘ .need) = [] :=
    List.filterMap_eq_nil_iff.mpr fun _ _ => rfl
  cases result <;>
    simp [tasksOf, unfinished, List.filterMap_cons, HelperTask.finishes?, hneeds, Except.isOk,
      Except.toBool]

/-- A helper is finished: it was begun, and what it calls was requested before. -/
theorem Orderly.finish_step (hinv : Orderly d h₀ wanted (.finish f :: rest) h) :
    Orderly d h₀ wanted rest { h with table := h.table.insert f.name f } := by
  obtain ⟨hcalls, hordered⟩ := hinv.ordered
  obtain ⟨hother, hdistinct⟩ := List.nodup_cons.mp hinv.distinct
  obtain ⟨hbegun, hnew, hlate⟩ := hinv.waiting f.name (List.mem_cons_self ..)
  refine ⟨hinv.closed.insert hbegun hcalls, hinv.grows.insert hnew hlate, hordered, hdistinct,
    ?waiting, ?done⟩
  case waiting =>
    intro name hn
    obtain ⟨hb, hk, hl⟩ := hinv.waiting name (List.mem_cons_of_mem _ hn)
    refine ⟨hb, ?_, hl⟩
    intro hin
    rcases Table.mem_keys_insert.mp hin with rfl | hin
    · exact hother hn
    · exact hk hin
  case done =>
    intro name hn
    rcases hinv.done name hn with hold | hkey | hwaits | ⟨e, he⟩
    · exact .inl hold
    · exact .inr (.inl (Table.mem_keys_insert.mpr (.inr hkey)))
    · rcases List.mem_cons.mp hwaits with rfl | hwaits
      · exact .inr (.inl (Table.mem_keys_insert.mpr (.inl rfl)))
      · exact .inr (.inr (.inl hwaits))
    · exact .inr (.inr (.inr ⟨e, by simpa using he⟩))

theorem Orderly.skip_step (hinv : Orderly d h₀ wanted (.need r :: rest) h) (hknown : Known d h r) :
    Orderly d h₀ wanted rest h where
  closed := hinv.closed
  grows := hinv.grows
  ordered := by
    have hafter : Ordered d wanted (fun n => n ∈ h.begun ∨ CallFor d n r) rest := hinv.ordered
    apply hafter.mono
    intro n hn
    rcases hn with hn | ⟨hname, s, hs⟩
    · exact hn
    · exact hknown n s hname hs
  distinct := hinv.distinct
  waiting := hinv.waiting
  done name hn := by
    rcases hinv.done name hn with hold | hkey | hwaits | ⟨e, he⟩
    · exact .inl hold
    · exact .inr (.inl hkey)
    · exact .inr (.inr (.inl hwaits))
    · exact .inr (.inr (.inr ⟨e, by simpa using he⟩))

/-- A new helper is begun; what its body calls comes before its end. -/
theorem Orderly.begin_step (hinv : Orderly d h₀ wanted (.need r :: rest) h)
    (hname : d.helperName? r.src = some name) (hnew : name ∉ h.begun) :
    Orderly d h₀ wanted (tasksOf name (d.helperBody r) ++ rest)
      { h with begun := name :: h.begun } := by
  have hcalls : ∀ body, (d.helperBody r).1 = .ok body →
      CallsFor d (callsAll body) (d.helperBody r).2 := fun _ hbody => helperBody_callsFor hbody
  have hsub : unfinished (tasksOf name (d.helperBody r) ++ rest) ⊆ name :: unfinished rest := by
    rw [unfinished_tasksOf]
    split
    · exact List.Subset.refl _
    · exact List.subset_cons_self ..
  refine ⟨hinv.closed.start name, hinv.grows.start name, ?ordered, ?distinct, ?waiting, ?done⟩
  case ordered =>
    have hafter : Ordered d wanted (fun n => n ∈ h.begun ∨ CallFor d n r) rest := hinv.ordered
    apply ordered_tasksOf hcalls hafter
    intro n hn
    rcases hn with hn | hcall
    · exact List.mem_cons_of_mem _ hn
    · -- the request was for the helper that is begun
      rw [Option.some.inj (hcall.name.symm.trans hname)]
      exact List.mem_cons_self ..
  case distinct =>
    rw [unfinished_tasksOf]
    split
    · exact List.nodup_cons.mpr ⟨fun hn => hnew (hinv.waiting name hn).1, hinv.distinct⟩
    · exact hinv.distinct
  case waiting =>
    intro n hn
    rcases List.mem_cons.mp (hsub hn) with rfl | hn
    · refine ⟨List.mem_cons_self .., ?_, ?_⟩
      · intro hk
        exact hnew (hinv.closed.begun hk)
      · intro hold
        exact hnew (hinv.grows.begun hold)
    · obtain ⟨hb, hk, hl⟩ := hinv.waiting n hn
      exact ⟨List.mem_cons_of_mem _ hb, hk, hl⟩
  case done =>
    intro n hn
    cases hbody : (d.helperBody r).1 with
    | error e => exact .inr (.inr (.inr ⟨e, List.mem_append_left _ (fail_mem_tasksOf.mpr hbody)⟩))
    | ok body =>
      rw [unfinished_tasksOf, hbody, if_pos (show (Except.ok body).isOk = true from rfl)]
      rcases List.mem_cons.mp hn with rfl | hn
      · exact .inr (.inr (.inl (List.mem_cons_self ..)))
      · rcases hinv.done n hn with hold | hkey | hwaits | ⟨e, he⟩
        · exact .inl hold
        · exact .inr (.inl hkey)
        · exact .inr (.inr (.inl (List.mem_cons_of_mem _ hwaits)))
        · exact .inr (.inr (.inr ⟨e, List.mem_append_right _ (by simpa using he)⟩))

theorem orderly_preserved : d.Preserved (Orderly d h₀ wanted) where
  finish := Orderly.finish_step
  skip := Orderly.skip_step
  start := Orderly.begin_step

theorem orderly_needs (hc : h.Closed) (requests : List HelperRequest) :
    Orderly d h requests (requests.map .need) h where
  closed := hc
  grows := .refl h
  ordered := by
    rw [show requests.map HelperTask.need = requests.map .need ++ [] by simp, ordered_needs_append]
    exact fun r hr n hn => .inr ⟨r, hr, hn⟩
  distinct := by simp
  waiting := by simp
  done n hn := .inl hn

theorem emit_of_serve {work : Emit (List Stmt)} {code : List Stmt}
    (hwork : work.run = (.ok code, requests))
    (hserve : d.serve h (requests.map .need) = (.ok (), h')) : d.emit h work = (.ok code, h') := by
  unfold emit
  rw [hwork]
  dsimp only
  rw [hserve]
  rfl

/-- Generating code leaves the helpers in order, also when it fails. -/
theorem emit_grows (hc : h.Closed) (work : Emit (List Stmt)) :
    (d.emit h work).2.Closed ∧ h.Grows (d.emit h work).2 := by
  obtain ⟨left, hinv, -⟩ :=
    orderly_preserved.serve h (work.run.2.map .need) (orderly_needs (d := d) hc _)
  exact ⟨hinv.closed, hinv.grows⟩

/-- Where code is generated, the helpers that it requests were begun, and all that was begun for
it is finished. -/
theorem emit_complete {work : Emit (List Stmt)} {code : List Stmt} (hc : h.Closed)
    (hemit : d.emit h work = (.ok code, h')) :
    (∀ r ∈ work.run.2, Known d h' r) ∧ ∀ n ∈ h'.begun, n ∈ h.begun ∨ n ∈ h'.table.keys := by
  obtain ⟨-, hserve⟩ := emit_ok hemit
  have hinv := orderly_preserved.serve_ok hserve (orderly_needs hc work.run.2)
  constructor
  · intro r hr n shape hname hs
    exact hinv.ordered r hr n ⟨hname, shape, hs⟩
  · intro n hn
    simpa [unfinished] using hinv.done n hn

end Direction

section Calls

open Direction

variable {c : Converter} {way : Way} {spoke hub : Resource} {delta : ResourceDelta}
  {h h' : Helpers} {f : Func} {fs : List Func}

theorem function_helpers : (c.function h way spoke hub delta).2 =
    ((c.direction way).emit h ((c.direction way).functionBody way
      (way.back.pick spoke hub).names.camel delta)).2 := by
  rw [function_eq]

theorem function_grows {result : Except Error Func} (hc : h.Closed)
    (hf : c.function h way spoke hub delta = (result, h')) : h'.Closed ∧ h.Grows h' := by
  obtain rfl : (c.function h way spoke hub delta).2 = h' := congrArg Prod.snd hf
  rw [function_helpers]
  exact emit_grows hc _

theorem function_complete (hc : h.Closed) (hδ : ∀ δ ∈ delta.all, δ.isSupported = true)
    (hf : c.function h way spoke hub delta = (.ok f, h')) :
    f.calls ⊆ h'.begun ∧ ∀ n ∈ h'.begun, n ∈ h.begun ∨ n ∈ h'.table.keys := by
  obtain ⟨body, hemit, -, -, rfl⟩ := function_ok hf
  obtain ⟨hknown, hdone⟩ := emit_complete hc hemit
  refine ⟨?_, hdone⟩
  intro n hn
  have hcalls := functionBody_callsFor hδ (Prod.ext (emit_ok hemit).1 rfl)
  obtain ⟨r, hr, hname, shape, hs⟩ := hcalls.request hn
  exact hknown r hr n shape hname hs

theorem function_of_emit {body : List Stmt} (hemit : (c.direction way).emit h
    ((c.direction way).functionBody way (way.back.pick spoke hub).names.camel delta) =
      (.ok body, h')) :
    ∃ f, c.function h way spoke hub delta = (.ok f, h') ∧ f.body = body := by
  rw [function_eq]
  dsimp only
  rw [hemit]
  exact ⟨_, rfl, rfl⟩

/-- What the code of both functions preserves of the helpers, a call preserves, also when it
fails. -/
theorem functions_preserve {J : Helpers → Prop} {result : Except Error (List Func)}
    (hemit : ∀ way h, J h → J ((c.direction way).emit h ((c.direction way).functionBody way
      (way.back.pick spoke hub).names.camel delta)).2) (hJ : J h)
    (hf : c.functions h spoke hub delta = (result, h')) : J h' := by
  have hfunction : ∀ {way h h₁ f}, J h → c.function h way spoke hub delta = (f, h₁) → J h₁ := by
    rintro way h h₁ f hJ hf
    obtain rfl : (c.function h way spoke hub delta).2 = h₁ := congrArg Prod.snd hf
    rw [function_helpers]
    exact hemit way h hJ
  obtain ⟨-, change, heq⟩ | ⟨-, e, h₁, hto, heq⟩ | ⟨-, toHub, h₁, last, h₂, hto, hfrom, heq⟩ :=
    functions_cases c h spoke hub delta
  · cases heq.symm.trans hf
    exact hJ
  · cases heq.symm.trans hf
    exact hfunction hJ hto
  · cases heq.symm.trans hf
    exact hfunction (hfunction hJ hto) hfrom

/-- A call leaves the helpers in order, also when it fails. -/
theorem functions_grows {result : Except Error (List Func)} (hc : h.Closed)
    (hf : c.functions h spoke hub delta = (result, h')) : h'.Closed ∧ h.Grows h' := by
  refine functions_preserve (J := fun h₁ => h₁.Closed ∧ h.Grows h₁) ?_ ⟨hc, .refl h⟩ hf
  rintro way h₁ ⟨hc₁, hgrows⟩
  obtain ⟨hc', hgrows'⟩ := emit_grows hc₁ _
  exact ⟨hc', hgrows.trans hgrows'⟩

/-- What returned functions call was begun, and what was begun for them is finished. -/
theorem functions_complete (hc : h.Closed)
    (hf : c.functions h spoke hub delta = (.ok fs, h')) :
    (∀ f ∈ fs, f.calls ⊆ h'.begun) ∧ ∀ n ∈ h'.begun, n ∈ h.begun ∨ n ∈ h'.table.keys := by
  obtain ⟨hδ, toHub, fromHub, h₁, rfl, hto, hfrom⟩ := functions_ok hf
  obtain ⟨hc₁, -⟩ := function_grows hc hto
  obtain ⟨-, hgrows⟩ := function_grows hc₁ hfrom
  obtain ⟨hcalls, hdone⟩ := function_complete hc hδ hto
  obtain ⟨hcalls', hdone'⟩ := function_complete hc₁ hδ hfrom
  constructor
  · intro f hf
    rcases List.mem_pair.mp hf with rfl | rfl
    · intro n hn
      exact hgrows.begun (hcalls hn)
    · exact hcalls'
  · intro n hn
    rcases hdone' n hn with hn | hn
    · exact (hdone n hn).imp_right fun hk => hgrows.keys hk
    · exact .inr hn

end Calls

end ResourceVersions.Conversion
