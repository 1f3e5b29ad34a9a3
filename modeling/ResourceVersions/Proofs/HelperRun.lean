import ResourceVersions.Conversion.Functions
import ResourceVersions.Proofs.Table

/-! # Runs of a converter

Generated code leaves tasks behind, and doing them begins and finishes helpers. What one task
preserves holds when all are done, so each property of the helpers is stated over the tasks that
are left and proved for a task at a time. -/
namespace ResourceVersions.Conversion

open Code

/-- What a run is asked for, with what its helpers ask for in turn. -/
inductive Requested (c : Converter) (roots : List (Way × HelperRequest)) :
    Way → HelperRequest → Prop where
  | root {way r} : (way, r) ∈ roots → Requested c roots way r
  | nested {way r q} : Requested c roots way r →
      q ∈ ((c.direction way).helperBody r).2 → Requested c roots way q

/-- Each helper name stands for one pair of a source and a destination structure. -/
def OnePair (c : Converter) (roots : List (Way × HelperRequest)) : Prop :=
  ∀ way r q name, Requested c roots way r → Requested c roots way q →
    (c.direction way).helperName? r.src = some name →
    (c.direction way).helperName? q.src = some name → r = q

/-- Runs of a converter in which every call gave code, with the requests made so far. -/
inductive CleanRun (c : Converter) : List (Way × HelperRequest) → Helpers → Prop where
  | start : CleanRun c [] {}
  | emit {roots h work code h'} (way) : CleanRun c roots h →
      (c.direction way).emit h work = (.ok code, h') →
      CleanRun c (roots ++ work.run.2.map (way, ·)) h'

/-- The helper of a request has been begun, if there can be one. -/
def Known (d : Direction) (h : Helpers) (r : HelperRequest) : Prop :=
  ∀ name shape, d.helperName? r.src = some name → d.src.api.shape? r.src = some shape →
    name ∈ h.begun

variable {c : Converter} {way way' : Way} {h h' : Helpers} {r q : HelperRequest}
  {name : String} {f : Func}

theorem Known.mono {d : Direction} (hr : Known d h r) (hh : h.begun ⊆ h'.begun) :
    Known d h' r := fun name shape hn hs => hh (hr name shape hn hs)

theorem toHub_ne_fromHub {l l' : List Char} :
    l ++ "to_hub".toList ≠ l' ++ "from_hub".toList := by
  intro h
  have hsplit : "from_hub".toList = ['f', 'r'] ++ "om_hub".toList := rfl
  rw [hsplit, ← List.append_assoc] at h
  have hlast := List.append_inj_right' h rfl
  exact absurd hlast (by decide)

/-- Helpers of the two ways have different names. -/
theorem helperName_way (hr : (c.direction way).helperName? r.src = some name)
    (hq : (c.direction way').helperName? q.src = some name) : way = way' := by
  have ending : ∀ (d : Direction) (x : String), d.helperName? x = some name →
      ∃ s, name = s ++ d.suffix := by
    intro d x h
    obtain ⟨names, -, rfl⟩ := Option.map_eq_some_iff.mp h
    exact ⟨"_copy_" ++ names.snake ++ "_", rfl⟩
  obtain ⟨s, rfl⟩ := ending _ _ hr
  obtain ⟨s', hs⟩ := ending _ _ hq
  have hs := congrArg String.toList hs
  simp only [String.toList_append] at hs
  cases way <;> cases way'
  · rfl
  · exact (toHub_ne_fromHub hs).elim
  · exact (toHub_ne_fromHub hs.symm).elim
  · rfl

namespace Direction

variable {d : Direction} {tasks rest : List HelperTask} {shape : Shape}
  {run : Except Error (List Stmt) × List HelperRequest}

/-! ### Tasks of generated code -/

@[simp] theorem need_mem_tasksOf : .need q ∈ tasksOf name run ↔ q ∈ run.2 := by
  obtain ⟨result, requests⟩ := run
  cases result <;> simp [tasksOf]

@[simp] theorem finish_mem_tasksOf : .finish f ∈ tasksOf name run ↔
    ∃ body, run.1 = .ok body ∧ f = { name, params := [("src", none)], body } := by
  obtain ⟨result, requests⟩ := run
  cases result <;> simp [tasksOf]

@[simp] theorem fail_mem_tasksOf {e : Error} :
    .fail e ∈ tasksOf name run ↔ run.1 = .error e := by
  obtain ⟨result, requests⟩ := run
  cases result <;> simp [tasksOf, eq_comm]

/-! ### One task after the other -/

theorem serve_known (hname : d.helperName? r.src = some name)
    (hs : d.src.api.shapes.get? r.src = some shape) (hin : name ∈ h.begun) :
    d.serve h (.need r :: rest) = d.serve h rest := by
  rw [serve]
  split
  · rename_i name' _ hname' _
    cases hname.symm.trans hname'
    rw [dif_pos hin]
  · rename_i hnone
    exact (hnone name shape hname hs).elim

theorem serve_new (hname : d.helperName? r.src = some name)
    (hs : d.src.api.shapes.get? r.src = some shape) (hin : name ∉ h.begun) :
    d.serve h (.need r :: rest) = d.serve { h with begun := name :: h.begun }
      (tasksOf name (d.helperBody r) ++ rest) := by
  rw [serve]
  split
  · rename_i name' _ hname' _
    cases hname.symm.trans hname'
    rw [dif_neg hin]
  · rename_i hnone
    exact (hnone name shape hname hs).elim

theorem serve_none (hnone : ∀ name shape, d.helperName? r.src = some name →
    d.src.api.shapes.get? r.src = some shape → False) :
    d.serve h (.need r :: rest) = d.serve h rest := by
  rw [serve]
  split
  · rename_i name shape hname hs
    exact (hnone name shape hname hs).elim
  · rfl

/-- One task preserves a property of the tasks that are left and of the helpers. -/
structure Preserved (d : Direction) (I : List HelperTask → Helpers → Prop) : Prop where
  finish : ∀ {h f rest}, I (.finish f :: rest) h →
    I rest { h with table := h.table.insert f.name f }
  skip : ∀ {h r rest}, I (.need r :: rest) h → Known d h r → I rest h
  start : ∀ {h r rest name}, I (.need r :: rest) h → d.helperName? r.src = some name →
    name ∉ h.begun → I (tasksOf name (d.helperBody r) ++ rest) { h with begun := name :: h.begun }

/-- Where doing tasks ends: all are done, or one of those that are left has failed. -/
inductive Ended : Except Error Unit → List HelperTask → Prop where
  | done : Ended (.ok ()) []
  | failed {e left} : .fail e ∈ left → Ended (.error e) left

/-- What each task preserves holds where doing them ends. -/
theorem Preserved.serve {I : List HelperTask → Helpers → Prop} (hI : d.Preserved I)
    (h : Helpers) (tasks : List HelperTask) (hstart : I tasks h) :
    ∃ left, I left (d.serve h tasks).2 ∧ Ended (d.serve h tasks).1 left := by
  induction h, tasks using serve.induct d with
  | case1 h =>
    rw [Direction.serve]
    exact ⟨[], hstart, .done⟩
  | case2 h e rest =>
    rw [Direction.serve]
    exact ⟨.fail e :: rest, hstart, .failed (List.mem_cons_self ..)⟩
  | case3 h f rest ih =>
    rw [Direction.serve]
    exact ih (hI.finish hstart)
  | case4 h r rest name shape hname hshape hin ih =>
    have hknown : Known d h r := by
      intro name' _ hname' _
      cases hname.symm.trans hname'
      exact hin
    rw [serve_known hname hshape hin]
    exact ih (hI.skip hstart hknown)
  | case5 h r rest name shape hname hshape hin ih =>
    rw [serve_new hname hshape hin]
    exact ih (hI.start hstart hname hin)
  | case6 h r rest hnone ih =>
    have hknown : Known d h r := fun name shape hn hs => (hnone name shape hn hs).elim
    rw [serve_none hnone]
    exact ih (hI.skip hstart hknown)

/-- Nothing is left where no task fails. -/
theorem Preserved.serve_ok {I : List HelperTask → Helpers → Prop} (hI : d.Preserved I)
    (hserve : d.serve h tasks = (.ok (), h')) (hstart : I tasks h) : I [] h' := by
  obtain ⟨left, hleft, hend⟩ := hI.serve h tasks hstart
  rw [hserve] at hleft hend
  cases hend
  exact hleft

theorem emit_ok {work : Emit (List Stmt)} {code : List Stmt}
    (hemit : d.emit h work = (.ok code, h')) : work.run.1 = .ok code ∧
      d.serve h (work.run.2.map .need) = (.ok (), h') := by
  unfold Direction.emit at hemit
  cases hserve : d.serve h (work.run.2.map .need) with
  | mk served h₁ =>
    simp only [hserve] at hemit
    obtain ⟨hresult, rfl⟩ := Prod.mk.inj hemit
    cases served with
    | error e => cases hresult
    | ok u => exact ⟨hresult, rfl⟩

end Direction

end ResourceVersions.Conversion
