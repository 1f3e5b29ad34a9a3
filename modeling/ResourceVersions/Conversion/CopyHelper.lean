import ResourceVersions.Conversion.Copy

/-!
# Copy helpers

A helper copies a structure that occurs inside itself. Helpers are shared by all resources of a
version; each is generated once, together with the helpers that it needs itself.
-/
namespace ResourceVersions.Conversion

open Code

/-- The helpers generated so far, and the names of all helpers that were begun. -/
structure Helpers where
  table : Table Func := ∅
  begun : List String := []

/-- The helpers in code-point order of their names. -/
def Helpers.toList (h : Helpers) : List Func := h.table.sorted.map Prod.snd

namespace Direction

def helperName? (d : Direction) (shape : String) : Option String :=
  (Names.of? shape).map d.helperName

/-- A function body and the helpers that it requests. -/
def helperBody (d : Direction) (r : HelperRequest) :
    Except Error (List Stmt) × List HelperRequest :=
  Emit.run (d.copyFrom [] [] (.name "src") r.src r.dst 1 .ret true)

/-- What is still to be done for a function. -/
inductive HelperTask where
  | need (request : HelperRequest)
  | finish (helper : Func)
  | fail (cause : Error)

/-- The tasks that generated code leaves behind: its requests and then its own end. -/
def tasksOf (name : String) : Except Error (List Stmt) × List HelperRequest → List HelperTask
  | (.ok body, requests) =>
    requests.map .need ++ [.finish { name, params := [("src", none)], body }]
  | (.error e, requests) => requests.map .need ++ [.fail e]

/-- The names of the helpers that have not been begun. -/
def unbegun (d : Direction) (begun : List String) : List String :=
  (d.src.api.shapes.keys.filterMap d.helperName?).filter (!begun.contains ·)

theorem unbegun_cons_lt {d : Direction} {begun : List String} {shape name : String}
    {s : Shape} (hs : d.src.api.shapes.get? shape = some s)
    (hname : d.helperName? shape = some name) (hn : name ∉ begun) :
    (d.unbegun (name :: begun)).length < (d.unbegun begun).length := by
  have e : d.unbegun (name :: begun) = (d.unbegun begun).filter (fun k => k != name) := by
    simp only [unbegun, List.filter_filter]
    congr 1
    funext k
    by_cases h : k = name <;> simp [h]
  rw [e, List.length_filter_lt_length_iff_exists]
  refine ⟨name, ?_, by simp⟩
  simp only [unbegun, List.mem_filter, List.mem_filterMap]
  exact ⟨⟨shape, Table.mem_keys_of_get? hs, hname⟩, by simpa using hn⟩

/-- Does the tasks in their order. A helper that was begun is not generated again; one that
fails stays begun, and nothing after it is done. -/
def serve (d : Direction) (h : Helpers) : List HelperTask → Except Error Unit × Helpers
  | [] => (.ok (), h)
  | .fail e :: _ => (.error e, h)
  | .finish f :: rest => serve d { h with table := h.table.insert f.name f } rest
  | .need r :: rest =>
    match _hname : d.helperName? r.src, _hs : d.src.api.shapes.get? r.src with
    | some name, some _ =>
      if _hn : name ∈ h.begun then serve d h rest
      else serve d { h with begun := name :: h.begun } (tasksOf name (d.helperBody r) ++ rest)
    | _, _ => serve d h rest
termination_by tasks => ((d.unbegun h.begun).length, tasks.length)
decreasing_by
  · exact Prod.Lex.right _ (by simp)
  · exact Prod.Lex.right _ (by simp)
  · exact Prod.Lex.left _ _ (unbegun_cons_lt _hs _hname _hn)
  · exact Prod.Lex.right _ (by simp)

/-- Generates code together with the helpers that it needs. A failure of a helper that was
requested before the code itself failed comes first. -/
def emit (d : Direction) (h : Helpers) (work : Emit (List Stmt)) :
    Except Error (List Stmt) × Helpers :=
  let (result, requests) := work.run
  let (served, h) := d.serve h (requests.map .need)
  (served.bind fun _ => result, h)

end Direction

end ResourceVersions.Conversion
