import ResourceVersions.Api.Basic

/-!
# Equal structure

Two shapes have the same structure if their forms agree and the shapes that they refer to have
the same structure again; names of shapes, enumerated values, documentation and the order of
members do not count. Pairs that have been met before are taken as equal, so that cycles are
compared once.
-/
namespace ResourceVersions.Api

/-- The pairs of names that still have to agree when the forms of two shapes agree. -/
def links? : Form → Form → Option (List (String × String))
  | .scalar s, .scalar t => if s = t then some [] else none
  | .struct ms, .struct ns =>
    if ms.sortedKeys = ns.sortedKeys then
      some (ms.sorted.filterMap fun (m, ref) =>
        (ns.get? m).map fun other => (ref.target, other.target))
    else none
  | .list e, .list f => some [(e.target, f.target)]
  | .map k v, .map l w => some [(k.target, l.target), (v.target, w.target)]
  | _, _ => none

/-- The pairs of defined names that have not been met. -/
def unmet (a b : Api) (met : List (String × String)) : List (String × String) :=
  (a.shapes.keys.flatMap fun x => b.shapes.keys.map fun y => (x, y)).filter
    fun p => !met.contains p

theorem unmet_cons_lt {a b : Api} {met : List (String × String)} {x y : String} {s t : Shape}
    (hs : a.shapes.get? x = some s) (ht : b.shapes.get? y = some t) (hn : (x, y) ∉ met) :
    (unmet a b ((x, y) :: met)).length < (unmet a b met).length := by
  have e : unmet a b ((x, y) :: met) = (unmet a b met).filter (fun p => p != (x, y)) := by
    simp only [unmet, List.filter_filter]
    congr 1
    funext p
    by_cases h : p = (x, y) <;> simp [h]
  rw [e, List.length_filter_lt_length_iff_exists]
  refine ⟨(x, y), ?_, by simp⟩
  simp [unmet, Table.mem_keys_of_get? hs, Table.mem_keys_of_get? ht, hn]

/-- Whether all pairs of a list agree, given the pairs met before. Two undefined names agree. -/
def agreeFrom (a b : Api) (met : List (String × String)) : List (String × String) → Bool
  | [] => true
  | (x, y) :: rest =>
    match _hs : a.shapes.get? x, _ht : b.shapes.get? y with
    | none, none => agreeFrom a b met rest
    | some s, some t =>
      if _hn : (x, y) ∈ met then agreeFrom a b met rest
      else
        match links? s.form t.form with
        | none => false
        | some pairs => agreeFrom a b ((x, y) :: met) (pairs ++ rest)
    | _, _ => false
termination_by todo => ((unmet a b met).length, todo.length)
decreasing_by
  · exact Prod.Lex.right _ (by simp)
  · exact Prod.Lex.right _ (by simp)
  · exact Prod.Lex.left _ _ (unmet_cons_lt _hs _ht _hn)

/-- Whether a shape of one API has the structure of a shape of another. -/
def sameStructure (a b : Api) (x y : String) : Bool := agreeFrom a b [] [(x, y)]

end ResourceVersions.Api
