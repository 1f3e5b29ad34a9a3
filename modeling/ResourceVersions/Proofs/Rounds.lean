import ResourceVersions.Proofs.ApiOrder
import ResourceVersions.Proofs.Recursion

/-! # Walks through shapes end

The walks through the shapes of an API end although shapes may refer to one another in cycles. A
chain passes no shape twice, and a comparison meets no pair of shapes twice. -/
namespace ResourceVersions

namespace Api

variable {api a b : Api}

/-- One step along the chain of lists and maps to its end. -/
def innermostRound (api : Api) (inner : List String × String → Except SchemaError String) :
    List String × String → Except SchemaError String
  | (seen, name) =>
    match api.shapes.get? name with
    | none => .error (.undefinedShape name)
    | some shape =>
      match shape.form.element? with
      | none => .ok name
      | some ref =>
        if name ∈ seen then .error (.selfContaining name) else inner (name :: seen, ref.target)

/-- One step along the same chain that looks for a scalar. -/
def plainRound (api : Api) (inner : List String × String → Bool) : List String × String → Bool
  | (seen, name) =>
    match api.shapes.get? name with
    | none => false
    | some shape =>
      if name ∈ seen then false
      else
        match shape.form with
        | .scalar _ => true
        | .struct _ => false
        | .list e => inner (name :: seen, e.target)
        | .map _ v => inner (name :: seen, v.target)

-- Named, so that the test in the round below carries this proof and not one of its own.
local instance lawful_pairs : LawfulBEq (String × String) := inferInstance

section Walks

/-- No chain passes a shape twice. -/
theorem innermost_ends (api : Api) : Ends api.innermostRound
    (fun walk => api.innermostFrom walk.1 walk.2) fun _ => api.shapes.size + 1 := by
  have h : Ends api.innermostRound (fun walk => api.innermostFrom walk.1 walk.2)
      fun walk => (api.shapes.unseen walk.1).length + 1 := by
    apply ends_of_rank
    rintro ⟨seen, name⟩ g hg
    dsimp only [innermostRound]
    cases hs : api.shapes.get? name with
    | none => rw [innermostFrom_undefined hs]
    | some shape =>
      rw [innermostFrom_eq hs]
      dsimp only
      cases href : shape.form.element? with
      | none => rfl
      | some ref =>
        by_cases hseen : name ∈ seen
        · simp only [if_pos hseen]
        · simp only [if_neg hseen]
          exact hg (name :: seen, ref.target) (Table.unseen_cons_lt hs hseen)
  apply h.mono
  intro walk
  exact Nat.succ_le_succ (Table.length_unseen_le ..)

theorem plain_ends (api : Api) : Ends api.plainRound
    (fun walk => api.isPlainFrom walk.1 walk.2) fun _ => api.shapes.size + 1 := by
  have h : Ends api.plainRound (fun walk => api.isPlainFrom walk.1 walk.2)
      fun walk => (api.shapes.unseen walk.1).length + 1 := by
    apply ends_of_rank
    rintro ⟨seen, name⟩ g hg
    dsimp only [plainRound]
    cases hs : api.shapes.get? name with
    | none => rw [isPlainFrom_undefined hs]
    | some shape =>
      rw [Side.isPlainFrom_eq hs]
      by_cases hseen : name ∈ seen
      · simp only [if_pos hseen]
      · simp only [if_neg hseen]
        cases shape.form with
        | scalar t => rfl
        | struct members => rfl
        | list e => exact hg (name :: seen, e.target) (Table.unseen_cons_lt hs hseen)
        | map k v => exact hg (name :: seen, v.target) (Table.unseen_cons_lt hs hseen)
  apply h.mono
  intro walk
  exact Nat.succ_le_succ (Table.length_unseen_le ..)

end Walks

end Api

end ResourceVersions
