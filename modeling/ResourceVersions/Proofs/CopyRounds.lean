import ResourceVersions.Conversion.Copy
import ResourceVersions.Proofs.Recursion
import ResourceVersions.Proofs.Table

/-! # Copies in rounds

The copy of a value follows shapes that may refer to one another in cycles. One round of it handles
the shape of the value and leaves the values below to further rounds. A structure is not opened
inside itself and no list or map is passed twice, so the rounds end, and what each round preserves
holds of every copy. -/
namespace ResourceVersions.Conversion

open Code

/-- A value that is to be copied. -/
structure CopyCall where
  active : List String
  passed : List String
  value : Expr
  src : String
  dst : String
  depth : Nat
  target : Target
  keepNone : Bool

namespace Direction

/-- The variable for the elements of a list of a shape. -/
def elemVar (names : Names) (depth : Nat) : String := s!"{names.snake}_elem_{depth}"

def keyVar (names : Names) (depth : Nat) : String := s!"{names.snake}_key_{depth}"

def valueVar (names : Names) (depth : Nat) : String := s!"{names.snake}_value_{depth}"

/-- The attribute of a copied structure that a member is stored in. -/
def memberSlot (names : Names) (depth : Nat) (m : MemberCopy) : Target :=
  .assign (.attr (.name (copyVar names depth)) m.attr)

variable {d : Direction}

def copy (d : Direction) (call : CopyCall) : Emit (List Stmt) :=
  d.copyFrom call.active call.passed call.value call.src call.dst call.depth call.target
    call.keepNone

/-- One level of a copy; the values below it are left to `inner`. -/
def copyRound (d : Direction) (inner : CopyCall → Emit (List Stmt)) (call : CopyCall) :
    Emit (List Stmt) := do
  match d.src.api.shapes.get? call.src with
  | none => throw (.schema (.undefinedShape call.src))
  | some shape =>
    let dstShape ← Emit.schema (d.dst.api.shape call.dst)
    if let .scalar _ := shape.form then return [call.target.store call.value]
    if d.src.api.isPlain call.src then return [call.target.store (.valueCopy call.value)]
    match shape.form, dstShape.form with
    | .struct members, .struct dstMembers =>
      let names ← Emit.ofExcept (Names.of call.src)
      if call.src ∈ call.active then
        Emit.request ⟨call.src, call.dst⟩
        return [call.target.store (.recurse (d.helperName names) call.value)]
      else
        let var := copyVar names call.depth
        let type : TypeRef := ⟨← Emit.schema (d.dst.typeName call.dst), d.dstAlias?⟩
        let parts ← members.sorted.mapM fun entry => do
          let m ← Emit.ofExcept (d.memberCopy call.src call.dst dstMembers entry)
          let attr := Expr.attr call.value m.attr
          let slot := Target.assign (.attr (.name var) m.attr)
          if m.isSecret then return [slot.store attr]
          inner ⟨call.src :: call.active, [], attr, m.src, m.dst, call.depth + 1, slot, false⟩
        let body :=
          .allocate var (.struct type) :: parts.flatten ++ [call.target.store (.name var)]
        return guarded call.value body call.target call.keepNone
    | .list e, .list dstElement =>
      let names ← Emit.ofExcept (d.collectionNames call.src call.dst)
      if call.src ∈ call.passed then throw (.schema (.selfContaining call.src))
      else
        let var := copyVar names call.depth
        let element ← Emit.ofExcept (Names.of e.target)
        let code ← inner ⟨call.active, call.src :: call.passed, .name (elemVar element call.depth),
          e.target, dstElement.target, call.depth + 1, .append (.name var), true⟩
        let body := [.allocate var .list, .loop (elemVar element call.depth) .items call.value code,
          call.target.store (.name var)]
        return guarded call.value body call.target call.keepNone
    | .map _ v, .map _ dstValue =>
      let names ← Emit.ofExcept (d.collectionNames call.src call.dst)
      if call.src ∈ call.passed then throw (.schema (.selfContaining call.src))
      else
        let var := copyVar names call.depth
        let key := keyVar names call.depth
        let element ← Emit.ofExcept (Names.of v.target)
        let code ← inner ⟨call.active, call.src :: call.passed, .name (valueVar element call.depth),
          v.target, dstValue.target, call.depth + 1, .setItem (.name var) (.name key), true⟩
        let body := [.allocate var .map,
          .loop (valueVar element call.depth) (.entries key) call.value code,
          call.target.store (.name var)]
        return guarded call.value body call.target call.keepNone
    | _, _ => Emit.change (.formsDiffer call.src call.dst)

/-- How many levels are left: structures around the value count before lists and maps. -/
def copyRank (d : Direction) (call : CopyCall) : Nat :=
  (d.src.api.shapes.unseen call.active).length * (d.src.api.shapes.size + 1) +
    (d.src.api.shapes.unseen call.passed).length

section Rank

variable {call : CopyCall} {shape : Shape} (hs : d.src.api.shapes.get? call.src = some shape)
  (value : Expr) (src dst : String) (depth : Nat) (target : Target) (keepNone : Bool)

include hs

/-- Inside a structure there are fewer structures to open. -/
theorem copyRank_member (hnew : call.src ∉ call.active) :
    d.copyRank ⟨call.src :: call.active, [], value, src, dst, depth, target, keepNone⟩ <
      d.copyRank call := by
  have hfewer := Table.unseen_cons_lt hs hnew
  have hpassed := d.src.api.shapes.length_unseen_le []
  have hmul := Nat.mul_le_mul_right (d.src.api.shapes.size + 1) (Nat.succ_le_of_lt hfewer)
  rw [Nat.succ_mul] at hmul
  unfold copyRank
  dsimp only
  omega

/-- Inside a list or map there are fewer lists and maps to pass. -/
theorem copyRank_element (hnew : call.src ∉ call.passed) :
    d.copyRank ⟨call.active, call.src :: call.passed, value, src, dst, depth, target, keepNone⟩ <
      d.copyRank call := by
  have hfewer := Table.unseen_cons_lt hs hnew
  unfold copyRank
  dsimp only
  omega

end Rank

theorem copyRank_lt (d : Direction) (call : CopyCall) :
    d.copyRank call < (d.src.api.shapes.size + 1) * (d.src.api.shapes.size + 1) := by
  have hactive := d.src.api.shapes.length_unseen_le call.active
  have hpassed := d.src.api.shapes.length_unseen_le call.passed
  have hmul := Nat.mul_le_mul_right (d.src.api.shapes.size + 1) hactive
  rw [Nat.succ_mul]
  unfold copyRank
  omega

/-- A round of copying asks only for copies of lower rank. -/
theorem copyRound_eq {call : CopyCall} {g : CopyCall → Emit (List Stmt)}
    (hg : ∀ inner, d.copyRank inner < d.copyRank call → g inner = d.copy inner) :
    d.copyRound g call = d.copy call := by
  unfold copy
  rw [copyFrom]
  split
  · rename_i hs
    simp only [copyRound, hs]
  rename_i shape hs
  simp only [copyRound, hs]
  refine congrArg _ (funext fun dstShape => ?_)
  by_cases hplain : d.src.api.isPlain call.src = true
  · cases shape.form <;> simp only [hplain, if_true]
  simp only [if_neg hplain]
  cases hf : shape.form <;> cases hf' : dstShape.form <;> dsimp only
  case struct.struct members dstMembers =>
    refine congrArg _ (funext fun names => ?_)
    by_cases hactive : call.src ∈ call.active
    · rw [if_pos hactive, dif_pos hactive]
    · rw [if_neg hactive, dif_neg hactive]
      refine congrArg _ (funext fun className => congrArg (· >>= _)
        (congrArg (List.mapM · _) (funext fun entry => ?_)))
      refine congrArg _ (funext fun m => ?_)
      rw [hg _ (copyRank_member hs _ _ _ _ _ _ hactive)]
      rfl
  case list.list e dstElement =>
    refine congrArg _ (funext fun names => ?_)
    by_cases hpassed : call.src ∈ call.passed
    · rw [if_pos hpassed, dif_pos hpassed]
    · rw [if_neg hpassed, dif_neg hpassed]
      refine congrArg _ (funext fun element => ?_)
      rw [hg _ (copyRank_element hs _ _ _ _ _ _ hpassed)]
      rfl
  case map.map key v dstKey dstValue =>
    refine congrArg _ (funext fun names => ?_)
    by_cases hpassed : call.src ∈ call.passed
    · rw [if_pos hpassed, dif_pos hpassed]
    · rw [if_neg hpassed, dif_neg hpassed]
      refine congrArg _ (funext fun element => ?_)
      rw [hg _ (copyRank_element hs _ _ _ _ _ _ hpassed)]
      rfl

/-- Copies are nested at most so deep. -/
theorem copy_ends (d : Direction) : Ends d.copyRound d.copy fun _ =>
    (d.src.api.shapes.size + 1) * (d.src.api.shapes.size + 1) := by
  have h : Ends d.copyRound d.copy fun call => d.copyRank call + 1 :=
    ends_of_rank fun call g hg => copyRound_eq hg
  apply h.mono
  intro call
  exact Nat.succ_le_of_lt (d.copyRank_lt call)

/-- What each round has if the copies below it have it, every copy has. -/
theorem copy_induct {I : CopyCall → Emit (List Stmt) → Prop}
    (hthrow : ∀ call, I call (throw (.schema (.undefinedShape call.src))))
    (hround : ∀ g, (∀ call, I call (g call)) → ∀ call, I call (d.copyRound g call))
    (active passed : List String) (value : Expr) (src dst : String) (depth : Nat) (target : Target)
    (keepNone : Bool) :
    I ⟨active, passed, value, src, dst, depth, target, keepNone⟩
      (d.copyFrom active passed value src dst depth target keepNone) :=
  d.copy_ends.induct _ hthrow hround ⟨active, passed, value, src, dst, depth, target, keepNone⟩

end Direction

end ResourceVersions.Conversion
