import ResourceVersions.Proofs.CodeMeaning
import ResourceVersions.Proofs.CopyCode

/-! # Generated variables

The name of a generated variable ends with its depth, so it is told from the variables of every
other depth and from those that are not generated, whatever names it is made of. -/
namespace ResourceVersions.Code

/-- What stands behind the last underscore of a text. -/
theorem behind_underscore {l l' d d' : List Char} (hd : '_' ∉ d) (hd' : '_' ∉ d')
    (h : l ++ '_' :: d = l' ++ '_' :: d') : l = l' ∧ d = d' := by
  induction l generalizing l' with
  | nil =>
    cases l' with
    | nil => exact ⟨rfl, (List.cons.inj h).2⟩
    | cons c l' =>
      obtain ⟨-, rfl⟩ := List.cons.inj h
      simp at hd
  | cons c l ih =>
    cases l' with
    | nil =>
      obtain ⟨-, rfl⟩ := List.cons.inj h
      simp at hd'
    | cons c' l' =>
      obtain ⟨rfl, hrest⟩ := List.cons.inj h
      obtain ⟨rfl, rfl⟩ := ih hrest
      exact ⟨rfl, rfl⟩

theorem numbered_inj {s s' : String} {n n' : Nat}
    (h : s ++ "_" ++ toString n = s' ++ "_" ++ toString n') : s = s' ∧ n = n' := by
  have h := congrArg String.toList h
  simp only [String.toList_append, Nat.toString_eq_repr, Nat.toList_repr,
    List.append_assoc] at h
  have hu : "_".toList = ['_'] := rfl
  rw [hu] at h
  obtain ⟨hs, hn⟩ := behind_underscore Nat.underscore_not_in_toDigits
    Nat.underscore_not_in_toDigits h
  refine ⟨String.toList_inj.mp hs, ?_⟩
  rw [← @Nat.ofDigitChars_ten_toDigits n, hn, Nat.ofDigitChars_ten_toDigits]

/-- The name of a variable that code generates at a depth or below it. -/
def Scratch (depth : Nat) (x : String) : Prop :=
  ∃ s n, depth ≤ n ∧ x = s ++ "_" ++ toString n

theorem scratch_numbered (s : String) (n : Nat) : Scratch n (s ++ "_" ++ toString n) :=
  ⟨s, n, le_rfl, rfl⟩

theorem not_scratch_numbered (s : String) (n : Nat) :
    ¬ Scratch (n + 1) (s ++ "_" ++ toString n) := by
  rintro ⟨s', n', hn, h⟩
  obtain ⟨-, rfl⟩ := numbered_inj h
  omega

theorem Scratch.mono {m n : Nat} {x : String} (h : Scratch n x) (hm : m ≤ n) : Scratch m x := by
  obtain ⟨s, k, hk, rfl⟩ := h
  exact ⟨s, k, by omega, rfl⟩

/-- A generated variable ends with a digit. -/
theorem Scratch.digit {n : Nat} {x : String} (h : Scratch n x) :
    ∃ c, x.toList.getLast? = some c ∧ c.isDigit := by
  obtain ⟨s, k, -, rfl⟩ := h
  have hne : Nat.toDigits 10 k ≠ [] := Nat.toDigits_ne_nil
  refine ⟨(Nat.toDigits 10 k).getLast hne, ?_, ?_⟩
  · rw [String.toList_append, Nat.toString_eq_repr, Nat.toList_repr, List.getLast?_append,
      List.getLast?_eq_some_getLast hne]
    rfl
  · exact Nat.isDigit_of_mem_toDigits (by omega) (by omega) (List.getLast_mem hne)

/-- A variable with a name that does not end with a digit is not a generated one. -/
theorem not_scratch {n : Nat} {x : String}
    (h : x.toList.getLast?.any Char.isDigit = false) : ¬ Scratch n x := by
  intro hx
  obtain ⟨c, hc, hd⟩ := hx.digit
  rw [hc, Option.any_some, hd] at h
  cases h

/-- A generated variable: a name, what it is for and its depth. -/
def generated (s role : String) (n : Nat) : String := s ++ "_" ++ role ++ "_" ++ toString n

theorem generated_eq (s role : String) (n : Nat) :
    s ++ ("_" ++ role ++ "_") ++ toString n = generated s role n := by
  simp only [generated, String.append_assoc]

theorem generated_scratch (s role : String) (n : Nat) : Scratch n (generated s role n) :=
  scratch_numbered (s ++ "_" ++ role) n

theorem generated_not_deeper (s role : String) (n : Nat) :
    ¬ Scratch (n + 1) (generated s role n) :=
  not_scratch_numbered (s ++ "_" ++ role) n

/-- Variables for different things are different, whatever they are called after. -/
theorem generated_ne {s s' role role' : String} (n : Nat) (hr : '_' ∉ role.toList)
    (hr' : '_' ∉ role'.toList) (hne : role ≠ role') :
    generated s role n ≠ generated s' role' n := by
  intro h
  have h := congrArg String.toList (numbered_inj h).1
  simp only [String.toList_append, List.append_assoc] at h
  have hu : "_".toList = ['_'] := rfl
  rw [hu] at h
  exact hne (String.toList_inj.mp (behind_underscore hr hr' h).2)

section Roles

open Conversion Direction

variable (names : Names) (depth : Nat)

theorem copyVar_eq : copyVar names depth = generated names.snake "copy" depth :=
  generated_eq names.snake "copy" depth

theorem elemVar_eq : elemVar names depth = generated names.snake "elem" depth :=
  generated_eq names.snake "elem" depth

theorem keyVar_eq : keyVar names depth = generated names.snake "key" depth :=
  generated_eq names.snake "key" depth

theorem valueVar_eq : valueVar names depth = generated names.snake "value" depth :=
  generated_eq names.snake "value" depth

end Roles

section Frames

variable {P Q : String → Prop} {f g k : Frame} {x : String} {v : Value}

/-- Frames with the same values of the variables outside a set. -/
def AgreeOff (P : String → Prop) (f g : Frame) : Prop := ∀ x, ¬ P x → g x = f x

/-- An expression that starts from a variable outside a set. -/
def Expr.Avoids (P : String → Prop) : Expr → Prop
  | .name x => ¬ P x
  | .attr base _ => base.Avoids P
  | .valueCopy e => e.Avoids P
  | .recurse _ e => e.Avoids P
  | .type _ | .const _ => True

theorem AgreeOff.refl (P : String → Prop) (f : Frame) : AgreeOff P f f := fun _ _ => rfl

theorem AgreeOff.trans (h : AgreeOff P f g) (h' : AgreeOff P g k) : AgreeOff P f k :=
  fun x hx => (h' x hx).trans (h x hx)

theorem AgreeOff.mono (h : AgreeOff P f g) (hPQ : ∀ x, P x → Q x) : AgreeOff Q f g :=
  fun x hx => h x fun hp => hx (hPQ x hp)

theorem AgreeOff.set (h : AgreeOff P f g) (hx : P x) (v : Value) : AgreeOff P f (g.set x v) := by
  intro y hy
  have hne : y ≠ x := by
    rintro rfl
    exact hy hx
  rw [Frame.set, if_neg hne]
  exact h y hy

@[simp] theorem Frame.set_self (f : Frame) (x : String) (v : Value) : f.set x v x = some v :=
  if_pos rfl

theorem Frame.set_ne (f : Frame) {y : String} (h : y ≠ x) (v : Value) : f.set x v y = f y :=
  if_neg h

theorem Expr.Avoids.mono {e : Expr} (h : e.Avoids Q) (hPQ : ∀ x, P x → Q x) : e.Avoids P := by
  induction e with
  | name x => exact fun hp => h (hPQ x hp)
  | attr base a ih => exact ih h
  | valueCopy e ih => exact ih h
  | recurse helper e ih => exact ih h
  | type ref => trivial
  | const v => trivial

/-- The value of an expression depends only on the variables that it may start from. -/
theorem Expr.eval_congr {call : String → Value → Option Value} {e : Expr} (he : e.Avoids P)
    (h : AgreeOff P f g) : e.eval call g = e.eval call f := by
  induction e with
  | name x => exact h x he
  | attr base a ih => simp only [Expr.eval, ih he]
  | valueCopy e ih => simp only [Expr.eval, ih he]
  | recurse helper e ih => simp only [Expr.eval, ih he]
  | type ref => rfl
  | const v => rfl

end Frames

end ResourceVersions.Code
