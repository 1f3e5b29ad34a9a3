import Mathlib.Data.Prod.Lex
import Mathlib.Logic.Function.Iterate
import Mathlib.Tactic.Common

/-! # Recursions that end

One round of a recursion leaves the rounds below it open. The recursion ends if, unrolled so and so
often, it gives its result whatever stands below the last round. So it has what every round has, and
two recursions with the same rounds are one. -/
namespace ResourceVersions

universe u v

/-- A function solves the equation of its rounds, and `bound` rounds of it are enough. -/
structure Ends {α : Type u} {β : Type v} (round : (α → β) → α → β) (f : α → β)
    (bound : α → Nat) : Prop where
  equation : round f = f
  within : ∀ a n, bound a ≤ n → ∀ below, round^[n] below a = f a

section Ends

variable {α : Type u} {β : Type v} {round : (α → β) → α → β} {f : α → β}

/-- A round that asks only for results of a lower rank. -/
theorem ends_of_rank {rank : α → Nat}
    (h : ∀ a g, (∀ b, rank b < rank a → g b = f b) → round g a = f a) :
    Ends round f fun a => rank a + 1 := by
  constructor
  case equation =>
    funext a
    exact h a f fun _ _ => rfl
  case within =>
    intro a n
    induction n generalizing a with
    | zero => intro hn; omega
    | succ n ih =>
      intro hn below
      rw [Function.iterate_succ_apply']
      apply h
      intro b hb
      exact ih b (by omega) below

theorem Ends.mono {bound bound' : α → Nat} (h : Ends round f bound)
    (hle : ∀ a, bound a ≤ bound' a) : Ends round f bound' where
  equation := h.equation
  within a n hn below := h.within a n (le_trans (hle a) hn) below

/-- What each round has if the values below it have it, the recursion has. -/
theorem Ends.induct {I : α → β → Prop} {bound : α → Nat} (h : Ends round f bound) (below : α → β)
    (hbelow : ∀ a, I a (below a)) (hround : ∀ g, (∀ a, I a (g a)) → ∀ a, I a (round g a)) (a : α) :
    I a (f a) := by
  have hrounds : ∀ n a, I a (round^[n] below a) := by
    intro n
    induction n with
    | zero => exact hbelow
    | succ n ih =>
      intro a
      rw [Function.iterate_succ_apply']
      exact hround _ ih a
  rw [← h.within a (bound a) le_rfl below]
  exact hrounds _ a

/-- Recursions with the same rounds give the same results. -/
theorem Ends.unique {f' : α → β} {bound bound' : α → Nat} (h : Ends round f bound)
    (h' : Ends round f' bound') : f = f' := by
  funext a
  rw [← h.within a _ (le_max_left (bound a) (bound' a)) f,
    ← h'.within a _ (le_max_right (bound a) (bound' a)) f]

/-- Enough rounds give a result for one argument. -/
def EndsAt (round : (α → β) → α → β) (a : α) (b : β) : Prop :=
  ∃ bound, ∀ n, bound ≤ n → ∀ below, round^[n] below a = b

variable {a a' : α} {b : β}

theorem EndsAt.stop (h : ∀ g, round g a = b) : EndsAt round a b := by
  refine ⟨1, ?_⟩
  intro n hn below
  obtain ⟨k, rfl⟩ := Nat.exists_eq_add_of_le' hn
  rw [Function.iterate_succ_apply']
  exact h _

/-- A round that goes on with another argument. -/
theorem EndsAt.next (ha : EndsAt round a' b) (h : ∀ g, round g a = g a') : EndsAt round a b := by
  obtain ⟨bound, hbound⟩ := ha
  refine ⟨bound + 1, ?_⟩
  intro n hn below
  obtain ⟨k, rfl⟩ := Nat.exists_eq_add_of_le' (Nat.le_of_add_left_le hn)
  rw [Function.iterate_succ_apply', h]
  exact hbound k (by omega) below

end Ends

end ResourceVersions
