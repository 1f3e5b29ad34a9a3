import Mathlib.Tactic.IntervalCases
import ResourceVersions.Number.Literal

/-! # Integers as texts

Integers are written with ASCII digits and without superfluous zeros. They are read back as long
as they have no more digits than a literal may have. -/
namespace ResourceVersions

namespace Text

variable {c : Char} {s : List Char}

theorem mem_digits (h : isAsciiDigit c = true) :
    c ∈ ['0', '1', '2', '3', '4', '5', '6', '7', '8', '9'] := by
  have hc : c = Char.ofNat c.toNat := (Char.ofNat_toNat c).symm
  unfold isAsciiDigit asciiDigit? at h
  split at h
  · rename_i hrange
    have hlow : 48 ≤ c.toNat := hrange.1
    have hhigh : c.toNat ≤ 57 := hrange.2
    rw [hc]
    interval_cases c.toNat <;> decide
  · cases h

theorem isAsciiDigit_toDigits {n : Nat} (h : c ∈ Nat.toDigits 10 n) : isAsciiDigit c = true := by
  have hdigit := Nat.isDigit_of_mem_toDigits (by decide) (by decide) h
  simp only [Char.isDigit, Bool.and_eq_true, decide_eq_true_eq] at hdigit
  have hrange : '0' ≤ c ∧ c ≤ '9' := ⟨hdigit.1, hdigit.2⟩
  simp [isAsciiDigit, asciiDigit?, hrange]

theorem asciiDigit?_eq (h : isAsciiDigit c = true) : asciiDigit? c = some (c.toNat - 48) := by
  unfold isAsciiDigit asciiDigit? at *
  split at h
  · rename_i hrange
    rw [if_pos hrange]
  · cases h

/-- The digits of a number write it. -/
theorem ofDigits_toDigits (n : Nat) :
    ofDigits ((Nat.toDigits 10 n).filterMap asciiDigit?) = n := by
  have hfold : ∀ (l : List Char) (i : Nat), (∀ c ∈ l, isAsciiDigit c = true) →
      (l.filterMap asciiDigit?).foldl (fun n d => 10 * n + d) i = Nat.ofDigitChars 10 l i := by
    intro l
    induction l with
    | nil => simp
    | cons c l ih =>
      intro i hl
      rw [List.filterMap_cons_some (asciiDigit?_eq (hl c (by simp))), List.foldl_cons,
        Nat.ofDigitChars_cons, ih _ fun c hc => hl c (by simp [hc])]
      rfl
  rw [ofDigits, hfold _ _ fun c hc => isAsciiDigit_toDigits hc]
  exact Nat.ofDigitChars_ten_toDigits

theorem length_filterMap_digits (h : ∀ c ∈ s, isAsciiDigit c = true) :
    (s.filterMap asciiDigit?).length = s.length := by
  induction s with
  | nil => rfl
  | cons c s ih =>
    rw [List.filterMap_cons_some (asciiDigit?_eq (h c (by simp))), List.length_cons,
      List.length_cons, ih fun c hc => h c (by simp [hc])]

/-- The first digit of a number is zero only if the number is. -/
theorem toDigits_start {n : Nat} (hn : n ≠ 0) :
    ∃ c rest, Nat.toDigits 10 n = c :: rest ∧ c ≠ '0' := by
  induction n using Nat.strong_induction_on with
  | _ n ih =>
    by_cases hlt : n < 10
    · rw [Nat.toDigits_of_lt_base hlt]
      refine ⟨_, [], rfl, ?_⟩
      interval_cases n <;> first | contradiction | decide
    · obtain ⟨c, rest, hrest, hc⟩ := ih (n / 10) (by omega) (by omega)
      rw [Nat.toDigits_of_base_le (by decide) (by omega), hrest]
      exact ⟨c, rest ++ [Nat.digitChar (n % 10)], rfl, hc⟩

theorem trimBy_none {drop : Char → Bool} (h : ∀ c ∈ s, drop c = false) : trimBy drop s = s := by
  have hdrop : ∀ l : List Char, (∀ c ∈ l, drop c = false) → l.dropWhile drop = l := by
    intro l hl
    cases l with
    | nil => rfl
    | cons c l => rw [List.dropWhile_cons_of_neg (by simp [hl c (by simp)])]
  rw [trimBy, hdrop s h, hdrop _ (by simpa using h), List.reverse_reverse]

end Text

namespace Number

open Text

theorem digitValue?_eq {c : Char} (h : isAsciiDigit c = true) :
    digitValue? c = some (c.toNat - 48) := by
  have hall : ['0', '1', '2', '3', '4', '5', '6', '7', '8', '9'].all
      (fun c => digitValue? c == some (c.toNat - 48)) = true := by rfl
  exact eq_of_beq (List.all_eq_true.mp hall c (mem_digits h))

theorem digitTail_digits {s : List Char} (h : ∀ c ∈ s, isAsciiDigit c = true) :
    digitTail s = (s.filterMap asciiDigit?, []) := by
  induction s with
  | nil => rfl
  | cons c s ih =>
    have hc := h c (by simp)
    have hunderscore : c ≠ '_' := by
      rintro rfl
      cases hc
    rw [digitTail, digitValue?_eq hc, ih fun c hc => h c (by simp [hc]),
      List.filterMap_cons_some (asciiDigit?_eq hc)]
    exact fun _ _ e => absurd e hunderscore

theorem digitRun_digits {s : List Char} (h : ∀ c ∈ s, isAsciiDigit c = true) :
    digitRun s = (s.filterMap asciiDigit?, []) := by
  cases s with
  | nil => rfl
  | cons c s =>
    have hc := h c (by simp)
    rw [digitRun, digitValue?_eq hc, List.filterMap_cons_some (asciiDigit?_eq hc)]
    dsimp only
    rw [digitTail_digits fun c hc => h c (by simp [hc])]

/-- The text of an integer in characters. -/
theorem toList_int (n : Int) : (toString n).toList =
    if 0 ≤ n then Nat.toDigits 10 n.natAbs else '-' :: Nat.toDigits 10 n.natAbs := by
  rw [Int.toString_eq_repr, Int.repr_eq_if]
  split
  · rw [Nat.toList_repr, show n.toNat = n.natAbs by omega]
  · rw [String.toList_append, Nat.toList_repr, show (-n).toNat = n.natAbs by omega]
    rfl

theorem takeSign_digits {s : List Char} (h : ∀ c ∈ s, isAsciiDigit c = true) :
    takeSign s = (false, s) := by
  unfold takeSign
  split
  · exact absurd (h '-' (by simp)) (by decide)
  · exact absurd (h '+' (by simp)) (by decide)
  · rfl

/-- A sign and the digits of an integer write it. -/
theorem signedInt_digits (n : Int) : signedInt (decide (n < 0))
    ((Nat.toDigits 10 n.natAbs).filterMap asciiDigit?) = n := by
  rw [signedInt, ofDigits_toDigits]
  split <;> rename_i hsign <;> rw [decide_eq_true_iff] at hsign <;> omega

/-- An integer is read back from its text. -/
theorem readInt_toString {n : Int} (h : (Nat.toDigits 10 n.natAbs).length ≤ maxIntDigits) :
    readInt (toString n) = .ok n := by
  let digits := Nat.toDigits 10 n.natAbs
  have hdigits : ∀ c ∈ digits, isAsciiDigit c = true := fun c hc => isAsciiDigit_toDigits hc
  have hvisible : ∀ c ∈ digits, isWhiteSpace c = false := by
    have hall : ['0', '1', '2', '3', '4', '5', '6', '7', '8', '9'].all
        (fun c => !isWhiteSpace c) = true := by rfl
    intro c hc
    simpa using List.all_eq_true.mp hall c (mem_digits (hdigits c hc))
  have htrim : trimBy isWhiteSpace (toString n).toList = (toString n).toList := by
    apply trimBy_none
    rw [toList_int]
    split
    · exact hvisible
    · exact List.forall_mem_cons.mpr ⟨by decide, hvisible⟩
  have hsign : takeSign (toString n).toList = (decide (n < 0), digits) := by
    rw [toList_int]
    split
    · rw [takeSign_digits hdigits, decide_eq_false (by omega)]
    · rw [takeSign, decide_eq_true (by omega)]
  have hvalue := signedInt_digits n
  have hlength := length_filterMap_digits hdigits
  rw [readInt, htrim, hsign]
  dsimp only
  rw [digitRun_digits hdigits]
  cases hvalues : digits.filterMap asciiDigit? with
  | nil =>
    rw [hvalues] at hlength
    exact absurd hlength.symm (Nat.length_toDigits_pos).ne'
  | cons d ds =>
    rw [show Nat.toDigits 10 n.natAbs = digits from rfl, hvalues] at hvalue
    rw [hvalues] at hlength
    dsimp only
    rw [if_neg (by rw [hlength]; exact Nat.not_lt.mpr h), hvalue]
    rfl

end Number

end ResourceVersions
