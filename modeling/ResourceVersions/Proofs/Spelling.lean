import Mathlib.Tactic.Common
import ResourceVersions.Name.Basic
import ResourceVersions.Proofs.Except

/-! # Spellings of a name

The words of a name hold ASCII letters and digits only, and so does the capitalised spelling
that is made of them. A name without words has no spellings. -/
namespace ResourceVersions

open Fallible Text

/-- The error is that a name holds no words. -/
def Error.Wordless (e : Error) : Prop := ∃ text, e = .config (.noWords text)

theorem Names.of_wordless (given : String) : Fails Error.Wordless (Names.of given) := by
  unfold Names.of
  split
  · exact .ok _ _
  · exact .error ⟨given, rfl⟩

namespace Name

theorem alnum_of_mem_wordsFrom {word s : List Char} (hword : ∀ c ∈ word, isAsciiAlnum c = true) :
    ∀ w ∈ wordsFrom word s, ∀ c ∈ w, isAsciiAlnum c = true := by
  induction s generalizing word with
  | nil => simp [wordsFrom]
  | cons c rest ih =>
    rw [wordsFrom]
    split
    · exact ih (by simp)
    · rename_i hc
      have hc : isAsciiAlnum c = true := by simpa using hc
      have hnext : ∀ d ∈ c :: word, isAsciiAlnum d = true := List.forall_mem_cons.mpr ⟨hc, hword⟩
      split
      · rw [List.forall_mem_cons]
        refine ⟨?_, ih (by simp)⟩
        intro d hd
        exact hnext d (List.mem_reverse.mp hd)
      · exact ih hnext

theorem alnum_of_mem_wordsOf {s : List Char} :
    ∀ w ∈ wordsOf s, ∀ c ∈ w, isAsciiAlnum c = true :=
  alnum_of_mem_wordsFrom (by simp)

/-- Small letters can be checked one by one. -/
@[elab_as_elim]
theorem forall_lower {motive : Char → Prop} {c : Char}
    (hc : isAsciiLower c = true) (h : ∀ n < 123, 97 ≤ n → motive (Char.ofNat n)) : motive c := by
  rw [← Char.ofNat_toNat c]
  simp only [isAsciiLower, Bool.and_eq_true, decide_eq_true_eq, Char.le_def,
    UInt32.le_iff_toNat_le] at hc
  exact h _ (Nat.lt_succ_of_le hc.2) hc.1

/-- Capitals can be checked one by one. -/
@[elab_as_elim]
theorem forall_upper {motive : Char → Prop} {c : Char}
    (hc : isAsciiUpper c = true) (h : ∀ n < 91, 65 ≤ n → motive (Char.ofNat n)) : motive c := by
  rw [← Char.ofNat_toNat c]
  simp only [isAsciiUpper, Bool.and_eq_true, decide_eq_true_eq, Char.le_def,
    UInt32.le_iff_toNat_le] at hc
  exact h _ (Nat.lt_succ_of_le hc.2) hc.1

theorem upperChar_alnum {c : Char} (h : isAsciiAlnum c = true) :
    isAsciiAlnum (upperChar c) = true := by
  cases hlower : isAsciiLower c with
  | true => exact forall_lower hlower (by decide)
  | false => simpa [upperChar, hlower] using h

theorem camel_alnum {words : List (List Char)}
    (h : ∀ w ∈ words, ∀ c ∈ w, isAsciiAlnum c = true) :
    ∀ c ∈ camel words, isAsciiAlnum c = true := by
  intro c hc
  obtain ⟨w, hw, hc⟩ := List.mem_flatMap.mp hc
  cases w with
  | nil => simp [capitalize] at hc
  | cons d rest =>
    rcases List.mem_cons.mp hc with rfl | hrest
    · exact upperChar_alnum (h _ hw d (by simp))
    · exact h _ hw c (by simp [hrest])

end Name

theorem exists_names_of_words {given : String} (h : Name.splitWords given ≠ []) :
    ∃ names, Names.of given = .ok names := by
  unfold Names.of Names.of?
  cases hwords : Name.wordsOf given.toList with
  | nil => simp [Name.splitWords, hwords] at h
  | cons w rest => exact ⟨_, rfl⟩

theorem Names.of_ok {given : String} {names : Names} (h : Names.of given = .ok names) :
    names = Names.ofWords given (Name.wordsOf given.toList) := by
  unfold Names.of Names.of? at h
  cases hw : Name.wordsOf given.toList with
  | nil =>
    rw [hw] at h
    cases h
  | cons w rest =>
    rw [hw] at h
    cases h
    rfl

theorem Names.of?_eq {given : String} {names : Names} (h : Names.of given = .ok names) :
    Names.of? given = some names := by
  unfold Names.of at h
  split at h
  · rename_i n hn
    cases h
    exact hn
  · cases h

theorem Names.given_eq {given : String} {names : Names} (h : Names.of given = .ok names) :
    names.given = given := by
  rw [Names.of_ok h]
  rfl

theorem Names.camel_alnum {given : String} {names : Names} (h : Names.of given = .ok names) :
    ∀ c ∈ names.camel.toList, isAsciiAlnum c = true := by
  rw [Names.of_ok h]
  intro c hc
  have hc : c ∈ Name.camel (Name.wordsOf given.toList) := by
    simpa [Names.ofWords] using hc
  exact Name.camel_alnum Name.alnum_of_mem_wordsOf c hc

end ResourceVersions
