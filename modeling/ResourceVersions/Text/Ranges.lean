/-!
# Ranges of code points

A property of characters is a list of closed ranges, ascending and apart.
-/
namespace ResourceVersions.Text

/-- Looks a code point up in ascending ranges; the search ends at the first range above it. -/
def inRanges : List (Nat × Nat) → Nat → Bool
  | [], _ => false
  | (lo, hi) :: rest, n => if n < lo then false else if n ≤ hi then true else inRanges rest n

theorem inRanges_mem {ranges : List (Nat × Nat)} {n : Nat} (h : inRanges ranges n = true) :
    ∃ r ∈ ranges, r.1 ≤ n ∧ n ≤ r.2 := by
  induction ranges with
  | nil => simp [inRanges] at h
  | cons r rest ih =>
    obtain ⟨lo, hi⟩ := r
    simp only [inRanges] at h
    split at h
    · simp at h
    · split at h
      · exact ⟨(lo, hi), by simp, by simp; omega⟩
      · obtain ⟨r, hr, hb⟩ := ih h
        exact ⟨r, by simp [hr], hb⟩

end ResourceVersions.Text
