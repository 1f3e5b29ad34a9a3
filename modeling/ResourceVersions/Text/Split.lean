/-!
# Parts of a text

Cutting a text at a character, and what follows a given start. Joining the parts with the
character gives the text back.
-/
namespace ResourceVersions.Text

/-- The parts between the occurrences of a character; there is always at least one. -/
def splitChars (sep : Char) : List Char → List (List Char)
  | [] => [[]]
  | c :: rest =>
    if c = sep then [] :: splitChars sep rest
    else
      match splitChars sep rest with
      | [] => [[c]]
      | part :: parts => (c :: part) :: parts

def split (sep : Char) (s : String) : List String :=
  (splitChars sep s.toList).map String.ofList

/-- What stands before and behind the first occurrence of a character. -/
def cut? (sep : Char) : List Char → Option (List Char × List Char)
  | [] => none
  | c :: rest =>
    if c = sep then some ([], rest)
    else (cut? sep rest).map fun (before, behind) => (c :: before, behind)

/-- What follows a given start. -/
def after? : (start : List Char) → List Char → Option (List Char)
  | [], rest => some rest
  | _ :: _, [] => none
  | w :: start, c :: rest => if w = c then after? start rest else none

theorem splitChars_ne_nil (sep : Char) (s : List Char) : splitChars sep s ≠ [] := by
  induction s with
  | nil => simp [splitChars]
  | cons c rest ih =>
    unfold splitChars
    split
    · simp
    · split <;> simp

/-- The first occurrence is behind a part without the character. -/
theorem cut?_eq_some_iff {sep : Char} {s before behind : List Char} :
    cut? sep s = some (before, behind) ↔ s = before ++ sep :: behind ∧ sep ∉ before := by
  induction s generalizing before with
  | nil => simp [cut?]
  | cons c rest ih =>
    rw [cut?]
    split
    · rename_i hc
      subst hc
      cases before with
      | nil => simp [eq_comm]
      | cons b before =>
        simp only [Option.some.injEq, Prod.mk.injEq, List.cons_append, List.cons.injEq,
          List.mem_cons]
        constructor
        · rintro ⟨h, -⟩
          cases h
        · rintro ⟨⟨h, -⟩, hnot⟩
          exact absurd (.inl h) hnot
    · rename_i hc
      cases before with
      | nil => simp [hc]
      | cons b before =>
        have hrest := @ih before
        have hsep : sep ≠ c := Ne.symm hc
        simp only [Option.map_eq_some_iff, Prod.exists, Prod.mk.injEq, List.cons.injEq,
          List.cons_append, List.mem_cons, not_or]
        constructor
        · rintro ⟨b', t, h, ⟨rfl, rfl⟩, rfl⟩
          obtain ⟨rfl, hnot⟩ := hrest.mp h
          exact ⟨⟨rfl, rfl⟩, hsep, hnot⟩
        · rintro ⟨⟨rfl, h⟩, -, hnot⟩
          exact ⟨before, behind, hrest.mpr ⟨h, hnot⟩, ⟨rfl, rfl⟩, rfl⟩

end ResourceVersions.Text
