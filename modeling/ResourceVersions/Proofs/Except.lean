import Mathlib.Data.List.Forall2

/-! # Work that may fail

When work in steps succeeds, every step has succeeded, and a list of steps fails exactly when
one of them does. -/
namespace ResourceVersions.Fallible

universe u v w
variable {ε : Type u} {α : Type v} {β : Type w}

theorem forall₂_mem_left {R : α → β → Prop} {l : List α} {bs : List β} {a : α}
    (h : List.Forall₂ R l bs) (ha : a ∈ l) : ∃ b ∈ bs, R a b := by
  induction h with
  | nil => cases ha
  | @cons c b l bs hc _ ih =>
    rcases List.mem_cons.mp ha with rfl | ha
    · exact ⟨b, List.mem_cons_self .., hc⟩
    · obtain ⟨b', hb', hR⟩ := ih ha
      exact ⟨b', List.mem_cons_of_mem _ hb', hR⟩

theorem forall₂_mem_right {R : α → β → Prop} {l : List α} {bs : List β} {b : β}
    (h : List.Forall₂ R l bs) (hb : b ∈ bs) : ∃ a ∈ l, R a b :=
  forall₂_mem_left h.flip hb

theorem bind_ok_iff {α β : Type v} {x : Except ε α} {f : α → Except ε β} {b : β} :
    (x >>= f) = .ok b ↔ ∃ a, x = .ok a ∧ f a = .ok b := by
  cases x with
  | error e => exact ⟨nofun, nofun⟩
  | ok a =>
    constructor
    · exact fun h => ⟨a, rfl, h⟩
    · rintro ⟨a', h, h'⟩
      cases h
      exact h'

theorem bind_error_iff {α β : Type v} {x : Except ε α} {f : α → Except ε β} :
    (∃ e, (x >>= f) = .error e) ↔
      (∃ e, x = .error e) ∨ ∃ a, x = .ok a ∧ ∃ e, f a = .error e := by
  cases x with
  | error e =>
    exact ⟨fun _ => .inl ⟨e, rfl⟩, fun _ => ⟨e, rfl⟩⟩
  | ok a =>
    constructor
    · exact fun h => .inr ⟨a, rfl, h⟩
    · rintro (⟨e, h⟩ | ⟨a', h, h'⟩)
      · cases h
      · cases h
        exact h'

theorem mapError_ok_iff {δ : Type u} {f : δ → ε} {x : Except δ α} {a : α} :
    x.mapError f = .ok a ↔ x = .ok a := by
  cases x with
  | error e => exact ⟨nofun, nofun⟩
  | ok b => exact ⟨fun h => by cases h; rfl, fun h => by cases h; rfl⟩

theorem mapM_ok_iff {α β : Type v} {f : α → Except ε β} {l : List α} {r : List β} :
    l.mapM f = .ok r ↔ List.Forall₂ (fun a b => f a = .ok b) l r := by
  induction l generalizing r with
  | nil =>
    rw [List.mapM_nil, List.forall₂_nil_left_iff]
    exact ⟨fun h => by cases h; rfl, fun h => by rw [h]; rfl⟩
  | cons a l ih =>
    rw [List.mapM_cons, bind_ok_iff, List.forall₂_cons_left_iff]
    constructor
    · rintro ⟨b, hb, h⟩
      obtain ⟨bs, hbs, h⟩ := bind_ok_iff.mp h
      cases h
      exact ⟨b, bs, hb, ih.mp hbs, rfl⟩
    · rintro ⟨b, bs, hb, hbs, rfl⟩
      exact ⟨b, hb, bind_ok_iff.mpr ⟨bs, ih.mpr hbs, rfl⟩⟩

/-- What is known of the result of each step is known of the list of results. -/
theorem mapM_ok_map {γ : Type w} {α β : Type v} {f : α → Except ε β} {g : β → γ} {k : α → γ}
    {l : List α} {r : List β} (hf : ∀ a b, f a = .ok b → g b = k a) (h : l.mapM f = .ok r) :
    r.map g = l.map k := by
  have hall := mapM_ok_iff.mp h
  clear h
  induction hall with
  | nil => rfl
  | cons hb _ ih => rw [List.map_cons, List.map_cons, hf _ _ hb, ih]

theorem mapM_error_iff {α β : Type v} {f : α → Except ε β} {l : List α} :
    (∃ e, l.mapM f = .error e) ↔ ∃ a ∈ l, ∃ e, f a = .error e := by
  induction l with
  | nil =>
    rw [List.mapM_nil]
    exact ⟨nofun, nofun⟩
  | cons a l ih =>
    rw [List.mapM_cons, bind_error_iff, List.exists_mem_cons_iff]
    constructor
    · rintro (h | ⟨b, -, h⟩)
      · exact .inl h
      · rcases bind_error_iff.mp h with h | ⟨bs, -, e, h⟩
        · exact .inr (ih.mp h)
        · cases h
    · rintro (h | h)
      · exact .inl h
      · cases hb : f a with
        | error e => exact .inl ⟨e, rfl⟩
        | ok b => exact .inr ⟨b, rfl, bind_error_iff.mpr (.inl (ih.mpr h))⟩

/-- Every step of a list gives one of the results. -/
theorem mapM_ok_step {α β : Type v} {f : α → Except ε β} {l : List α} {bs : List β} {a : α}
    (h : l.mapM f = .ok bs) (ha : a ∈ l) : ∃ b ∈ bs, f a = .ok b :=
  forall₂_mem_left (R := fun a b => f a = .ok b) (mapM_ok_iff.mp h) ha

theorem mapM_ok_mem {α β : Type v} {f : α → Except ε β} {l : List α} {bs : List β} {a : α}
    (h : l.mapM f = .ok bs) (ha : a ∈ l) : ∃ b, f a = .ok b := by
  obtain ⟨b, -, hb⟩ := mapM_ok_step h ha
  exact ⟨b, hb⟩

/-- Every result of a list of steps is the result of one of them. -/
theorem mapM_ok_result {α β : Type v} {f : α → Except ε β} {l : List α} {bs : List β} {b : β}
    (h : l.mapM f = .ok bs) (hb : b ∈ bs) : ∃ a ∈ l, f a = .ok b :=
  forall₂_mem_right (R := fun a b => f a = .ok b) (mapM_ok_iff.mp h) hb

/-- A list of steps ends with the error of the first step that fails. -/
theorem mapM_first_error {α β : Type v} {f : α → Except ε β} {l : List α} {e : ε} :
    l.mapM f = .error e ↔ ∃ before a after, l = before ++ a :: after ∧
      (∀ b ∈ before, ∃ c, f b = .ok c) ∧ f a = .error e := by
  induction l with
  | nil => simp [pure, Except.pure]
  | cons a l ih =>
    rw [List.mapM_cons]
    cases ha : f a with
    | error e' =>
      constructor
      · rintro ⟨⟩
        exact ⟨[], a, l, rfl, by simp, ha⟩
      · rintro ⟨before, a', after, heq, hbefore, hfails⟩
        cases before with
        | nil =>
          obtain ⟨rfl, rfl⟩ := List.cons.inj heq
          cases ha.symm.trans hfails
          rfl
        | cons b before =>
          obtain ⟨rfl, -⟩ := List.cons.inj heq
          obtain ⟨c, hc⟩ := hbefore _ (List.mem_cons_self ..)
          cases ha.symm.trans hc
    | ok b =>
      have hrest : (Except.ok b >>= fun b => do return b :: (← l.mapM f)) = .error e ↔
          l.mapM f = .error e := by
        cases l.mapM f <;> simp [bind, Except.bind, pure, Except.pure]
      rw [hrest, ih]
      constructor
      · rintro ⟨before, a', after, rfl, hbefore, hfails⟩
        exact ⟨a :: before, a', after, rfl, List.forall_mem_cons.mpr ⟨⟨b, ha⟩, hbefore⟩, hfails⟩
      · rintro ⟨before, a', after, heq, hbefore, hfails⟩
        cases before with
        | nil =>
          obtain ⟨rfl, -⟩ := List.cons.inj heq
          cases ha.symm.trans hfails
        | cons c before =>
          obtain ⟨rfl, rfl⟩ := List.cons.inj heq
          exact ⟨before, a', after, rfl, (List.forall_mem_cons.mp hbefore).2, hfails⟩

/-- What every step keeps, a run keeps. -/
theorem foldlM_ok {α : Type v} {β : Type w} {P : α → Prop} {f : α → β → Except ε α} {l : List β}
    {a a' : α} (ha : P a) (hf : ∀ b ∈ l, ∀ a a', P a → f a b = .ok a' → P a')
    (h : l.foldlM f a = .ok a') : P a' := by
  induction l generalizing a with
  | nil =>
    cases h
    exact ha
  | cons b l ih =>
    rw [List.foldlM_cons] at h
    obtain ⟨a₁, ha₁, h⟩ := bind_ok_iff.mp h
    exact ih (hf b (by simp) a a₁ ha ha₁) (fun c hc => hf c (by simp [hc])) h

/-- All errors of the work are of one kind. -/
def Fails (P : ε → Prop) (x : Except ε α) : Prop := ∀ e, x = .error e → P e

section Fails

variable {P : ε → Prop}

theorem Fails.ok (P : ε → Prop) (a : α) : Fails P (.ok a) := nofun

theorem Fails.error {e : ε} (h : P e) : Fails P (.error e : Except ε α) := by
  rintro _ ⟨⟩
  exact h

theorem Fails.bind {α β : Type v} {x : Except ε α} {f : α → Except ε β} (hx : Fails P x)
    (hf : ∀ a, Fails P (f a)) : Fails P (x >>= f) := by
  cases x with
  | error e => exact Fails.error (hx e rfl)
  | ok a => exact hf a

theorem Fails.map {α β : Type v} {x : Except ε α} (hx : Fails P x) (f : α → β) :
    Fails P (x.map f) := by
  cases x with
  | error e => exact .error (hx e rfl)
  | ok a => exact .ok P (f a)

theorem Fails.foldlM {α : Type v} {β : Type w} {f : α → β → Except ε α}
    (hf : ∀ a b, Fails P (f a b)) (l : List β) (a : α) : Fails P (l.foldlM f a) := by
  induction l generalizing a with
  | nil => exact .ok P a
  | cons b l ih =>
    rw [List.foldlM_cons]
    exact (hf a b).bind ih

theorem Fails.mapM {α β : Type v} {f : α → Except ε β} (hf : ∀ a, Fails P (f a)) (l : List α) :
    Fails P (l.mapM f) := by
  intro e he
  obtain ⟨before, a, after, -, -, ha⟩ := mapM_first_error.mp he
  exact hf a e ha

theorem Fails.mapError {δ : Type u} {f : δ → ε} (hf : ∀ e, P (f e)) (x : Except δ α) :
    Fails P (x.mapError f) := by
  cases x with
  | error e => exact .error (hf e)
  | ok a => exact .ok P a

end Fails

end ResourceVersions.Fallible
