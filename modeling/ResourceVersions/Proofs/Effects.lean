import Mathlib.Tactic.Common
import ResourceVersions.Error

/-! # Work that writes and may fail

Code generation and the building of models run from what has been written so far. A run is
followed step by step from any such state; one that only adds to a list is described by what
each of its steps adds. -/
namespace ResourceVersions

/-- The result of work that starts from a state, and the state it leaves. -/
def runFrom {σ α : Type} (work : ExceptT Error (StateM σ) α) (s : σ) : Except Error α × σ :=
  StateT.run (ExceptT.run work) s

section Steps

variable {σ α β : Type} {x : ExceptT Error (StateM σ) α} {f : α → ExceptT Error (StateM σ) β}
  {s s' : σ}

theorem runFrom_bind (x : ExceptT Error (StateM σ) α) (f : α → ExceptT Error (StateM σ) β)
    (s : σ) : runFrom (x >>= f) s =
      match runFrom x s with
      | (.ok a, s') => runFrom (f a) s'
      | (.error e, s') => (.error e, s') := by
  unfold runFrom ExceptT.run StateT.run
  simp only [bind, ExceptT.bind, ExceptT.mk, StateT.bind, ExceptT.bindCont]
  cases x s with
  | mk r t => cases r <;> rfl

@[simp] theorem runFrom_pure (a : α) (s : σ) :
    runFrom (pure a : ExceptT Error (StateM σ) α) s = (.ok a, s) := rfl

@[simp] theorem runFrom_except (r : Except Error α) (s : σ) :
    runFrom (ExceptT.mk (pure r) : ExceptT Error (StateM σ) α) s = (r, s) := rfl

theorem runFrom_lift (work : StateM σ α) (s : σ) :
    runFrom (ExceptT.lift work) s = (.ok (work.run s).1, (work.run s).2) := rfl

theorem runFrom_bind_eq {a : α} {t : σ} (h : runFrom x s = (.ok a, t)) :
    runFrom (x >>= f) s = runFrom (f a) t := by
  rw [runFrom_bind, h]

/-- Work that succeeds has steps that succeed. -/
theorem runFrom_bind_ok {b : β} (h : runFrom (x >>= f) s = (.ok b, s')) :
    ∃ a t, runFrom x s = (.ok a, t) ∧ runFrom (f a) t = (.ok b, s') := by
  rw [runFrom_bind] at h
  cases hx : runFrom x s with
  | mk r t =>
    rw [hx] at h
    cases r with
    | error e => cases h
    | ok a => exact ⟨a, t, rfl, h⟩

theorem runFrom_tryCatch (x : ExceptT Error (StateM σ) α) (f : Error → ExceptT Error (StateM σ) α)
    (s : σ) : runFrom (MonadExcept.tryCatch x f) s =
      match runFrom x s with
      | (.ok a, t) => (.ok a, t)
      | (.error e, t) => runFrom (f e) t := by
  unfold runFrom ExceptT.run StateT.run
  simp only [MonadExceptOf.tryCatch, tryCatchThe, ExceptT.tryCatch, ExceptT.mk, StateT.bind,
    MonadExcept.tryCatch, Bind.bind]
  cases x s with
  | mk r t => cases r <;> rfl

end Steps

section Lists

variable {σ ω α β τ : Type}

/-- A list of steps that succeeds leaves a record of every step, and adds what each adds. -/
theorem runFrom_mapM_ok {f : α → ExceptT Error (StateM (List ω)) β} {key : τ → α}
    {out : τ → β} {added : τ → List ω} {Q : τ → Prop} {l : List α} {bs : List β}
    {s s' : List ω}
    (hstep : ∀ a ∈ l, ∀ s b s', runFrom (f a) s = (.ok b, s') →
      ∃ t, key t = a ∧ out t = b ∧ s' = s ++ added t ∧ Q t)
    (h : runFrom (l.mapM f) s = (.ok bs, s')) :
    ∃ ts : List τ, ts.map key = l ∧ ts.map out = bs ∧ s' = s ++ ts.flatMap added ∧
      ∀ t ∈ ts, Q t := by
  induction l generalizing s bs with
  | nil =>
    cases h
    exact ⟨[], rfl, rfl, by simp, by simp⟩
  | cons a l ih =>
    rw [List.mapM_cons] at h
    obtain ⟨b, s₁, hb, h⟩ := runFrom_bind_ok h
    obtain ⟨bs, s₂, hbs, h⟩ := runFrom_bind_ok h
    cases h
    obtain ⟨t, rfl, rfl, rfl, ht⟩ := hstep a (by simp) s b s₁ hb
    obtain ⟨ts, rfl, rfl, rfl, hts⟩ := ih (fun a ha => hstep a (by simp [ha])) hbs
    exact ⟨t :: ts, rfl, rfl, by simp, by simpa using ⟨ht, hts⟩⟩

end Lists

section Results

variable {σ α β : Type} {P : α → Prop} {Q : β → Prop}

/-- Every result that work can give has a property. -/
def Yields (P : α → Prop) (work : ExceptT Error (StateM σ) α) : Prop :=
  ∀ s a s', runFrom work s = (.ok a, s') → P a

theorem Yields.pure {a : α} (h : P a) : Yields P (pure a : ExceptT Error (StateM σ) α) := by
  intro s a' s' hrun
  cases hrun
  exact h

theorem Yields.throw (P : α → Prop) (e : Error) :
    Yields P (throw e : ExceptT Error (StateM σ) α) := by
  intro s a s' hrun
  cases hrun

theorem Yields.except {r : Except Error α} (h : ∀ a, r = .ok a → P a) :
    Yields P (ExceptT.mk (Pure.pure r) : ExceptT Error (StateM σ) α) := by
  intro s a s' hrun
  cases hrun
  exact h a rfl

theorem Yields.bind_of {x : ExceptT Error (StateM σ) β} {f : β → ExceptT Error (StateM σ) α}
    (hx : Yields Q x) (hf : ∀ b, Q b → Yields P (f b)) : Yields P (x >>= f) := by
  intro s a s' hrun
  obtain ⟨b, t, hb, h⟩ := runFrom_bind_ok hrun
  exact hf b (hx s b t hb) t a s' h

theorem Yields.bind {x : ExceptT Error (StateM σ) β} {f : β → ExceptT Error (StateM σ) α}
    (hf : ∀ b, Yields P (f b)) : Yields P (x >>= f) :=
  Yields.bind_of (Q := fun _ => True) (fun _ _ _ _ => trivial) fun b _ => hf b

/-- What every step keeps, a run keeps. -/
theorem Yields.foldlM {f : α → β → ExceptT Error (StateM σ) α} {l : List β} {a : α}
    (ha : P a) (hf : ∀ b ∈ l, ∀ a, P a → Yields P (f a b)) : Yields P (l.foldlM f a) := by
  induction l generalizing a with
  | nil => exact .pure ha
  | cons b l ih =>
    rw [List.foldlM_cons]
    refine .bind_of (hf b (by simp) a ha) fun a' ha' => ?_
    exact ih ha' fun c hc => hf c (by simp [hc])

theorem Yields.and {P' : α → Prop} {x : ExceptT Error (StateM σ) α} (h : Yields P x)
    (h' : Yields P' x) : Yields (fun a => P a ∧ P' a) x :=
  fun s a s' hrun => ⟨h s a s' hrun, h' s a s' hrun⟩

/-- What one of the steps establishes and all others keep, a run establishes. -/
theorem Yields.foldlM_mem {f : α → β → ExceptT Error (StateM σ) α} {l : List β} {b : β}
    {I : α → Prop} {a : α} (ha : I a) (hb : b ∈ l) (hkeep : ∀ c ∈ l, ∀ a, I a → Yields I (f a c))
    (hstep : ∀ a, I a → Yields P (f a b)) (hf : ∀ c ∈ l, ∀ a, P a → Yields P (f a c)) :
    Yields P (l.foldlM f a) := by
  induction l generalizing a with
  | nil => cases hb
  | cons c l ih =>
    rw [List.foldlM_cons]
    rcases List.mem_cons.mp hb with rfl | hb
    · refine .bind_of (hstep a ha) fun a' ha' => ?_
      exact .foldlM ha' fun d hd => hf d (by simp [hd])
    · refine .bind_of (hkeep c (by simp) a ha) fun a' ha' => ?_
      exact ih ha' hb (fun d hd => hkeep d (by simp [hd])) fun d hd => hf d (by simp [hd])

end Results

section Failures

variable {σ α β : Type} {P : Error → Prop}

/-- Every error with which work can end is of one kind. -/
def Raises (P : Error → Prop) (work : ExceptT Error (StateM σ) α) : Prop :=
  ∀ s e s', runFrom work s = (.error e, s') → P e

theorem Raises.pure (P : Error → Prop) (a : α) :
    Raises P (pure a : ExceptT Error (StateM σ) α) := by
  rintro s e s' ⟨⟩

theorem Raises.throw {e : Error} (h : P e) :
    Raises P (throw e : ExceptT Error (StateM σ) α) := by
  rintro s _ s' ⟨⟩
  exact h

theorem Raises.except {r : Except Error α} (h : ∀ e, r = .error e → P e) :
    Raises P (ExceptT.mk (Pure.pure r) : ExceptT Error (StateM σ) α) := by
  intro s e s' hrun
  cases hrun
  exact h e rfl

theorem Raises.lift (P : Error → Prop) (work : StateM σ α) : Raises P (ExceptT.lift work) := by
  intro s e s' hrun
  rw [runFrom_lift] at hrun
  cases hrun

theorem Raises.bind {x : ExceptT Error (StateM σ) β} {f : β → ExceptT Error (StateM σ) α}
    (hx : Raises P x) (hf : ∀ b, Raises P (f b)) : Raises P (x >>= f) := by
  intro s e s' hrun
  rw [runFrom_bind] at hrun
  cases hr : runFrom x s with
  | mk r t =>
    rw [hr] at hrun
    cases r with
    | ok b => exact hf b t e s' hrun
    | error e' =>
      cases hrun
      exact hx s e s' hr

theorem Raises.foldlM {f : α → β → ExceptT Error (StateM σ) α} (hf : ∀ a b, Raises P (f a b))
    (l : List β) (a : α) : Raises P (l.foldlM f a) := by
  induction l generalizing a with
  | nil => exact .pure P a
  | cons b l ih =>
    rw [List.foldlM_cons]
    exact (hf a b).bind ih

end Failures

end ResourceVersions
