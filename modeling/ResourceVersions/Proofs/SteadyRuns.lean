import ResourceVersions.Log
import ResourceVersions.Proofs.Effects
import ResourceVersions.Resource.Build

/-! # Steady runs

Log records are written and never read: what the building of a resource comes to does not depend
on the records written before. -/
namespace ResourceVersions

/-- What work comes to does not depend on the state it starts from. -/
def Steady {σ α : Type} (work : ExceptT Error (StateM σ) α) : Prop :=
  ∀ s t, (runFrom work s).1 = (runFrom work t).1

namespace Steady

variable {σ α β : Type}

protected theorem pure (a : α) : Steady (pure a : ExceptT Error (StateM σ) α) := fun _ _ => rfl

theorem throw (e : Error) : Steady (throw e : ExceptT Error (StateM σ) α) := fun _ _ => rfl

theorem except (r : Except Error α) :
    Steady (ExceptT.mk (Pure.pure r) : ExceptT Error (StateM σ) α) := fun _ _ => rfl

theorem log (level : Level) (part text : String) :
    Steady (ExceptT.lift (ResourceVersions.log level part text) : Attempt Unit) := fun _ _ => rfl

protected theorem bind {x : ExceptT Error (StateM σ) β} {f : β → ExceptT Error (StateM σ) α}
    (hx : Steady x) (hf : ∀ b, Steady (f b)) : Steady (x >>= f) := by
  intro s t
  have hfirst := hx s t
  rw [runFrom_bind, runFrom_bind]
  cases hs : runFrom x s with
  | mk r s' =>
    cases ht : runFrom x t with
    | mk r' t' =>
      rw [hs, ht] at hfirst
      dsimp only at hfirst
      subst hfirst
      cases r with
      | ok b => exact hf b s' t'
      | error e => rfl

protected theorem foldlM {f : α → β → ExceptT Error (StateM σ) α} {l : List β}
    (hf : ∀ a, ∀ b ∈ l, Steady (f a b)) (a : α) : Steady (l.foldlM f a) := by
  induction l generalizing a with
  | nil => exact .pure a
  | cons b l ih =>
    rw [List.foldlM_cons]
    exact (hf a b (by simp)).bind fun a' => ih (fun a c hc => hf a c (by simp [hc])) a'

protected theorem forIn {f : β → α → ExceptT Error (StateM σ) (ForInStep α)} {l : List β}
    (hf : ∀ b ∈ l, ∀ a, Steady (f b a)) (a : α) : Steady (forIn l a f) := by
  induction l generalizing a with
  | nil =>
    rw [List.forIn_nil]
    exact .pure a
  | cons b l ih =>
    rw [List.forIn_cons]
    refine (hf b (by simp) a).bind fun next => ?_
    cases next with
    | done a' => exact .pure a'
    | yield a' => exact ih (fun c hc => hf c (by simp [hc])) a'

end Steady

namespace Resource

theorem addConfiguredSpec_steady (api : Api) (r : Resource) (entry : String × FieldConfig) :
    Steady (r.addConfiguredSpec api entry) := by
  obtain ⟨path, fc⟩ := entry
  simp only [addConfiguredSpec]
  split
  · exact .pure r
  · split
    · split
      · exact (Steady.log _ _ _).bind fun _ => .pure r
      · exact .pure r
    · split
      · refine (Steady.except _).bind fun found => ?_
        split
        · exact (Steady.log _ _ _).bind fun _ => .pure r
        · exact .pure r
      · split
        · exact .throw _
        · exact (Steady.except _).bind fun _ => (Steady.except _).bind fun _ => .pure _

theorem addConfiguredStatus_steady (api : Api) (r : Resource) (entry : String × FieldConfig) :
    Steady (r.addConfiguredStatus api entry) := by
  obtain ⟨path, fc⟩ := entry
  simp only [addConfiguredStatus]
  split
  · exact .pure r
  · split
    · exact (Steady.log _ _ _).bind fun _ => .pure r
    · split
      · exact .throw _
      · exact (Steady.except _).bind fun _ => (Steady.except _).bind fun _ => .pure _

theorem addTopFields_steady (api : Api) (r : Resource) : Steady (r.addTopFields api) := by
  refine (Steady.except _).bind fun r₁ => ?_
  refine (Steady.foldlM (fun r e _ => addConfiguredSpec_steady api r e) r₁).bind fun r₂ => ?_
  refine (Steady.except _).bind fun r₃ => ?_
  exact .foldlM (fun r e _ => addConfiguredStatus_steady api r e) r₃

theorem addNestedFields_steady (api : Api) (r : Resource) : Steady (r.addNestedFields api) := by
  unfold addNestedFields
  refine (Steady.except _).bind fun nested => ?_
  refine (Steady.forIn (fun path _ _ => ?_) _).bind fun _ => .pure _
  split
  · exact (Steady.log _ _ _).bind fun _ => .pure _
  · exact .pure _

/-- The fields of a resource do not depend on what has been logged. -/
theorem build_steady (api : Api) (config : Config) (names : Names) (create : Operation) :
    Steady (build api config names create) :=
  (addTopFields_steady api _).bind fun r => addNestedFields_steady api r

end Resource

end ResourceVersions
