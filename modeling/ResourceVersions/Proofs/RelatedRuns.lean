import ResourceVersions.Log
import ResourceVersions.Proofs.Effects
import ResourceVersions.Proofs.Except
import ResourceVersions.Proofs.Spelling
import ResourceVersions.Proofs.TableOrder

/-! # Related runs

Two pieces of work are compared by what the second does when the first succeeds: it succeeds as
well, with a related result. Where the work writes and turns names into identifiers, a name without
words may stop the second one. -/
namespace ResourceVersions

universe u v

theorem forall₂_eq_self {α : Type*} (l : List α) : List.Forall₂ Eq l l :=
  List.forall₂_same.mpr fun _ _ => rfl

section Lists

variable {m : Type u → Type v} [Monad m] {α β : Type*} {γ : Type u} {R : α → β → Prop}
  {l : List α} {l' : List β}

/-- Lists that correspond to each other lead to the same when their elements do. -/
theorem mapM_same [LawfulMonad m] {f : α → m γ} {g : β → m γ} (hl : List.Forall₂ R l l')
    (hfg : ∀ a b, R a b → f a = g b) : l.mapM f = l'.mapM g := by
  induction hl with
  | nil => rfl
  | cons hab _ ih => rw [List.mapM_cons, List.mapM_cons, hfg _ _ hab, ih]

theorem foldlM_same {f : γ → α → m γ} {g : γ → β → m γ} {c : γ} (hl : List.Forall₂ R l l')
    (hfg : ∀ c a b, R a b → f c a = g c b) : l.foldlM f c = l'.foldlM g c := by
  induction hl generalizing c with
  | nil => rfl
  | cons hab _ ih => rw [List.foldlM_cons, List.foldlM_cons, hfg _ _ _ hab, funext fun c => ih]

end Lists

namespace Fallible

/-- Where the first succeeds, so does the second, with a related result. -/
def Keeps {ε δ : Type u} {α β : Type v} (R : α → β → Prop) (x : Except ε α) (y : Except δ β) :
    Prop :=
  ∀ a, x = .ok a → ∃ b, y = .ok b ∧ R a b

namespace Keeps

variable {ε δ : Type u} {α β γ κ : Type v} {R : α → β → Prop} {S : γ → κ → Prop} {x : Except ε α}
  {y : Except δ β}

protected theorem pure {a : α} {b : β} (h : R a b) :
    Keeps R (Pure.pure a : Except ε α) (Pure.pure b : Except δ β) := by
  rintro _ ⟨⟩
  exact ⟨b, rfl, h⟩

theorem error (R : α → β → Prop) (e : ε) (y : Except δ β) : Keeps R (.error e) y := nofun

theorem of_eq {x y : Except ε α} (h : x = y) : Keeps Eq x y := by
  rintro a rfl
  exact ⟨a, h.symm, rfl⟩

theorem mono {R' : α → β → Prop} (h : Keeps R x y) (himp : ∀ a b, R a b → R' a b) :
    Keeps R' x y := by
  intro a ha
  obtain ⟨b, hb, hab⟩ := h a ha
  exact ⟨b, hb, himp a b hab⟩

protected theorem bind {f : α → Except ε γ} {g : β → Except δ κ} (h : Keeps R x y)
    (hfg : ∀ a b, R a b → Keeps S (f a) (g b)) : Keeps S (x >>= f) (y >>= g) := by
  intro c hc
  obtain ⟨a, rfl, hc⟩ := bind_ok_iff.mp hc
  obtain ⟨b, rfl, hab⟩ := h a rfl
  exact hfg a b hab c hc

protected theorem mapError {ε' δ' : Type u} {f : ε → ε'} {g : δ → δ'} (h : Keeps R x y) :
    Keeps R (x.mapError f) (y.mapError g) := by
  intro a ha
  obtain ⟨b, hb, hab⟩ := h a (mapError_ok_iff.mp ha)
  exact ⟨b, mapError_ok_iff.mpr hb, hab⟩

protected theorem mapM {f : α → Except ε γ} {g : β → Except δ κ} {l : List α} {l' : List β}
    (hl : List.Forall₂ R l l') (hfg : ∀ a b, R a b → Keeps S (f a) (g b)) :
    Keeps (List.Forall₂ S) (l.mapM f) (l'.mapM g) := by
  induction hl with
  | nil =>
    rw [List.mapM_nil, List.mapM_nil]
    exact .pure .nil
  | cons hab _ ih =>
    rw [List.mapM_cons, List.mapM_cons]
    refine (hfg _ _ hab).bind fun c d hcd => ?_
    exact ih.bind fun cs ds hall => .pure (.cons hcd hall)

protected theorem foldlM {f : γ → α → Except ε γ} {g : κ → β → Except δ κ} {l : List α}
    {l' : List β} {c : γ} {d : κ} (hl : List.Forall₂ R l l') (hcd : S c d)
    (hfg : ∀ c d a b, S c d → R a b → Keeps S (f c a) (g d b)) :
    Keeps S (l.foldlM f c) (l'.foldlM g d) := by
  induction hl generalizing c d with
  | nil =>
    rw [List.foldlM_nil, List.foldlM_nil]
    exact .pure hcd
  | cons hab _ ih =>
    rw [List.foldlM_cons, List.foldlM_cons]
    exact (hfg _ _ _ _ hcd hab).bind fun c' d' hcd' => ih hcd'

end Keeps

/-- A search with a test that may fail: it finds something, or nothing passes, or a test fails
before anything is found. -/
theorem anyM_cases {ε α : Type} (f : α → Except ε Bool) (l : List α) :
    (∃ a ∈ l, f a = .ok true ∧ l.anyM f = .ok true) ∨
      ((∀ a ∈ l, f a = .ok false) ∧ l.anyM f = .ok false) ∨
        ∃ a ∈ l, ∃ e, f a = .error e ∧ l.anyM f = .error e := by
  induction l with
  | nil => exact .inr (.inl ⟨by simp, rfl⟩)
  | cons a l ih =>
    have hstep : (a :: l).anyM f = (do
        match ← f a with
        | true => pure true
        | false => l.anyM f) := by
      rw [List.anyM]
      rfl
    cases ha : f a with
    | error e => exact .inr (.inr ⟨a, by simp, e, ha, by rw [hstep, ha]; rfl⟩)
    | ok found =>
      cases found with
      | true => exact .inl ⟨a, by simp, ha, by rw [hstep, ha]; rfl⟩
      | false =>
        have htail : (a :: l).anyM f = l.anyM f := by
          rw [hstep, ha]
          rfl
        rw [htail]
        rcases ih with ⟨b, hb, hfound⟩ | ⟨hnone, hend⟩ | ⟨b, hb, e, hfail⟩
        · exact .inl ⟨b, by simp [hb], hfound⟩
        · exact .inr (.inl ⟨List.forall_mem_cons.mpr ⟨ha, hnone⟩, hend⟩)
        · exact .inr (.inr ⟨b, by simp [hb], e, hfail⟩)

/-- The order of a search shows only where a test fails. -/
theorem anyM_order {ε α : Type} {f : α → Except ε Bool} {l l' : List α} {found : Bool}
    (hmem : ∀ a, a ∈ l ↔ a ∈ l') (h : l.anyM f = .ok found) :
    l'.anyM f = .ok found ∨ ∃ a ∈ l', ∃ e, f a = .error e ∧ l'.anyM f = .error e := by
  rcases anyM_cases f l with ⟨a, ha, hfound, hl⟩ | ⟨hnone, hl⟩ | ⟨a, -, e, -, hl⟩
  · cases hl.symm.trans h
    rcases anyM_cases f l' with ⟨_, _, _, hl'⟩ | ⟨hnone, -⟩ | hfail
    · exact .inl hl'
    · cases hfound.symm.trans (hnone a ((hmem a).mp ha))
    · exact .inr hfail
  · cases hl.symm.trans h
    rcases anyM_cases f l' with ⟨a, ha, hfound, -⟩ | ⟨-, hl'⟩ | hfail
    · cases hfound.symm.trans (hnone a ((hmem a).mpr ha))
    · exact .inl hl'
    · exact .inr hfail
  · cases hl.symm.trans h

/-- Reads the entries of a table in turn. -/
def readAll {ε : Type u} {α β : Type v} (read : String → α → Except ε β) (l : List (String × α)) :
    Except ε (List (String × β)) :=
  l.mapM fun e => do return (e.1, ← read e.1 e.2)

section ReadAll

variable {ε δ : Type u} {α β γ κ : Type v} {R : α → β → Prop} {S : γ → κ → Prop}
  {read : String → α → Except ε γ} {read' : String → β → Except δ κ} {t : Table α} {t' : Table β}
  {l : List (String × γ)}

theorem readAll_cons (e : String × α) (entries : List (String × α)) :
    readAll read (e :: entries) = (do
      let c ← read e.1 e.2
      let found ← readAll read entries
      return (e.1, c) :: found) := by
  rw [readAll, List.mapM_cons]
  simp only [bind_assoc, pure_bind]
  rfl

theorem readAll_ok_iff : readAll read t.entries = .ok l ↔
    List.Forall₂ (fun e e' => e'.1 = e.1 ∧ read e.1 e.2 = .ok e'.2) t.entries l := by
  rw [readAll, mapM_ok_iff]
  have hstep : ∀ (e : String × α) (e' : String × γ),
      (do return (e.1, ← read e.1 e.2)) = Except.ok e' ↔
        e'.1 = e.1 ∧ read e.1 e.2 = .ok e'.2 := by
    intro e e'
    rw [bind_ok_iff]
    constructor
    · rintro ⟨c, hc, heq⟩
      cases heq
      exact ⟨rfl, hc⟩
    · rintro ⟨hname, hc⟩
      exact ⟨e'.2, hc, by rw [← hname]; rfl⟩
  exact ⟨fun h => h.imp fun e e' => (hstep e e').mp, fun h => h.imp fun e e' => (hstep e e').mpr⟩

theorem readAll_names (h : readAll read t.entries = .ok l) : l.map Prod.fst = t.keys := by
  have hall := readAll_ok_iff.mp h
  clear h
  unfold Table.keys
  generalize t.entries = entries at hall
  induction hall with
  | nil => rfl
  | cons hstep _ ih => rw [List.map_cons, List.map_cons, hstep.1, ih]

/-- What has been read stands under the names of what it was read from. -/
theorem readAll_get? (h : readAll read t.entries = .ok l) (name : String) :
    Option.Rel (fun a c => read name a = .ok c) (t.get? name) ((Table.ofList l).get? name) := by
  have hnodup : (l.map Prod.fst).Nodup := by
    rw [readAll_names h]
    exact t.keys_nodup
  have hall := readAll_ok_iff.mp h
  cases hget : t.get? name with
  | none =>
    have hnone : (Table.ofList l).get? name = none := by
      rw [Table.get?_eq_none_iff, Table.keys, Table.entries_ofList hnodup, readAll_names h]
      exact Table.get?_eq_none_iff.mp hget
    rw [hnone]
    exact .none
  | some a =>
    have hin := Table.get?_eq_some_iff.mp hget
    obtain ⟨e', he', hname, hread⟩ : ∃ e' ∈ l, e'.1 = name ∧ read name a = .ok e'.2 := by
      clear hget hnodup h
      generalize t.entries = entries at hall hin
      induction hall with
      | nil => cases hin
      | @cons e e' _ _ hstep _ ih =>
        rcases List.mem_cons.mp hin with rfl | hin
        · exact ⟨e', by simp, hstep⟩
        · obtain ⟨e'', he'', hfound⟩ := ih hin
          exact ⟨e'', by simp [he''], hfound⟩
    rw [Table.get?_ofList hnodup (show (name, e'.2) ∈ l by rw [← hname]; exact he')]
    exact .some hread

/-- Reading tables that are alike gives tables that are alike. -/
theorem Keeps.readAll (ht : Table.Alike R t t')
    (hread : ∀ name a b, R a b → Keeps S (read name a) (read' name b)) :
    Keeps (fun l l' => Table.Alike S (.ofList l) (.ofList l')) (readAll read t.entries)
      (Fallible.readAll read' t'.entries) := by
  intro l hl
  cases hl' : Fallible.readAll read' t'.entries with
  | error e =>
    obtain ⟨⟨name, b⟩, hin, e', he'⟩ := mapM_error_iff.mp ⟨e, hl'⟩
    have hget : t'.get? name = some b := Table.get?_eq_some_iff.mpr hin
    have hfound := readAll_get? hl name
    rcases rel_cases (ht name) with ⟨-, hb⟩ | ⟨a, b', ha, hb, hab⟩
    · cases hget.symm.trans hb
    · cases hget.symm.trans hb
      rw [ha] at hfound
      generalize (Table.ofList l).get? name = found at hfound
      cases hfound with
      | some hc =>
        obtain ⟨d, hd, -⟩ := hread name a b hab _ hc
        dsimp only at he'
        rw [hd] at he'
        cases he'
  | ok l' =>
    refine ⟨l', rfl, fun name => ?_⟩
    have hfound := readAll_get? hl name
    have hfound' := readAll_get? hl' name
    generalize (Table.ofList l).get? name = found at hfound ⊢
    generalize (Table.ofList l').get? name = found' at hfound' ⊢
    rcases rel_cases (ht name) with ⟨ha, hb⟩ | ⟨a, b, ha, hb, hab⟩
    · rw [ha] at hfound
      rw [hb] at hfound'
      cases hfound
      cases hfound'
      exact .none
    · rw [ha] at hfound
      rw [hb] at hfound'
      cases hfound with
      | some hc =>
        cases hfound' with
        | some hd =>
          obtain ⟨d, hd', hcd⟩ := hread name _ _ hab _ hc
          cases hd'.symm.trans hd
          exact .some hcd

end ReadAll

end Fallible

/-- Where the first comes to a result of one kind, the second comes to a related one, unless it
meets a name without words. -/
def FollowsIf {σ τ α β : Type} (P : α → Prop) (R : α → β → Prop) (x : ExceptT Error (StateM σ) α)
    (y : ExceptT Error (StateM τ) β) : Prop :=
  ∀ s a s' t, runFrom x s = (.ok a, s') → P a →
    (∃ b t', runFrom y t = (.ok b, t') ∧ R a b) ∨
      ∃ e t', runFrom y t = (.error e, t') ∧ e.Wordless

/-- Where the first succeeds, the second comes to a related result, unless it meets a name without
words. -/
def Follows {σ τ α β : Type} (R : α → β → Prop) (x : ExceptT Error (StateM σ) α)
    (y : ExceptT Error (StateM τ) β) : Prop :=
  FollowsIf (fun _ => True) R x y

namespace FollowsIf

variable {σ τ α β γ δ : Type} {P : α → Prop} {Q : γ → Prop} {R : α → β → Prop} {S : γ → δ → Prop}
  {x : ExceptT Error (StateM σ) α} {y : ExceptT Error (StateM τ) β}

protected theorem pure {a : α} {b : β} (h : P a → R a b) :
    FollowsIf P R (Pure.pure a : ExceptT Error (StateM σ) α)
      (Pure.pure b : ExceptT Error (StateM τ) β) := by
  rintro s _ _ t ⟨⟩ ha
  exact .inl ⟨b, t, rfl, h ha⟩

/-- The second step counts only behind first steps of the right kind. -/
theorem bind_of {f : α → ExceptT Error (StateM σ) γ} {g : β → ExceptT Error (StateM τ) δ}
    (h : FollowsIf P R x y) (hback : ∀ a, Yields (fun c => Q c → P a) (f a))
    (hfg : ∀ a b, P a → R a b → FollowsIf Q S (f a) (g b)) :
    FollowsIf Q S (x >>= f) (y >>= g) := by
  intro s c s' t hrun hc
  obtain ⟨a, s₁, hx, hf⟩ := runFrom_bind_ok hrun
  have ha := hback a s₁ c s' hf hc
  rcases h s a s₁ t hx ha with ⟨b, t₁, hy, hab⟩ | ⟨e, t₁, hy, he⟩
  · rw [runFrom_bind_eq hy]
    exact hfg a b ha hab s₁ c s' t₁ hf hc
  · refine .inr ⟨e, t₁, ?_, he⟩
    rw [runFrom_bind, hy]

protected theorem foldlM {α' β' : Type} {T : α' → β' → Prop}
    {f : γ → α' → ExceptT Error (StateM σ) γ} {g : δ → β' → ExceptT Error (StateM τ) δ}
    {l : List α'} {l' : List β'} {c : γ} {d : δ} (hl : List.Forall₂ T l l') (hcd : Q c → S c d)
    (hback : ∀ c a, Yields (fun c' => Q c' → Q c) (f c a))
    (hfg : ∀ c d a b, Q c → S c d → T a b → FollowsIf Q S (f c a) (g d b)) :
    FollowsIf Q S (l.foldlM f c) (l'.foldlM g d) := by
  induction hl generalizing c d with
  | nil =>
    rw [List.foldlM_nil, List.foldlM_nil]
    exact .pure hcd
  | @cons a b l l' hab _ ih =>
    rw [List.foldlM_cons, List.foldlM_cons]
    intro s c'' s'' t hrun hc''
    have hrest : ∀ c', Yields (fun c'' => Q c'' → Q c') (l.foldlM f c') := fun c' =>
      .foldlM (P := fun c'' => Q c'' → Q c') id fun a' _ c₁ hc₁ s c₂ s₂ h hc₂ =>
        hc₁ (hback c₁ a' s c₂ s₂ h hc₂)
    have hc : Q c := by
      obtain ⟨c', s', hstep, htail⟩ := runFrom_bind_ok hrun
      exact hback c a s c' s' hstep (hrest c' s' c'' s'' htail hc'')
    exact (hfg c d a b hc (hcd hc) hab).bind_of hrest
      (fun c' d' _ hcd' => ih fun _ => hcd') s c'' s'' t hrun hc''

end FollowsIf

namespace Follows

variable {σ τ α β γ δ : Type} {R : α → β → Prop} {S : γ → δ → Prop}
  {x : ExceptT Error (StateM σ) α} {y : ExceptT Error (StateM τ) β}

protected theorem pure {a : α} {b : β} (h : R a b) :
    Follows R (Pure.pure a : ExceptT Error (StateM σ) α)
      (Pure.pure b : ExceptT Error (StateM τ) β) :=
  FollowsIf.pure fun _ => h

protected theorem throw (R : α → β → Prop) (e : Error) (y : ExceptT Error (StateM τ) β) :
    Follows R (throw e : ExceptT Error (StateM σ) α) y := by
  rintro s a s' t ⟨⟩

theorem except {r : Except Error α} {r' : Except Error β} (h : Fallible.Keeps R r r') :
    Follows R (ExceptT.mk (Pure.pure r) : ExceptT Error (StateM σ) α)
      (ExceptT.mk (Pure.pure r') : ExceptT Error (StateM τ) β) := by
  rintro s a s' t ⟨⟩ -
  obtain ⟨b, rfl, hab⟩ := h a rfl
  exact .inl ⟨b, t, rfl, hab⟩

/-- Writing always succeeds. -/
theorem lift {work : StateM σ α} {work' : StateM τ β}
    (h : ∀ s t, R (work.run s).1 (work'.run t).1) :
    Follows R (ExceptT.lift work) (ExceptT.lift work') := by
  intro s a s' t hrun _
  rw [runFrom_lift] at hrun
  cases hrun
  exact .inl ⟨_, _, runFrom_lift work' t, h s t⟩

theorem log (level : Level) (part text text' : String) :
    Follows Eq (ExceptT.lift (ResourceVersions.log level part text) : Attempt Unit)
      (ExceptT.lift (ResourceVersions.log level part text')) :=
  .lift fun _ _ => rfl

/-- Only what comes last is of one kind. -/
theorem bind_if {Q : γ → Prop} {f : α → ExceptT Error (StateM σ) γ}
    {g : β → ExceptT Error (StateM τ) δ} (h : Follows R x y)
    (hfg : ∀ a b, R a b → FollowsIf Q S (f a) (g b)) : FollowsIf Q S (x >>= f) (y >>= g) :=
  h.bind_of (fun _ _ _ _ _ _ => trivial) fun a b _ hab => hfg a b hab

protected theorem bind {f : α → ExceptT Error (StateM σ) γ} {g : β → ExceptT Error (StateM τ) δ}
    (h : Follows R x y) (hfg : ∀ a b, R a b → Follows S (f a) (g b)) :
    Follows S (x >>= f) (y >>= g) := h.bind_if hfg

protected theorem foldlM {Q : α → β → Prop} {f : γ → α → ExceptT Error (StateM σ) γ}
    {g : δ → β → ExceptT Error (StateM τ) δ} {l : List α} {l' : List β} {c : γ} {d : δ}
    (hl : List.Forall₂ Q l l') (hcd : S c d)
    (hfg : ∀ c d a b, S c d → Q a b → Follows S (f c a) (g d b)) :
    Follows S (l.foldlM f c) (l'.foldlM g d) :=
  FollowsIf.foldlM hl (fun _ => hcd) (fun _ _ _ _ _ _ _ => trivial)
    fun c d a b _ hcd hab => hfg c d a b hcd hab

/-- Going through a list for what is written on the way alone. -/
theorem forIn_unit {l : List α} {f : α → PUnit → ExceptT Error (StateM σ) (ForInStep PUnit)}
    {g : α → PUnit → ExceptT Error (StateM τ) (ForInStep PUnit)}
    (hfg : ∀ a, Follows (fun x y => x = .yield ⟨⟩ ∧ y = .yield ⟨⟩) (f a ⟨⟩) (g a ⟨⟩)) :
    Follows Eq (forIn l ⟨⟩ f) (forIn l ⟨⟩ g) := by
  induction l with
  | nil =>
    rw [List.forIn_nil, List.forIn_nil]
    exact .pure rfl
  | cons a l ih =>
    rw [List.forIn_cons, List.forIn_cons]
    refine (hfg a).bind fun x y hxy => ?_
    obtain ⟨rfl, rfl⟩ := hxy
    exact ih

end Follows

end ResourceVersions
