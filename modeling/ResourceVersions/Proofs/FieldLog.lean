import ResourceVersions.Proofs.BuiltResource
import ResourceVersions.Proofs.ClassNames

/-! # The fields of a resource as they were written

The Spec and the Status are filled in passes: over the create input, the configured fields of the
Spec, the create output and the configured fields of the Status. A step of a pass writes one field
or passes over what it is given. In the end every name holds what was written under it last. -/
namespace ResourceVersions

/-- The spellings of a text that holds a word. -/
def Names.spelled (given : String) : Names := .ofWords given (Name.wordsOf given.toList)

/-- A loop that ends, step by step. -/
inductive Steps {α β : Type} (step : α → β → α → Prop) : α → List β → α → Prop where
  | nil {a} : Steps step a [] a
  | cons {a b a' l a''} : step a b a' → Steps step a' l a'' → Steps step a (b :: l) a''

section Steps

variable {α β σ : Type} {step : α → β → α → Prop} {l : List β} {a a' : α}

theorem Fallible.foldlM_steps {ε : Type} {f : α → β → Except ε α}
    (hf : ∀ a b a', f a b = .ok a' → step a b a') (h : l.foldlM f a = .ok a') :
    Steps step a l a' := by
  induction l generalizing a with
  | nil =>
    cases h
    exact .nil
  | cons b l ih =>
    rw [List.foldlM_cons] at h
    obtain ⟨a₁, h₁, h⟩ := bind_ok_iff.mp h
    exact .cons (hf a b a₁ h₁) (ih h)

theorem Yields.foldlM_steps {f : α → β → ExceptT Error (StateM σ) α}
    (hf : ∀ a b, Yields (step a b) (f a b)) : Yields (Steps step a l) (l.foldlM f a) := by
  induction l generalizing a with
  | nil => exact .pure .nil
  | cons b l ih =>
    rw [List.foldlM_cons]
    intro s a'' s' hrun
    obtain ⟨a', t, hfirst, hrest⟩ := runFrom_bind_ok hrun
    exact .cons (hf a b s a' t hfirst) (ih t a'' s' hrest)

end Steps

namespace Resource

/-- A field that is written to the Spec, or to the Status if it is observed. -/
structure FieldWrite where
  observed : Bool
  given : String
  ref? : Option ShapeRef

def FieldWrite.key (w : FieldWrite) : String := Name.camelOf w.given

/-- The Spec, or the Status. -/
def part (r : Resource) (observed : Bool) : Table Field := if observed then r.status else r.spec

/-- The field that a write makes. -/
def field (r : Resource) (w : FieldWrite) : Field := r.newField w.key (.spelled w.given) w.ref?

def write (r : Resource) (w : FieldWrite) : Resource :=
  if w.observed then r.addStatus (.spelled w.given) w.ref?
  else r.addSpec (.spelled w.given) w.ref?

def lastField (r : Resource) (ws : List FieldWrite) : Option Field := ws.getLast?.map r.field

/-- What writes do to a resource: each name holds what was written under it last. -/
structure Wrote (ws : List FieldWrite) (r r' : Resource) : Prop where
  names : r'.names = r.names
  ops : r'.ops = r.ops
  settings : r'.settings = r.settings
  part : ∀ o k, (r'.part o).get? k =
    (r.lastField (ws.filter fun w => w.observed == o && w.key == k)).or ((r.part o).get? k)
  fields : ∀ k, r'.fields.get? k =
    (r.lastField (ws.filter fun w => w.key == k)).or (r.fields.get? k)

/-- Something was written. -/
def Grown (r r' : Resource) : Prop := ∃ ws, Wrote ws r r'

variable {r r' r'' : Resource} {ws ws' : List FieldWrite} {w : FieldWrite} {o : Bool} {k : String}

section Writes

theorem field_congr (h : r'.settings = r.settings) (w : FieldWrite) : r'.field w = r.field w := by
  unfold field newField
  rw [h]

theorem lastField_congr (h : r'.settings = r.settings) (ws : List FieldWrite) :
    r'.lastField ws = r.lastField ws := by
  unfold lastField
  rw [funext (field_congr h)]

theorem lastField_append (r : Resource) (ws ws' : List FieldWrite) :
    r.lastField (ws ++ ws') = (r.lastField ws').or (r.lastField ws) := by
  unfold lastField
  rw [List.getLast?_append]
  cases ws'.getLast? <;> rfl

theorem lastField_isSome : (r.lastField ws).isSome = true ↔ ws ≠ [] := by
  simp [lastField]

/-- Without writes only the identifier may change. -/
theorem Wrote.nil (id? : Option String) : Wrote [] r { r with identifier? := id? } :=
  ⟨rfl, rfl, rfl, fun _ _ => rfl, fun _ => rfl⟩

theorem Wrote.append (h : Wrote ws r r') (h' : Wrote ws' r' r'') : Wrote (ws ++ ws') r r'' where
  names := h'.names.trans h.names
  ops := h'.ops.trans h.ops
  settings := h'.settings.trans h.settings
  part o k := by
    rw [h'.part, h.part, lastField_congr h.settings, List.filter_append, lastField_append,
      Option.or_assoc]
  fields k := by
    rw [h'.fields, h.fields, lastField_congr h.settings, List.filter_append, lastField_append,
      Option.or_assoc]

theorem Wrote.mem_part (h : Wrote ws r r') : k ∈ (r'.part o).keys ↔
    (∃ w ∈ ws, w.observed = o ∧ w.key = k) ∨ k ∈ (r.part o).keys := by
  have hsome : ∀ {t : Table Field}, k ∈ t.keys ↔ (t.get? k).isSome = true := by
    intro t
    rw [Table.mem_keys_iff, Option.isSome_iff_exists]
  rw [hsome, hsome, h.part, Option.isSome_or, Bool.or_eq_true, lastField_isSome, ne_eq,
    List.filter_eq_nil_iff]
  simp

theorem part_write (r : Resource) (w : FieldWrite) (o : Bool) : (r.write w).part o =
    if w.observed = o then (r.part o).insert w.key (r.field w) else r.part o := by
  obtain ⟨observed, given, ref?⟩ := w
  cases observed <;> cases o <;> rfl

theorem fields_write (r : Resource) (w : FieldWrite) :
    (r.write w).fields = r.fields.insert w.key (r.field w) := by
  obtain ⟨observed, given, ref?⟩ := w
  cases observed <;> rfl

theorem wrote_write (r : Resource) (w : FieldWrite) : Wrote [w] r (r.write w) where
  names := by unfold write; split <;> rfl
  ops := by unfold write; split <;> rfl
  settings := by unfold write; split <;> rfl
  part o k := by
    rw [part_write]
    by_cases ho : w.observed = o
    · rw [if_pos ho, Table.get?_insert]
      by_cases hk : k = w.key
      · simp [ho, hk, lastField]
      · simp [hk, Ne.symm hk, lastField]
    · simp [ho, lastField]
  fields k := by
    rw [fields_write, Table.get?_insert]
    by_cases hk : k = w.key
    · simp [hk, lastField]
    · simp [hk, Ne.symm hk, lastField]

theorem Grown.refl (r : Resource) : r.Grown r := ⟨[], .nil r.identifier?⟩

theorem Grown.trans (h : r.Grown r') (h' : r'.Grown r'') : r.Grown r'' := by
  obtain ⟨ws, h⟩ := h
  obtain ⟨ws', h'⟩ := h'
  exact ⟨ws ++ ws', h.append h'⟩

theorem Grown.keys (h : r.Grown r') (o : Bool) : (r.part o).keys ⊆ (r'.part o).keys := by
  obtain ⟨ws, h⟩ := h
  intro k hk
  exact h.mem_part.mpr (.inr hk)

theorem Grown.settings (h : r.Grown r') : r'.settings = r.settings := by
  obtain ⟨ws, h⟩ := h
  exact h.settings

theorem Grown.ops (h : r.Grown r') : r'.ops = r.ops := by
  obtain ⟨ws, h⟩ := h
  exact h.ops

theorem Grown.names (h : r.Grown r') : r'.names = r.names := by
  obtain ⟨ws, h⟩ := h
  exact h.names

end Writes

section Passes

/-- What the steps of a pass may do: write a field, pass over what they are given, or mark a member
as the one that identifies the resource. -/
structure Rule (β : Type) where
  writes : Resource → β → FieldWrite → Prop
  skips : Resource → β → Prop
  marks : Resource → β → String → Prop := fun _ _ _ => False

variable {β : Type} {rule : Rule β} {l : List β}

/-- A step of a pass. -/
inductive Rule.Step (rule : Rule β) (before : Resource) (b : β) : Resource → Prop where
  | write {v : FieldWrite} : rule.writes before b v → Step rule before b (before.write v)
  | skip : rule.skips before b → Step rule before b before
  | mark {member : String} : rule.marks before b member →
      Step rule before b { before with identifier? := some member }

/-- What a pass writes, and why it does not write the rest. -/
structure Rule.Pass (rule : Rule β) (l : List β) (ws : List FieldWrite) (first last : Resource) :
    Prop where
  wrote : Wrote ws first last
  source : ∀ w ∈ ws, ∃ b ∈ l, ∃ a, first.Grown a ∧ a.Grown last ∧ rule.writes a b w
  done : ∀ b ∈ l, ∃ a, first.Grown a ∧ a.Grown last ∧
    ((∃ w ∈ ws, rule.writes a b w) ∨ rule.skips a b ∨ ∃ member, rule.marks a b member)
  unmarked : (∀ a b member, ¬ rule.marks a b member) → last.identifier? = first.identifier?

theorem write_identifier (r : Resource) (w : FieldWrite) :
    (r.write w).identifier? = r.identifier? := by
  unfold write
  split <;> rfl

theorem Rule.Step.grown {b : β} (h : rule.Step r b r') : r.Grown r' := by
  cases h with
  | @write w _ => exact ⟨[w], wrote_write r w⟩
  | skip _ => exact .refl r
  | @mark member _ => exact ⟨[], .nil (some member)⟩

theorem Rule.pass_nil (rule : Rule β) (r : Resource) : rule.Pass [] [] r r :=
  ⟨.nil r.identifier?, by simp, by simp, fun _ => rfl⟩

/-- A step before a pass adds what it writes, and accounts for what it is given. -/
theorem Rule.Pass.cons {b : β} {now : List FieldWrite} (hpass : rule.Pass l ws r' r'')
    (hwrote : Wrote now r r') (hsource : ∀ w ∈ now, rule.writes r b w)
    (hdone : (∃ w ∈ now, rule.writes r b w) ∨ rule.skips r b ∨ ∃ member, rule.marks r b member)
    (hunmarked : (∀ a b member, ¬ rule.marks a b member) → r'.identifier? = r.identifier?) :
    rule.Pass (b :: l) (now ++ ws) r r'' := by
  have hnow : r.Grown r' := ⟨now, hwrote⟩
  have hlater : r'.Grown r'' := ⟨ws, hpass.wrote⟩
  constructor
  case wrote => exact hwrote.append hpass.wrote
  case source =>
    intro w hw
    rcases List.mem_append.mp hw with hw | hw
    · exact ⟨b, List.mem_cons_self .., r, .refl r, hnow.trans hlater, hsource w hw⟩
    · obtain ⟨c, hc, a, ha, ha', hw⟩ := hpass.source w hw
      exact ⟨c, List.mem_cons_of_mem _ hc, a, hnow.trans ha, ha', hw⟩
  case done =>
    rw [List.forall_mem_cons]
    constructor
    · refine ⟨r, .refl r, hnow.trans hlater, hdone.imp_left ?_⟩
      rintro ⟨w, hw, hwrites⟩
      exact ⟨w, List.mem_append_left _ hw, hwrites⟩
    · intro c hc
      obtain ⟨a, ha, ha', hdone⟩ := hpass.done c hc
      refine ⟨a, hnow.trans ha, ha', hdone.imp_left ?_⟩
      rintro ⟨w, hw, hwrites⟩
      exact ⟨w, List.mem_append_right _ hw, hwrites⟩
  case unmarked =>
    intro hnone
    rw [hpass.unmarked hnone, hunmarked hnone]

theorem pass_of_steps (h : Steps rule.Step r l r') : ∃ ws, rule.Pass l ws r r' := by
  induction h with
  | @nil r => exact ⟨[], rule.pass_nil r⟩
  | @cons r b r₁ l r' hstep _ ih =>
    obtain ⟨ws, hpass⟩ := ih
    cases hstep with
    | @write w hw =>
      refine ⟨[w] ++ ws, hpass.cons (wrote_write r w) ?_ ?_ ?_⟩
      · intro v hv
        rw [List.mem_singleton.mp hv]
        exact hw
      · exact .inl ⟨w, List.mem_singleton.mpr rfl, hw⟩
      · exact fun _ => write_identifier r w
    | skip hs => exact ⟨ws, hpass.cons (.nil r.identifier?) (by simp) (.inr (.inl hs)) fun _ => rfl⟩
    | @mark member hm =>
      refine ⟨ws, hpass.cons (.nil _) (by simp) (.inr (.inr ⟨member, hm⟩)) ?_⟩
      intro hnone
      exact (hnone r b member hm).elim

/-- A pass that writes one field for each of its elements. -/
theorem wrote_of_steps {g : Resource → β → FieldWrite}
    (hg : ∀ a, r.Grown a → g a = g r) (h : Steps (fun a b a' => a' = a.write (g a b)) r l r') :
    Wrote (l.map (g r)) r r' ∧ r'.identifier? = r.identifier? := by
  generalize hfixed : g r = fixed at hg ⊢
  induction h with
  | @nil r => exact ⟨.nil r.identifier?, rfl⟩
  | @cons r b r₁ l r' hstep _ ih =>
    subst hstep
    have hnow : r.Grown (r.write (g r b)) := ⟨[_], wrote_write r _⟩
    obtain ⟨hrest, hidentifier⟩ := ih (hg _ hnow) fun a ha => hg a (hnow.trans ha)
    rw [hidentifier, write_identifier, List.map_cons, ← hfixed]
    rw [← hfixed] at hrest
    exact ⟨(wrote_write r (g r b)).append hrest, rfl⟩

end Passes

end Resource

end ResourceVersions
