import Mathlib.Logic.Relation
import ResourceVersions.Proofs.Rounds

/-! # Where a chain of lists and maps ends

Two walks go from a list to its element and from a map to its value. One gives the shape at the end
of the chain and fails if there is none, the other one tells whether a scalar is there. Each keeps
its own account of what it has passed: the first one notes lists and maps, the second one every
shape. Nothing has two next shapes. So a chain ends at a shape that is neither a list nor a map, or
at an undefined name, or it comes back, and never two of these. -/
namespace ResourceVersions.Api

open Relation (ReflTransGen TransGen)

variable {api : Api} {seen : List String} {name x y z inner : String} {s : Shape}
  {r : Except SchemaError String}

/-- From a list to its element and from a map to its value. -/
def Passes (api : Api) (x y : String) : Prop :=
  ∃ s ref, api.shapes.get? x = some s ∧ s.form.element? = some ref ∧ ref.target = y

/-- The chain comes back to a list or map that it has passed. -/
def Circles (api : Api) (name : String) : Prop :=
  ∃ x, ReflTransGen api.Passes name x ∧ TransGen api.Passes x x

/-- The chain reaches a name without a shape. -/
def Breaks (api : Api) (name : String) : Prop :=
  ∃ x, ReflTransGen api.Passes name x ∧ api.shapes.get? x = none

def IsScalar (api : Api) (name : String) : Prop :=
  ∃ s t, api.shapes.get? name = some s ∧ s.form = .scalar t

/-- What the chain that starts at a name comes to. -/
inductive ChainEnd (api : Api) (name : String) : Except SchemaError String → Prop
  | found {inner : String} {s : Shape} : ReflTransGen api.Passes name inner →
      api.shapes.get? inner = some s → s.form.element? = none → ChainEnd api name (.ok inner)
  | undefined {x : String} : ReflTransGen api.Passes name x → api.shapes.get? x = none →
      ChainEnd api name (.error (.undefinedShape x))
  | circle {x : String} : ReflTransGen api.Passes name x → TransGen api.Passes x x →
      ChainEnd api name (.error (.selfContaining x))

section Chains

theorem isScalar_iff (hs : api.shapes.get? x = some s) :
    api.IsScalar x ↔ ∃ t, s.form = .scalar t := by
  simp [IsScalar, hs]

theorem isStruct_iff (hs : api.shapes.get? x = some s) :
    api.IsStruct x ↔ s.form.isStruct = true := by
  simp [IsStruct, hs]

theorem passes_unique : Relator.RightUnique api.Passes := by
  rintro x y z ⟨s, ref, hs, href, rfl⟩ ⟨t, ref', ht, href', rfl⟩
  cases hs.symm.trans ht
  cases href.symm.trans href'
  rfl

theorem not_passes_end (hs : api.shapes.get? x = some s) (hend : s.form.element? = none) :
    ¬api.Passes x y := by
  rintro ⟨t, ref, ht, href, -⟩
  cases hs.symm.trans ht
  cases hend.symm.trans href

theorem not_passes_undefined (hs : api.shapes.get? x = none) : ¬api.Passes x y := by
  rintro ⟨t, ref, ht, -, -⟩
  cases hs.symm.trans ht

/-- Behind a name that the chain comes back to, it comes back to every name. -/
theorem circle_forward (hx : TransGen api.Passes x x) (hxy : ReflTransGen api.Passes x y) :
    TransGen api.Passes y y := by
  induction hxy with
  | refl => exact hx
  | tail _ hyz ih =>
    obtain ⟨z', hyz', hback⟩ := TransGen.head'_iff.mp ih
    obtain rfl := passes_unique hyz hyz'
    exact TransGen.tail' hback hyz

/-- A chain with an end does not come back. -/
theorem not_circles (hx : ReflTransGen api.Passes name x) (hend : ∀ y, ¬api.Passes x y) :
    ¬api.Circles name := by
  rintro ⟨y, hy, hcircle⟩
  have hagain : TransGen api.Passes x x := by
    rcases ReflTransGen.total_of_right_unique passes_unique hx hy with hxy | hyx
    · rcases hxy.cases_head with rfl | ⟨z, hxz, -⟩
      · exact hcircle
      · exact absurd hxz (hend z)
    · exact circle_forward hcircle hyx
  obtain ⟨z, hxz, -⟩ := TransGen.head'_iff.mp hagain
  exact hend z hxz

/-- A chain has one end. -/
theorem end_unique (hx : ReflTransGen api.Passes name x) (hy : ReflTransGen api.Passes name y)
    (hxend : ∀ z, ¬api.Passes x z) (hyend : ∀ z, ¬api.Passes y z) : x = y := by
  rcases ReflTransGen.total_of_right_unique passes_unique hx hy with hxy | hyx
  · rcases hxy.cases_head with rfl | ⟨z, hxz, -⟩
    · rfl
    · exact absurd hxz (hxend z)
  · rcases hyx.cases_head with rfl | ⟨z, hyz, -⟩
    · rfl
    · exact absurd hyz (hyend z)

theorem ChainEnd.head (hxy : api.Passes x y) (h : api.ChainEnd y r) : api.ChainEnd x r := by
  cases h with
  | found hchain hs hend => exact .found (.head hxy hchain) hs hend
  | undefined hchain hs => exact .undefined (.head hxy hchain) hs
  | circle hchain hback => exact .circle (.head hxy hchain) hback

end Chains

section Walks

/-- A walk that has passed some shapes on its way to a name comes to the end of the chain. -/
theorem chainEnd_innermostFrom (hseen : ∀ x ∈ seen, TransGen api.Passes x name) :
    api.ChainEnd name (api.innermostFrom seen name) := by
  induction seen, name using innermostFrom.induct api with
  | case1 seen name hs =>
    rw [innermostFrom_undefined hs]
    exact .undefined .refl hs
  | case2 seen name s hs hend =>
    rw [innermostFrom_eq hs, hend]
    exact .found .refl hs hend
  | case3 seen name s hs ref href hin =>
    rw [innermostFrom_eq hs, href]
    dsimp only
    rw [if_pos hin]
    exact .circle .refl (hseen name hin)
  | case4 seen name s hs ref href hin ih =>
    have hstep : api.Passes name ref.target := ⟨s, ref, hs, href, rfl⟩
    rw [innermostFrom_eq hs, href]
    dsimp only
    rw [if_neg hin]
    apply ChainEnd.head hstep
    apply ih
    intro x hx
    rcases List.mem_cons.mp hx with rfl | hx
    · exact .single hstep
    · exact (hseen x hx).tail hstep

theorem chainEnd_innermost (api : Api) (name : String) :
    api.ChainEnd name (api.innermost name) :=
  chainEnd_innermostFrom (by simp)

theorem innermost_ok_iff : api.innermost name = .ok inner ↔
    ReflTransGen api.Passes name inner ∧
      ∃ s, api.shapes.get? inner = some s ∧ s.form.element? = none := by
  have h := chainEnd_innermost api name
  constructor
  · intro hok
    rw [hok] at h
    cases h with
    | found hchain hs hend => exact ⟨hchain, _, hs, hend⟩
  · rintro ⟨hchain, s, hs, hend⟩
    have hlast : ∀ y, ¬api.Passes inner y := fun _ => not_passes_end hs hend
    generalize api.innermost name = r at h ⊢
    cases h with
    | found hchain' hs' hend' =>
      rw [end_unique hchain hchain' hlast fun _ => not_passes_end hs' hend']
    | undefined hchain' hs' =>
      obtain rfl := end_unique hchain hchain' hlast fun _ => not_passes_undefined hs'
      cases hs.symm.trans hs'
    | circle hchain' hback => exact absurd ⟨_, hchain', hback⟩ (not_circles hchain hlast)

/-- The walk fails exactly where the chain has no shape at its end. -/
theorem innermost_error_iff :
    (∃ e, api.innermost name = .error e) ↔ api.Breaks name ∨ api.Circles name := by
  have h := chainEnd_innermost api name
  generalize api.innermost name = r at h ⊢
  cases h with
  | found hchain hs hend =>
    have hlast : ∀ y, ¬api.Passes _ y := fun _ => not_passes_end hs hend
    constructor
    · rintro ⟨e, he⟩
      cases he
    · rintro (⟨x, hx, hnone⟩ | hcircles)
      · obtain rfl := end_unique hchain hx hlast fun _ => not_passes_undefined hnone
        cases hs.symm.trans hnone
      · exact absurd hcircles (not_circles hchain hlast)
  | undefined hchain hs => exact ⟨fun _ => .inl ⟨_, hchain, hs⟩, fun _ => ⟨_, rfl⟩⟩
  | circle hchain hback => exact ⟨fun _ => .inr ⟨_, hchain, hback⟩, fun _ => ⟨_, rfl⟩⟩

/-- The second walk notes every shape that it looks at. Only lists and maps have been noted when it
looks at the next one, and the end of a chain is none. -/
theorem isPlainFrom_iff (hseen : ∀ x ∈ seen, ∃ y, api.Passes x y) :
    api.isPlainFrom seen name = true ↔
      ∃ inner, api.innermostFrom seen name = .ok inner ∧ api.IsScalar inner := by
  induction seen, name using innermostFrom.induct api with
  | case1 seen name hs =>
    rw [isPlainFrom_undefined hs, innermostFrom_undefined hs]
    simp
  | case2 seen name s hs hend =>
    have hfresh : name ∉ seen := by
      intro hin
      obtain ⟨y, hy⟩ := hseen name hin
      exact not_passes_end hs hend hy
    rw [Side.isPlainFrom_eq hs, if_neg hfresh, innermostFrom_eq hs, hend]
    simp only [Except.ok.injEq, exists_eq_left', isScalar_iff hs]
    cases hform : s.form with
    | scalar t => simp
    | struct members => simp
    | list e =>
      rw [hform] at hend
      cases hend
    | map k v =>
      rw [hform] at hend
      cases hend
  | case3 seen name s hs ref href hin =>
    rw [Side.isPlainFrom_eq hs, if_pos hin, innermostFrom_eq hs, href]
    simp [hin]
  | case4 seen name s hs ref href hin ih =>
    have hpassed : ∀ x ∈ name :: seen, ∃ y, api.Passes x y :=
      List.forall_mem_cons.mpr ⟨⟨_, s, ref, hs, href, rfl⟩, hseen⟩
    rw [Side.isPlainFrom_eq hs, if_neg hin, innermostFrom_eq hs, href]
    dsimp only
    rw [if_neg hin, ← ih hpassed]
    cases hform : s.form with
    | scalar t =>
      rw [hform] at href
      cases href
    | struct members =>
      rw [hform] at href
      cases href
    | list e =>
      rw [hform] at href
      cases href
      rfl
    | map k v =>
      rw [hform] at href
      cases href
      rfl

theorem isPlain_iff : api.isPlain name = true ↔
    ∃ inner, api.innermost name = .ok inner ∧ api.IsScalar inner :=
  isPlainFrom_iff (by simp)

/-- A shape that is neither a list nor a map is either a scalar or a structure. -/
theorem scalar_or_struct (hs : api.shapes.get? x = some s) (hend : s.form.element? = none) :
    (api.IsScalar x ∧ ¬api.IsStruct x) ∨ (api.IsStruct x ∧ ¬api.IsScalar x) := by
  rw [isScalar_iff hs, isStruct_iff hs]
  cases hform : s.form with
  | scalar t => simp [Form.isStruct]
  | struct members => simp [Form.isStruct]
  | list e =>
    rw [hform] at hend
    cases hend
  | map k v =>
    rw [hform] at hend
    cases hend

theorem not_isPlain_iff : api.isPlain name = false ↔
    (∃ inner, api.innermost name = .ok inner ∧ api.IsStruct inner) ∨
      ∃ e, api.innermost name = .error e := by
  rw [← Bool.not_eq_true, isPlain_iff]
  cases h : api.innermost name with
  | error e => simp
  | ok inner =>
    obtain ⟨-, s, hs, hend⟩ := innermost_ok_iff.mp h
    rcases scalar_or_struct hs hend with ⟨hscalar, hstruct⟩ | ⟨hstruct, hscalar⟩
    · simp [hscalar, hstruct]
    · simp [hscalar, hstruct]

end Walks

/-- Both walks end, within one round more than there are shapes. The first one gives the shape at
the end of the chain, and the second one is positive exactly if that shape is a scalar. If it is
not, the first one gives a structure or fails, and it fails exactly if the chain reaches an
undefined name or comes back. -/
theorem walks_agree (api : Api) (name : String) :
    (Ends api.innermostRound (fun walk => api.innermostFrom walk.1 walk.2)
        (fun _ => api.shapes.size + 1) ∧
      Ends api.plainRound (fun walk => api.isPlainFrom walk.1 walk.2)
        fun _ => api.shapes.size + 1) ∧
    (∀ inner, api.innermost name = .ok inner ↔ ReflTransGen api.Passes name inner ∧
      ∃ s, api.shapes.get? inner = some s ∧ s.form.element? = none) ∧
    (api.isPlain name = true ↔
      ∃ inner, api.innermost name = .ok inner ∧ api.IsScalar inner) ∧
    (api.isPlain name = false ↔
      (∃ inner, api.innermost name = .ok inner ∧ api.IsStruct inner) ∨
        ∃ e, api.innermost name = .error e) ∧
    ((∃ e, api.innermost name = .error e) ↔ api.Breaks name ∨ api.Circles name) := by
  refine ⟨⟨api.innermost_ends, api.plain_ends⟩, ?_, isPlain_iff, not_isPlain_iff,
    innermost_error_iff⟩
  intro inner
  exact innermost_ok_iff

end ResourceVersions.Api
