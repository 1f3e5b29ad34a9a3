import Mathlib.Tactic.Common
import ResourceVersions.Api.Equality
import ResourceVersions.Proofs.Table

/-! # Equal structure is bisimilarity

The comparison keeps one list of met pairs and takes a met pair as equal, whatever becomes of
it. It is nevertheless exact: the pairs met by a successful comparison form a bisimulation, and
no pair of a bisimulation makes it fail. -/
namespace ResourceVersions.Api

variable {a b c : Api} {R S : String → String → Prop} {x y z : String}

/-- Two targets that are both undefined, or related. -/
def Linked (a b : Api) (R : String → String → Prop) (x y : String) : Prop :=
  (a.shape? x = none ∧ b.shape? y = none) ∨ R x y

/-- Two shapes of one type, with the same members, whose references lead to linked targets. -/
structure Alike (a b : Api) (R : String → String → Prop) (s t : Shape) : Prop where
  type : s.form.typeText = t.form.typeText
  members : ∀ m, m ∈ s.form.members.keys ↔ m ∈ t.form.members.keys
  refs : ∀ label p q, (label, p) ∈ s.form.refs → (label, q) ∈ t.form.refs →
    Linked a b R p.target q.target

def Bisimulation (a b : Api) (R : String → String → Prop) : Prop :=
  ∀ x y, R x y → ∃ s t, a.shape? x = some s ∧ b.shape? y = some t ∧ Alike a b R s t

@[simp] theorem scalar_text_inj {s t : Scalar} : s.text = t.text ↔ s = t := by
  cases s <;> cases t <;> decide

/-- No scalar is called like one of the other forms. -/
theorem scalar_text_ne (s : Scalar) :
    "structure" ≠ s.text ∧ "list" ≠ s.text ∧ "map" ≠ s.text := by
  cases s <;> decide

theorem typeText_scalar {k : Scalar} {f : Form} (h : k.text = f.typeText) :
    f = .scalar k := by
  cases f with
  | scalar l => rw [scalar_text_inj.mp h]
  | struct => exact absurd h.symm (scalar_text_ne k).1
  | list => exact absurd h.symm (scalar_text_ne k).2.1
  | map => exact absurd h.symm (scalar_text_ne k).2.2

theorem typeText_list {f : Form} (h : "list" = f.typeText) : ∃ e, f = .list e := by
  cases f with
  | scalar l => exact absurd h (scalar_text_ne l).2.1
  | list e => exact ⟨e, rfl⟩
  | struct => simp [Form.typeText] at h
  | map => simp [Form.typeText] at h

theorem typeText_map {f : Form} (h : "map" = f.typeText) : ∃ k v, f = .map k v := by
  cases f with
  | scalar l => exact absurd h (scalar_text_ne l).2.2
  | map k v => exact ⟨k, v, rfl⟩
  | struct => simp [Form.typeText] at h
  | list => simp [Form.typeText] at h

/-- The pairs that a comparison opens are the targets under equal labels. -/
theorem mem_links {f g : Form} {pairs : List (String × String)} (h : links? f g = some pairs)
    (u v : String) : (u, v) ∈ pairs ↔
      ∃ label p q, (label, p) ∈ f.refs ∧ (label, q) ∈ g.refs ∧ p.target = u ∧ q.target = v := by
  cases f <;> cases g <;> simp only [links?, reduceCtorEq] at h
  case scalar.scalar s t =>
    split at h
    · cases h
      simp [Form.refs]
    · cases h
  case struct.struct ms ns =>
    split at h
    · cases h
      simp only [Form.refs, List.mem_filterMap, Option.map_eq_some_iff, Prod.mk.injEq,
        Prod.exists, Table.mem_sorted_iff]
      constructor
      · rintro ⟨m, p, hp, q, hq, rfl, rfl⟩
        exact ⟨m, p, q, hp, hq, rfl, rfl⟩
      · rintro ⟨m, p, q, hp, hq, rfl, rfl⟩
        exact ⟨m, p, hp, q, hq, rfl, rfl⟩
    · cases h
  case list.list e d =>
    cases h
    simp only [Form.refs, List.mem_singleton, Prod.mk.injEq]
    constructor
    · rintro ⟨rfl, rfl⟩
      exact ⟨"member", e, d, ⟨rfl, rfl⟩, ⟨rfl, rfl⟩, rfl, rfl⟩
    · rintro ⟨label, p, q, ⟨-, rfl⟩, ⟨-, rfl⟩, rfl, rfl⟩
      exact ⟨rfl, rfl⟩
  case map.map k w l w' =>
    cases h
    simp only [Form.refs, List.mem_cons, List.not_mem_nil, or_false, Prod.mk.injEq]
    constructor
    · rintro (⟨rfl, rfl⟩ | ⟨rfl, rfl⟩)
      · exact ⟨"key", k, l, .inl ⟨rfl, rfl⟩, .inl ⟨rfl, rfl⟩, rfl, rfl⟩
      · exact ⟨"value", w, w', .inr ⟨rfl, rfl⟩, .inr ⟨rfl, rfl⟩, rfl, rfl⟩
    · rintro ⟨label, p, q, ⟨rfl, rfl⟩ | ⟨rfl, rfl⟩, hq, rfl, rfl⟩
      · rcases hq with ⟨-, rfl⟩ | ⟨h, -⟩
        · exact .inl ⟨rfl, rfl⟩
        · exact absurd h (by decide)
      · rcases hq with ⟨h, -⟩ | ⟨-, rfl⟩
        · exact absurd h (by decide)
        · exact .inr ⟨rfl, rfl⟩

/-- Two forms can be compared further if they have one type and the same members. -/
theorem links_isSome_iff (f g : Form) : (links? f g).isSome ↔
    f.typeText = g.typeText ∧ ∀ m, m ∈ f.members.keys ↔ m ∈ g.members.keys := by
  cases f <;> cases g <;>
    simp [links?, Form.typeText, Form.members, Table.sortedKeys_eq_iff, scalar_text_ne,
      (scalar_text_ne _).1.symm, (scalar_text_ne _).2.1.symm, (scalar_text_ne _).2.2.symm]

/-- A bisimulation opens linked shapes of which one is defined. -/
theorem Bisimulation.alike (hR : Bisimulation a b R) {s t : Shape} (h : Linked a b R x y)
    (hs : a.shape? x = some s) (ht : b.shape? y = some t) : Alike a b R s t := by
  rcases h with ⟨hn, -⟩ | h
  · rw [hn] at hs
    cases hs
  · obtain ⟨s', t', hs', ht', halike⟩ := hR x y h
    cases hs.symm.trans hs'
    cases ht.symm.trans ht'
    exact halike

theorem Alike.linked_of_mem {s t : Shape} (h : Alike a b R s t)
    {pairs : List (String × String)} (hp : links? s.form t.form = some pairs) {u v : String}
    (hm : (u, v) ∈ pairs) : Linked a b R u v := by
  obtain ⟨label, p, q, hl, hq, rfl, rfl⟩ := (mem_links hp u v).mp hm
  exact h.refs label p q hl hq

theorem alike_of_links {s t : Shape} {pairs : List (String × String)}
    (hp : links? s.form t.form = some pairs)
    (h : ∀ u v, (u, v) ∈ pairs → Linked a b R u v) : Alike a b R s t := by
  obtain ⟨type, members⟩ := (links_isSome_iff s.form t.form).mp (by rw [hp]; rfl)
  refine ⟨type, members, ?_⟩
  intro label p q hl hq
  exact h _ _ ((mem_links hp _ _).mpr ⟨label, p, q, hl, hq, rfl, rfl⟩)

/-- What is met in the end of a successful comparison is closed: a pair that was added, even
one whose comparison was unfinished when it was met again, has all its links among the pairs
met. -/
theorem agreeFrom_sound {met todo : List (String × String)}
    (h : agreeFrom a b met todo = true) :
    ∃ final : List (String × String), met ⊆ final ∧
      (∀ u v, (u, v) ∈ todo → Linked a b (fun u v => (u, v) ∈ final) u v) ∧
      ∀ u v, (u, v) ∈ final → (u, v) ∉ met → ∃ s t, a.shape? u = some s ∧ b.shape? v = some t ∧
        Alike a b (fun u v => (u, v) ∈ final) s t := by
  fun_induction agreeFrom a b met todo with
  | case1 met => exact ⟨met, fun _ hp => hp, by simp, fun u v hp hn => absurd hp hn⟩
  | case2 met x y rest hs ht ih =>
    obtain ⟨final, hmet, htodo, hnew⟩ := ih h
    refine ⟨final, hmet, ?_, hnew⟩
    intro u v hp
    rcases List.mem_cons.mp hp with e | hp
    · obtain ⟨rfl, rfl⟩ := Prod.mk.inj e
      exact .inl ⟨hs, ht⟩
    · exact htodo u v hp
  | case3 met x y rest s t hs ht hm ih =>
    obtain ⟨final, hmet, htodo, hnew⟩ := ih h
    refine ⟨final, hmet, ?_, hnew⟩
    intro u v hp
    rcases List.mem_cons.mp hp with e | hp
    · obtain ⟨rfl, rfl⟩ := Prod.mk.inj e
      exact .inr (hmet hm)
    · exact htodo u v hp
  | case4 => cases h
  | case5 met x y rest s t hs ht hm pairs hp ih =>
    obtain ⟨final, hmet, htodo, hnew⟩ := ih h
    have hin : (x, y) ∈ final := hmet (List.mem_cons_self ..)
    refine ⟨final, fun p hp => hmet (List.mem_cons_of_mem _ hp), ?_, ?_⟩
    · intro u v hm
      rcases List.mem_cons.mp hm with e | hm
      · obtain ⟨rfl, rfl⟩ := Prod.mk.inj e
        exact .inr hin
      · exact htodo u v (List.mem_append_right _ hm)
    · intro u v hf hn
      by_cases e : (u, v) = (x, y)
      · obtain ⟨rfl, rfl⟩ := Prod.mk.inj e
        exact ⟨s, t, hs, ht, alike_of_links hp fun u v hm =>
          htodo u v (List.mem_append_left _ hm)⟩
      · exact hnew u v hf (by simp [e, hn])
  | case6 => cases h

/-- No pair of a bisimulation makes a comparison fail, whatever has been met before. -/
theorem agreeFrom_complete (hR : Bisimulation a b R) {met todo : List (String × String)}
    (h : ∀ u v, (u, v) ∈ todo → Linked a b R u v) : agreeFrom a b met todo = true := by
  fun_induction agreeFrom a b met todo with
  | case1 => rfl
  | case2 met x y rest hs ht ih => exact ih fun u v hp => h u v (List.mem_cons_of_mem _ hp)
  | case3 met x y rest s t hs ht hm ih =>
    exact ih fun u v hp => h u v (List.mem_cons_of_mem _ hp)
  | case4 met x y rest s t hs ht hm hp =>
    have halike := hR.alike (h x y (List.mem_cons_self ..)) hs ht
    have hsome := (links_isSome_iff s.form t.form).mpr ⟨halike.type, halike.members⟩
    rw [hp] at hsome
    cases hsome
  | case5 met x y rest s t hs ht hm pairs hp ih =>
    have halike := hR.alike (h x y (List.mem_cons_self ..)) hs ht
    apply ih
    intro u v hm
    rcases List.mem_append.mp hm with hm | hm
    · exact halike.linked_of_mem hp hm
    · exact h u v (List.mem_cons_of_mem _ hm)
  | case6 met x y rest hboth hsome =>
    rcases h x y (List.mem_cons_self ..) with ⟨hs, ht⟩ | hxy
    · exact (hboth hs ht).elim
    · obtain ⟨s, t, hs, ht, -⟩ := hR x y hxy
      exact (hsome s t hs ht).elim

/-- Equal structure in terms of linked names. -/
theorem sameStructure_iff_linked : sameStructure a b x y = true ↔
    ∃ R, Bisimulation a b R ∧ Linked a b R x y := by
  constructor
  · intro h
    obtain ⟨final, -, htodo, hnew⟩ := agreeFrom_sound h
    refine ⟨fun u v => (u, v) ∈ final, ?_, htodo x y (by simp)⟩
    intro u v hf
    exact hnew u v hf (by simp)
  · rintro ⟨R, hR, hxy⟩
    apply agreeFrom_complete hR
    intro u v hm
    obtain ⟨rfl, rfl⟩ := Prod.mk.inj (List.mem_singleton.mp hm)
    exact hxy

theorem Linked.refl (a : Api) (x : String) :
    Linked a a (fun u v => u = v ∧ (a.shape? u).isSome) x x := by
  cases h : a.shape? x with
  | none => exact .inl ⟨h, h⟩
  | some s => exact .inr ⟨rfl, by rw [h]; rfl⟩

theorem Linked.symm (h : Linked a b R x y) : Linked b a (fun u v => R v u) y x := by
  rcases h with ⟨hx, hy⟩ | h
  · exact .inl ⟨hy, hx⟩
  · exact .inr h

theorem Linked.comp (hR : Bisimulation a b R) (hS : Bisimulation b c S)
    (h : Linked a b R x y) (k : Linked b c S y z) :
    Linked a c (fun u w => ∃ v, R u v ∧ S v w) x z := by
  rcases h with ⟨hx, hy⟩ | h <;> rcases k with ⟨hy', hz⟩ | k
  · exact .inl ⟨hx, hz⟩
  · obtain ⟨t, -, ht, -⟩ := hS y z k
    rw [hy] at ht
    cases ht
  · obtain ⟨-, t, -, ht, -⟩ := hR x y h
    rw [hy'] at ht
    cases ht
  · exact .inr ⟨y, h, k⟩

theorem refs_unique {f : Form} {label : String} {p q : ShapeRef} (hp : (label, p) ∈ f.refs)
    (hq : (label, q) ∈ f.refs) : p = q := by
  cases f with
  | scalar => simp [Form.refs] at hp
  | struct ms =>
    simp only [Form.refs, Table.mem_sorted_iff] at hp hq
    exact Option.some.inj (hp.symm.trans hq)
  | list e =>
    simp only [Form.refs, List.mem_singleton, Prod.mk.injEq] at hp hq
    exact hp.2.trans hq.2.symm
  | map k v =>
    simp only [Form.refs, List.mem_cons, List.not_mem_nil, or_false, Prod.mk.injEq] at hp hq
    rcases hp with ⟨rfl, rfl⟩ | ⟨rfl, rfl⟩ <;> rcases hq with ⟨h, rfl⟩ | ⟨h, rfl⟩
    · rfl
    · exact absurd h (by decide)
    · exact absurd h (by decide)
    · rfl

theorem Alike.exists_ref {s t : Shape} (h : Alike a b R s t) {label : String} {p : ShapeRef}
    (hp : (label, p) ∈ s.form.refs) : ∃ q, (label, q) ∈ t.form.refs := by
  obtain ⟨pairs, hpairs⟩ := Option.isSome_iff_exists.mp
    ((links_isSome_iff s.form t.form).mpr ⟨h.type, h.members⟩)
  have hm := h.members label
  cases hs : s.form <;> cases ht : t.form <;>
    simp only [hs, ht, links?, reduceCtorEq, Form.refs, Form.members] at hpairs hp hm ⊢
  · simp at hp
  · rw [Table.mem_sorted_iff] at hp
    obtain ⟨q, hq⟩ := Table.mem_keys_iff.mp (hm.mp (Table.mem_keys_of_get? hp))
    exact ⟨q, Table.mem_sorted_iff.mpr hq⟩
  · simp only [List.mem_singleton, Prod.mk.injEq] at hp ⊢
    exact ⟨_, hp.1, rfl⟩
  · simp only [List.mem_cons, List.not_mem_nil, or_false, Prod.mk.injEq] at hp ⊢
    rcases hp with ⟨h, -⟩ | ⟨h, -⟩
    · exact ⟨_, .inl ⟨h, rfl⟩⟩
    · exact ⟨_, .inr ⟨h, rfl⟩⟩

theorem bisimulation_empty : Bisimulation a b fun _ _ => False := fun _ _ h => h.elim

theorem bisimulation_refl (a : Api) :
    Bisimulation a a fun u v => u = v ∧ (a.shape? u).isSome := by
  rintro x y ⟨rfl, hx⟩
  obtain ⟨s, hs⟩ := Option.isSome_iff_exists.mp hx
  refine ⟨s, s, hs, hs, rfl, fun _ => Iff.rfl, ?_⟩
  intro label p q hp hq
  rw [refs_unique hp hq]
  exact Linked.refl a q.target

theorem Bisimulation.symm (hR : Bisimulation a b R) : Bisimulation b a fun u v => R v u := by
  intro y x h
  obtain ⟨s, t, hs, ht, halike⟩ := hR x y h
  refine ⟨t, s, ht, hs, halike.type.symm, fun m => (halike.members m).symm, ?_⟩
  intro label q p hq hp
  exact (halike.refs label p q hp hq).symm

theorem Bisimulation.comp (hR : Bisimulation a b R) (hS : Bisimulation b c S) :
    Bisimulation a c fun u w => ∃ v, R u v ∧ S v w := by
  rintro x z ⟨y, hxy, hyz⟩
  obtain ⟨s, t, hs, ht, hst⟩ := hR x y hxy
  obtain ⟨t', u, ht', hu, htu⟩ := hS y z hyz
  cases ht.symm.trans ht'
  refine ⟨s, u, hs, hu, hst.type.trans htu.type,
    fun m => (hst.members m).trans (htu.members m), ?_⟩
  intro label p r hp hr
  obtain ⟨q, hq⟩ := hst.exists_ref hp
  exact (hst.refs label p q hp hq).comp hR hS (htu.refs label q r hq hr)

theorem sameStructure_refl (a : Api) (x : String) : sameStructure a a x x = true :=
  sameStructure_iff_linked.mpr ⟨_, bisimulation_refl a, Linked.refl a x⟩

theorem sameStructure_symm (h : sameStructure a b x y = true) : sameStructure b a y x = true := by
  obtain ⟨R, hR, hxy⟩ := sameStructure_iff_linked.mp h
  exact sameStructure_iff_linked.mpr ⟨_, hR.symm, hxy.symm⟩

theorem sameStructure_trans (h : sameStructure a b x y = true)
    (k : sameStructure b c y z = true) : sameStructure a c x z = true := by
  obtain ⟨R, hR, hxy⟩ := sameStructure_iff_linked.mp h
  obtain ⟨S, hS, hyz⟩ := sameStructure_iff_linked.mp k
  exact sameStructure_iff_linked.mpr ⟨_, hR.comp hS, hxy.comp hR hS hyz⟩

/-- Shapes of one structure agree and lead to shapes of one structure. -/
theorem sameStructure_alike {s t : Shape} (h : sameStructure a b x y = true)
    (hs : a.shape? x = some s) (ht : b.shape? y = some t) :
    Alike a b (fun u v => sameStructure a b u v = true) s t := by
  obtain ⟨R, hR, hxy⟩ := sameStructure_iff_linked.mp h
  have halike := hR.alike hxy hs ht
  refine ⟨halike.type, halike.members, ?_⟩
  intro label p q hp hq
  exact .inr (sameStructure_iff_linked.mpr ⟨R, hR, halike.refs label p q hp hq⟩)

theorem sameStructure_ref {s t : Shape} {label : String} {p q : ShapeRef}
    (h : sameStructure a b x y = true) (hs : a.shape? x = some s) (ht : b.shape? y = some t)
    (hp : (label, p) ∈ s.form.refs) (hq : (label, q) ∈ t.form.refs) :
    sameStructure a b p.target q.target = true := by
  rcases (sameStructure_alike h hs ht).refs label p q hp hq with ⟨hp, hq⟩ | h
  · exact sameStructure_iff_linked.mpr ⟨_, bisimulation_empty, .inl ⟨hp, hq⟩⟩
  · exact h

theorem sameStructure_list {s t : Shape} {e f : ShapeRef} (h : sameStructure a b x y = true)
    (hs : a.shape? x = some s) (ht : b.shape? y = some t) (hf : s.form = .list e)
    (hf' : t.form = .list f) : sameStructure a b e.target f.target = true := by
  apply @sameStructure_ref _ _ _ _ _ _ "member" _ _ h hs ht
  · rw [hf]
    exact List.mem_singleton_self _
  · rw [hf']
    exact List.mem_singleton_self _

theorem sameStructure_map {s t : Shape} {k v l w : ShapeRef} (h : sameStructure a b x y = true)
    (hs : a.shape? x = some s) (ht : b.shape? y = some t) (hf : s.form = .map k v)
    (hf' : t.form = .map l w) : sameStructure a b v.target w.target = true := by
  apply @sameStructure_ref _ _ _ _ _ _ "value" _ _ h hs ht
  · rw [hf]
    simp [Form.refs]
  · rw [hf']
    simp [Form.refs]

theorem sameStructure_member {s t : Shape} {ms ns : Table ShapeRef} {member : String}
    {p q : ShapeRef} (h : sameStructure a b x y = true)
    (hs : a.shape? x = some s) (ht : b.shape? y = some t) (hf : s.form = .struct ms)
    (hf' : t.form = .struct ns) (hp : ms.get? member = some p) (hq : ns.get? member = some q) :
    sameStructure a b p.target q.target = true := by
  apply @sameStructure_ref _ _ _ _ _ _ member _ _ h hs ht
  · rw [hf]
    exact Table.mem_sorted_iff.mpr hp
  · rw [hf']
    exact Table.mem_sorted_iff.mpr hq

theorem sameStructure_defined {s : Shape} (h : sameStructure a b x y = true)
    (hs : a.shape? x = some s) : ∃ t, b.shape? y = some t := by
  obtain ⟨R, hR, hn | hxy⟩ := sameStructure_iff_linked.mp h
  · rw [hn.1] at hs
    cases hs
  · obtain ⟨-, t, -, ht, -⟩ := hR x y hxy
    exact ⟨t, ht⟩

/-- The shapes of an API again under other names: of each shape only the type, the members and
what its references lead to are kept. -/
def Renamed (ρ : String → String) (a b : Api) : Prop :=
  ∀ x, (a.shape? x = none ∧ b.shape? (ρ x) = none) ∨
    ∃ s t, a.shape? x = some s ∧ b.shape? (ρ x) = some t ∧
      s.form.typeText = t.form.typeText ∧
      (∀ m, m ∈ s.form.members.keys ↔ m ∈ t.form.members.keys) ∧
      ∀ label p q, (label, p) ∈ s.form.refs → (label, q) ∈ t.form.refs → q.target = ρ p.target

theorem sameStructure_renamed {ρ : String → String} (h : Renamed ρ a b) (x : String) :
    sameStructure a b x (ρ x) = true := by
  let R := fun u v => v = ρ u ∧ (a.shape? u).isSome
  have linked : ∀ u, Linked a b R u (ρ u) := by
    intro u
    rcases h u with hn | ⟨s, -, hs, -⟩
    · exact .inl hn
    · exact .inr ⟨rfl, by rw [hs]; rfl⟩
  refine sameStructure_iff_linked.mpr ⟨R, ?_, linked x⟩
  rintro u v ⟨rfl, hu⟩
  rcases h u with ⟨hn, -⟩ | ⟨s, t, hs, ht, type, members, refs⟩
  · rw [hn] at hu
    cases hu
  · refine ⟨s, t, hs, ht, type, members, ?_⟩
    intro label p q hp hq
    rw [refs label p q hp hq]
    exact linked p.target

/-- The comparison always ends, and says yes exactly for two undefined shapes and for bisimilar
ones. It is an equivalence between shapes of any APIs and does not depend on the names of shapes,
on documentation, enumerated values or the order of members. -/
theorem sameStructure_decides_bisimilarity (a b c : Api) (x y z : String) :
    (sameStructure a b x y = true ↔
      (a.shape? x = none ∧ b.shape? y = none) ∨ ∃ R, Bisimulation a b R ∧ R x y) ∧
    sameStructure a a x x = true ∧
    sameStructure a b x y = sameStructure b a y x ∧
    (sameStructure a b x y = true → sameStructure b c y z = true →
      sameStructure a c x z = true) ∧
    ∀ ρ, Renamed ρ a b → sameStructure a b x (ρ x) = true := by
  refine ⟨?_, sameStructure_refl a x, ?_, sameStructure_trans,
    fun ρ h => sameStructure_renamed h x⟩
  · rw [sameStructure_iff_linked]
    constructor
    · rintro ⟨R, hR, h | h⟩
      · exact .inl h
      · exact .inr ⟨R, hR, h⟩
    · rintro (h | ⟨R, hR, h⟩)
      · exact ⟨_, bisimulation_empty, .inl h⟩
      · exact ⟨R, hR, .inr h⟩
  · exact Bool.eq_iff_iff.mpr ⟨sameStructure_symm, sameStructure_symm⟩

end ResourceVersions.Api
