import ResourceVersions.Proofs.HelperPairs

/-! # What generated code may store

An expression of a conversion function that starts from the source object stands for something in
the source version: metadata, a field, a member of a structure, an element of a collection. Where
both versions have it, it has a shape and a secrecy in either. Generated code stores such a value
as it is only if it cannot be changed through both objects, and it never carries a value across
whose secrecy differs. -/
namespace ResourceVersions

namespace Code

/-- A loop that a statement stands in. -/
structure Loop where
  var : String
  range : LoopRange
  subject : Expr

def Loop.vars (l : Loop) : List String :=
  match l.range with
  | .items => [l.var]
  | .entries keyVar => [keyVar, l.var]

/-- A value that a statement stores in an object or stashes in the metadata, and the loops around
the statement, the innermost first. -/
structure Store where
  loops : List Loop
  value : Expr
  stashed : Bool := false

mutual

/-- What a statement inside some loops stores. -/
def Stmt.stores (loops : List Loop) : Stmt → List Store
  | .comment _ | .allocate .. | .unstash .. => []
  | .assign _ value => [{ loops, value }]
  | .append _ value => [{ loops, value }]
  | .setItem _ _ value => [{ loops, value }]
  | .ret value => [{ loops, value }]
  | .stash _ _ value => [{ loops, value, stashed := true }]
  | .guard _ body orelse => storesAll loops body ++ storesAll loops orelse
  | .loop var range subject body => storesAll (⟨var, range, subject⟩ :: loops) body
  | .func _ _ body _ => storesAll loops body

def storesAll (loops : List Loop) : List Stmt → List Store
  | [] => []
  | s :: rest => s.stores loops ++ storesAll loops rest

end

mutual

/-- The variables that a statement sets to something new: an allocated value or a deep copy. -/
def Stmt.made : Stmt → List String
  | .allocate var _ => [var]
  | .assign (.name var) (.valueCopy _) => [var]
  | .guard _ body orelse => madeAll body ++ madeAll orelse
  | .loop _ _ _ body => madeAll body
  | .func _ _ body _ => madeAll body
  | _ => []

def madeAll : List Stmt → List String
  | [] => []
  | s :: rest => s.made ++ madeAll rest

end

variable {loops : List Loop}

@[simp] theorem storesAll_nil : storesAll loops [] = [] := rfl

@[simp] theorem storesAll_cons (s : Stmt) (l : List Stmt) :
    storesAll loops (s :: l) = s.stores loops ++ storesAll loops l := rfl

@[simp] theorem storesAll_append (l l' : List Stmt) :
    storesAll loops (l ++ l') = storesAll loops l ++ storesAll loops l' := by
  induction l with
  | nil => rfl
  | cons s l ih => simp [ih]

theorem mem_storesAll_flatMap {α : Type} {parts : List α} {code : α → List Stmt} {s : Store} :
    s ∈ storesAll loops (parts.flatMap code) ↔ ∃ p ∈ parts, s ∈ storesAll loops (code p) := by
  induction parts with
  | nil => simp
  | cons p parts ih => simp [ih]

@[simp] theorem madeAll_nil : madeAll [] = [] := rfl

@[simp] theorem madeAll_cons (s : Stmt) (l : List Stmt) :
    madeAll (s :: l) = s.made ++ madeAll l := rfl

@[simp] theorem madeAll_append (l l' : List Stmt) : madeAll (l ++ l') = madeAll l ++ madeAll l' := by
  induction l with
  | nil => rfl
  | cons s l ih => simp [ih]

theorem mem_madeAll_flatMap {α : Type} {parts : List α} {code : α → List Stmt} {x : String} :
    x ∈ madeAll (parts.flatMap code) ↔ ∃ p ∈ parts, x ∈ madeAll (code p) := by
  induction parts with
  | nil => simp
  | cons p parts ih => simp [ih]

end Code

namespace Conversion

open Code

@[simp] theorem Target.stores_store (t : Target) (loops : List Loop) (value : Expr) :
    (t.store value).stores loops = [{ loops, value }] := by
  cases t <;> rfl

@[simp] theorem Target.storesAll_store (t : Target) (loops : List Loop) (value : Expr) :
    storesAll loops [t.store value] = [{ loops, value }] := by
  rw [storesAll_cons, t.stores_store, storesAll_nil, List.append_nil]

/-- What a function reads: an object, by the deltas of the two resources, or a structure, by the
shapes in both versions. -/
inductive Root where
  | object (way : Way) (delta : ResourceDelta)
  | struct (src dst : String)

/-- What an expression stands for: metadata, a value that both versions have, with its shape and
its secrecy in either, or a field that only the source has. -/
inductive Origin where
  | metadata
  | shared (src? dst? : Option String) (srcSecret dstSecret : Bool)
  | sourceOnly

/-- Secrecy does not change on the way. -/
def Origin.Even : Origin → Prop
  | metadata => True
  | shared _ _ srcSecret dstSecret => srcSecret = dstSecret
  | sourceOnly => False

namespace Direction

variable (d : Direction) (root : Root)

/-- What an expression inside some loops stands for. -/
inductive Denotes : List Loop → Expr → Origin → Prop where
  | metadata {loops way delta} : root = .object way delta →
      Denotes loops (.attr (.name "src") "metadata") .metadata
  | resourceMetadata {loops way delta} : root = .object way delta →
      Denotes loops (.attr (.attr (.name "src") "status") "resourceMetadata") .metadata
  | field {loops way delta p δ f g} : root = .object way delta → δ ∈ Part.deltas p delta →
      δ.source? way = some f → δ.dest? way = some g →
      Denotes loops (.attr (.attr (.name "src") p.text) f.attrName)
        (.shared f.shape? g.shape? f.isSecret g.isSecret)
  | sourceOnly {loops way delta p δ f} : root = .object way delta → δ ∈ Part.deltas p delta →
      δ.source? way = some f → δ.dest? way = none →
      Denotes loops (.attr (.attr (.name "src") p.text) f.attrName) .sourceOnly
  | whole {loops x y} : root = .struct x y →
      Denotes loops (.name "src") (.shared (some x) (some y) false false)
  | member {loops e x y srcSecret dstSecret s s' ms ms' member names ref ref'} :
      Denotes loops e (.shared (some x) (some y) srcSecret dstSecret) →
      d.src.api.shapes.get? x = some s → s.form = .struct ms → ms.get? member = some ref →
      d.dst.api.shapes.get? y = some s' → s'.form = .struct ms' → ms'.get? member = some ref' →
      Names.of member = .ok names →
      Denotes loops (.attr e names.camelLower) (.shared (some ref.target) (some ref'.target)
        (d.src.isSecretMember x member) (d.dst.isSecretMember y member))
  | element {inner outer} {l : Loop} {x y srcSecret dstSecret s s' ref ref'} :
      (∀ k ∈ inner, l.var ∉ k.vars) →
      Denotes outer l.subject (.shared (some x) (some y) srcSecret dstSecret) →
      d.src.api.shapes.get? x = some s → s.form.element? = some ref →
      d.dst.api.shapes.get? y = some s' → s'.form.element? = some ref' →
      Denotes (inner ++ l :: outer) (.name l.var)
        (.shared (some ref.target) (some ref'.target) false false)

/-- A value that may stand in both objects: a scalar, an attribute without a shape, or a reference
to a secret. -/
inductive Shareable : Origin → Prop where
  | scalar {x dst? srcSecret dstSecret s t} : d.src.api.shapes.get? x = some s →
      s.form = .scalar t → Shareable (.shared (some x) dst? srcSecret dstSecret)
  | shapeless {srcSecret dstSecret} : Shareable (.shared none none srcSecret dstSecret)
  | secret {src? dst?} : Shareable (.shared src? dst? true true)

/-- The stores that a function may have, given its parameters and what it makes. -/
inductive Allowed (params made : List String) : Store → Prop where
  | made {loops x} : x ∈ made → x ∉ params → (∀ l ∈ loops, x ∉ l.vars) →
      Allowed params made { loops, value := .name x }
  | nothing {loops} : Allowed params made { loops, value := .const .null }
  | valueCopy {loops e o} : d.Denotes root loops e o → o.Even →
      Allowed params made { loops, value := .valueCopy e }
  | recurse {loops helper e o} : d.Denotes root loops e o → o.Even →
      Allowed params made { loops, value := .recurse helper e }
  | bare {loops e o} : d.Denotes root loops e o → o.Even → d.Shareable o →
      Allowed params made { loops, value := e }
  | stashed {loops e} : d.Denotes root loops e .sourceOnly →
      Allowed params made { loops, value := e, stashed := true }

/-- Every store of a function is allowed. -/
def Disciplined (f : Func) : Prop :=
  ∀ s ∈ storesAll [] f.body, d.Allowed root (f.params.map Prod.fst) (madeAll f.body) s

variable {d} {root} {params made : List String} {loops : List Loop}

/-- Loops around code at some depth bind no variable that the code may make. -/
def Clear (depth : Nat) (loops : List Loop) : Prop := ∀ l ∈ loops, ∀ x ∈ l.vars, ¬ Scratch depth x

theorem Clear.cons {depth : Nat} {l : Loop} (h : Clear depth loops)
    (hl : ∀ x ∈ l.vars, ¬ Scratch (depth + 1) x) : Clear (depth + 1) (l :: loops) := by
  intro k hk x hx
  rcases List.mem_cons.mp hk with rfl | hk
  · exact hl x hx
  · exact fun hs => h k hk x hx (hs.mono (Nat.le_succ depth))

theorem copyVar_allowed {names : Names} {depth : Nat} (hmade : copyVar names depth ∈ made)
    (hparams : ∀ x ∈ params, ¬ Scratch depth x) (hloops : Clear depth loops) :
    d.Allowed root params made { loops, value := .name (copyVar names depth) } := by
  have hscratch : Scratch depth (copyVar names depth) := by
    rw [copyVar_eq]
    exact generated_scratch names.snake "copy" depth
  exact .made hmade (fun hin => hparams _ hin hscratch) fun l hl hin => hloops l hl _ hin hscratch

/-- What a guard around a copy stores: what its body stores, or nothing. -/
theorem guarded_allowed {value : Expr} {body : List Stmt} {target : Target} {keepNone : Bool}
    (h : ∀ s ∈ storesAll loops body, d.Allowed root params made s) :
    ∀ s ∈ storesAll loops (guarded value body target keepNone), d.Allowed root params made s := by
  intro s hs
  simp only [guarded, storesAll_cons, storesAll_nil, List.append_nil, Stmt.stores,
    List.mem_append] at hs
  rcases hs with hs | hs
  · exact h s hs
  · cases keepNone with
    | false => cases hs
    | true =>
      simp only [if_true, storesAll_cons, storesAll_nil, List.append_nil, Target.stores_store,
        List.mem_singleton] at hs
      subst hs
      exact .nothing

theorem mem_made_guarded {value : Expr} {body : List Stmt} {target : Target} {keepNone : Bool}
    {x : String} (h : x ∈ madeAll body) : x ∈ madeAll (guarded value body target keepNone) := by
  simp [guarded, Stmt.made, h]

/-- The variable of the innermost loop stands for an element of what the loop goes through. -/
theorem denotes_element {l : Loop} {x y : String} {srcSecret dstSecret : Bool} {s s' : Shape}
    {ref ref' : ShapeRef}
    (h : d.Denotes root loops l.subject (.shared (some x) (some y) srcSecret dstSecret))
    (hs : d.src.api.shapes.get? x = some s) (hform : s.form.element? = some ref)
    (hs' : d.dst.api.shapes.get? y = some s') (hform' : s'.form.element? = some ref') :
    d.Denotes root (l :: loops) (.name l.var)
      (.shared (some ref.target) (some ref'.target) false false) :=
  show d.Denotes root ([] ++ l :: loops) _ _ from .element nofun h hs hform hs' hform'

/-- What a copy of a collection stores: what is stored in its loop, and the new collection. -/
theorem collection_allowed {value : Expr} {names : Names} {depth : Nat} {fresh : Fresh}
    {l : Loop} {inner : List Stmt} {target : Target} {keepNone : Bool}
    (hl : l.subject = value) (hclear : ∀ x ∈ l.vars, ¬ Scratch (depth + 1) x)
    (hparams : ∀ x ∈ params, ¬ Scratch depth x) (hloops : Clear depth loops)
    (hmade : madeAll (guarded value [.allocate (copyVar names depth) fresh,
      .loop l.var l.range value inner, target.store (.name (copyVar names depth))] target
        keepNone) ⊆ made)
    (hinner : (∀ x ∈ params, ¬ Scratch (depth + 1) x) → Clear (depth + 1) (l :: loops) →
      madeAll inner ⊆ made → ∀ s ∈ storesAll (l :: loops) inner, d.Allowed root params made s) :
    ∀ s ∈ storesAll loops (guarded value [.allocate (copyVar names depth) fresh,
      .loop l.var l.range value inner, target.store (.name (copyVar names depth))] target
        keepNone), d.Allowed root params made s := by
  subst hl
  refine guarded_allowed fun s hs => ?_
  simp only [storesAll_cons, storesAll_nil, List.append_nil, Stmt.stores, List.nil_append,
    Target.stores_store, List.mem_append, List.mem_singleton] at hs
  rcases hs with hs | rfl
  · refine hinner (fun x hx hs => hparams x hx (hs.mono (Nat.le_succ depth)))
      (hloops.cons hclear) (fun x hx => hmade (mem_made_guarded ?_)) s hs
    simp [Stmt.made, hx]
  · exact copyVar_allowed (hmade (mem_made_guarded (by simp [Stmt.made]))) hparams hloops

/-- A member that is copied stands for what both versions have there. -/
theorem memberCopy_denotes {value : Expr} {x y : String} {secret : Bool} {s s' : Shape}
    {ms ms' : Table ShapeRef} {entry : String × ShapeRef} {m : MemberCopy}
    (hvalue : d.Denotes root loops value (.shared (some x) (some y) secret secret))
    (hs : d.src.api.shapes.get? x = some s) (hform : s.form = .struct ms)
    (hs' : d.dst.api.shapes.get? y = some s') (hform' : s'.form = .struct ms')
    (hentry : entry ∈ ms.sorted) (hm : d.memberCopy x y ms' entry = .ok m) :
    d.Denotes root loops (.attr value m.attr)
      (.shared (some m.src) (some m.dst) m.isSecret m.isSecret) := by
  obtain ⟨ref', names, hget', hnames, hsame, rfl⟩ := memberCopy_ok hm
  have hmember := Denotes.member hvalue hs hform (Table.mem_sorted_iff.mp hentry) hs' hform' hget'
    hnames
  rwa [← hsame] at hmember

/-- The code of a copy stores only what it may, if the value that it copies is no secret in one of
the versions alone. -/
theorem CopyCode.allowed {active : List String} {value : Expr} {x y : String} {depth : Nat}
    {target : Target} {keepNone : Bool} {code : List Stmt} {requests : List HelperRequest}
    {secret : Bool} (h : CopyCode d active value x y depth target keepNone code requests)
    (hvalue : d.Denotes root loops value (.shared (some x) (some y) secret secret))
    (hparams : ∀ x ∈ params, ¬ Scratch depth x) (hloops : Clear depth loops)
    (hmade : madeAll code ⊆ made) : ∀ s ∈ storesAll loops code, d.Allowed root params made s := by
  induction h generalizing loops secret with
  | scalar hs hform =>
    rw [Target.storesAll_store, List.forall_mem_singleton]
    exact .bare hvalue rfl (.scalar hs hform)
  | plain _ =>
    rw [Target.storesAll_store, List.forall_mem_singleton]
    exact .valueCopy hvalue rfl
  | recurse _ _ _ _ =>
    rw [Target.storesAll_store, List.forall_mem_singleton]
    exact .recurse hvalue rfl
  | @struct active value x y depth target keepNone s s' ms ms' names className parts hs hform _ hs'
      hform' _ hentries hcopied hsecret _ ih =>
    refine guarded_allowed fun st hst => ?_
    simp only [List.cons_append, storesAll_cons, storesAll_append, storesAll_nil, List.append_nil,
      Stmt.stores, List.nil_append, Target.stores_store, List.mem_append, List.mem_singleton] at hst
    have hbody : ∀ v ∈ madeAll (.allocate (copyVar names depth) (.struct ⟨className, d.dstAlias?⟩) ::
        parts.flatMap MemberCode.code ++ [target.store (.name (copyVar names depth))]), v ∈ made :=
      fun v hv => hmade (mem_made_guarded hv)
    rcases hst with hst | rfl
    · obtain ⟨p, hp, hst⟩ := mem_storesAll_flatMap.mp hst
      obtain ⟨m, hm⟩ := hcopied p hp
      have hentry : p.entry ∈ ms.sorted := by
        rw [← hentries]
        exact List.mem_map_of_mem hp
      have hmember := memberCopy_denotes hvalue hs hform hs' hform' hentry hm
      cases hkept : m.isSecret with
      | true =>
        rw [hkept] at hmember
        rw [(hsecret p hp m hm hkept).1, Target.storesAll_store] at hst
        obtain rfl := List.mem_singleton.mp hst
        exact .bare hmember rfl .secret
      | false =>
        refine ih p hp m hm hkept hmember
          (fun v hv hs => hparams v hv (hs.mono (Nat.le_succ depth)))
          (fun l hl v hv hs => hloops l hl v hv (hs.mono (Nat.le_succ depth)))
          (fun v hv => hbody v ?_) st hst
        simp only [List.cons_append, madeAll_cons, madeAll_append, List.mem_append]
        exact .inr (.inl (mem_madeAll_flatMap.mpr ⟨p, hp, hv⟩))
    · exact copyVar_allowed (hbody _ (by simp [Stmt.made])) hparams hloops
  | @list active value x y depth target keepNone s s' e e' names element inner requests hs hform _
      hs' hform' _ _ ih =>
    refine collection_allowed (l := ⟨elemVar element depth, .items, value⟩) rfl ?_ hparams hloops
      hmade fun hparams' hloops' hmade' => ih (denotes_element hvalue hs ?_ hs' ?_) hparams' hloops'
        hmade'
    · intro v hv
      obtain rfl := List.mem_singleton.mp hv
      rw [elemVar_eq]
      exact generated_not_deeper element.snake "elem" depth
    · rw [hform]
      rfl
    · rw [hform']
      rfl
  | @map active value x y depth target keepNone s s' k v k' v' names element inner requests hs hform
      _ hs' hform' _ _ ih =>
    refine collection_allowed (l := ⟨valueVar element depth, .entries (keyVar names depth), value⟩)
      rfl ?_ hparams hloops hmade fun hparams' hloops' hmade' =>
        ih (denotes_element hvalue hs ?_ hs' ?_) hparams' hloops' hmade'
    · intro v hv
      rcases List.mem_pair.mp hv with rfl | rfl
      · rw [keyVar_eq]
        exact generated_not_deeper names.snake "key" depth
      · rw [valueVar_eq]
        exact generated_not_deeper element.snake "value" depth
    · rw [hform]
      rfl
    · rw [hform']
      rfl

section Function

variable {way : Way} {delta : ResourceDelta} {p : Part} {dst : String}

/-- The code for a field stores what it may: the field is no secret in one of the versions alone, or
only the source has it. -/
theorem FieldCode.allowed {owner : TypeRef} {δ : FieldDelta} {code : List Stmt}
    {requests : List HelperRequest} (h : d.FieldCode way p owner δ code requests)
    (hδ : δ ∈ p.deltas delta) (hparams : ∀ x ∈ params, ¬ Scratch 1 x) (hmade : madeAll code ⊆ made) :
    ∀ s ∈ storesAll [] code, d.Allowed (.object way delta) params made s := by
  cases h with
  | @whole f g hf hg hsecret hplain =>
    rw [Target.storesAll_store, List.forall_mem_singleton]
    have hfield : d.Denotes (.object way delta) [] _ _ := .field rfl hδ hf hg
    refine .bare hfield hsecret ?_
    cases hf' : f.isSecret with
    | true =>
      rw [← hsecret, hf']
      exact .secret
    | false =>
      rw [(hplain hf').1, (hplain hf').2]
      exact .shapeless
  | @copy f g x y _ _ hf hg hplain hplain' hx hy _ hcopy =>
    have hfield : d.Denotes (.object way delta) [] _ _ := .field rfl hδ hf hg
    rw [hx, hy, hplain, hplain'] at hfield
    exact hcopy.allowed hfield hparams (List.forall_mem_nil _) hmade
  | @stash f hf hg =>
    intro s hs
    simp only [stashField, storesAll_cons, storesAll_nil, List.append_nil, Stmt.stores,
      List.mem_singleton] at hs
    subst hs
    exact .stashed (.sourceOnly rfl hδ hf hg)
  | unstash _ _ =>
    intro s hs
    cases hs

/-- The code for a part of an object. -/
theorem PartCode.allowed {parts : List DeltaCode}
    (h : d.PartCode way p (d.owner p dst) (p.deltas delta) parts)
    (hparams : params = ["src", "dst"]) (hmade : madeAll (d.partBody p dst parts) ⊆ made) :
    ∀ s ∈ storesAll [] (d.partBody p dst parts), d.Allowed (.object way delta) params made s := by
  subst hparams
  have hscratch : ∀ x ∈ ["src", "dst"], ¬ Scratch 1 x := by
    intro x hx
    rcases List.mem_pair.mp hx with rfl | rfl <;> exact not_scratch (by decide)
  intro s hs
  simp only [partBody, List.cons_append, storesAll_cons, storesAll_append, storesAll_nil,
    List.append_nil, Stmt.stores, List.nil_append, List.mem_append, List.mem_singleton] at hs
  rcases hs with (hs | hs) | rfl
  · cases p with
    | spec => cases hs
    | status =>
      simp only [leadCode, storesAll_cons, storesAll_nil, List.append_nil, Stmt.stores,
        List.mem_singleton] at hs
      subst hs
      exact .valueCopy (.resourceMetadata rfl) trivial
  · obtain ⟨part, hpart, hs⟩ := mem_storesAll_flatMap.mp hs
    have hδ : part.delta ∈ p.deltas delta := by
      rw [← h.deltas]
      exact List.mem_map_of_mem hpart
    refine (h.each part hpart).allowed hδ hscratch (fun x hx => hmade ?_) s hs
    simp only [partBody, List.cons_append, madeAll_cons, madeAll_append, List.mem_append]
    exact .inr (.inl (.inr (mem_madeAll_flatMap.mpr ⟨part, hpart, hx⟩)))
  · refine .made (hmade (by simp [partBody, Stmt.made])) ?_ (List.forall_mem_nil _)
    cases p <;> decide

/-- The body of a conversion function. -/
theorem functionBody_allowed {code : List Stmt} {requests : List HelperRequest}
    (hδ : ∀ δ ∈ delta.all, δ.isSupported = true)
    (h : (d.functionBody way dst delta).run = (.ok code, requests)) :
    ∀ s ∈ storesAll [] code, d.Allowed (.object way delta) ["src", "dst"] (madeAll code) s := by
  obtain ⟨spec, status, hspec, hstatus, rfl, -⟩ := functionBody_emits hδ (s := []) h
  intro s hs
  simp only [List.cons_append, List.nil_append, storesAll_cons, storesAll_nil, List.append_nil,
    Stmt.stores, List.mem_cons, List.mem_append, List.not_mem_nil, or_false] at hs
  rcases hs with rfl | hs | hs | rfl
  · exact .valueCopy (.metadata rfl) trivial
  · exact hspec.allowed rfl (fun x hx => by simp [Stmt.made, hx]) s hs
  · exact hstatus.allowed rfl (fun x hx => by simp [Stmt.made, hx]) s hs
  · exact .made (by simp [Stmt.made]) (by decide) (List.forall_mem_nil _)

end Function

/-- The body of a copy helper. -/
theorem helperBody_allowed {r : HelperRequest} {code : List Stmt}
    (h : (d.helperBody r).1 = .ok code) :
    ∀ s ∈ storesAll [] code, d.Allowed (.struct r.src r.dst) ["src"] (madeAll code) s := by
  have hrun : runFrom (d.copyFrom [] [] (.name "src") r.src r.dst 1 .ret true) [] =
      (.ok code, (d.helperBody r).2) := Prod.ext h rfl
  obtain ⟨requests, -, hcode⟩ := copyFrom_emits hrun
  refine hcode.allowed (.whole rfl) (fun x hx => ?_) (List.forall_mem_nil _) (List.Subset.refl _)
  obtain rfl := List.mem_singleton.mp hx
  exact not_scratch (by decide)

end Direction

section Calls

open Direction

variable {c : Converter} {attempts : List Attempt} {h h' : Helpers} {spoke hub : Resource}
  {delta : ResourceDelta}

/-- Every helper of a converter copies one structure to another. -/
theorem Attempts.helperFor (hrun : Attempts c attempts h) :
    ∀ f ∈ h.toList, ∃ way r, BuiltFor (c.direction way) r f := by
  induction hrun with
  | start =>
    intro f hf
    obtain ⟨name, hget⟩ := Helpers.mem_toList.mp hf
    cases hget
  | call spoke hub delta _ hcall ih =>
    refine functions_preserve (J := fun h => ∀ f ∈ h.toList, ∃ way r,
      BuiltFor (c.direction way) r f) (fun way h hfor f hf => ?_) ih hcall
    obtain ⟨left, hleft, -⟩ := (builtFor_preserved way).serve h (List.map .need _) fun g hg =>
      hfor g (by simpa [Underway, Helpers.mem_toList] using hg)
    exact hleft f (.inl (Helpers.mem_toList.mp hf))

theorem function_disciplined {way : Way} {f : Func} (hδ : ∀ δ ∈ delta.all, δ.isSupported = true)
    (hf : c.function h way spoke hub delta = (.ok f, h')) :
    (c.direction way).Disciplined (.object way delta) f := by
  obtain ⟨body, hemit, -, hparams, rfl⟩ := function_ok hf
  unfold Disciplined
  rw [hparams]
  exact functionBody_allowed hδ (Prod.ext (emit_ok hemit).1 rfl)

/-- All that a converter generates keeps to what it may store, the helpers as well as the functions
that a call gives. -/
theorem generated_disciplined (hrun : Attempts c attempts h) :
    (∀ f ∈ h.toList, ∃ way r, BuiltFor (c.direction way) r f ∧
      (c.direction way).Disciplined (.struct r.src r.dst) f) ∧
    ∀ spoke hub delta fs h', c.functions h spoke hub delta = (.ok fs, h') → ∀ f ∈ fs, ∃ way,
      f.name = functionName spoke way ∧ (c.direction way).Disciplined (.object way delta) f := by
  constructor
  · intro f hf
    obtain ⟨way, r, hfor⟩ := hrun.helperFor f hf
    refine ⟨way, r, hfor, ?_⟩
    unfold Disciplined
    rw [hfor.params]
    exact helperBody_allowed hfor.body
  · intro spoke hub delta fs h' hcall f hf
    obtain ⟨hδ, toHub, fromHub, h₁, rfl, hto, hfrom⟩ := functions_ok hcall
    rcases List.mem_pair.mp hf with rfl | rfl
    · exact ⟨.toHub, function_name hto, function_disciplined hδ hto⟩
    · exact ⟨.fromHub, function_name hfrom, function_disciplined hδ hfrom⟩

end Calls

open Sample in
/-- Nodes are copied by a helper, which a conversion function calls. -/
theorem generated_disciplined_nodes : ∃ toHub fromHub h f,
    (nodes ∅).functions {} holder holder twoRoots = (.ok [toHub, fromHub], h) ∧
    f ∈ h.toList ∧ f.name = "_copy_node_to_hub" ∧
    (∃ way r, BuiltFor ((nodes ∅).direction way) r f ∧
      ((nodes ∅).direction way).Disciplined (.struct r.src r.dst) f) ∧
    ∃ way, toHub.name = functionName holder way ∧
      ((nodes ∅).direction way).Disciplined (.object way twoRoots) toHub := by
  obtain ⟨toHub, h₁, body, hto, hbegun, -, -, htable⟩ := twoRoots_toHub
  obtain ⟨fromHub, h, hfrom⟩ := twoRoots_fromHub (h := h₁) (by rw [hbegun]; decide)
    (by rw [hbegun]; decide)
  have hcall := functions_of_function rfl hto hfrom
  obtain ⟨hclosed, -⟩ := function_grows Helpers.closed_start hto
  obtain ⟨-, hgrows⟩ := function_grows hclosed hfrom
  have hf := Helpers.mem_toList.mpr ⟨_, hgrows.kept _ _ htable⟩
  obtain ⟨hhelpers, -⟩ := generated_disciplined (Attempts.start.call _ _ _ hcall)
  obtain ⟨-, hfunctions⟩ := generated_disciplined (Attempts.start (c := nodes ∅))
  exact ⟨toHub, fromHub, h, _, hcall, hf, rfl, hhelpers _ hf,
    hfunctions _ _ _ _ _ hcall toHub (by simp)⟩

end Conversion

end ResourceVersions
