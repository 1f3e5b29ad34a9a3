import ResourceVersions.Conversion.CopyHelper
import ResourceVersions.Proofs.CopyRounds
import ResourceVersions.Proofs.Effects
import ResourceVersions.Proofs.Except

/-! # What copying emits

The code of a copy and the helpers that it asks for, by the form of the source shape. Every
successful emission is of this kind, whatever has been asked for before. -/
namespace ResourceVersions.Conversion

open Code

/-- The code for one member of a structure and its requests. -/
structure MemberCode where
  entry : String × ShapeRef
  code : List Stmt
  requests : List HelperRequest

namespace Direction

variable (d : Direction)

/-- The code of a copy between two shapes inside some structures, with its requests. -/
inductive CopyCode : List String → Expr → String → String → Nat → Target → Bool →
    List Stmt → List HelperRequest → Prop where
  | scalar {active value x y depth target keepNone s t} :
      d.src.api.shapes.get? x = some s → s.form = .scalar t →
      CopyCode active value x y depth target keepNone [target.store value] []
  | plain {active value x y depth target keepNone} : d.src.api.isPlain x = true →
      CopyCode active value x y depth target keepNone [target.store (.valueCopy value)] []
  | recurse {active value x y depth target keepNone s ms names} :
      d.src.api.shapes.get? x = some s → s.form = .struct ms → Names.of x = .ok names →
      x ∈ active →
      CopyCode active value x y depth target keepNone
        [target.store (.recurse (d.helperName names) value)] [⟨x, y⟩]
  | struct {active value x y depth target keepNone s s' ms ms' names className}
      {parts : List MemberCode} :
      d.src.api.shapes.get? x = some s → s.form = .struct ms → Names.of x = .ok names →
      d.dst.api.shapes.get? y = some s' → s'.form = .struct ms' →
      d.dst.typeName y = .ok className → parts.map MemberCode.entry = ms.sorted →
      (∀ p ∈ parts, ∃ m, d.memberCopy x y ms' p.entry = .ok m) →
      (∀ p ∈ parts, ∀ m, d.memberCopy x y ms' p.entry = .ok m → m.isSecret = true →
        p.code = [(memberSlot names depth m).store (.attr value m.attr)] ∧ p.requests = []) →
      (∀ p ∈ parts, ∀ m, d.memberCopy x y ms' p.entry = .ok m → m.isSecret = false →
        CopyCode (x :: active) (.attr value m.attr) m.src m.dst (depth + 1)
          (memberSlot names depth m) false p.code p.requests) →
      CopyCode active value x y depth target keepNone
        (guarded value (.allocate (copyVar names depth) (.struct ⟨className, d.dstAlias?⟩) ::
          parts.flatMap MemberCode.code ++ [target.store (.name (copyVar names depth))])
          target keepNone)
        (parts.flatMap MemberCode.requests)
  | list {active value x y depth target keepNone s s' e e' names element inner requests} :
      d.src.api.shapes.get? x = some s → s.form = .list e → Names.of x = .ok names →
      d.dst.api.shapes.get? y = some s' → s'.form = .list e' → Names.of e.target = .ok element →
      CopyCode active (.name (elemVar element depth)) e.target e'.target (depth + 1)
        (.append (.name (copyVar names depth))) true inner requests →
      CopyCode active value x y depth target keepNone
        (guarded value [.allocate (copyVar names depth) .list,
          .loop (elemVar element depth) .items value inner,
          target.store (.name (copyVar names depth))] target keepNone) requests
  | map {active value x y depth target keepNone s s' k v k' v' names element inner requests} :
      d.src.api.shapes.get? x = some s → s.form = .map k v → Names.of x = .ok names →
      d.dst.api.shapes.get? y = some s' → s'.form = .map k' v' →
      Names.of v.target = .ok element →
      CopyCode active (.name (valueVar element depth)) v.target v'.target (depth + 1)
        (.setItem (.name (copyVar names depth)) (.name (keyVar names depth))) true
        inner requests →
      CopyCode active value x y depth target keepNone
        (guarded value [.allocate (copyVar names depth) .map,
          .loop (valueVar element depth) (.entries (keyVar names depth)) value inner,
          target.store (.name (copyVar names depth))] target keepNone) requests

variable {d} {active passed : List String} {value : Expr} {x y : String} {depth : Nat}
  {target : Target} {keepNone : Bool} {code : List Stmt} {s s' : List HelperRequest}

theorem runFrom_ofExcept_ok {α : Type} {r : Except Error α} {a : α}
    (h : runFrom (Emit.ofExcept r) s = (.ok a, s')) : s = s' ∧ r = .ok a := by
  cases h
  exact ⟨rfl, rfl⟩

theorem runFrom_schema_ok {α : Type} {r : Except SchemaError α} {a : α}
    (h : runFrom (Emit.schema r) s = (.ok a, s')) : s = s' ∧ r = .ok a := by
  cases r with
  | error e => cases h
  | ok b =>
    cases h
    exact ⟨rfl, rfl⟩

theorem shape_ok {api : Api} {name : String} {s : Shape} (h : api.shape name = .ok s) :
    api.shapes.get? name = some s := by
  unfold Api.shape Api.shape? at h
  split at h
  · rename_i hs
    cases h
    exact hs
  · cases h

theorem collectionNames_ok {names : Names} (h : d.collectionNames x y = .ok names) :
    Names.of x = .ok names := by
  obtain ⟨-, -, h⟩ := Fallible.bind_ok_iff.mp h
  obtain ⟨-, -, h⟩ := Fallible.bind_ok_iff.mp h
  exact h

/-- Work that gives nothing but the code of a copy, with its requests. -/
def Emits (d : Direction) (call : CopyCall) (work : Emit (List Stmt)) : Prop :=
  ∀ {code : List Stmt} {s s' : List HelperRequest}, runFrom work s = (.ok code, s') →
    ∃ requests, s' = s ++ requests ∧ CopyCode d call.active call.value call.src call.dst call.depth
      call.target call.keepNone code requests

/-- What copying a member emits, given what copying its value emits. -/
theorem memberCode_emits {names : Names} {ms' : Table ShapeRef} {entry : String × ShapeRef}
    {inner : MemberCopy → Emit (List Stmt)}
    (hinner : ∀ m : MemberCopy, Emits d ⟨x :: active, [], .attr value m.attr, m.src, m.dst,
      depth + 1, memberSlot names depth m, false⟩ (inner m))
    (h : runFrom (do
      let m ← Emit.ofExcept (d.memberCopy x y ms' entry)
      if m.isSecret then return [(memberSlot names depth m).store (.attr value m.attr)]
      inner m) s = (.ok code, s')) :
    ∃ p : MemberCode, p.entry = entry ∧ p.code = code ∧ s' = s ++ p.requests ∧
      ∃ m, d.memberCopy x y ms' p.entry = .ok m ∧
        (m.isSecret = true →
          p.code = [(memberSlot names depth m).store (.attr value m.attr)] ∧ p.requests = []) ∧
        (m.isSecret = false → CopyCode d (x :: active) (.attr value m.attr) m.src m.dst (depth + 1)
          (memberSlot names depth m) false p.code p.requests) := by
  obtain ⟨m, s₁, hrun, h⟩ := runFrom_bind_ok h
  obtain ⟨rfl, hm⟩ := runFrom_ofExcept_ok hrun
  cases hsecret : m.isSecret with
  | true =>
    rw [hsecret] at h
    cases h
    exact ⟨⟨entry, _, []⟩, rfl, rfl, by simp, m, hm, fun _ => ⟨rfl, rfl⟩, by simp [hsecret]⟩
  | false =>
    rw [hsecret] at h
    obtain ⟨requests, rfl, hcopy⟩ := hinner m h
    exact ⟨⟨entry, code, requests⟩, rfl, rfl, rfl, m, hm, by simp [hsecret], fun _ => hcopy⟩

/-- A round emits the code of a copy if the copies below it do. -/
theorem copyRound_emits {g : CopyCall → Emit (List Stmt)} (hg : ∀ call, Emits d call (g call))
    (call : CopyCall) : Emits d call (d.copyRound g call) := by
  intro code s s' h
  unfold copyRound at h
  cases hx : d.src.api.shapes.get? call.src with
  | none =>
    rw [hx] at h
    cases h
  | some shape =>
    simp only [hx] at h
    obtain ⟨shape', s₁, hrun, h⟩ := runFrom_bind_ok h
    obtain ⟨rfl, hy⟩ := runFrom_schema_ok hrun
    replace hy := shape_ok hy
    by_cases hplain : d.src.api.isPlain call.src = true
    · cases hf : shape.form with
      | scalar t =>
        simp only [hf] at h
        cases h
        exact ⟨[], by simp, .scalar hx hf⟩
      | _ =>
        simp only [hf, hplain, if_true] at h
        cases h
        exact ⟨[], by simp, .plain hplain⟩
    · simp only [if_neg hplain] at h
      cases hf : shape.form <;> cases hf' : shape'.form <;> simp only [hf, hf'] at h
      case struct.struct ms ms' =>
        obtain ⟨names, s₁, hrun, h⟩ := runFrom_bind_ok h
        obtain ⟨rfl, hnames⟩ := runFrom_ofExcept_ok hrun
        split at h
        · rename_i hactive
          cases h
          exact ⟨_, rfl, .recurse hx hf hnames hactive⟩
        · obtain ⟨className, s₁, hrun, h⟩ := runFrom_bind_ok h
          obtain ⟨rfl, hclass⟩ := runFrom_schema_ok hrun
          obtain ⟨codes, s₁, hrun, h⟩ := runFrom_bind_ok h
          cases h
          obtain ⟨parts, hentries, rfl, rfl, hparts⟩ := runFrom_mapM_ok
            (fun entry _ s code s' h => memberCode_emits (fun m => hg _) h) hrun
          refine ⟨_, rfl, ?_⟩
          rw [← List.flatMap_def]
          refine .struct hx hf hnames hy hf' hclass hentries ?_ ?_ ?_
          · intro p hp
            obtain ⟨m, hm, -⟩ := hparts p hp
            exact ⟨m, hm⟩
          · intro p hp m hm
            obtain ⟨m', hm', hsecret, -⟩ := hparts p hp
            cases hm.symm.trans hm'
            exact hsecret
          · intro p hp m hm
            obtain ⟨m', hm', -, hcopy⟩ := hparts p hp
            cases hm.symm.trans hm'
            exact hcopy
      case list.list e e' =>
        obtain ⟨names, s₁, hrun, h⟩ := runFrom_bind_ok h
        obtain ⟨rfl, hnames⟩ := runFrom_ofExcept_ok hrun
        split at h
        · cases h
        · obtain ⟨element, s₁, hrun, h⟩ := runFrom_bind_ok h
          obtain ⟨rfl, helement⟩ := runFrom_ofExcept_ok hrun
          obtain ⟨inner, s₁, hinner, h⟩ := runFrom_bind_ok h
          cases h
          obtain ⟨requests, rfl, hcopy⟩ := hg _ hinner
          exact ⟨requests, rfl, .list hx hf (collectionNames_ok hnames) hy hf' helement hcopy⟩
      case map.map k v k' v' =>
        obtain ⟨names, s₁, hrun, h⟩ := runFrom_bind_ok h
        obtain ⟨rfl, hnames⟩ := runFrom_ofExcept_ok hrun
        split at h
        · cases h
        · obtain ⟨element, s₁, hrun, h⟩ := runFrom_bind_ok h
          obtain ⟨rfl, helement⟩ := runFrom_ofExcept_ok hrun
          obtain ⟨inner, s₁, hinner, h⟩ := runFrom_bind_ok h
          cases h
          obtain ⟨requests, rfl, hcopy⟩ := hg _ hinner
          exact ⟨requests, rfl, .map hx hf (collectionNames_ok hnames) hy hf' helement hcopy⟩
      case scalar.scalar | scalar.struct | scalar.list | scalar.map =>
        cases h
        exact ⟨[], by simp, .scalar hx hf⟩
      all_goals cases h

theorem copyFrom_emits
    (h : runFrom (d.copyFrom active passed value x y depth target keepNone) s = (.ok code, s')) :
    ∃ requests, s' = s ++ requests ∧
      CopyCode d active value x y depth target keepNone code requests := by
  have hemits : ∀ call, Emits d call (throw (.schema (.undefinedShape call.src))) := nofun
  exact copy_induct hemits (fun _ => copyRound_emits) active passed value x y depth target
    keepNone h

end Direction

end ResourceVersions.Conversion
