import ResourceVersions.Package.Generate
import ResourceVersions.Proofs.CopyRounds
import ResourceVersions.Proofs.Effects
import ResourceVersions.Proofs.Spelling

/-! # What generating code raises and requests

Generating the code of a conversion may fail, and it requests helpers also where it fails. What goes
wrong concerns the resource at hand, except that a name may hold no word that an identifier could be
made of; what is requested are helpers for structures of the source. -/
namespace ResourceVersions

open Fallible

/-- The error concerns a single resource, or a name that holds no words. -/
def Error.Local (e : Error) : Prop := e.isResourceError = true ∨ e.Wordless

theorem names_fails (given : String) : Fails Error.Local (Names.of given) :=
  fun e he => .inr (Names.of_wordless given e he)

theorem local_schema (e : SchemaError) : (Error.schema e).Local := .inl rfl

theorem local_rename (e : RenameError) : (Error.rename e).Local := .inl rfl

theorem local_change (e : ChangeError) : (Error.change e).Local := .inl rfl

namespace Api

/-- The names of the structures of an API. -/
def structures (api : Api) : List String :=
  (api.shapes.entries.filter fun e => e.2.form.isStruct).map Prod.fst

theorem mem_structures {api : Api} {name : String} {shape : Shape} {members : Table ShapeRef}
    (hs : api.shapes.get? name = some shape) (hf : shape.form = .struct members) :
    name ∈ api.structures := by
  have hstruct : shape.form.isStruct = true := by
    rw [hf]
    rfl
  have hentry : (name, shape) ∈ api.shapes.entries.filter fun e => e.2.form.isStruct :=
    List.mem_filter.mpr ⟨Table.lookup_eq_some_mem hs, hstruct⟩
  exact List.mem_map_of_mem hentry

end Api

namespace Conversion

open Code

namespace Direction

/-- Code generation that stays within its limits, whatever has been requested before. -/
structure Limited {α : Type} (d : Direction) (work : Emit α) : Prop where
  raises : Raises Error.Local work
  requests : ∀ s, (∀ r ∈ s, r.src ∈ d.src.api.structures) →
    ∀ r ∈ (runFrom work s).2, r.src ∈ d.src.api.structures

section Limits

variable {α β : Type} {d : Direction}

theorem limited_pure (a : α) : d.Limited (pure a) := ⟨.pure _ a, fun _ hs => hs⟩

theorem limited_throw {e : Error} (he : e.Local) : d.Limited (throw e : Emit α) :=
  ⟨.throw he, fun _ hs => hs⟩

theorem limited_except {r : Except Error α} (hr : Fails Error.Local r) :
    d.Limited (Emit.ofExcept r) := ⟨.except hr, fun _ hs => hs⟩

theorem limited_schema (r : Except SchemaError α) : d.Limited (Emit.schema r) :=
  limited_except (Fails.mapError local_schema r)

theorem limited_change (e : ChangeError) : d.Limited (Emit.change e : Emit α) :=
  limited_throw (local_change e)

theorem limited_names (given : String) : d.Limited (Emit.ofExcept (Names.of given)) :=
  limited_except (names_fails given)

theorem limited_request {r : HelperRequest} (hr : r.src ∈ d.src.api.structures) :
    d.Limited (Emit.request r) := by
  constructor
  · rintro s e s' ⟨⟩
  · intro s hs q hq
    rcases List.mem_append.mp hq with hq | hq
    · exact hs q hq
    · rw [List.mem_singleton.mp hq]
      exact hr

theorem Limited.bind {x : Emit β} {f : β → Emit α} (hx : d.Limited x)
    (hf : ∀ b, d.Limited (f b)) : d.Limited (x >>= f) := by
  constructor
  · exact hx.raises.bind fun b => (hf b).raises
  · intro s hs
    have hfirst := hx.requests s hs
    rw [runFrom_bind]
    cases hrun : runFrom x s with
    | mk first t =>
      rw [hrun] at hfirst
      cases first with
      | ok b => exact (hf b).requests t hfirst
      | error e => exact hfirst

theorem Limited.mapM {f : β → Emit α} {l : List β} (hf : ∀ b ∈ l, d.Limited (f b)) :
    d.Limited (l.mapM f) := by
  induction l with
  | nil => exact limited_pure []
  | cons b l ih =>
    rw [List.mapM_cons]
    refine (hf b (List.mem_cons_self ..)).bind fun a => ?_
    exact (ih fun c hc => hf c (List.mem_cons_of_mem _ hc)).bind fun as => limited_pure _

theorem Limited.run_fails {work : Emit α} (h : d.Limited work) : Fails Error.Local work.run.1 :=
  fun e he => h.raises [] e _ (Prod.ext he rfl)

theorem Limited.run_requests {work : Emit α} (h : d.Limited work) :
    ∀ r ∈ work.run.2, r.src ∈ d.src.api.structures := h.requests [] (by simp)

end Limits

variable {d : Direction} {x y : String}

theorem memberCopy_fails (members : Table ShapeRef) (entry : String × ShapeRef) :
    Fails Error.Local (d.memberCopy x y members entry) := by
  obtain ⟨member, ref⟩ := entry
  unfold memberCopy
  dsimp only
  split
  · exact .error (local_change _)
  · split
    · exact .error (local_change _)
    · exact (names_fails member).bind fun names => .ok _ _

theorem collectionNames_fails : Fails Error.Local (d.collectionNames x y) :=
  (Fails.mapError local_schema _).bind fun _ =>
    (Fails.mapError local_schema _).bind fun _ => names_fails x

/-- A round of a copy stays within the limits if the copies below it do. -/
theorem copyRound_limited {g : CopyCall → Emit (List Stmt)} (hg : ∀ call, d.Limited (g call))
    (call : CopyCall) : d.Limited (d.copyRound g call) := by
  unfold copyRound
  cases hx : d.src.api.shapes.get? call.src with
  | none => exact limited_throw (local_schema _)
  | some shape =>
    refine (limited_schema _).bind fun dst => ?_
    by_cases hplain : d.src.api.isPlain call.src = true
    · simp only [hplain, if_true]
      cases shape.form <;> exact limited_pure _
    · simp only [if_neg hplain]
      cases hf : shape.form <;> cases hf' : dst.form <;> dsimp only
      case struct.struct ms ms' =>
        refine (limited_names _).bind fun names => ?_
        split
        · exact (limited_request (Api.mem_structures hx hf)).bind fun _ => limited_pure _
        · refine (limited_schema _).bind fun className => ?_
          refine (Limited.mapM fun entry _ => ?_).bind fun parts => limited_pure _
          refine (limited_except (memberCopy_fails _ _)).bind fun m => ?_
          split
          · exact limited_pure _
          · exact hg _
      case list.list e e' =>
        refine (limited_except collectionNames_fails).bind fun names => ?_
        split
        · exact limited_throw (local_schema _)
        · exact (limited_names _).bind fun element => (hg _).bind fun code => limited_pure _
      case map.map k v k' v' =>
        refine (limited_except collectionNames_fails).bind fun names => ?_
        split
        · exact limited_throw (local_schema _)
        · exact (limited_names _).bind fun element => (hg _).bind fun code => limited_pure _
      all_goals first | exact limited_pure _ | exact limited_change _

theorem copyFrom_limited (active passed : List String) (value : Expr) (x y : String) (depth : Nat)
    (target : Target) (keepNone : Bool) :
    d.Limited (d.copyFrom active passed value x y depth target keepNone) :=
  copy_induct (I := fun _ work => d.Limited work) (fun _ => limited_throw (local_schema _))
    (fun _ => copyRound_limited) active passed value x y depth target keepNone

theorem helperBody_limited (r : HelperRequest) :
    d.Limited (d.copyFrom [] [] (.name "src") r.src r.dst 1 .ret true) :=
  copyFrom_limited ..

theorem copyField_limited (p : Part) (dst : String) (f g : Field) :
    d.Limited (d.copyField p dst f g) := by
  unfold copyField
  dsimp only
  split
  · exact limited_change _
  split
  · exact limited_pure _
  split
  · exact limited_pure _
  · split
    · exact copyFrom_limited ..
    · exact limited_change _
  · exact limited_change _

theorem deltaCode_limited (way : Way) (p : Part) (dst : String) (owner : TypeRef)
    (delta : FieldDelta) : d.Limited (d.deltaCode way p dst owner delta) := by
  unfold deltaCode
  cases way <;> cases delta <;> dsimp only
  case toHub.pair c s h =>
    split
    · exact copyField_limited ..
    · exact limited_pure _
  case fromHub.pair c s h =>
    split
    · exact copyField_limited ..
    · exact limited_pure _
  all_goals exact limited_pure _

theorem partCode_limited (way : Way) (p : Part) (dst : String) (deltas : List FieldDelta) :
    d.Limited (d.partCode way p dst deltas) :=
  (Limited.mapM fun delta _ => deltaCode_limited way p dst _ delta).bind fun _ => limited_pure _

theorem functionBody_limited (way : Way) (dst : String) (delta : ResourceDelta) :
    d.Limited (d.functionBody way dst delta) :=
  (partCode_limited way .spec dst delta.spec).bind fun _ =>
    (partCode_limited way .status dst delta.status).bind fun _ => limited_pure _

end Direction

end Conversion

end ResourceVersions
