import ResourceVersions.Proofs.FieldCode
import ResourceVersions.Proofs.Spelling

/-! # Calls of copy helpers

Generated code calls helpers where it was emitted for a structure inside itself. The calls in the
code of a copy or of a conversion function are, one by one and in order, the requests that the
code was emitted with. -/
namespace ResourceVersions

namespace Code

/-- The helpers that an expression calls. -/
def Expr.calls : Expr → List String
  | .attr base _ => base.calls
  | .valueCopy e => e.calls
  | .recurse helper e => helper :: e.calls
  | .name _ | .type _ | .const _ => []

mutual

/-- The helpers that a statement calls, in the order of its text. -/
def Stmt.calls : Stmt → List String
  | .comment _ | .allocate .. => []
  | .assign target value => target.calls ++ value.calls
  | .guard subject body orelse => subject.calls ++ callsAll body ++ callsAll orelse
  | .loop _ _ subject body => subject.calls ++ callsAll body
  | .append container value => container.calls ++ value.calls
  | .setItem container key value => container.calls ++ key.calls ++ value.calls
  | .stash store _ value => store.calls ++ value.calls
  | .unstash store _ base _ _ => store.calls ++ base.calls
  | .ret value => value.calls
  | .func _ _ body _ => callsAll body

def callsAll : List Stmt → List String
  | [] => []
  | s :: rest => s.calls ++ callsAll rest

end

def Func.calls (f : Func) : List String := callsAll f.body

@[simp] theorem callsAll_nil : callsAll [] = [] := rfl

@[simp] theorem callsAll_cons (s : Stmt) (l : List Stmt) :
    callsAll (s :: l) = s.calls ++ callsAll l := rfl

@[simp] theorem callsAll_append (l l' : List Stmt) :
    callsAll (l ++ l') = callsAll l ++ callsAll l' := by
  induction l with
  | nil => rfl
  | cons s l ih => simp [ih]

end Code

namespace Conversion

open Code

/-- A call of the helper for a structure that a request asks for. -/
structure CallFor (d : Direction) (name : String) (r : HelperRequest) : Prop where
  name : d.helperName? r.src = some name
  shape : ∃ s, d.src.api.shapes.get? r.src = some s

/-- Calls that stand for requests one by one. -/
abbrev CallsFor (d : Direction) (names : List String) (requests : List HelperRequest) : Prop :=
  List.Forall₂ (CallFor d) names requests

def Target.calls : Target → List String
  | .assign target => target.calls
  | .append container => container.calls
  | .setItem container key => container.calls ++ key.calls
  | .ret => []

@[simp] theorem Target.calls_store (t : Target) (e : Expr) :
    (t.store e).calls = t.calls ++ e.calls := by
  cases t <;> simp [store, calls, Stmt.calls]

variable {d : Direction} {name : String} {r : HelperRequest}

/-- Behind every call stands a request. -/
theorem CallsFor.request {names : List String} {requests : List HelperRequest}
    (h : CallsFor d names requests) (hn : name ∈ names) : ∃ r ∈ requests, CallFor d name r := by
  induction h with
  | nil => cases hn
  | cons hc _ ih =>
    rcases List.mem_cons.mp hn with rfl | hn
    · exact ⟨_, List.mem_cons_self .., hc⟩
    · obtain ⟨r, hr, hc⟩ := ih hn
      exact ⟨r, List.mem_cons_of_mem _ hr, hc⟩

/-- Every request has its call. -/
theorem CallsFor.call {names : List String} {requests : List HelperRequest}
    (h : CallsFor d names requests) (hr : r ∈ requests) : ∃ name ∈ names, CallFor d name r := by
  induction h with
  | nil => cases hr
  | cons hc _ ih =>
    rcases List.mem_cons.mp hr with rfl | hr
    · exact ⟨_, List.mem_cons_self .., hc⟩
    · obtain ⟨name, hn, hc⟩ := ih hr
      exact ⟨name, List.mem_cons_of_mem _ hn, hc⟩

theorem CallsFor.append {names names' : List String} {requests requests' : List HelperRequest}
    (h : CallsFor d names requests) (h' : CallsFor d names' requests') :
    CallsFor d (names ++ names') (requests ++ requests') :=
  List.rel_append h h'

/-- The calls of several pieces of code are the requests of the pieces. -/
theorem CallsFor.flatMap {α : Type} {parts : List α} {code : α → List Stmt}
    {requests : α → List HelperRequest}
    (h : ∀ p ∈ parts, CallsFor d (callsAll (code p)) (requests p)) :
    CallsFor d (callsAll (parts.flatMap code)) (parts.flatMap requests) := by
  induction parts with
  | nil => exact .nil
  | cons p parts ih =>
    rw [List.flatMap_cons, List.flatMap_cons, callsAll_append]
    exact (h p (by simp)).append (ih fun q hq => h q (by simp [hq]))

namespace Direction

theorem callsAll_guarded {value : Expr} {body : List Stmt} {target : Target}
    (hv : value.calls = []) (ht : target.calls = []) (keepNone : Bool) :
    callsAll (guarded value body target keepNone) = callsAll body := by
  cases keepNone <;> simp [guarded, Stmt.calls, hv, ht, Expr.calls]

/-- Copies call helpers only where they leave a structure to one. -/
theorem CopyCode.callsFor {active : List String} {value : Expr} {x y : String} {depth : Nat}
    {target : Target} {keepNone : Bool} {code : List Stmt} {requests : List HelperRequest}
    (h : CopyCode d active value x y depth target keepNone code requests)
    (hv : value.calls = []) (ht : target.calls = []) : CallsFor d (callsAll code) requests := by
  induction h with
  | scalar _ _ => simp [hv, ht]
  | plain _ => simp [hv, ht, Expr.calls]
  | @recurse active value x y depth target keepNone s ms names hs _ hnames _ =>
    have hname : d.helperName? x = some (d.helperName names) := by
      rw [helperName?, Names.of?_eq hnames]
      rfl
    simpa [hv, ht, Expr.calls] using ⟨hname, s, hs⟩
  | @struct active value x y depth target keepNone s s' ms ms' names className parts _ _ _ _ _ _
      _ hcopied hsecret _ ih =>
    rw [callsAll_guarded hv ht]
    have hparts : CallsFor d (callsAll (parts.flatMap MemberCode.code))
        (parts.flatMap MemberCode.requests) := by
      refine CallsFor.flatMap fun p hp => ?_
      obtain ⟨m, hm⟩ := hcopied p hp
      have hslot : (memberSlot names depth m).calls = [] := rfl
      cases hs : m.isSecret with
      | true =>
        obtain ⟨hcode, hrequests⟩ := hsecret p hp m hm hs
        rw [hcode, hrequests]
        simp [hslot, Expr.calls, hv]
      | false => exact ih p hp m hm hs hv hslot
    simpa [Stmt.calls, ht, Expr.calls] using hparts
  | list _ _ _ _ _ _ _ ih =>
    rw [callsAll_guarded hv ht]
    simpa [Stmt.calls, hv, ht, Expr.calls] using ih rfl rfl
  | map _ _ _ _ _ _ _ ih =>
    rw [callsAll_guarded hv ht]
    simpa [Stmt.calls, hv, ht, Expr.calls] using ih rfl rfl

theorem FieldCode.callsFor {way : Way} {p : Part} {owner : TypeRef} {δ : FieldDelta}
    {code : List Stmt} {requests : List HelperRequest}
    (h : d.FieldCode way p owner δ code requests) : CallsFor d (callsAll code) requests := by
  cases h with
  | whole _ _ _ _ => exact .nil
  | copy _ _ _ _ _ _ _ hcopy => exact hcopy.callsFor rfl rfl
  | stash _ _ => exact .nil
  | unstash _ _ => exact .nil

theorem PartCode.callsFor {way : Way} {p : Part} {dst : String} {deltas : List FieldDelta}
    {parts : List DeltaCode} (h : d.PartCode way p (d.owner p dst) deltas parts) :
    CallsFor d (callsAll (d.partBody p dst parts)) (parts.flatMap DeltaCode.requests) := by
  have hparts := CallsFor.flatMap fun part hp => (h.each part hp).callsFor
  have hlead : callsAll (leadCode p) = [] := by cases p <;> rfl
  simpa [partBody, hlead, Stmt.calls, Expr.calls] using hparts

/-- The calls of a conversion function are its requests. -/
theorem functionBody_callsFor {way : Way} {dst : String} {delta : ResourceDelta}
    {code : List Stmt} {requests : List HelperRequest}
    (hδ : ∀ δ ∈ delta.all, δ.isSupported = true)
    (h : (d.functionBody way dst delta).run = (.ok code, requests)) :
    CallsFor d (callsAll code) requests := by
  obtain ⟨spec, status, hspec, hstatus, rfl, hrequests⟩ := functionBody_emits hδ (s := []) h
  have hsource : ∀ p : Part, p.source.calls = [] := fun _ => rfl
  rw [hrequests, List.nil_append, List.flatMap_append]
  simpa [Stmt.calls, hsource, Expr.calls] using hspec.callsFor.append hstatus.callsFor

/-- The calls of a helper are the requests of its pair. -/
theorem helperBody_callsFor {code : List Stmt} (h : (d.helperBody r).1 = .ok code) :
    CallsFor d (callsAll code) (d.helperBody r).2 := by
  have hrun : runFrom (d.copyFrom [] [] (.name "src") r.src r.dst 1 .ret true) [] =
      (.ok code, (d.helperBody r).2) := Prod.ext h rfl
  obtain ⟨requests, hrequests, hcode⟩ := copyFrom_emits hrun
  rw [hrequests, List.nil_append]
  exact hcode.callsFor rfl rfl

end Direction

end Conversion

end ResourceVersions
