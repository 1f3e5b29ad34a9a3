import ResourceVersions.Code.Render
import ResourceVersions.Proofs.StoreDiscipline

/-! # Paths through code

A path through statements is told by what happens to the variables on it: one is read, or one gets
a value. A guard has a path through either of its bodies, and a loop has one for any number of
rounds. On a covered path every variable that is read has a value by then. Every run takes a path,
one that the variables with values cover. -/
namespace ResourceVersions.Code

/-- What happens to a variable on a path. -/
inductive Event where
  | read (x : String)
  | bind (x : String)

/-- Where a path ends: behind the last statement or with a return. -/
inductive Exit where
  | behind
  | returned

/-- The paths through statements, by what happens on them and where they end. -/
abbrev Paths := List Event → Exit → Prop

namespace Paths

def through (events : List Event) : Paths := fun p e => p = events ∧ e = .behind

def returning (events : List Event) : Paths := fun p e => p = events ∧ e = .returned

def either (A B : Paths) : Paths := fun p e => A p e ∨ B p e

/-- One path after another, up to a return. -/
inductive Then (A B : Paths) : Paths where
  | both {p q e} : A p .behind → B q e → Then A B (p ++ q) e
  | left {p} : A p .returned → Then A B p .returned

/-- Any number of rounds, up to a return. -/
inductive Rounds (A : Paths) : Paths where
  | done : Rounds A [] .behind
  | again {p q e} : A p .behind → Rounds A q e → Rounds A (p ++ q) e
  | left {p} : A p .returned → Rounds A p .returned

end Paths

open Paths

/-- The variables that an expression names. -/
def Expr.vars : Expr → List String
  | .name x => [x]
  | .attr base _ => base.vars
  | .valueCopy e => e.vars
  | .recurse _ e => e.vars
  | .type _ | .const _ => []

def Expr.reads (e : Expr) : List Event := e.vars.map .read

/-- What happens when a place gets a value. -/
def Expr.filled : Expr → List Event
  | .name x => [.bind x]
  | e => e.reads

/-- What happens when a stashed value is taken out: a variable holds it and is looked at before the
attribute is set. -/
def taken (store : Expr) : List Event :=
  store.reads ++ [.bind unstashedVar, .read unstashedVar]

mutual

def Stmt.paths : Stmt → Paths
  | .comment _ => through []
  | .assign target value => through (value.reads ++ target.filled)
  | .allocate x _ => through [.bind x]
  | .guard subject body orelse =>
    Then (through subject.reads) (either (pathsOf body) (pathsOf orelse))
  | .loop x range subject body =>
    Then (through subject.reads)
      (Rounds (Then (through ((Loop.mk x range subject).vars.map .bind)) (pathsOf body)))
  | .append container value => through (container.reads ++ value.reads)
  | .setItem container key value => through (value.reads ++ container.reads ++ key.reads)
  | .stash store _ value => through (store.reads ++ value.reads)
  | .unstash store _ base _ _ =>
    either (through (taken store)) (through (taken store ++ .read unstashedVar :: base.reads))
  | .ret value => returning value.reads
  | .func name .. => through [.bind name]

def pathsOf : List Stmt → Paths
  | [] => through []
  | s :: rest => Then s.paths (pathsOf rest)

end

/-- Every variable that is read on a path is known or has got a value before. -/
def Covered (known : String → Prop) (path : List Event) : Prop :=
  ∀ before x behind, path = before ++ .read x :: behind → known x ∨ .bind x ∈ before

/-- Every path is covered. -/
def Paths.Covered (known : List String) (A : Paths) : Prop :=
  ∀ p e, A p e → Code.Covered (· ∈ known) p

section Events

variable {known known' : String → Prop} {p q : List Event} {x : String}

theorem covered_unread (h : ∀ x, .read x ∉ p) : Covered known p := by
  rintro before x behind rfl
  exact (h x (by simp)).elim

theorem covered_read (h : known x) : Covered known [.read x] := by
  intro before y behind hp
  cases before with
  | nil =>
    obtain ⟨hy, -⟩ := List.cons.inj hp
    cases hy
    exact .inl h
  | cons event before => simp at hp

/-- What a path gives a value is known behind it. -/
theorem Covered.append (hp : Covered known p) (hq : Covered known' q)
    (h : ∀ x, known' x → known x ∨ .bind x ∈ p) : Covered known (p ++ q) := by
  intro before x behind heq
  rcases List.append_eq_append_iff.mp heq with ⟨r, rfl, hr⟩ | ⟨r, hr, hbehind⟩
  · rcases hq r x behind hr with hx | hx
    · exact (h x hx).imp_right (List.mem_append_left _)
    · exact .inr (List.mem_append_right _ hx)
  · cases r with
    | nil =>
      rw [List.append_nil] at hr
      subst hr
      rcases hq [] x behind hbehind.symm with hx | hx
      · exact h x hx
      · cases hx
    | cons event r =>
      obtain ⟨rfl, -⟩ := List.cons.inj hbehind
      exact hp before x r hr

theorem Covered.both (hp : Covered known p) (hq : Covered known q) : Covered known (p ++ q) :=
  hp.append hq fun _ => .inl

theorem covered_reads {e : Expr} (h : ∀ x ∈ e.vars, known x) : Covered known e.reads := by
  intro before x behind hp
  have hin : Event.read x ∈ e.reads := by simp [hp]
  obtain ⟨y, hy, heq⟩ := List.mem_map.mp hin
  cases heq
  exact .inl (h x hy)

theorem covered_filled {e : Expr} (h : ∀ x ∈ e.vars, known x) : Covered known e.filled := by
  cases e with
  | name x => exact covered_unread (by simp [Expr.filled])
  | _ => exact covered_reads h

theorem covered_taken {store : Expr} (h : ∀ x ∈ store.vars, known x) :
    Covered known (taken store) := by
  have hset : Covered known [.bind unstashedVar] := covered_unread (by simp)
  have hread : Covered (· = unstashedVar) [.read unstashedVar] := covered_read rfl
  exact (covered_reads h).both (hset.append hread fun x hx => .inr (by simp [hx]))

theorem covered_restored {store base : Expr} (hstore : ∀ x ∈ store.vars, known x)
    (hbase : ∀ x ∈ base.vars, known x) :
    Covered known (taken store ++ .read unstashedVar :: base.reads) := by
  have hread : Covered (fun x => x = unstashedVar ∨ known x) (.read unstashedVar :: base.reads) :=
    (covered_read (.inl rfl)).both (covered_reads fun x hx => .inr (hbase x hx))
  refine (covered_taken hstore).append hread fun x hx => hx.symm.imp_right ?_
  rintro rfl
  simp [taken]

end Events

section Cover

variable {known : List String} {p : List Event} {x : String} {A B : Paths} {e : Expr}
  {code body orelse : List Stmt}

theorem Covered.binds {l : List String} (h : Covered (· ∈ l ++ known) p) :
    Covered (· ∈ known) (l.map .bind ++ p) := by
  refine (covered_unread (by simp)).append h fun x hx => ?_
  exact (List.mem_append.mp hx).symm.imp_right (List.mem_map_of_mem)

theorem vars_name_subset (h : x ∈ known) : (Expr.name x).vars ⊆ known :=
  List.cons_subset.mpr ⟨h, List.nil_subset _⟩

namespace Paths

theorem Covered.then (hA : A.Covered known) (hB : B.Covered known) : (Then A B).Covered known := by
  intro p e h
  cases h with
  | both hp hq => exact (hA _ _ hp).both (hB _ _ hq)
  | left hp => exact hA _ _ hp

theorem Covered.either (hA : A.Covered known) (hB : B.Covered known) :
    (either A B).Covered known := by
  rintro p e (h | h)
  · exact hA p e h
  · exact hB p e h

theorem Covered.rounds (hA : A.Covered known) : (Rounds A).Covered known := by
  intro p e h
  induction h with
  | done => exact covered_unread (by simp)
  | again hp _ ih => exact (hA _ _ hp).both ih
  | left hp => exact hA _ _ hp

theorem covered_through (h : Code.Covered (· ∈ known) p) : (through p).Covered known := by
  rintro q e ⟨rfl, -⟩
  exact h

theorem covered_returning (h : Code.Covered (· ∈ known) p) : (returning p).Covered known := by
  rintro q e ⟨rfl, -⟩
  exact h

theorem Covered.behind_bindings {l : List String} (hA : A.Covered (l ++ known)) :
    (Then (through (l.map .bind)) A).Covered known := by
  intro p e h
  cases h with
  | both hp hq =>
    obtain ⟨rfl, -⟩ := hp
    exact (hA _ _ hq).binds
  | left hp => cases hp.2

end Paths

/-- The paths through statements that are each covered. -/
theorem covered_block (h : ∀ s ∈ code, s.paths.Covered known) : (pathsOf code).Covered known := by
  induction code with
  | nil => exact covered_through (covered_unread (by simp))
  | cons s code ih =>
    obtain ⟨hs, hcode⟩ := List.forall_mem_cons.mp h
    exact hs.then (ih hcode)

theorem covered_allocate {fresh : Fresh} (h : ∀ s ∈ code, s.paths.Covered (x :: known)) :
    (pathsOf (.allocate x fresh :: code)).Covered known := by
  have hcode : (pathsOf code).Covered ([x] ++ known) := covered_block h
  exact hcode.behind_bindings

theorem covered_assign (he : e.vars ⊆ known) (h : ∀ s ∈ code, s.paths.Covered (x :: known)) :
    (pathsOf (.assign (.name x) e :: code)).Covered known := by
  intro p exit hp
  cases hp with
  | both hp hq =>
    obtain ⟨rfl, -⟩ := hp
    rw [Expr.filled, List.append_assoc]
    exact (covered_reads he).both (Covered.binds (l := [x]) (covered_block h _ _ hq))
  | left hp => cases hp.2

theorem covered_fill {target : Expr} (he : e.vars ⊆ known) (htarget : target.vars ⊆ known) :
    (Stmt.assign target e).paths.Covered known :=
  covered_through ((covered_reads he).both (covered_filled htarget))

theorem covered_unstash {store base : Expr} {fieldId a : String} {owner : TypeRef}
    (hstore : store.vars ⊆ known) (hbase : base.vars ⊆ known) :
    (Stmt.unstash store fieldId base a owner).paths.Covered known :=
  (covered_through (covered_taken hstore)).either
    (covered_through (covered_restored hstore hbase))

theorem covered_guard (he : e.vars ⊆ known) (hbody : (pathsOf body).Covered known)
    (horelse : (pathsOf orelse).Covered known) : (Stmt.guard e body orelse).paths.Covered known :=
  (covered_through (covered_reads he)).then (hbody.either horelse)

theorem covered_loop {range : LoopRange} (he : e.vars ⊆ known)
    (hbody : (pathsOf body).Covered ((Loop.mk x range e).vars ++ known)) :
    (Stmt.loop x range e body).paths.Covered known :=
  (covered_through (covered_reads he)).then hbody.behind_bindings.rounds

end Cover

section Runs

variable {classes : Classes} {call : String → Value → Option Value} {f g : Frame} {o : Outcome}
  {p q : List Event} {e : Expr} {v : Value} {A B : Paths}

def Outcome.exit : Outcome → Exit
  | .running _ => .behind
  | .returned _ => .returned

/-- A run that takes a path: what is read on it has a value by then, and what has a value in the
end got it on the way. -/
structure Takes (f : Frame) (p : List Event) (o : Outcome) : Prop where
  covered : Covered (fun x => (f x).isSome) p
  bound : ∀ g, o = .running g → ∀ x, (g x).isSome → (f x).isSome ∨ .bind x ∈ p

/-- A run takes one of some paths. -/
def Paths.Followed (A : Paths) (f : Frame) (o : Outcome) : Prop := ∃ p, A p o.exit ∧ Takes f p o

theorem Takes.append (hp : Takes f p (.running g)) (hq : Takes g q o) : Takes f (p ++ q) o where
  covered := hp.covered.append hq.covered (hp.bound g rfl)
  bound k hk x hx := by
    rcases hq.bound k hk x hx with hx | hx
    · exact (hp.bound g rfl x hx).imp_right (List.mem_append_left _)
    · exact .inr (List.mem_append_right _ hx)

theorem eval_vars (h : e.eval call f = some v) : ∀ x ∈ e.vars, (f x).isSome := by
  induction e generalizing v with
  | name x =>
    intro y hy
    obtain rfl := List.mem_singleton.mp hy
    exact Option.isSome_of_eq_some h
  | attr base a ih =>
    obtain ⟨o, ho, -⟩ := Option.bind_eq_some_iff.mp h
    exact ih ho
  | valueCopy e ih => exact ih h
  | recurse helper e ih =>
    obtain ⟨w, hw, -⟩ := Option.bind_eq_some_iff.mp h
    exact ih hw
  | type ref => cases h
  | const w => exact List.forall_mem_nil _

/-- Changing an object gives no value to a variable that had none. -/
theorem assign_bound {w : Value} (h : e.assign call v f = some g) (he : e.eval call f = some w) :
    ∀ x, (g x).isSome → (f x).isSome := by
  induction e generalizing v w with
  | name x =>
    cases h
    intro y hy
    by_cases hxy : y = x
    · exact hxy ▸ Option.isSome_of_eq_some he
    · rwa [Frame.set_ne f hxy] at hy
  | attr base a ih =>
    obtain ⟨o, ho, hset⟩ := Option.bind_eq_some_iff.mp h
    obtain ⟨o', -, hbase⟩ := Option.bind_eq_some_iff.mp hset
    exact ih hbase ho
  | _ => cases h

/-- Reading variables that have values, and changing objects at most. -/
theorem takes_reads (hp : Covered (fun x => (f x).isSome) p)
    (h : ∀ x, (g x).isSome → (f x).isSome) : Takes f p (.running g) where
  covered := hp
  bound := by
    rintro _ ⟨⟩ x hx
    exact .inl (h x hx)

theorem takes_bind (x : String) : Takes f [.bind x] (.running (f.set x v)) where
  covered := covered_unread (by simp)
  bound := by
    rintro _ ⟨⟩ y hy
    by_cases hxy : y = x
    · exact .inr (by simp [hxy])
    · rw [Frame.set_ne f hxy] at hy
      exact .inl hy

theorem takes_filled (h : e.assign call v f = some g) : Takes f e.filled (.running g) := by
  cases e with
  | name x =>
    cases h
    exact takes_bind x
  | attr base a =>
    obtain ⟨o, ho, hset⟩ := Option.bind_eq_some_iff.mp h
    obtain ⟨o', -, hbase⟩ := Option.bind_eq_some_iff.mp hset
    have hreads : Covered (fun x => (f x).isSome) base.reads := covered_reads (eval_vars ho)
    exact takes_reads hreads (assign_bound hbase ho)
  | _ => cases h

theorem andThen_cases {next : Frame → Option Outcome} {first : Option Outcome}
    (h : first.bind (Outcome.andThen next) = some o) :
    (∃ g, first = some (.running g) ∧ next g = some o) ∨
      ∃ v, first = some (.returned v) ∧ o = .returned v := by
  obtain ⟨r, hr, hnext⟩ := Option.bind_eq_some_iff.mp h
  cases r with
  | running g => exact .inl ⟨g, hr, hnext⟩
  | returned v =>
    cases hnext
    exact .inr ⟨v, hr, rfl⟩

namespace Paths

theorem followed_through (h : Takes f p (.running g)) : (through p).Followed f (.running g) :=
  ⟨p, ⟨rfl, rfl⟩, h⟩

theorem Followed.then (hA : A.Followed f (.running g)) (hB : B.Followed g o) :
    (Then A B).Followed f o := by
  obtain ⟨p, hp, hfirst⟩ := hA
  obtain ⟨q, hq, hlast⟩ := hB
  exact ⟨p ++ q, .both hp hq, hfirst.append hlast⟩

theorem Followed.behind_reads (he : e.eval call f = some v) (hA : A.Followed f o) :
    (Then (through e.reads) A).Followed f o :=
  (followed_through (takes_reads (covered_reads (eval_vars he)) fun _ => id)).then hA

theorem Followed.left (hA : A.Followed f (.returned v)) : (Then A B).Followed f (.returned v) := by
  obtain ⟨p, hp, hfirst⟩ := hA
  exact ⟨p, .left hp, hfirst⟩

theorem Followed.first (hA : A.Followed f o) : (either A B).Followed f o :=
  hA.imp fun _ h => ⟨.inl h.1, h.2⟩

theorem Followed.second (hB : B.Followed f o) : (either A B).Followed f o :=
  hB.imp fun _ h => ⟨.inr h.1, h.2⟩

theorem followed_rounds {α : Type} {step : α → Frame → Option Outcome} {items : List α}
    (hstep : ∀ a f o, step a f = some o → A.Followed f o) (h : forEach step items f = some o) :
    (Rounds A).Followed f o := by
  induction items generalizing f with
  | nil =>
    cases h
    exact ⟨[], .done, takes_reads (covered_unread (by simp)) fun _ => id⟩
  | cons a items ih =>
    rw [forEach] at h
    rcases andThen_cases h with ⟨g, hfirst, hrest⟩ | ⟨v, hfirst, rfl⟩
    · obtain ⟨p, hp, htakes⟩ := hstep a f _ hfirst
      obtain ⟨q, hq, hlast⟩ := ih hrest
      exact ⟨p ++ q, .again hp hq, htakes.append hlast⟩
    · obtain ⟨p, hp, htakes⟩ := hstep a f _ hfirst
      exact ⟨p, .left hp, htakes⟩

end Paths

mutual

/-- A run of a statement takes one of its paths. -/
theorem exec_followed (s : Stmt) (f : Frame) (o : Outcome) (h : s.exec classes call f = some o) :
    s.paths.Followed f o := by
  cases s with
  | comment text =>
    cases h
    exact followed_through (takes_reads (covered_unread (by simp)) fun _ => id)
  | assign target value =>
    obtain ⟨v, hv, h⟩ := Option.bind_eq_some_iff.mp h
    obtain ⟨g, hg, h⟩ := Option.bind_eq_some_iff.mp h
    cases h
    exact followed_through
      ((takes_reads (covered_reads (eval_vars hv)) fun _ => id).append (takes_filled hg))
  | allocate x fresh =>
    obtain ⟨v, -, h⟩ := Option.bind_eq_some_iff.mp h
    cases h
    exact followed_through (takes_bind x)
  | guard subject body orelse =>
    obtain ⟨v, hv, h⟩ := Option.bind_eq_some_iff.mp h
    refine .behind_reads hv ?_
    split at h
    · exact (execAll_followed orelse f o h).second
    · exact (execAll_followed body f o h).first
  | loop x range subject body =>
    cases range with
    | items =>
      obtain ⟨v, hv, h⟩ := Option.bind_eq_some_iff.mp h
      refine .behind_reads hv ?_
      split at h
      · refine followed_rounds (fun w f o hround => ?_) h
        exact (followed_through (takes_bind x)).then (execAll_followed body _ o hround)
      · cases h
    | entries k =>
      obtain ⟨v, hv, h⟩ := Option.bind_eq_some_iff.mp h
      refine .behind_reads hv ?_
      split at h
      · refine followed_rounds (fun w f o hround => ?_) h
        exact (followed_through ((takes_bind k).append (takes_bind x))).then
          (execAll_followed body _ o hround)
      · cases h
  | append container value =>
    obtain ⟨v, hv, h⟩ := Option.bind_eq_some_iff.mp h
    obtain ⟨c, hc, h⟩ := Option.bind_eq_some_iff.mp h
    obtain ⟨c', -, h⟩ := Option.bind_eq_some_iff.mp h
    obtain ⟨g, hg, h⟩ := Option.bind_eq_some_iff.mp h
    cases h
    exact followed_through (takes_reads
      ((covered_reads (eval_vars hc)).both (covered_reads (eval_vars hv))) (assign_bound hg hc))
  | setItem container key value =>
    obtain ⟨v, hv, h⟩ := Option.bind_eq_some_iff.mp h
    obtain ⟨k, hk, h⟩ := Option.bind_eq_some_iff.mp h
    obtain ⟨c, hc, h⟩ := Option.bind_eq_some_iff.mp h
    obtain ⟨c', -, h⟩ := Option.bind_eq_some_iff.mp h
    obtain ⟨g, hg, h⟩ := Option.bind_eq_some_iff.mp h
    cases h
    exact followed_through (takes_reads (((covered_reads (eval_vars hv)).both
      (covered_reads (eval_vars hc))).both (covered_reads (eval_vars hk))) (assign_bound hg hc))
  | stash store fieldId value =>
    obtain ⟨v, hv, h⟩ := Option.bind_eq_some_iff.mp h
    obtain ⟨g, hg, h⟩ := Option.bind_eq_some_iff.mp h
    cases h
    obtain ⟨object, hobject, hg⟩ := Option.bind_eq_some_iff.mp hg
    obtain ⟨annotations, -, hg⟩ := Option.bind_eq_some_iff.mp hg
    obtain ⟨stash, -, hg⟩ := Option.bind_eq_some_iff.mp hg
    obtain ⟨object', -, hg⟩ := Option.bind_eq_some_iff.mp hg
    exact followed_through (takes_reads ((covered_reads (eval_vars hobject)).both
      (covered_reads (eval_vars hv))) (assign_bound hg hobject))
  | unstash store fieldId base a owner =>
    obtain ⟨g, hg, h⟩ := Option.bind_eq_some_iff.mp h
    cases h
    obtain ⟨object, hobject, hg⟩ := Option.bind_eq_some_iff.mp hg
    obtain ⟨annotations, -, hg⟩ := Option.bind_eq_some_iff.mp hg
    obtain ⟨stash, -, hg⟩ := Option.bind_eq_some_iff.mp hg
    split at hg
    · cases hg
    obtain ⟨object', -, hg⟩ := Option.bind_eq_some_iff.mp hg
    obtain ⟨f', hf', hg⟩ := Option.bind_eq_some_iff.mp hg
    have hkept := assign_bound hf' hobject
    split at hg
    · cases hg
      exact (followed_through (takes_reads (covered_taken (eval_vars hobject)) hkept)).first
    · obtain ⟨target, htarget, hset⟩ := Option.bind_eq_some_iff.mp hg
      obtain ⟨target', -, hassign⟩ := Option.bind_eq_some_iff.mp hset
      have hreads := covered_restored (eval_vars hobject)
        fun x hx => hkept x (eval_vars htarget x hx)
      exact (followed_through
        (takes_reads hreads fun x hx => hkept x (assign_bound hassign htarget x hx))).second
  | ret value =>
    obtain ⟨v, hv, h⟩ := Option.bind_eq_some_iff.mp h
    cases h
    exact ⟨_, ⟨rfl, rfl⟩, covered_reads (eval_vars hv), nofun⟩
  | func name params body doc => cases h

/-- A run of statements takes one of their paths. -/
theorem execAll_followed (code : List Stmt) (f : Frame) (o : Outcome)
    (h : execAll classes call code f = some o) : (pathsOf code).Followed f o := by
  cases code with
  | nil =>
    cases h
    exact followed_through (takes_reads (covered_unread (by simp)) fun _ => id)
  | cons s rest =>
    rcases andThen_cases h with ⟨g, hfirst, hrest⟩ | ⟨v, hfirst, rfl⟩
    · exact (exec_followed s f _ hfirst).then (execAll_followed rest g o hrest)
    · exact (exec_followed s f _ hfirst).left

end

end Runs

end ResourceVersions.Code
