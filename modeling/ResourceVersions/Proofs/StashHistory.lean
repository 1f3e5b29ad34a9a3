import Mathlib
import ResourceVersions.Proofs.StashSteps

/-! # The history of a stash

What a field has in the stash depends on the calls for that field alone: the text of the last value
that was put, unless it has been taken since. Calls for different fields do not see each other, and
all other annotations stay. -/
namespace ResourceVersions.Stash

/-- A call on the stash of an object. -/
inductive Call where
  | put (fieldId : String) (value : Value)
  | take (fieldId owner attr : String)

namespace Call

def fieldId : Call → String
  | put id _ => id
  | take id _ _ => id

/-- What a call returns; putting returns nothing. -/
def result (classes : Classes) (s : Store) (c : Call) : Except Error (Option Value) :=
  match c with
  | put _ _ => .ok none
  | take id owner attr => (Stash.take classes s id owner attr).1

/-- The annotations that a call leaves, also when it fails. -/
def step (classes : Classes) (s : Store) (c : Call) : Store :=
  match c with
  | put id v => Stash.put s id v
  | take id owner attr => (Stash.take classes s id owner attr).2

/-- Whether a call takes what is stashed for a field. -/
def Pops (id : String) (c : Call) : Prop := ∃ owner attr, c = take id owner attr

/-- Whether a call stashes a value for a field, which null does not. -/
def Sets (id : String) (v : Value) (c : Call) : Prop := c = put id v ∧ v.isNull = false

/-- Whether a call takes or replaces what is stashed for a field. -/
def Changes (id : String) (c : Call) : Prop := c.Pops id ∨ ∃ v, c.Sets id v

/-- What a call makes of the text of its own field. -/
def effect (c : Call) (text? : Option String) : Option String :=
  match c with
  | put _ v => if v.isNull then text? else some (encode v)
  | take _ _ _ => none

end Call

variable {classes : Classes} {start s s' : Store} {calls late : List Call} {c d : Call}
  {id text : String}

/-- The annotations after some calls. -/
def after (classes : Classes) (start : Store) (calls : List Call) : Store :=
  calls.foldl (Call.step classes) start

/-- What the calls return, one after the other. -/
def results (classes : Classes) : Store → List Call → List (Except Error (Option Value))
  | _, [] => []
  | s, c :: calls => c.result classes s :: results classes (c.step classes s) calls

def textAt (s : Store) (name : String) : Option String := s.bind fun t => t.get? name

/-- The value of a text in the place of an attribute. -/
def restored (classes : Classes) (owner attr text : String) : Except Error Value :=
  match classes.hint? owner attr with
  | none => .error (.attr (.unknown owner attr))
  | some hint => decode classes text hint

theorem after_append : after classes start (calls ++ late) =
    after classes (after classes start calls) late :=
  List.foldl_append

theorem after_snoc : after classes start (calls ++ [c]) =
    c.step classes (after classes start calls) := after_append

theorem results_append : results classes start (calls ++ late) =
    results classes start calls ++ results classes (after classes start calls) late := by
  induction calls generalizing start with
  | nil => rfl
  | cons c calls ih => exact congrArg (c.result classes start :: ·) ih

theorem get?_getD (s : Store) (name : String) : (s.getD ∅).get? name = textAt s name := by
  cases s <;> rfl

/-- What a take returns depends on the text of its field alone. -/
theorem take_fst (classes : Classes) (s : Store) (id owner attr : String) :
    (take classes s id owner attr).1 =
      match textAt s (key id) with
      | none => .ok none
      | some text => some <$> restored classes owner attr text := by
  cases s with
  | none => rfl
  | some t =>
    simp only [take, textAt, Option.bind_some, restored]
    cases t.get? (key id) with
    | none => rfl
    | some text =>
      cases classes.hint? owner attr with
      | none => rfl
      | some hint => rfl

/-- A take removes the entry of its field, whatever it returns. -/
theorem take_snd (classes : Classes) (s : Store) (id owner attr : String) :
    (take classes s id owner attr).2 = s.map fun t => t.erase (key id) := by
  cases s with
  | none => rfl
  | some t =>
    simp only [take, Option.map_some]
    cases hget : t.get? (key id) with
    | none => exact congrArg some (Table.erase_absent hget).symm
    | some text => rfl

theorem textAt_put (s : Store) (id : String) (v : Value) (name : String) :
    textAt (put s id v) name = if name = key id then
      (if v.isNull then textAt s name else some (encode v)) else textAt s name := by
  unfold put
  cases v.isNull with
  | true => simp
  | false =>
    rw [← get?_getD s]
    exact Table.get?_insert (s.getD ∅) (key id) name (encode v)

theorem textAt_take (classes : Classes) (s : Store) (id owner attr name : String) :
    textAt (take classes s id owner attr).2 name =
      if name = key id then none else textAt s name := by
  rw [take_snd]
  cases s with
  | none => exact (ite_self none).symm
  | some t => exact Table.get?_erase t (key id) name

/-- A call touches the text of its own field only. -/
theorem textAt_step (classes : Classes) (s : Store) (c : Call) (name : String) :
    textAt (c.step classes s) name =
      if name = key c.fieldId then c.effect (textAt s name) else textAt s name := by
  cases c with
  | put id v => exact textAt_put s id v name
  | take id owner attr => exact textAt_take classes s id owner attr name

theorem textAt_step_other (h : c.fieldId ≠ id) :
    textAt (c.step classes s) (key id) = textAt s (key id) := by
  rw [textAt_step, if_neg fun hkey => h (key_inj.mp hkey).symm]

/-- What a call does to the text of a field. -/
theorem Call.step_cases (classes : Classes) (s : Store) (c : Call) (id : String) :
    (c.Pops id ∧ textAt (c.step classes s) (key id) = none) ∨
    (∃ v, c.Sets id v ∧ textAt (c.step classes s) (key id) = some (encode v)) ∨
    (¬ c.Changes id ∧ textAt (c.step classes s) (key id) = textAt s (key id)) := by
  by_cases hid : c.fieldId = id
  · subst hid
    rw [textAt_step, if_pos rfl]
    cases c with
    | take id owner attr => exact .inl ⟨⟨owner, attr, rfl⟩, rfl⟩
    | put id v =>
      cases hnull : v.isNull with
      | true =>
        refine .inr (.inr ⟨?_, by simp [Call.effect, hnull]⟩)
        rintro (⟨owner, attr, hpop⟩ | ⟨w, hput, hw⟩)
        · cases hpop
        · cases hput
          cases hnull.symm.trans hw
      | false => exact .inr (.inl ⟨v, ⟨rfl, hnull⟩, by simp [Call.effect, hnull]⟩)
  · refine .inr (.inr ⟨?_, textAt_step_other hid⟩)
    rintro (⟨owner, attr, rfl⟩ | ⟨v, rfl, -⟩) <;> exact hid rfl

theorem Call.Sets.not_pops {v : Value} (h : c.Sets id v) : ¬ c.Pops id := by
  rintro ⟨owner, attr, rfl⟩
  cases h.1

/-- Nothing is stashed for a field: there was nothing at the start or it has been taken, and every
value that was put since has been taken. -/
def Vacant (start : Store) (calls : List Call) (id : String) : Prop :=
  (textAt start (key id) = none ∨ ∃ c ∈ calls, c.Pops id) ∧
    ∀ early c v late, calls = early ++ c :: late → c.Sets id v → ∃ d ∈ late, d.Pops id

/-- The text that is stashed for a field: that of the last value that was put, or the one at the
start, and no call has changed it since. -/
def Stored (start : Store) (calls : List Call) (id text : String) : Prop :=
  (∃ early c v late, calls = early ++ c :: late ∧ c.Sets id v ∧ text = encode v ∧
    ∀ d ∈ late, ¬ d.Changes id) ∨
  (textAt start (key id) = some text ∧ ∀ d ∈ calls, ¬ d.Changes id)

theorem snoc_eq_iff {early : List Call} : calls ++ [c] = early ++ d :: late ↔
    (late = [] ∧ calls = early ∧ c = d) ∨
      ∃ rest, late = rest ++ [c] ∧ calls = early ++ d :: rest := by
  rcases List.eq_nil_or_concat' late with rfl | ⟨rest, e, rfl⟩
  · simp
  · have hlast : early ++ d :: (rest ++ [e]) = (early ++ d :: rest) ++ [e] := by simp
    rw [hlast]
    constructor
    · intro h
      obtain ⟨hcalls, hce⟩ := List.append_inj' h rfl
      cases hce
      exact .inr ⟨rest, rfl, hcalls⟩
    · rintro (⟨hnil, -⟩ | ⟨rest', hrest, rfl⟩)
      · simp at hnil
      · obtain ⟨rfl, hce⟩ := List.append_inj' hrest rfl
        rw [hce]

/-- One call more: nothing is stashed if it is a take, or if nothing was stashed and it does not
put a value. -/
theorem vacant_snoc : Vacant start (calls ++ [c]) id ↔
    c.Pops id ∨ ¬ c.Changes id ∧ Vacant start calls id := by
  constructor
  · rintro ⟨hstart, hsets⟩
    by_cases hpop : c.Pops id
    · exact .inl hpop
    refine .inr ⟨?_, ?_, ?_⟩
    · rintro (h | ⟨v, hv⟩)
      · exact hpop h
      · obtain ⟨d, hd, -⟩ := hsets calls c v [] rfl hv
        cases hd
    · refine hstart.imp_right ?_
      rintro ⟨d, hd, hpops⟩
      rcases List.mem_append.mp hd with hd | hd
      · exact ⟨d, hd, hpops⟩
      · obtain rfl := List.mem_singleton.mp hd
        exact absurd hpops hpop
    · rintro early d v late rfl hv
      obtain ⟨e, he, hpops⟩ := hsets early d v (late ++ [c]) (by simp) hv
      rcases List.mem_append.mp he with he | he
      · exact ⟨e, he, hpops⟩
      · obtain rfl := List.mem_singleton.mp he
        exact absurd hpops hpop
  · rintro (hpop | ⟨hchanges, hstart, hsets⟩)
    · refine ⟨.inr ⟨c, by simp, hpop⟩, fun early d v late h hv => ?_⟩
      rcases snoc_eq_iff.mp h with ⟨-, -, rfl⟩ | ⟨rest, rfl, -⟩
      · exact absurd hpop hv.not_pops
      · exact ⟨c, by simp, hpop⟩
    · refine ⟨hstart.imp_right ?_, fun early d v late h hv => ?_⟩
      · rintro ⟨d, hd, hpops⟩
        exact ⟨d, List.mem_append_left _ hd, hpops⟩
      · rcases snoc_eq_iff.mp h with ⟨-, -, rfl⟩ | ⟨rest, rfl, hcalls⟩
        · exact absurd (.inr ⟨v, hv⟩) hchanges
        · obtain ⟨e, he, hpops⟩ := hsets early d v rest hcalls hv
          exact ⟨e, List.mem_append_left _ he, hpops⟩

/-- One call more: it puts the text, or the text was stashed and the call does not change that. -/
theorem stored_snoc : Stored start (calls ++ [c]) id text ↔
    (∃ v, c.Sets id v ∧ text = encode v) ∨ ¬ c.Changes id ∧ Stored start calls id text := by
  constructor
  · rintro (⟨early, d, v, late, h, hv, htext, hlate⟩ | ⟨hstart, hcalls⟩)
    · rcases snoc_eq_iff.mp h with ⟨-, -, rfl⟩ | ⟨rest, rfl, rfl⟩
      · exact .inl ⟨v, hv, htext⟩
      · obtain ⟨hrest, hlast⟩ := List.forall_mem_append.mp hlate
        exact .inr ⟨hlast c (by simp), .inl ⟨early, d, v, rest, rfl, hv, htext, hrest⟩⟩
    · obtain ⟨hrest, hlast⟩ := List.forall_mem_append.mp hcalls
      exact .inr ⟨hlast c (by simp), .inr ⟨hstart, hrest⟩⟩
  · have hsingle : ¬ c.Changes id → ∀ d ∈ [c], ¬ d.Changes id := fun h d hd => by
      rwa [List.mem_singleton.mp hd]
    rintro (⟨v, hv, htext⟩ |
      ⟨hchanges, ⟨early, d, v, late, rfl, hv, htext, hlate⟩ | ⟨hstart, hcalls⟩⟩)
    · exact .inl ⟨calls, c, v, [], rfl, hv, htext, nofun⟩
    · exact .inl ⟨early, d, v, late ++ [c], by simp, hv, htext,
        List.forall_mem_append.mpr ⟨hlate, hsingle hchanges⟩⟩
    · exact .inr ⟨hstart, List.forall_mem_append.mpr ⟨hcalls, hsingle hchanges⟩⟩

/-- What is stashed for a field after some calls can be told from the calls. -/
theorem textAt_after (classes : Classes) (start : Store) (calls : List Call) (id : String) :
    (textAt (after classes start calls) (key id) = none ↔ Vacant start calls id) ∧
      ∀ text, textAt (after classes start calls) (key id) = some text ↔
        Stored start calls id text := by
  induction calls using List.reverseRecOn with
  | nil => simp [after, Vacant, Stored]
  | append_singleton calls c ih =>
    rw [after_snoc, vacant_snoc]
    simp only [stored_snoc]
    -- the last call takes the text, replaces it or leaves it to the calls before
    rcases c.step_cases classes (after classes start calls) id with
      ⟨hpop, hstep⟩ | ⟨v, hv, hstep⟩ | ⟨hchanges, hstep⟩
    · have hchanges : c.Changes id := .inl hpop
      have hsets : ∀ v, ¬ c.Sets id v := fun v hv => hv.not_pops hpop
      simp [hstep, hpop, hchanges, hsets]
    · have hchanges : c.Changes id := .inr ⟨v, hv⟩
      have hsets : ∀ w, c.Sets id w ↔ w = v := fun w => by
        refine ⟨fun hw => ?_, fun h => h ▸ hv⟩
        cases hw.1.symm.trans hv.1
        rfl
      simp [hstep, hv.not_pops, hchanges, hsets, eq_comm]
    · have hpop : ¬ c.Pops id := fun h => hchanges (.inl h)
      have hsets : ∀ v, ¬ c.Sets id v := fun v hv => hchanges (.inr ⟨v, hv⟩)
      simp [hstep, hpop, hchanges, hsets, ih]

/-- The entries that no call is for. -/
def untouched (calls : List Call) (s : Store) : Table String :=
  (s.getD ∅).filter fun name _ => !(calls.map fun c => key c.fieldId).contains name

theorem filter_step (keep : String → Bool) (h : keep (key c.fieldId) = false) :
    ((c.step classes s).getD ∅).filter (fun name _ => keep name) =
      (s.getD ∅).filter fun name _ => keep name := by
  cases c with
  | put id v =>
    simp only [Call.step, put]
    split
    · rfl
    · exact (s.getD ∅).filter_insert_dropped keep (encode v) h
  | take id owner attr =>
    simp only [Call.step, take_snd]
    cases s with
    | none => rfl
    | some t => exact t.filter_erase_dropped keep h

theorem filter_after (keep : String → Bool) (h : ∀ c ∈ calls, keep (key c.fieldId) = false) :
    ((after classes start calls).getD ∅).filter (fun name _ => keep name) =
      (start.getD ∅).filter fun name _ => keep name := by
  induction calls generalizing start with
  | nil => rfl
  | cons c calls ih =>
    obtain ⟨hc, hcalls⟩ := List.forall_mem_cons.mp h
    exact (ih hcalls).trans (filter_step keep hc)

/-- The same annotations, but for the order in which they were written. -/
def Same (s s' : Store) : Prop :=
  s.isSome = s'.isSome ∧ ∀ name, textAt s name = textAt s' name

/-- Whether a call writes an entry, which makes annotations where there were none. -/
def Call.writes : Call → Bool
  | put _ v => !v.isNull
  | take _ _ _ => false

theorem isSome_step : (c.step classes s).isSome = (s.isSome || c.writes) := by
  cases c with
  | put id v => cases hnull : v.isNull <;> simp [Call.step, put, Call.writes, hnull]
  | take id owner attr => simp [Call.step, take_snd, Call.writes]

/-- What a call returns depends on the text of its own field alone. -/
theorem result_congr (h : textAt s (key c.fieldId) = textAt s' (key c.fieldId)) :
    c.result classes s = c.result classes s' := by
  cases c with
  | put id v => rfl
  | take id owner attr =>
    replace h : textAt s (key id) = textAt s' (key id) := h
    simp only [Call.result, take_fst, h]

theorem Same.step (h : Same s s') (c : Call) : Same (c.step classes s) (c.step classes s') := by
  refine ⟨by rw [isSome_step, isSome_step, h.1], fun name => ?_⟩
  rw [textAt_step, textAt_step, h.2 name]

theorem Same.after (h : Same s s') (calls : List Call) :
    Same (after classes s calls) (after classes s' calls) := by
  induction calls generalizing s s' with
  | nil => exact h
  | cons c calls ih => exact ih (h.step c)

theorem Same.results (h : Same s s') (calls : List Call) :
    results classes s calls = results classes s' calls := by
  induction calls generalizing s s' with
  | nil => rfl
  | cons c calls ih => exact congrArg₂ List.cons (result_congr (h.2 _)) (ih (h.step c))

/-- Calls for different fields can change places. -/
theorem same_swap (classes : Classes) (s : Store) (h : c.fieldId ≠ d.fieldId) :
    Same (d.step classes (c.step classes s)) (c.step classes (d.step classes s)) := by
  refine ⟨by simp only [isSome_step, Bool.or_right_comm], fun name => ?_⟩
  simp only [textAt_step]
  by_cases hc : name = key c.fieldId
  · have hd : name ≠ key d.fieldId := fun hd => h (key_inj.mp (hc.symm.trans hd))
    rw [if_neg hd, if_neg hd]
  · rw [if_neg hc, if_neg hc]

/-- What a take does after some calls. -/
structure Taken (classes : Classes) (start : Store) (calls : List Call) (id owner attr : String)
    (answer : Except Error (Option Value) × Store) : Prop where
  missing : answer.1 = .ok none ↔ Vacant start calls id
  stored : ¬ Vacant start calls id → ∃ text, Stored start calls id text
  restored : ∀ text, Stored start calls id text →
    answer.1 = some <$> restored classes owner attr text
  removed : answer.2 = (after classes start calls).map fun t => t.erase (key id)

theorem taken_after (classes : Classes) (start : Store) (calls : List Call)
    (id owner attr : String) : Taken classes start calls id owner attr
      (take classes (after classes start calls) id owner attr) := by
  obtain ⟨hvacant, hstored⟩ := textAt_after classes start calls id
  constructor
  case missing =>
    rw [take_fst, ← hvacant]
    cases textAt (after classes start calls) (key id) with
    | none => simp
    | some text =>
      simp only [reduceCtorEq, iff_false]
      cases restored classes owner attr text <;> nofun
  case stored =>
    intro h
    obtain ⟨text, htext⟩ := Option.ne_none_iff_exists'.mp (mt hvacant.mp h)
    exact ⟨text, (hstored text).mp htext⟩
  case restored =>
    intro text h
    rw [take_fst, (hstored text).mpr h]
  case removed => exact take_snd classes (after classes start calls) id owner attr

/-- Whatever values are put and taken: the entries that no call is for stay as they are, a take
finds the text of the last value that was put and not taken since, and two calls for different
fields in a row can change places, which changes no result and no annotation. The annotations may
be missing at the start, and a take that fails has still removed its entry. -/
theorem stash_history (classes : Classes) (start : Store) (calls : List Call) :
    untouched calls (after classes start calls) = untouched calls start ∧
    (∀ id owner attr, Taken classes start calls id owner attr
      (take classes (after classes start calls) id owner attr)) ∧
    ∀ c d late, c.fieldId ≠ d.fieldId →
      Same (after classes start (calls ++ c :: d :: late))
        (after classes start (calls ++ d :: c :: late)) ∧
      ∃ a b rest,
        results classes start (calls ++ c :: d :: late) =
          results classes start calls ++ a :: b :: rest ∧
        results classes start (calls ++ d :: c :: late) =
          results classes start calls ++ b :: a :: rest := by
  refine ⟨filter_after _ fun c hc => ?_, taken_after classes start calls, fun c d late hne => ?_⟩
  · rw [Bool.not_eq_false', List.contains_iff_mem]
    exact List.mem_map_of_mem hc
  have hswap := same_swap classes (after classes start calls) hne
  have hc : c.result classes (d.step classes (after classes start calls)) =
      c.result classes (after classes start calls) := result_congr (textAt_step_other hne.symm)
  have hd : d.result classes (c.step classes (after classes start calls)) =
      d.result classes (after classes start calls) := result_congr (textAt_step_other hne)
  simp only [after_append, results_append, results, hc, hd]
  exact ⟨hswap.after late, _, _, _, rfl, by rw [hswap.results late]⟩

namespace Sample

def boxes : Classes :=
  .ofList [("Box", [⟨"name", .str, none⟩, ⟨"size", .int, none⟩])]

/-- Annotations with a note of the user and a stashed size. -/
def parked : Store := some (.ofList [("note", "mine"), (key "spec.Size", "int=3")])

/-- The name is put, the size is taken, and the name is put once more but is not set. -/
def edits : List Call :=
  [.put "spec.Name" (.str "old"), .take "spec.Size" "Box" "size", .put "spec.Name" .null]

theorem size_vacant : Vacant parked edits "spec.Size" := by
  refine ⟨.inr ⟨.take "spec.Size" "Box" "size", by simp [edits], "Box", "size", rfl⟩, ?_⟩
  rintro early c v late h ⟨rfl, -⟩
  have hin : Call.put "spec.Size" v ∈ edits := by simp [h]
  simp [edits] at hin

theorem name_stored : Stored parked edits "spec.Name" "string=old" := by
  refine .inl ⟨[], .put "spec.Name" (.str "old"), .str "old", _, rfl, ⟨rfl, rfl⟩, by cbv, ?_⟩
  rintro d hd (⟨owner, attr, rfl⟩ | ⟨v, rfl, hv⟩)
  · simp at hd
  · obtain rfl : v = .null := by simpa using hd
    cases hv

end Sample

theorem stash_history_sample :
    ((take Sample.boxes (after Sample.boxes Sample.parked Sample.edits)
        "spec.Size" "Box" "size").1 = .ok none ∧
      (take Sample.boxes (after Sample.boxes Sample.parked Sample.edits)
        "spec.Name" "Box" "name").1 = .ok (some (.str "old"))) ∧
    untouched Sample.edits (after Sample.boxes Sample.parked Sample.edits) =
      .ofList [("note", "mine")] ∧
    "spec.Name" ≠ "spec.Size" ∧
      Same (after Sample.boxes Sample.parked
          (Sample.edits ++ [.put "spec.Name" (.int 1), .put "spec.Size" (.int 2)]))
        (after Sample.boxes Sample.parked
          (Sample.edits ++ [.put "spec.Size" (.int 2), .put "spec.Name" (.int 1)])) := by
  obtain ⟨hframe, htaken, hswap⟩ := stash_history Sample.boxes Sample.parked Sample.edits
  refine ⟨⟨(htaken "spec.Size" "Box" "size").missing.mpr Sample.size_vacant, ?_⟩, ?_, by decide,
    (hswap (.put "spec.Name" (.int 1)) (.put "spec.Size" (.int 2)) [] (by decide)).1⟩
  · rw [(htaken "spec.Name" "Box" "name").restored _ Sample.name_stored]
    rfl
  · rw [hframe]
    rfl

end ResourceVersions.Stash
