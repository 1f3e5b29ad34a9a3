import ResourceVersions.Proofs.TypedValue

/-! # The stash codec

Every value of a type is read back from the text under which it was stashed. -/
namespace ResourceVersions

namespace Stash

open Value

variable {classes : Classes} {v : Value} {h hint : Hint}

/-- A text is decoded by its tag. -/
theorem decode_tagged (tag start payload : String) {r : Except Error Value} (hr : (match tag with
      | "string" => .ok (.str payload)
      | "bool" => (decodeBool payload).mapError .decoding
      | "int" => (decodeInt payload).mapError .decoding
      | "float" => (decodeFloat payload).mapError .decoding
      | "json" => do (← (decodeJson payload).mapError Error.decoding).rebuild classes hint
      | tag => .error (.decoding (.unknownTag tag))) = r)
    (hstart : start.toList = tag.toList ++ ['=']) (htag : '=' ∉ tag.toList) :
    decode classes (start ++ payload) hint = r := by
  unfold decode
  rw [String.toList_append, hstart, List.append_assoc, List.singleton_append,
    Text.cut?_eq_some_iff.mpr ⟨rfl, htag⟩]
  simp only [String.ofList_toList]
  exact hr

theorem decode_json (hread : v.toJson.Legible)
    (hrebuild : v.documented.rebuild classes hint = .ok v.ordered) :
    decode classes ("json=" ++ v.toJson.text) hint = .ok v.ordered := by
  refine decode_tagged "json" "json=" _ ?_ rfl (by decide)
  change (do (← (decodeJson _).mapError Error.decoding).rebuild classes hint) = _
  rw [decodeJson, Json.read?_text hread]
  exact hrebuild

/-- A stashed value is read back from its text. -/
theorem decode_encode (hexact : v.Each Exact) (hread : v.toJson.Legible)
    (hrebuild : rebuild classes v.documented hint = .ok v.ordered) :
    decode classes (encode v) hint = .ok v.ordered := by
  cases v with
  | str t => exact decode_tagged "string" "string=" t rfl rfl (by decide)
  | bool b => cases b <;> rfl
  | int n =>
    refine decode_tagged "int" "int=" (toString n) ?_ rfl (by decide)
    change (decodeInt _).mapError Error.decoding = _
    rw [decodeInt, Number.readInt_toString hexact]
    rfl
  | float x =>
    refine decode_tagged "float" "float=" x.text ?_ rfl (by decide)
    change (decodeFloat _).mapError Error.decoding = _
    rw [decodeFloat, hexact.1]
    rfl
  | _ => exact decode_json hread hrebuild

/-- A value of a type is read back from its text, with the entries of its mappings sorted. -/
theorem decode_typed (hv : v.OfType classes h) (hexact : v.Each Exact) :
    decode classes (encode v) (.union [h, .none]) = .ok v.ordered := by
  refine decode_encode hexact (hv.legible hexact) ?_
  rcases hv.definite with rfl | hdefinite
  · rfl
  · exact hv.rebuilt hexact (requirement_optional hdefinite)

/-- A value that is stashed under the type of its attribute comes back as an equal value of that
type. -/
theorem typed_value_kept (hv : v.OfType classes h) (hexact : v.Each Exact) :
    ∃ w, decode classes (encode v) (.union [h, .none]) = .ok w ∧ v.Equal w ∧
      w.OfType classes h :=
  ⟨v.ordered, decode_typed hv hexact, hv.equal_ordered, hv.ordered⟩

namespace Sample

/-- A class of steps, each with its time, its weights and a credential. -/
def stepClasses : Classes := .ofList (("Step", [.optional "at" .datetime,
  .optional "weights" (.dict .str (.list .int)), .optional "next" (.named "Step"),
  .optional "login" .secret]) :: Classes.builtin.entries)

def time : Timestamp := ⟨2021, 3, 4, 5, 6, 7, 0, some 0⟩

/-- Steps by name, with an entry out of order, a null element and attributes that are not set. -/
def steps : Value :=
  let login := .object Hint.secretClass
    [("name", .str "creds"), ("key", .str "a=b"), ("namespace", .null)]
  let last := .object "Step" [("at", .datetime time), ("weights", .null), ("next", .null),
    ("login", login)]
  let first := .object "Step" [("at", .null),
    ("weights", .dict [("z", .list [.int (-3), .null]), ("a", .null)]), ("next", last),
    ("login", .null)]
  .dict [("second", last), ("first", first), ("none", .null)]

theorem step_typed {at' weights next login : Value} (h₁ : at'.OfType stepClasses .datetime)
    (h₂ : weights.OfType stepClasses (.dict .str (.list .int)))
    (h₃ : next.OfType stepClasses (.named "Step")) (h₄ : login.OfType stepClasses .secret) :
    (Value.object "Step" [("at", at'), ("weights", weights), ("next", next),
      ("login", login)]).OfType stepClasses (.named "Step") := by
  let parts : List (String × Hint × Value) := [("at", .datetime, at'),
    ("weights", .dict .str (.list .int), weights), ("next", .named "Step", next),
    ("login", .secret, login)]
  have hclass : stepClasses.get? "Step" = some (parts.map fun p => .optional p.1 p.2.1) := rfl
  have hparts : ∀ p ∈ parts, OfType stepClasses p.2.1 p.2.2 := by
    simp only [parts, List.forall_mem_cons]
    exact ⟨h₁, h₂, h₃, h₄, nofun⟩
  exact .object hclass (by simp [parts]) hparts

theorem steps_typed : steps.OfType stepClasses (.dict .str (.named "Step")) := by
  have hlast := step_typed (.datetime time) (.null _) (.null _)
    (.secret rfl (.ref "creds" "a=b" none))
  have hitems : (Value.list [.int (-3), .null]).OfType stepClasses (.list .int) := by
    refine .list ?_
    simp only [List.forall_mem_cons]
    exact ⟨.int _, .null _, nofun⟩
  have hweights : (Value.dict [("z", .list [.int (-3), .null]), ("a", .null)]).OfType stepClasses
      (.dict .str (.list .int)) := by
    refine .dict (by simp) ?_
    simp only [List.forall_mem_cons]
    exact ⟨hitems, .null _, nofun⟩
  have hfirst := step_typed (.null _) hweights hlast (.null _)
  refine .dict (by simp) ?_
  simp only [List.forall_mem_cons]
  exact ⟨hlast, hfirst, .null _, nofun⟩

theorem steps_exact : steps.Each Exact := by
  have htime : Timestamp.read? time.text = some time := by decide +kernel
  have hdigits : (Nat.toDigits 10 3).length ≤ Number.maxIntDigits := by decide
  simp [steps, Each, EachEntry, EachItem, Exact, htime, hdigits]

end Sample

open Sample in
/-- Steps by name are read back as the same steps. -/
theorem typed_value_kept_steps : ∃ w, steps.Each Exact ∧
    decode stepClasses (encode steps) (.union [.dict .str (.named "Step"), .none]) = .ok w ∧
      steps.Equal w ∧ w.OfType stepClasses (.dict .str (.named "Step")) := by
  obtain ⟨w, hdecode, hequal, htyped⟩ := typed_value_kept steps_typed steps_exact
  exact ⟨w, steps_exact, hdecode, hequal, htyped⟩

end Stash

end ResourceVersions
