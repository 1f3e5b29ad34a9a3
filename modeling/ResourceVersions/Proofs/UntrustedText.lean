import Mathlib
import ResourceVersions.Proofs.FittingValues

/-! # Texts that nobody vouches for

What decoding does with a text that anyone may have written, by what is wrong with it. A text that
cannot be read is refused, and so is a value that has not the form its type asks for. An attribute
that a class requires ends the work with an error of another kind. Scalars, nulls and the keys of
mappings are not compared with their types at all. -/
namespace ResourceVersions

open Fallible

/-- What can be wrong with a value that should fit a type: it has not the form that the type asks
for, it lacks an attribute that a class requires, or a scalar, a null or a key is of another type. -/
inductive Flaw where
  | malformed
  | missing (className attr : String)
  | mistyped

namespace Value

/-- What becomes of a value that should fit a type, by its flaws. Only a wrong form is refused as
the value's own error; and what is given out fits exactly if there is no flaw. -/
inductive Judged (classes : Classes) (hint : Hint) (flaws : Flaw → Prop) :
    Except Error Value → Prop where
  | refused {e} : flaws .malformed → Judged classes hint flaws (.error (.decoding e))
  | missing {c a} : flaws (.missing c a) →
      Judged classes hint flaws (.error (.attr (.missing c a)))
  | given {v} : (∀ flaw, flaws flaw → flaw = .mistyped) →
      (Fits classes hint v ↔ ¬ flaws .mistyped) → Judged classes hint flaws (.ok v)

variable {classes : Classes} {hint hint' key element : Hint} {flaw : Flaw}
  {flaws flaws' : Flaw → Prop} {v : Value} {items : List Value} {entries : List (String × Value)}
  {c : String} {decls : List AttrDecl}

theorem Judged.of_ok {r : Except Error Value} (h : Judged classes hint flaws r) (hr : r = .ok v) :
    (∀ flaw, flaws flaw → flaw = .mistyped) ∧ (Fits classes hint v ↔ ¬ flaws .mistyped) := by
  subst hr
  cases h with
  | given honly hfits => exact ⟨honly, hfits⟩

section Collections

/-- How an attribute comes to its value: it was given, or left out for its default. -/
inductive Filled (parts : List (String × Rebuilder)) (a : AttrDecl) (v : Value) : Prop where
  | given {rebuild} : parts.lookup a.name = some rebuild → rebuild a.hint = .ok v →
      Filled parts a v
  | default : parts.lookup a.name = none → a.default? = some v → Filled parts a v

end Collections

end Value

namespace Stash

/-- What a text holds: a value under a tag of its own, or one that is still to be rebuilt. -/
inductive Payload where
  | tagged (v : Value)
  | document (v : Value)

/-- What a text holds, whatever type is asked for. -/
def payload (text : String) : Except DecodingError Payload :=
  match Text.cut? '=' text.toList with
  | none => .error (.noTag text)
  | some (tag, payload) =>
    let payload := String.ofList payload
    match String.ofList tag with
    | "string" => .ok (.tagged (.str payload))
    | "bool" => (decodeBool payload).map .tagged
    | "int" => (decodeInt payload).map .tagged
    | "float" => (decodeFloat payload).map .tagged
    | "json" => (decodeJson payload).map .document
    | tag => .error (.unknownTag tag)

variable {classes : Classes} {text : String} {hint : Hint}

end Stash

end ResourceVersions
