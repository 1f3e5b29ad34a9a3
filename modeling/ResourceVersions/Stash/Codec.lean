import ResourceVersions.Json.Printer
import ResourceVersions.Json.Reader
import ResourceVersions.Number.Literal
import ResourceVersions.Text.Split
import ResourceVersions.Value.Rebuild

/-!
# Stashed values as texts

A value that a version cannot represent is written as a tag, an equals sign and a payload.
Texts, booleans, integers and decimals have tags of their own; everything else is JSON.
-/
namespace ResourceVersions.Stash

/-- What the keys of all stashed values start with. -/
def keyStart : String := "conversions.henkan.io/"

/-- The key of the value of a field. -/
def key (fieldId : String) : String := keyStart ++ fieldId

/-- A value as a text. -/
def encode : Value → String
  | .str s => "string=" ++ s
  | .bool b => "bool=" ++ (if b then "true" else "false")
  | .int n => s!"int={n}"
  | .float x => "float=" ++ x.text
  | v => "json=" ++ v.toJson.text

def decodeBool (payload : String) : Except DecodingError Value :=
  match payload with
  | "true" => .ok (.bool true)
  | "false" => .ok (.bool false)
  | _ => .error (.badBool payload)

def decodeInt (payload : String) : Except DecodingError Value :=
  match Number.readInt payload with
  | .ok n => .ok (.int n)
  | .error .notAnInteger => .error (.badInt payload)
  | .error (.tooManyDigits n) => .error (.longInt payload n)

def decodeFloat (payload : String) : Except DecodingError Value :=
  match Number.readFloat? payload with
  | some x => .ok (.float x)
  | none => .error (.badFloat payload)

def decodeJson (payload : String) : Except DecodingError Value :=
  match Json.read? payload with
  | some d => .ok (.ofJson d)
  | none => .error (.badJson payload)

/-- The value of a text. Only JSON is rebuilt by the type that the value should have. -/
def decode (classes : Classes) (text : String) (hint : Hint) : Except Error Value :=
  match Text.cut? '=' text.toList with
  | none => .error (.decoding (.noTag text))
  | some (tag, payload) =>
    let payload := String.ofList payload
    match String.ofList tag with
    | "string" => .ok (.str payload)
    | "bool" => (decodeBool payload).mapError .decoding
    | "int" => (decodeInt payload).mapError .decoding
    | "float" => (decodeFloat payload).mapError .decoding
    | "json" => do (← (decodeJson payload).mapError Error.decoding).rebuild classes hint
    | tag => .error (.decoding (.unknownTag tag))

end ResourceVersions.Stash
