import ResourceVersions.Yaml.Scalar
import ResourceVersions.Yaml.TokenReader

/-!
# Reading YAML text

The document that the tokens of a text describe. A text without content is null, and so is a
missing value. Keys are values without parts; a mapping with two equal keys is refused, and a
text holds one document.
-/
namespace ResourceVersions.Yaml

/-- Adds an entry to a mapping that has no equal key. -/
def addEntry (read : List (Atom × Document)) (key value : Document) :
    Option (List (Atom × Document)) :=
  match key with
  | .atom a =>
    if read.any fun e => e.1.keyForm = a.keyForm then none else some (read ++ [(a, value)])
  | _ => none

/-- Whether a value in a block is missing: its key or item ends here. -/
def endsBlockValue : List Token → Bool
  | .key :: _ | .value :: _ | .blockEnd :: _ => true
  | _ => false

/-- Whether an item of a list is missing. -/
def endsItem (tokens : List Token) : Bool :=
  tokens.head? = some .item || endsBlockValue tokens

/-- Whether a value between brackets or braces is missing. -/
def endsFlowValue : List Token → Bool
  | .comma :: _ | .closeMapping :: _ | .closeList :: _ => true
  | _ => false

mutual
/-- A value at the start of the tokens. -/
def node : (fuel : Nat) → List Token → Option (Document × List Token)
  | 0, _ => none
  | fuel + 1, tokens =>
    match tokens with
    | .plain s :: rest => (resolve? s).map fun a => (.atom a, rest)
    | .quoted s :: rest => some (.text s, rest)
    | .openList :: rest => (flowItems fuel true rest).map fun (ds, rest) => (.list ds, rest)
    | .openMapping :: rest =>
      (flowEntries fuel true [] rest).map fun (es, rest) => (.mapping es, rest)
    | .blockList :: rest => (items fuel rest).map fun (ds, rest) => (.list ds, rest)
    | .blockMapping :: rest => (entries fuel [] rest).map fun (es, rest) => (.mapping es, rest)
    | _ => none

/-- The items of a list up to the end of its block. -/
def items : (fuel : Nat) → List Token → Option (List Document × List Token)
  | 0, _ => none
  | fuel + 1, tokens =>
    match tokens with
    | .item :: rest =>
      match if endsItem rest then some (.null, rest) else node fuel rest with
      | some (d, rest) => (items fuel rest).map fun (ds, rest) => (d :: ds, rest)
      | none => none
    | .blockEnd :: rest => some ([], rest)
    | _ => none

/-- The items of a list that is not indented further than the key it belongs to. -/
def plainItems : (fuel : Nat) → List Token → Option (List Document × List Token)
  | 0, _ => none
  | fuel + 1, tokens =>
    match tokens with
    | .item :: rest =>
      match if endsItem rest then some (.null, rest) else node fuel rest with
      | some (d, rest) => (plainItems fuel rest).map fun (ds, rest) => (d :: ds, rest)
      | none => none
    | rest => some ([], rest)

/-- The key or the value of an entry in a block, null where it is missing. -/
def entryPart : (fuel : Nat) → List Token → Option (Document × List Token)
  | 0, _ => none
  | fuel + 1, tokens =>
    if endsBlockValue tokens then some (.null, tokens)
    else if tokens.head? = some .item then
      (plainItems fuel tokens).map fun (ds, rest) => (.list ds, rest)
    else node fuel tokens

/-- The entries of a mapping up to the end of its block, added to those read before. -/
def entries : (fuel : Nat) → (read : List (Atom × Document)) → List Token →
    Option (List (Atom × Document) × List Token)
  | 0, _, _ => none
  | fuel + 1, read, tokens =>
    match tokens with
    | .blockEnd :: rest => some (read, rest)
    | .key :: rest =>
      match entryPart fuel rest with
      | some (key, .value :: rest) => entryValue fuel read key rest
      | some (key, rest) => (addEntry read key .null).bind fun read => entries fuel read rest
      | none => none
    | .value :: rest => entryValue fuel read .null rest
    | _ => none

/-- The value of an entry in a block and the entries behind it. -/
def entryValue : (fuel : Nat) → (read : List (Atom × Document)) → (key : Document) →
    List Token → Option (List (Atom × Document) × List Token)
  | 0, _, _, _ => none
  | fuel + 1, read, key, tokens =>
    match entryPart fuel tokens with
    | some (d, rest) => (addEntry read key d).bind fun read => entries fuel read rest
    | none => none

/-- A key or a value between brackets or braces, null where it is missing. -/
def flowPart : (fuel : Nat) → List Token → Option (Document × List Token)
  | 0, _ => none
  | fuel + 1, tokens =>
    if endsFlowValue tokens || tokens.head? = some .value then some (.null, tokens)
    else node fuel tokens

/-- A key and its value, which is null unless a colon stands between them. -/
def flowPair : (fuel : Nat) → List Token → Option (Document × Document × List Token)
  | 0, _ => none
  | fuel + 1, tokens =>
    match flowPart fuel tokens with
    | some (key, .value :: rest) =>
      if endsFlowValue rest then some (key, .null, rest)
      else (node fuel rest).map fun (d, rest) => (key, d, rest)
    | some (key, rest) => some (key, .null, rest)
    | none => none

/-- The items of a list up to its closing bracket. An item with a key is a mapping of its own.
Commas divide the items and may follow the last one. -/
def flowItems : (fuel : Nat) → (isFirst : Bool) → List Token →
    Option (List Document × List Token)
  | 0, _, _ => none
  | fuel + 1, isFirst, tokens =>
    match isFirst, tokens with
    | _, .closeList :: rest => some ([], rest)
    | false, .comma :: .closeList :: rest => some ([], rest)
    | false, .comma :: rest => flowItem fuel rest
    | true, rest => flowItem fuel rest
    | false, _ => none

def flowItem : (fuel : Nat) → List Token → Option (List Document × List Token)
  | 0, _ => none
  | fuel + 1, tokens =>
    let first :=
      match tokens with
      | .key :: rest =>
        match flowPair fuel rest with
        | some (key, d, rest) => (addEntry [] key d).map fun e => (.mapping e, rest)
        | none => none
      | rest => node fuel rest
    match first with
    | some (d, rest) => (flowItems fuel false rest).map fun (ds, rest) => (d :: ds, rest)
    | none => none

/-- The entries of a mapping up to its closing brace, added to those read before. -/
def flowEntries : (fuel : Nat) → (isFirst : Bool) → (read : List (Atom × Document)) →
    List Token → Option (List (Atom × Document) × List Token)
  | 0, _, _, _ => none
  | fuel + 1, isFirst, read, tokens =>
    match isFirst, tokens with
    | _, .closeMapping :: rest => some (read, rest)
    | false, .comma :: .closeMapping :: rest => some (read, rest)
    | false, .comma :: rest => flowEntry fuel read rest
    | true, rest => flowEntry fuel read rest
    | false, _ => none

def flowEntry : (fuel : Nat) → (read : List (Atom × Document)) → List Token →
    Option (List (Atom × Document) × List Token)
  | 0, _, _ => none
  | fuel + 1, read, tokens =>
    let pair :=
      match tokens with
      | .key :: rest => flowPair fuel rest
      | .value :: _ => flowPair fuel tokens
      | _ => (node fuel tokens).map fun (key, rest) => (key, .null, rest)
    match pair with
    | some (key, d, rest) =>
      (addEntry read key d).bind fun read => flowEntries fuel false read rest
    | none => none
end

/-- The only document of a text without separators before it, or behind one. -/
def document? (tokens : List Token) : Option Document :=
  let ends : List Token → Bool := fun rest => rest.isEmpty || rest = [.documentEnd]
  match tokens with
  | [] => some .null
  | .documentStart :: rest =>
    if ends rest then some .null else whole (node (4 * rest.length + 4) rest)
  | tokens => whole (node (4 * tokens.length + 4) tokens)
where
  whole : Option (Document × List Token) → Option Document
    | some (d, []) => some d
    | some (d, [.documentEnd]) => some d
    | _ => none

/-- The document that a text holds. -/
def read? (text : String) : Option Document := do
  document? (← tokens? text.toList)

end ResourceVersions.Yaml
