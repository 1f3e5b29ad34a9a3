import ResourceVersions.Text.Quoted

/-!
# Errors

Every way in which a run can fail is a cause with the names it is about; `message` alone
decides on the wording. Schema, rename and change errors concern one resource, the others end
a run.
-/
namespace ResourceVersions

open Text

/-- Why a file cannot be read or written. -/
inductive FileFault where
  | missing
  | present
  | notDirectory
  | isDirectory
  | denied
  | longName
  | nullCharacter
deriving DecidableEq, Repr

/-- The configuration, the manifest or a request is malformed. -/
inductive ConfigError where
  | noWords (text : String)
  | invalidVersion (text : String)
  | notMapping (place typeName : String)
  | unknownKeys (place : String) (keys : List String)
  | keysNotTexts (place : String)
  | notTextList (place key : String)
  | notFlag (place key : String)
  | incompleteSource (place : String)
  | identifierNotText (place : String)
  | renamesNotTexts (place : String)
  | emptyManifest
  | manifestLacks (key : String)
  | noVersions
  | unknownStatus (place shown : String)
  | noDocument
  | unreadable (path : String) (fault : FileFault)
  | invalidYaml
  | hubNotListed (version : String)
  | versionNotListed (version : String)
  | sameVersion (version : String)
  | noDescription (version : String)
  | unknownStyle (style : String)
deriving DecidableEq, Repr

/-- The API description does not give a resource model. -/
inductive SchemaError where
  | noShapes
  | noShapeName (place : String)
  | unknownType (shape shown : String)
  | noElement (shape : String)
  | incompleteMap (shape : String)
  | undefinedShape (shape : String)
  | selfContaining (shape : String)
  | noInputPath (resource path operation field : String)
  | noOutputPath (resource path operation field : String)
  | secretWithoutParent (resource path parent : String)
  | secretUnderShapeless (resource path parent : String)
  | secretUnderPlain (resource path parent : String)
  | secretNotMember (resource path shape member : String)
  | classClash (first second className : String)
  | enumClash (shape first second clean : String)
  | noClass (shape version : String)
  | differentResources (src dst : String) (onlySrc onlyDst : List String)
  | unreadable (path : String) (fault : FileFault)
  | notJson (path : String)
deriving DecidableEq, Repr

/-- The renames of a resource contradict each other or the fields. -/
inductive RenameError where
  | sharedTarget (first second target : String)
  | twoTargets (resource old first second : String)
  | twoSources (resource first second new : String)
  | missingTarget (old new : String)
  | occupiedTarget (old new : String)
deriving DecidableEq, Repr

/-- The deprecations break the policy. -/
inductive PolicyError where
  | hubDeprecated (version : String)
  | outOfOrder (version older : String)
deriving DecidableEq, Repr

/-- A change between two versions that no conversion covers. -/
inductive ChangeError where
  | unsupported (resource : String) (deltas : List String)
  | secretField (place : String)
  | shapeDiffers (place : String)
  | missingMember (shape member : String)
  | secretMember (shape member : String)
  | formsDiffer (src dst : String)
deriving DecidableEq, Repr

/-- A version that cannot be used. -/
inductive VersionError where
  | unknown (version : String)
  | unregistered (version : String)
  | deprecated (version : String)
deriving DecidableEq, Repr

/-- An annotation that cannot be decoded. Values appear as they are shown. -/
inductive DecodingError where
  | noTag (text : String)
  | badBool (payload : String)
  | badInt (payload : String)
  | longInt (payload : String) (digits : Nat)
  | badFloat (payload : String)
  | badJson (payload : String)
  | unknownTag (tag : String)
  | notList (shown : String)
  | notMapping (shown : String)
  | notInstance (className shown : String)
  | badTimestamp (shown : String)
deriving DecidableEq, Repr

/-- A class and an attribute that do not go together. -/
inductive AttributeError where
  | missing (className attr : String)
  | unknown (className attr : String)
deriving DecidableEq, Repr

inductive Error where
  | config (cause : ConfigError)
  | schema (cause : SchemaError)
  | rename (cause : RenameError)
  | policy (cause : PolicyError)
  | change (cause : ChangeError)
  | version (cause : VersionError)
  | decoding (cause : DecodingError)
  | attr (cause : AttributeError)
  | oversizedNumber (digits : Nat)
deriving DecidableEq, Repr

/-- What went wrong with one named part of a larger job. -/
structure Failure where
  name : String
  cause : Error
deriving DecidableEq, Repr

def FileFault.text : FileFault → String
  | missing => "[Errno 2] No such file or directory"
  | present => "[Errno 17] File exists"
  | notDirectory => "[Errno 20] Not a directory"
  | isDirectory => "[Errno 21] Is a directory"
  | denied => "[Errno 13] Permission denied"
  | longName => "[Errno 36] File name too long"
  | nullCharacter => "embedded null byte"

/-- The fault together with the path that was asked for. -/
def FileFault.reason (fault : FileFault) (path : String) : String :=
  s!"{fault.text}: {quoted path}"

def ConfigError.message : ConfigError → String
  | noWords text => "Can't derive an identifier from " ++ quoted text
  | invalidVersion text => s!"Version {quoted text} is not a valid API version"
  | notMapping place typeName => s!"{place} must be a mapping, not {typeName}"
  | unknownKeys place keys => s!"Unknown key(s) in {place}: " ++ ", ".intercalate keys
  | keysNotTexts place => s!"Unknown key(s) in {place} that are no texts"
  | notTextList place key => s!"{place}.{key} must be a list of strings"
  | notFlag place key => s!"{place}.{key} must be true or false"
  | incompleteSource place => s!"{place}.from needs both an operation and a path"
  | identifierNotText place => s!"{place}.primary_identifier must be a string"
  | renamesNotTexts place => s!"{place}.input_fields must map old names to new names"
  | emptyManifest => "Version manifest is empty"
  | manifestLacks key => s!"Version manifest needs a string '{key}'"
  | noVersions => "Version manifest needs at least one entry in 'versions'"
  | unknownStatus place shown =>
    s!"{place}.status must be 'available' or 'deprecated', not {shown}"
  | noDocument => "One of path, stream, or yaml must be specified"
  | unreadable path fault => s!"Can't read {path}: {fault.reason path}"
  | invalidYaml => "Invalid YAML"
  | hubNotListed version => s!"Hub version {version} has no entry in the version manifest"
  | versionNotListed version => s!"Version {version} isn't in the version manifest"
  | sameVersion version => s!"Can't compare version {version} with itself"
  | noDescription version => s!"Version {version} has no API description"
  | unknownStyle style => s!"Unrecognized style: {style}"

def SchemaError.message : SchemaError → String
  | noShapes => "API description has no 'shapes' section"
  | noShapeName place => s!"{place} does not name a shape"
  | unknownType shape shown => s!"Shape {shape} has unknown type {shown}"
  | noElement shape => s!"List shape {shape} has no member"
  | incompleteMap shape => s!"Map shape {shape} needs both a key and a value"
  | undefinedShape shape => s!"Shape {shape} is referenced but not defined"
  | selfContaining shape => s!"{shape} contains itself with no structure in between"
  | noInputPath resource path operation field =>
    s!"{resource}: can't find {path} in the input of {operation} for field {field}"
  | noOutputPath resource path operation field =>
    s!"{resource}: can't find {path} in the output of {operation} for field {field}"
  | secretWithoutParent resource path parent =>
    s!"{resource}: secret field {path} has no parent field {parent}"
  | secretUnderShapeless resource path parent =>
    s!"{resource}: secret field {path}: parent field {parent} has no shape"
  | secretUnderPlain resource path parent =>
    s!"{resource}: secret field {path}: parent field {parent} doesn't hold a structure"
  | secretNotMember resource path shape member =>
    s!"{resource}: secret field {path}: {shape} has no member {member}"
  | classClash first second className =>
    s!"Shapes {first} and {second} both produce the class name {className}"
  | enumClash shape first second clean =>
    s!"Enum {shape} values {quoted first} and {quoted second} both become {clean}"
  | noClass shape version =>
    s!"Structure {shape} has no generated class in {version}; " ++
      "operation payloads can't be used as field types"
  | differentResources src dst onlySrc onlyDst =>
    s!"Versions {src} and {dst} have different resources; " ++
      s!"only in {src}: {quotedList onlySrc}, only in {dst}: {quotedList onlyDst}"
  | unreadable path fault => s!"Can't read API description {path}: {fault.reason path}"
  | notJson path => s!"API description {path} is not valid JSON"

def RenameError.message : RenameError → String
  | sharedTarget first second target => s!"Both {first} and {second} are renamed to {target}"
  | twoTargets resource old first second =>
    s!"{resource}: {old} is renamed to both {first} and {second}"
  | twoSources resource first second new =>
    s!"{resource}: both {first} and {second} are renamed to {new}"
  | missingTarget old new => s!"{old} is renamed to {new}, which isn't a field of the hub"
  | occupiedTarget old new => s!"{old} is renamed to {new}, but the spoke already has {new}"

def PolicyError.message : PolicyError → String
  | hubDeprecated version => s!"The hub version {version} can't be deprecated"
  | outOfOrder version older => s!"{version} is deprecated but the older {older} is not"

def ChangeError.message : ChangeError → String
  | unsupported resource deltas => s!"{resource}: can't convert " ++ ", ".intercalate deltas
  | secretField place => s!"{place}: only one version keeps the value as a secret"
  | shapeDiffers place => s!"{place}: the value's shape differs between versions"
  | missingMember shape member => s!"{shape} has no member {member}"
  | secretMember shape member => s!"{shape}.{member} is a secret in only one version"
  | formsDiffer src dst => s!"{src} and {dst} have different forms"

def VersionError.message : VersionError → String
  | unknown version => s!"Unknown API version {version}"
  | unregistered version => s!"API version {version} hasn't been registered"
  | deprecated version => s!"API version {version} is deprecated"

/-- The most characters of a payload that the integer reader shows. -/
def shownPayloadLimit : Nat := 200

/-- Why an integer with too many digits is refused. -/
def longIntReason (digits : Nat) : String :=
  "Exceeds the limit (4300 digits) for integer string conversion: " ++
    s!"value has {digits} digits; use sys.set_int_max_str_digits() to increase the limit"

def DecodingError.message : DecodingError → String
  | noTag text => s!"Annotation value {quoted text} has no type tag"
  | badBool payload => "Bad bool annotation payload " ++ quoted payload
  | badInt payload =>
    let shown := String.ofList ((quoted payload).toList.take shownPayloadLimit)
    s!"Bad int annotation payload {quoted payload}: invalid literal for int() with base 10: {shown}"
  | longInt payload digits =>
    s!"Bad int annotation payload {quoted payload}: {longIntReason digits}"
  | badFloat payload =>
    s!"Bad float annotation payload {quoted payload}: " ++
      s!"could not convert string to float: {quoted payload}"
  | badJson payload => "Bad json annotation payload " ++ quoted payload
  | unknownTag tag => "Unknown annotation type tag " ++ quoted tag
  | notList shown => "Expected a list, got " ++ shown
  | notMapping shown => "Expected a mapping, got " ++ shown
  | notInstance className shown => s!"Expected a mapping for {className}, got {shown}"
  | badTimestamp shown => "Bad timestamp " ++ shown

def AttributeError.message : AttributeError → String
  | missing className attr => s!"{className} needs the attribute {attr}"
  | unknown className attr => s!"{className} has no attribute {attr}"

def Error.message : Error → String
  | config cause => cause.message
  | schema cause => cause.message
  | rename cause => cause.message
  | policy cause => cause.message
  | change cause => cause.message
  | version cause => cause.message
  | decoding cause => cause.message
  | attr cause => cause.message
  | oversizedNumber digits => longIntReason digits

end ResourceVersions
