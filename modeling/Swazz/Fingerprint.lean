import Swazz.LicenseTokens
import Mathlib.Data.Finmap
import Mathlib.Data.Finset.Sort
import Mathlib.Data.List.Lex

/-! The structural fingerprint of a response, by the order in which the maps of its body are
ranged over, and the comparison of two fingerprints. -/
namespace Swazz.Fingerprint

open RunnerAccess (JsString js)
open RunnerAccess renaming Json → Value
open UnicodeCase

/-- A path of keys, by its characters. -/
abbrev Path := JsString

def maxFingerprintDepth : ℕ := 32
def maxFingerprintNodes : ℕ := 5000

/-- What stands at a path: a JSON type, or the mark of an empty array or of what is no JSON. -/
inductive Kind where
  | object
  | array
  | emptyArray
  | string
  | number
  | boolean
  | null
  | nonJson
  deriving DecidableEq

def Kind.name : Kind → String
  | object => "object"
  | array => "array"
  | emptyArray => "empty_array"
  | string => "string"
  | number => "number"
  | boolean => "boolean"
  | null => "null"
  | nonJson => "non-json"

inductive RootType where
  | object
  | array
  | primitive
  | null
  | empty
  deriving DecidableEq

abbrev FieldTypes := Finmap fun _ : Path => Kind

structure SchemaFingerprint where
  rootType : RootType
  fieldTypes : FieldTypes
  fieldCount : ℕ
  isErrorStructure : Bool

/-! ### Fingerprints -/

def dot : Path := js "."

def brackets : Path := js "[]"

def childPath (path key : Path) : Path := if path = [] then key else path ++ dot ++ key

/-- What a node writes at its own path; the root has none. -/
def writeOwn (path : Path) (kind : Kind) (out : FieldTypes) : FieldTypes :=
  if path = [] then out else out.insert path kind

mutual

/-- Fills `out` and counts the nodes; maps are ranged over in the order of their entries. -/
def traverseSchema (path : Path) (value : Value) (out : FieldTypes) (depth count : ℕ) :
    FieldTypes × ℕ :=
  if depth ≥ maxFingerprintDepth ∨ count ≥ maxFingerprintNodes then (out, count)
  else
    match value with
    | .obj entries =>
      traverseEntries path entries (writeOwn path .object out) (depth + 1) (count + 1)
    | .arr items => traverseFirst path items (writeOwn path .array out) (depth + 1) (count + 1)
    | .str _ => (writeOwn path .string out, count + 1)
    | .num _ => (writeOwn path .number out, count + 1)
    | .bool _ => (writeOwn path .boolean out, count + 1)
    | .null => (writeOwn path .null out, count + 1)

def traverseEntries (path : Path) (entries : List (JsString × Value)) (out : FieldTypes)
    (depth count : ℕ) : FieldTypes × ℕ :=
  match entries with
  | [] => (out, count)
  | (k, child) :: entries =>
    let r := traverseSchema (childPath path k) child out depth count
    traverseEntries path entries r.1 depth r.2

/-- The first item stands for all of them. -/
def traverseFirst (path : Path) (items : List Value) (out : FieldTypes) (depth count : ℕ) :
    FieldTypes × ℕ :=
  match items with
  | [] => (out.insert (path ++ brackets) .emptyArray, count)
  | item :: _ => traverseSchema (path ++ brackets) item out depth count

end

def inferType : Value → RootType
  | .obj _ => .object
  | .arr _ => .array
  | .null => .null
  | _ => .primitive

/-- `strings.ToLower` -/
def toLower (s : JsString) : JsString :=
  s.map fun c => if c = 0x130 then 0x69 else mapped lowerRuns c

def contains (s pattern : JsString) : Bool := decide (pattern <:+: s)

def errorTexts : List JsString :=
  [js "404 not found", js "unauthorized", js "access denied", js "forbidden",
    js "internal server error", js "bad request"]

def isCommonErrorText (text : JsString) : Bool := errorTexts.any (contains (toLower text))

def errorKeyNames : List JsString :=
  [js "error", js "message", js "msg", js "err", js "detail", js "code", js "status",
    js "statuscode"]

def isErrorKey (key : JsString) : Bool := errorKeyNames.contains (toLower key)

def isErrorText : Value → Bool
  | .str s => isCommonErrorText s
  | _ => false

/-- An error text under one of the names, or so many of the names in a small object. -/
def checkErrorStructure : Value → Bool
  | .obj entries =>
    let errorKeys := entries.filter fun e => isErrorKey e.1
    errorKeys.any (fun e => isErrorText e.2) ||
      (0 < entries.length && entries.length ≤ 4 && entries.length ≤ 2 * errorKeys.length)
  | _ => false

/-- The fingerprint of a JSON value whose maps are ranged over as in `ranged`, and once more, at the
root, as in `checked`. -/
def fingerprint (ranged checked : Value) : SchemaFingerprint :=
  let fieldTypes := (traverseSchema [] ranged ∅ 0 0).1
  ⟨inferType ranged, fieldTypes, fieldTypes.keys.card, checkErrorStructure checked⟩

/-- One value, listed in two ways: a map has no order. -/
inductive SameValue : Value → Value → Prop where
  | refl (v : Value) : SameValue v v
  | trans {u v w : Value} (first : SameValue u v) (second : SameValue v w) : SameValue u w
  | perm {es fs : List (JsString × Value)} (order : es.Perm fs) : SameValue (.obj es) (.obj fs)
  | entry {v w : Value} (below : SameValue v w) (before after : List (JsString × Value))
      (k : JsString) :
      SameValue (.obj (before ++ (k, v) :: after)) (.obj (before ++ (k, w) :: after))
  | item {v w : Value} (below : SameValue v w) (before after : List Value) :
      SameValue (.arr (before ++ v :: after)) (.arr (before ++ w :: after))

/-- `ExtractFingerprint` returns one of these; `unmarshal` decodes a text, and has no value for one
that is not JSON. -/
inductive ExtractFingerprint (unmarshal : JsString → Option Value) (body : JsString) :
    SchemaFingerprint → Prop where
  | empty (h : License.trim License.goSpace body = []) :
      ExtractFingerprint unmarshal body ⟨.empty, ∅, 0, false⟩
  | nonJson (hne : License.trim License.goSpace body ≠ [])
      (h : unmarshal (License.trim License.goSpace body) = none) :
      ExtractFingerprint unmarshal body
        ⟨.primitive, Finmap.singleton (js "$raw") .nonJson, 1,
          isCommonErrorText (License.trim License.goSpace body)⟩
  | json {parsed ranged checked : Value} (hne : License.trim License.goSpace body ≠ [])
      (h : unmarshal (License.trim License.goSpace body) = some parsed)
      (hranged : SameValue parsed ranged) (hchecked : SameValue parsed checked) :
      ExtractFingerprint unmarshal body (fingerprint ranged checked)

/-! ### Comparing fingerprints -/

def sensitiveFieldPatterns : List JsString :=
  ["role", "roles", "is_admin", "admin", "isadmin", "superuser", "secret", "secret_key",
    "token", "access_token", "refresh_token", "auth_token", "api_key", "apikey",
    "private_key", "password", "password_hash", "hash", "ssn", "credit_card",
    "privilege", "privileges", "permission", "permissions", "internal_id", "internal_uuid",
    "master", "root", "shadow", "jwt"].map js

def trimSuffix (s suffix : JsString) : JsString :=
  if suffix.isSuffixOf s then s.take (s.length - suffix.length) else s

def IsSensitiveField (fieldName : Path) : Bool :=
  let leaf := trimSuffix ((fieldName.splitOn 46).getLastD []) brackets
  let normalized := toLower ((leaf.map fun c => if c = 45 then 95 else c).filter (· ≠ 32))
  sensitiveFieldPatterns.any fun pattern =>
    normalized = pattern || (pattern ++ js "_").isPrefixOf normalized ||
      (js "_" ++ pattern).isSuffixOf normalized

structure DiffResult where
  similarity : ℚ
  addedFields : List Path
  removedFields : List Path
  typeMismatches : List JsString
  isSchemaLeak : Bool
  isProbableBOLA : Bool
  isFake200Stub : Bool

/-- `math.Round`, to three digits; a fraction here is exact. -/
def roundThree (x : ℚ) : ℚ := ⌊x * 1000 + 1 / 2⌋ / 1000

def agrees (baseType probeType : Kind) : Bool :=
  baseType = probeType || baseType = .null || probeType = .null

def mismatchText (path : Path) (baseType probeType : Kind) : JsString :=
  path ++ js " (expected " ++ js baseType.name ++ js ", got " ++ js probeType.name ++ js ")"

def CompareFingerprints (baseline probe : SchemaFingerprint) : DiffResult :=
  if baseline.fieldCount = 0 ∧ probe.fieldCount = 0 then ⟨1, [], [], [], false, false, false⟩
  else
    let both := (baseline.fieldTypes.keys ∩ probe.fieldTypes.keys).sort
    let typesOf (path : Path) : Kind × Kind :=
      ((baseline.fieldTypes.lookup path).getD .null, (probe.fieldTypes.lookup path).getD .null)
    let matchedPaths := both.filter fun path => agrees (typesOf path).1 (typesOf path).2
    let typeMismatches := (both.filter fun path => !agrees (typesOf path).1 (typesOf path).2).map
      fun path => mismatchText path (typesOf path).1 (typesOf path).2
    let addedFields := (probe.fieldTypes.keys \ baseline.fieldTypes.keys).sort
    let removedFields := (baseline.fieldTypes.keys \ probe.fieldTypes.keys).sort
    let total := (baseline.fieldTypes.keys ∪ probe.fieldTypes.keys).card
    let similarity := if 0 < total then roundThree (matchedPaths.length / total) else 0
    { similarity
      addedFields
      removedFields
      typeMismatches := typeMismatches.mergeSort (· ≤ ·)
      isSchemaLeak := addedFields.any IsSensitiveField
      isProbableBOLA := 4 / 5 ≤ similarity && baseline.rootType = probe.rootType &&
        !probe.isErrorStructure && !baseline.isErrorStructure
      isFake200Stub := probe.isErrorStructure && !baseline.isErrorStructure }

end Swazz.Fingerprint
