import Mathlib.Data.Int.Notation
import Swazz.SequentialPicks
import Swazz.UnicodeCase

/-! The payload generator: what it sends for a property of a schema, by the fuzzing profile.
Sequential payloads are picks in turn; random choices, and the order in which a map is ranged
over, are questions that the world answers. What a payload's text becomes on its way (its OOB
address, its SSTI expression, a semantic wrapper) is such a choice too. -/
namespace Swazz.Payloads

open AtomicCalls SequentialPicks UnicodeCase

/-- Go's `any`, as far as payloads hold it; a float is its text, a `LongString` its unit and how
often it is repeated. -/
inductive Value where
  | null
  | bool (b : Bool)
  | int (n : ℤ)
  | float (text : String)
  | str (s : String)
  | longString (unit : String) (count : ℕ)
  | array (items : List Value)
  | object (entries : List (String × Value))
  deriving Inhabited

structure Schema where
  type : String
  format : String
  enum : List Value
  properties : Option (List (String × Option Schema))
  items : Option Schema
  required : List String

inductive FuzzingProfile where
  | random
  | boundary
  | malicious
  | other (name : String)
  deriving DecidableEq

structure Settings where
  iterationsPerProfile : ℤ
  maxPayloadSizeBytes : ℤ
  payloadCategories : List (FuzzingProfile × List String)
  activeParameterFuzzing : Bool
  semanticMutationEnabled : Bool

def defaultMaxPayloadSizeBytes : ℤ := 10 * 2 ^ 20

def Settings.payloadSizeCap (s : Settings) : ℤ :=
  if s.maxPayloadSizeBytes > 0 then s.maxPayloadSizeBytes else defaultMaxPayloadSizeBytes

/-- `strings.ToLower`; the dotted capital I has a simple lower case of its own. -/
def toLower (s : String) : String :=
  String.ofList <| s.toList.map fun c =>
    if c.toNat = 0x130 then 'i' else Char.ofNat (mapped lowerRuns c.toNat)

/-- `strings.ToUpper`, as far as a comparison with ASCII letters can tell. -/
def toUpper (s : String) : String :=
  String.ofList <| s.toList.map fun c => Char.ofNat (mapped upperRuns c.toNat)

/-! ## Payloads -/

def catBoundaryStrings : String := "boundary_strings"
def catBoundaryIntegers : String := "boundary_integers"
def catBoundaryNumbers : String := "boundary_numbers"
def catBoundaryDates : String := "boundary_dates"
def catBoundaryBooleans : String := "boundary_booleans"
def catBoundaryArrays : String := "boundary_arrays"
def catBoundaryUUIDs : String := "boundary_uuids"
def catMaliciousSQLi : String := "malicious_sqli"
def catMaliciousXSS : String := "malicious_xss"
def catMaliciousPathTraversal : String := "malicious_path_traversal"
def catMaliciousEncoding : String := "malicious_encoding"
def catMaliciousNumbers : String := "malicious_numbers"
def catMaliciousDates : String := "malicious_dates"
def catMaliciousBooleans : String := "malicious_booleans"
def catMaliciousTypeConfusion : String := "malicious_type_confusion"
def catHostInjection : String := "malicious_host_injection"
def catCORSMisconfig : String := "malicious_cors_misconfig"
def catIPSpoofing : String := "malicious_ip_spoofing"
def catJWTManipulation : String := "malicious_jwt_manipulation"
def catOOBInteraction : String := "malicious_oob_interaction"
def catMaliciousCmdi : String := "malicious_cmdi"
def catMaliciousSSTI : String := "malicious_ssti"
def catMaliciousXXE : String := "malicious_xxe"
def catMaliciousPrototypePollution : String := "malicious_prototype_pollution"
def catMaliciousNoSQLi : String := "malicious_nosqli"
def catMaliciousSSRF : String := "malicious_ssrf"
def catMaliciousMassAssignment : String := "malicious_mass_assignment"
def catMaliciousGraphQL : String := "malicious_graphql"

/-- `strings.Repeat` -/
def repeatString (s : String) (n : ℕ) : String := String.join (List.replicate n s)

def boundaryStrings : List Value :=
  [.str "", .str " ", .str "  \t\n  ", .str (repeatString "A" 256), .str (repeatString "A" 1000),
   .str (repeatString "A" 10000), .str (repeatString "A" 100000), .str (repeatString "\n" 1000),
   .str (repeatString "0" 10000), .str (repeatString " " 10000), .str (repeatString "あ" 5000),
   .str (repeatString "🔥" 2500), .str (repeatString "A" 262144), .longString "A" 524288,
   .longString "A" 1048576, .longString "A" 2097152, .longString "A" 5242880,
   .longString "A" 10485760, .longString "A" 20971520, .longString "A" 52428800,
   .longString "A" 104857600]

/-- `LongString.Len` -/
def longStringLen (unit : String) (count : ℕ) : ℕ := unit.utf8ByteSize * count

/-- `LongString.Build` -/
def longStringBuild (unit : String) (count : ℕ) (maxBytes : ℤ) : String :=
  if maxBytes > 0 ∧ unit.utf8ByteSize > 0 ∧ (longStringLen unit count : ℤ) > maxBytes then
    repeatString unit (maxBytes.toNat / unit.utf8ByteSize)
  else repeatString unit count

/-- The length of `{"body":{"a":""}}`. -/
def minEnvelopeBytes : ℕ := 17

def boundaryStringFits (v : Value) (maxBytes : ℤ) : Bool :=
  match v with
  | .longString unit count =>
    let n := longStringLen unit count
    n ≤ 1024 ∨ (n + minEnvelopeBytes : ℕ) ≤ maxBytes
  | .str s => s.utf8ByteSize ≤ 1024 ∨ (s.utf8ByteSize + minEnvelopeBytes : ℕ) ≤ maxBytes
  | _ => true

def boundaryStringsFitting (maxBytes : ℤ) : List Value :=
  boundaryStrings.filter fun v => boundaryStringFits v maxBytes

def boundaryIntegers : List Value :=
  [0, -1, 1, 127, -128, 255, 32767, -32768, 65535, 2147483647, -2147483648, 4294967295,
    9007199254740991, -9007199254740991].map .int

/-- A constant `-0.0` is zero, and constants are added exactly. -/
def boundaryNumbers : List Value :=
  ["0", "0", "0.3", "5e-324", "1.7976931348623157e+308", "1e+308", "-1e+308", "5e-324",
    "1.0000000000000002", "9.999999999999999e+14"].map .float

def boundaryDates : List Value :=
  ["1970-01-01T00:00:00.000Z", "1969-12-31T23:59:59.999Z", "0000-01-01T00:00:00.000Z",
    "9999-12-31T23:59:59.999Z", "2038-01-19T03:14:07.000Z", "2000-02-29T00:00:00.000Z",
    "1900-02-28T00:00:00.000Z", "2024-12-31T23:59:59.999Z", "2024-01-01T00:00:00.000Z"].map .str

def boundaryUUIDs : List Value :=
  ["00000000-0000-0000-0000-000000000000", "ffffffff-ffff-ffff-ffff-ffffffffffff", "not-a-uuid",
    ""].map .str

def boundaryArraySizes : List Value :=
  [0, 1, 2, 5, 10, 50, 100, 500, 1000, 5000, 10000].map .int

def boundaryBooleans : List Value :=
  [.bool true, .bool false, .null, .int 0, .int 1, .int (-1), .str "", .str "true", .str "false",
   .str "yes", .str "no", .str "1", .str "0"]

/-- The boundary values for float types: the integers, then the numbers. -/
def boundaryFloats : List Value := boundaryIntegers ++ boundaryNumbers

structure SecurityHeaderDef where
  category : String
  headers : List (String × List String)

def hostInjection : List String :=
  ["evil.com", "evil.com:443", "127.0.0.1", "169.254.169.254", "[::1]", "localhost",
    "0177.0.0.1", "0x7f.0.0.1"]

def corsOrigins : List String :=
  ["https://evil.com", "null", "https://evil.com.target.com", "https://target.com.evil.com",
    "https://targetcom.evil.com"]

def ipSpoofing : List String :=
  ["127.0.0.1", "::1", "10.0.0.1", "192.168.1.1", "169.254.169.254", "0.0.0.0", "172.16.0.1"]

def jwtManipulation : List String :=
  ["", "invalid", "null", "eyJhbGciOiJub25lIiwidHlwIjoiSldUIn0.eyJzdWIiOiIxIn0.", "Bearer ",
    "Bearer null", "Bearer undefined"]

def securityHeaderPayloads : List SecurityHeaderDef :=
  [⟨catHostInjection, [("Host", hostInjection)]⟩,
   ⟨catCORSMisconfig, [("Origin", corsOrigins)]⟩,
   ⟨catIPSpoofing, [("X-Forwarded-For", ipSpoofing), ("X-Real-IP", ipSpoofing),
     ("X-Original-URL", ipSpoofing)]⟩,
   ⟨catJWTManipulation, [("Authorization", jwtManipulation)]⟩,
   ⟨catOOBInteraction, [("Referer", ["\x7b\x7bOOB_URL\x7d\x7d"]),
     ("X-Forwarded-For", ["\x7b\x7bOOB_URL\x7d\x7d"]),
     ("Contact", ["<\x7b\x7bOOB_URL\x7d\x7d>"]),
     ("X-Wap-Profile", ["\x7b\x7bOOB_URL\x7d\x7d"])]⟩]

/-- The lists of malicious payloads; nothing depends on what the payloads are. -/
structure Malicious where
  encoding : List Value
  sqli : List Value
  xss : List Value
  pathTraversal : List Value
  oob : List Value
  cmdi : List Value
  ssti : List Value
  xxe : List Value
  prototypePollution : List Value
  nosqli : List Value
  ssrf : List Value
  massAssignment : List Value
  graphql : List Value
  numbers : List Value
  dates : List Value
  booleans : List Value
  typeConfusion : List Value

def Malicious.stringCategories (m : Malicious) : List (String × List Value) :=
  [(catMaliciousEncoding, m.encoding), (catMaliciousSQLi, m.sqli), (catMaliciousXSS, m.xss),
   (catMaliciousPathTraversal, m.pathTraversal), (catOOBInteraction, m.oob),
   (catMaliciousCmdi, m.cmdi), (catMaliciousSSTI, m.ssti), (catMaliciousXXE, m.xxe),
   (catMaliciousPrototypePollution, m.prototypePollution), (catMaliciousNoSQLi, m.nosqli),
   (catMaliciousSSRF, m.ssrf), (catMaliciousMassAssignment, m.massAssignment),
   (catMaliciousGraphQL, m.graphql)]

/-! ## How many iterations a profile needs -/

/-- The categories enabled for a profile; `none` is all of them. -/
def Settings.activeCategories (s : Settings) (profile : FuzzingProfile) : Option (List String) :=
  match s.payloadCategories.lookup profile with
  | some ids => if ids.length > 0 then some ids else none
  | none => none

def isEnabled (active : Option (List String)) (id : String) : Bool :=
  match active with
  | none => true
  | some ids => ids.contains id

/-- The sum over the enabled categories. -/
def countOf (is : String → Bool) (lists : List (String × List Value)) : ℕ :=
  ((lists.filter fun l => is l.1).map fun l => l.2.length).sum

/-- The greatest length of an enabled category, but at least `least`. -/
def longestOf (is : String → Bool) (least : ℕ) (lists : List (String × List Value)) : ℕ :=
  lists.foldl (fun n l => if is l.1 ∧ l.2.length > n then l.2.length else n) least

def Malicious.otherCategories (m : Malicious) : List (String × List Value) :=
  [(catMaliciousNumbers, m.numbers), (catMaliciousDates, m.dates),
   (catMaliciousBooleans, m.booleans), (catMaliciousTypeConfusion, m.typeConfusion)]

def securityHeaderIterations (is : String → Bool) : ℕ :=
  (securityHeaderPayloads.filter fun d => is d.category).foldl
    (fun n d => d.headers.foldl (fun n h => if h.2.length > n then h.2.length else n) n) 0

def minIterationsNeeded (m : Malicious) (profile : FuzzingProfile) (settings : Settings) : ℕ :=
  let is := isEnabled (settings.activeCategories profile)
  match profile with
  | .boundary => longestOf is 0
      [(catBoundaryStrings, boundaryStringsFitting settings.payloadSizeCap),
       (catBoundaryIntegers, boundaryIntegers), (catBoundaryNumbers, boundaryNumbers),
       (catBoundaryDates, boundaryDates), (catBoundaryBooleans, boundaryBooleans),
       (catBoundaryArrays, boundaryArraySizes), (catBoundaryUUIDs, boundaryUUIDs)]
  | .malicious =>
    -- not every string category is counted here
    let bodyCount := countOf is
      [(catMaliciousEncoding, m.encoding), (catMaliciousSQLi, m.sqli), (catMaliciousXSS, m.xss),
       (catMaliciousPathTraversal, m.pathTraversal), (catOOBInteraction, m.oob),
       (catMaliciousCmdi, m.cmdi), (catMaliciousSSTI, m.ssti), (catMaliciousXXE, m.xxe)]
    longestOf is bodyCount m.otherCategories + securityHeaderIterations is
  | _ => 0

/-! ## The generator -/

/-- The two generators of an endpoint. -/
inductive Owner where
  | gen
  | safeGen
  deriving DecidableEq

/-- The counters of a generator, by their field. -/
inductive CounterField where
  | bStrIdx | bIntIdx | bNumIdx | bDateIdx | bArrIdx | bBoolIdx | bUUIDIdx
  | mStrIdx | mNumIdx | mDateIdx | mBoolIdx | mTypeIdx | mUUIDIdx
  | mSecHeaderIdxs (headerName : String)
  deriving DecidableEq

structure Counter where
  owner : Owner
  field : CounterField
  deriving DecidableEq

/-- What is left to chance, or to the runtime. -/
inductive Question where
  /-- `rand.Float64()` is below so many percent -/
  | chance (percent : ℕ)
  | intN (n : ℕ)
  /-- how a map with these keys is ranged over -/
  | order (keys : List String)
  | fallbackRandom (propName : String)
  | floatRange (min max : ℕ)
  | randomDate
  | uuid
  /-- a payload with its OOB address and its SSTI expression in place -/
  | substituted (s : String)
  | semanticValue (format vector : String)
  /-- a payload with this hash was sent before -/
  | seenHash (hash : ℕ)

@[reducible] def Reply : Question → Type
  | .chance _ => Bool
  | .intN _ => ℕ
  | .order _ => List String
  | .fallbackRandom _ => Value
  | .floatRange _ _ => String
  | .randomDate => String
  | .uuid => String
  | .substituted _ => String
  | .semanticValue _ _ => String
  | .seenHash _ => Bool

/-- A program of the generator; a pick is for a property or a header. -/
abbrev Gen := Picks String Counter Value Reply

def ask (q : Question) : Gen (Reply q) := .call (.ask q) .ret

structure Generator where
  payloads : Malicious
  owner : Owner
  dictionaries : List (String × List Value)
  profile : FuzzingProfile
  activeCategories : Option (List String)
  boundaryStrings : List Value
  cachedMaliciousStrings : List Value
  hasActiveMaliciousStrings : Bool
  bodyIterations : ℕ
  settings : Settings

def countBodyIterations (m : Malicious) (profile : FuzzingProfile) (is : String → Bool) : ℕ :=
  if profile ≠ .malicious then 0
  else longestOf is (countOf is m.stringCategories) m.otherCategories

/-- The strings of the enabled categories. Without any, the source keeps a random word in
their place, which it never picks. -/
def getActiveMaliciousStrings (m : Malicious) (is : String → Bool) : List Value × Bool :=
  let all := (m.stringCategories.filter fun l => is l.1).flatMap fun l => l.2
  (all, !all.isEmpty)

/-- `generator.New`; of dictionaries with one name in lower case, the last ranged over stays. -/
def newGenerator (m : Malicious) (owner : Owner) (dictionaries : List (String × List Value))
    (profile : FuzzingProfile) (settings : Settings) : Gen Generator := do
  let keys ← ask (.order (dictionaries.map Prod.fst))
  let norm := keys.reverse.filterMap fun k => (dictionaries.lookup k).map fun v => (toLower k, v)
  let active := settings.activeCategories profile
  let (cached, hasActive) := getActiveMaliciousStrings m (isEnabled active)
  return {
    payloads := m
    owner := owner
    dictionaries := norm
    profile := profile
    activeCategories := active
    boundaryStrings :=
      if profile = .boundary then boundaryStringsFitting settings.payloadSizeCap else []
    cachedMaliciousStrings := cached
    hasActiveMaliciousStrings := hasActive
    bodyIterations := countBodyIterations m profile (isEnabled active)
    settings := settings }

namespace Generator

def isCategoryEnabled (g : Generator) (id : String) : Bool := isEnabled g.activeCategories id

/-- `use` is what the value is for, here and below; the source does not pass it. -/
def seqPick (g : Generator) (use : String) (arr : List Value) (c : CounterField) : Gen Value :=
  .call (.pick ⟨use, ⟨g.owner, c⟩, arr⟩) fun v : Option Value => .ret (v.getD .null)

/-- `payloads.Pick` -/
def randomPick (arr : List Value) : Gen Value := do
  let i ← ask (.intN arr.length)
  return arr[i % arr.length]?.getD .null

def intRange (min max : ℕ) : Gen ℕ := do
  let i ← ask (.intN (max - min + 1))
  return min + i % (max - min + 1)

def generateUUID (g : Generator) (use : String) : Gen Value := do
  let boundary ←
    if g.profile = .malicious then ask (.chance 10)
    else if g.profile = .boundary ∧ g.isCategoryEnabled catBoundaryUUIDs then ask (.chance 20)
    else pure false
  if boundary then
    g.seqPick use boundaryUUIDs (if g.profile = .malicious then .mUUIDIdx else .bUUIDIdx)
  else
    return .str (← ask .uuid)

def generateDate (g : Generator) (use : String) : Gen Value :=
  if g.profile = .boundary ∧ g.isCategoryEnabled catBoundaryDates then
    g.seqPick use boundaryDates .bDateIdx
  else if g.profile = .malicious ∧ g.isCategoryEnabled catMaliciousDates then
    g.seqPick use g.payloads.dates .mDateIdx
  else
    return .str (← ask .randomDate)

def generateBoolean (g : Generator) (use : String) : Gen Value :=
  if g.profile = .boundary ∧ g.isCategoryEnabled catBoundaryBooleans then
    g.seqPick use boundaryBooleans .bBoolIdx
  else if g.profile = .malicious ∧ g.isCategoryEnabled catMaliciousBooleans then
    g.seqPick use g.payloads.booleans .mBoolIdx
  else
    return .bool (← ask (.chance 50))

def generateNumber (g : Generator) (use typ : String) : Gen Value :=
  if g.profile = .boundary ∧ typ = "integer" ∧ g.isCategoryEnabled catBoundaryIntegers then
    g.seqPick use boundaryIntegers .bIntIdx
  else if g.profile = .boundary ∧ typ ≠ "integer" ∧ g.isCategoryEnabled catBoundaryNumbers then
    g.seqPick use boundaryFloats .bNumIdx
  else if g.profile = .malicious ∧ g.isCategoryEnabled catMaliciousNumbers then
    g.seqPick use g.payloads.numbers .mNumIdx
  else if typ = "integer" then
    return .int (← intRange 1 1000)
  else
    return .float (← ask (.floatRange 0 1000))

/-- The longest part of whole characters in so many bytes. -/
def takeBytes : ℕ → List Char → List Char
  | _, [] => []
  | n, c :: cs => if c.utf8Size ≤ n then c :: takeBytes (n - c.utf8Size) cs else []

def cutUTF8 (s : String) (n : ℕ) : String := String.ofList (takeBytes n s.toList)

/-- A string in the semantic wrapper of its format, any other value as it is. -/
def wrapSemantic (g : Generator) (format : String) : Value → Gen Value
  | .str s =>
    if g.settings.semanticMutationEnabled ∧ format ≠ "" then
      return .str (← ask (.semanticValue format s))
    else
      return .str s
  | v => return v

def generateStringInternal (g : Generator) (format propName : String) (inArray : Bool) :
    Gen Value :=
  if g.profile = .random then
    ask (.fallbackRandom propName)
  else if format = "uuid" then
    g.generateUUID propName
  else if g.profile = .boundary ∧ g.isCategoryEnabled catBoundaryStrings then do
    let maxAllowed := if inArray then 1024 else
      max (g.settings.payloadSizeCap - minEnvelopeBytes) 1
    match ← g.seqPick propName g.boundaryStrings .bStrIdx with
    | .longString unit count => return .str (longStringBuild unit count maxAllowed)
    | .str s => return .str (cutUTF8 s maxAllowed.toNat)
    | v => return v
  else if g.profile = .malicious ∧ g.hasActiveMaliciousStrings then do
    match ← g.seqPick propName g.cachedMaliciousStrings .mStrIdx with
    | .str s => g.wrapSemantic format (.str (← ask (.substituted s)))
    | v => return v
  else do
    g.wrapSemantic format (← ask (.fallbackRandom propName))

def getArraySize (g : Generator) (use : String) (itemSchema : Option Schema) : Gen ℤ :=
  if g.profile = .boundary ∧ g.isCategoryEnabled catBoundaryArrays then do
    -- the sizes are integers, so the source's type assertion holds
    let size ← g.seqPick use boundaryArraySizes .bArrIdx
    let size := match size with
      | .int n => n
      | _ => 0
    match itemSchema with
    | none => return min size 100
    | some schema =>
      if schema.type = "object" then
        return min size 10
      else
        let format := toLower schema.format
        let approxItemBytes : ℤ :=
          if schema.type = "string" then
            if format = "uuid" then 40
            else if format = "date-time" ∨ format = "date" then 30
            else 50
          else if schema.type = "integer" ∨ schema.type = "number" then 15
          else if schema.type = "boolean" then 6
          else 30
        return min size (min (max (g.settings.payloadSizeCap / approxItemBytes) 100) 10000)
  else do
    return (← intRange 1 5 : ℕ)

def generateByProfile (g : Generator) (typ format propName : String) : Gen Value := do
  let confuse ←
    if g.profile = .malicious ∧ g.isCategoryEnabled catMaliciousTypeConfusion then ask (.chance 5)
    else pure false
  let format := toLower format
  if confuse then
    g.seqPick propName g.payloads.typeConfusion .mTypeIdx
  else if typ = "string" then
    if format = "date-time" then g.generateDate propName
    else if format = "uuid" then g.generateUUID propName
    else g.generateStringInternal format propName false
  else if typ = "integer" ∨ typ = "number" then
    g.generateNumber propName typ
  else if typ = "boolean" then
    g.generateBoolean propName
  else
    ask (.fallbackRandom propName)

/-- Enum, then dictionary, then the profile. -/
def generate (g : Generator) (propertyName : String) : Option Schema → Gen Value
  | none => return .null
  | some schema => do
    let shouldBypass ←
      if schema.enum.length > 0 ∧ g.profile = .malicious then ask (.chance 30) else pure false
    if schema.enum.length > 0 ∧ ¬ shouldBypass then
      randomPick schema.enum
    else
      let vals := (g.dictionaries.lookup (toLower propertyName)).getD []
      if vals.length > 0 then
        randomPick vals
      else
        g.generateByProfile schema.type schema.format propertyName

def generateArrayItem (g : Generator) (propertyName : String) : Option Schema → Gen Value
  | none => return .null
  | some schema =>
    let format := toLower schema.format
    if schema.type = "string" then
      if format = "date-time" then g.generateDate propertyName
      else if format = "uuid" then g.generateUUID propertyName
      else g.generateStringInternal format propertyName true
    else
      g.generate propertyName (some schema)

/-- The value of a property that is an object, an array of items or neither; `nested` builds an
object one level down. -/
def buildProperty (g : Generator) (nested : Option Schema → Gen (List (String × Value)))
    (key : String) (schema : Schema) : Gen Value :=
  if schema.type = "object" ∧ schema.properties.isSome then
    return .object (← nested (some schema))
  else if schema.type = "array" ∧ schema.items.isSome then do
    let count ← g.getArraySize key schema.items
    let arr ← (List.range count.toNat).mapM fun _ =>
      if schema.items.map Schema.type = some "object" then
        return Value.object (← nested schema.items)
      else
        g.generateArrayItem key schema.items
    return .array arr
  else
    g.generate key (some schema)

/-- The properties of an object, less those that are left out. -/
def buildProperties (g : Generator) (nested : Option Schema → Gen (List (String × Value)))
    (props : List (String × Option Schema)) (required : List String) :
    List String → Gen (List (String × Value))
  | [] => return []
  | key :: keys =>
    match (props.lookup key).join with
    | none => g.buildProperties nested props required keys
    | some schema => do
      let omitted ←
        if g.profile = .malicious then ask (.chance (if required.contains key then 5 else 30))
        else pure false
      if omitted then
        g.buildProperties nested props required keys
      else
        let value ← g.buildProperty nested key schema
        return (key, value) :: (← g.buildProperties nested props required keys)

def buildObjectFrom (g : Generator) (nested : Option Schema → Gen (List (String × Value))) :
    Option Schema → Gen (List (String × Value))
  | none => return []
  | some schema =>
    match schema.properties with
    | none => return []
    | some props =>
      if schema.type ≠ "object" then return []
      else do
        let empty ← if g.profile = .random then ask (.chance 10) else pure false
        if empty then return []
        else
          let keys ← ask (.order (props.map Prod.fst))
          g.buildProperties nested props schema.required keys

/-- By how far the depth is below six, where objects are left empty. -/
def buildObjectWithDepth (g : Generator) : ℕ → Option Schema → Gen (List (String × Value))
  | 0, schema => g.buildObjectFrom (fun _ => return []) schema
  | room + 1, schema => g.buildObjectFrom (g.buildObjectWithDepth room) schema

def buildObject (g : Generator) (schema : Option Schema) : Gen (List (String × Value)) :=
  g.buildObjectWithDepth 6 schema

/-- The headers of one category, in the order they are ranged over. -/
def securityHeadersOf (g : Generator) (headers : List (String × List String)) :
    List String → Gen (List (String × String))
  | [] => return []
  | name :: names => do
    let values := (headers.lookup name).getD []
    if values.length = 0 then
      g.securityHeadersOf headers names
    else
      match ← g.seqPick name (values.map .str) (.mSecHeaderIdxs name) with
      | .str s =>
        let sent ← ask (.substituted s)
        return (name, sent) :: (← g.securityHeadersOf headers names)
      | _ => g.securityHeadersOf headers names

def securityHeaders (g : Generator) : List SecurityHeaderDef → Gen (List (String × String))
  | [] => return []
  | d :: ds =>
    if g.isCategoryEnabled d.category then do
      let names ← ask (.order (d.headers.map Prod.fst))
      let headers ← g.securityHeadersOf d.headers names
      return headers ++ (← g.securityHeaders ds)
    else
      g.securityHeaders ds

/-- The headers in the order they are set. -/
def generateSecurityHeaders (g : Generator) : Gen (List (String × String)) :=
  if g.profile = .malicious then g.securityHeaders securityHeaderPayloads else return []

end Generator

end Swazz.Payloads
