import Swazz.FingerprintOrders
import Swazz.TextRewriting

/-! The differential phase: what it harvests of the responses to creations, the requests it replays
under other identities, and which of their responses it compares. Maps are ranged over in the order
in which their entries are listed. -/
namespace Swazz.Differential

open RunnerAccess (JsString js foldName)
open RunnerAccess renaming Json → Value
open Fingerprint

/-- What is read of JSON: a whole text, or the first value of one, and the path of a URL. -/
structure Libs where
  unmarshal : JsString → Option Value
  /-- `Decode` of a decoder that uses `json.Number`. -/
  decode : JsString → Option Value
  parsePath : JsString → Option JsString
  decode_of_unmarshal : ∀ raw v, unmarshal raw = some v → decode raw = some v
  unmarshal_trim : ∀ raw v, unmarshal raw = some v →
    unmarshal (License.trim License.goSpace raw) = some v
  unmarshal_nil : unmarshal [] = none

/-! ### IDs -/

/-- The character class of `idKeyRegex`, which takes no notice of case. -/
def isKeyUnit (c : ℕ) : Bool :=
  let u := UnicodeCase.foldRune c
  (65 ≤ u && u ≤ 90) || (48 ≤ u && u ≤ 57) || u = 95

/-- `idKeyRegex`: letters, digits and underscores that end in `id`. -/
def isIDKey (k : JsString) : Bool :=
  (foldName (js "id")).isSuffixOf (foldName k) && k.all isKeyUnit

/-- The bytes of a string in UTF-8. -/
def byteLength (s : JsString) : ℕ :=
  (s.map fun c => if c < 0x80 then 1 else if c < 0x800 then 2 else if c < 0x10000 then 3 else 4).sum

/-- `formatIDValue`; an empty text is no ID. -/
def formatIDValue : Value → JsString
  | .str s =>
    let trimmed := License.trim License.goSpace s
    if 0 < byteLength trimmed ∧ byteLength trimmed ≤ 128 then trimmed else []
  | .num printed => js printed
  | _ => []

mutual

/-- The IDs in a value, each as often as it stands there. -/
def walk : Value → List JsString
  | .obj entries => walkEntries entries
  | .arr items => walkItems items
  | _ => []

def walkEntries : List (JsString × Value) → List JsString
  | [] => []
  | (k, child) :: rest =>
    (if isIDKey k && formatIDValue child ≠ [] then [formatIDValue child] else []) ++
      walk child ++ walkEntries rest

def walkItems : List Value → List JsString
  | [] => []
  | item :: rest => walk item ++ walkItems rest

end

local instance instLawfulBEqID : LawfulBEq JsString := inferInstance

/-- The first of each ID. -/
def distinct (ids : List JsString) : List JsString :=
  ids.foldl (fun seen id => if id ∈ seen then seen else seen ++ [id]) []

def Libs.ExtractResourceIDs (lib : Libs) (body : JsString) : List JsString :=
  match lib.decode body with
  | none => []
  | some parsed => distinct (walk parsed)

/-- `IsErrorStructure` of the fingerprint of a body. -/
def Libs.isErrorBody (lib : Libs) (body : JsString) : Bool :=
  let trimmed := License.trim License.goSpace body
  if trimmed = [] then false
  else
    match lib.unmarshal trimmed with
    | none => isCommonErrorText trimmed
    | some parsed => checkErrorStructure parsed

/-! ### Responses -/

/-- `ResponseBody` of a result: nothing, the value of a body that is JSON, or its text. -/
inductive Body where
  | none
  | parsed (v : Value)
  | text (s : JsString)

/-- What `sendRequest` stores of the bytes it read. -/
def Libs.responseBody (lib : Libs) (raw : JsString) : Body :=
  if raw = [] then .none
  else
    match lib.unmarshal raw with
    | some .null => .none
    | some v => .parsed v
    | none => .text raw

/-- `responseBodyToBytes` of this package; nil is empty. -/
def responseBodyToBytes : Body → JsString
  | .none => []
  | .parsed (.str s) => s
  | .text s => s
  | .parsed _ => []

/-- A response, by its status and the bytes of its body that were read. -/
structure Response where
  Status : ℕ
  raw : JsString

def Response.succeeded (r : Response) : Bool := 200 ≤ r.Status && r.Status < 300

/-- The bytes that the phase has of a response. -/
def Libs.bytes (lib : Libs) (r : Response) : JsString := responseBodyToBytes (lib.responseBody r.raw)

structure Endpoint where
  Path : JsString
  Method : JsString
  deriving DecidableEq

structure Result where
  endpoint : JsString
  method : JsString
  response : Response

/-! ### Harvesting -/

def isCreation (method : JsString) : Bool :=
  method.map (UnicodeCase.mapped UnicodeCase.upperRuns) ∈ [js "POST", js "PUT", js "PATCH"]

/-- The IDs that `RecordCreation` records, before it leaves out those it has. -/
def Libs.createdIDs (lib : Libs) (endpoint : Endpoint) (respBody : JsString) (succeeded : Bool) :
    List JsString :=
  if !succeeded || respBody.isEmpty || !isCreation endpoint.Method || lib.isErrorBody respBody then []
  else lib.ExtractResourceIDs respBody

def trimSlashes (s : JsString) : JsString := (s.dropWhile (· = 47)).rdropWhile (· = 47)

def isParam (part : JsString) : Bool := (js "\x7b").isPrefixOf part && (js "\x7d").isSuffixOf part

def Libs.getBasePathPrefix (lib : Libs) (path : JsString) : JsString :=
  let path := match lib.parsePath path with
    | some p => if p = [] then path else p
    | none => path
  47 :: [47].intercalate (((trimSlashes path).splitOn 47).takeWhile fun p => !isParam p)

structure HarvestedResource where
  ID : JsString
  PathPrefix : JsString
  BaselineBody : JsString
  deriving DecidableEq

/-- `RecordCreation`, for the creator `UserA`. -/
def Libs.RecordCreation (lib : Libs) (endpoint : Endpoint) (respBody : JsString) (succeeded : Bool)
    (resources : List HarvestedResource) : List HarvestedResource :=
  let pathPrefix := lib.getBasePathPrefix endpoint.Path
  (lib.createdIDs endpoint respBody succeeded).foldl (fun resources id =>
    if (pathPrefix ++ js ":" ++ id) ∈ resources.map fun r => r.PathPrefix ++ js ":" ++ r.ID then
      resources
    else resources ++ [⟨id, pathPrefix, respBody⟩]) resources

/-- The first endpoint of a result's path and method. -/
def endpointOf (endpoints : List Endpoint) (res : Result) : Option Endpoint :=
  endpoints.find? fun ep => ep.Path = res.endpoint && foldName ep.Method = foldName res.method

/-- What the phase harvests of a result. -/
def Libs.harvestedIDs (lib : Libs) (endpoints : List Endpoint) (res : Result) : List JsString :=
  match endpointOf endpoints res with
  | none => []
  | some ep => lib.createdIDs ep (lib.bytes res.response) res.response.succeeded

def Libs.ingest (lib : Libs) (endpoints : List Endpoint) (results : List Result) :
    List HarvestedResource :=
  results.foldl (fun resources res =>
    match endpointOf endpoints res with
    | none => resources
    | some ep =>
      lib.RecordCreation ep (lib.bytes res.response) res.response.succeeded resources) []

/-! ### Probing -/

structure ProbeCandidate where
  TargetEndpoint : Endpoint
  ResolvedPath : JsString
  HarvestedID : JsString
  ProbeIdentity : JsString
  BaselineBody : JsString

/-- The parameter behind a prefix, if the path goes on with one. -/
def matchEndpointToResource (epPath resourcePrefix : JsString) : Option JsString :=
  let cleanEp := trimSlashes epPath
  let cleanPrefix := trimSlashes resourcePrefix
  if cleanPrefix.isPrefixOf cleanEp then
    match (trimSlashes (cleanEp.drop cleanPrefix.length)).splitOn 47 with
    | part :: _ => if isParam part then some (part.tail.dropLast) else none
    | [] => none
  else none

/-- `strings.ReplaceAll` of `{paramName}` -/
def substitutePathParam (path paramName value : JsString) : JsString :=
  let target := js "\x7b" ++ paramName ++ js "\x7d"
  TextRewriting.replaceAll (fun s => if target.isPrefixOf s then target.length else 0)
    (fun _ => value) path

def anonymous : JsString := js "Anonymous"

def creator : JsString := js "UserA"

/-- `BuildCrossIdentityCandidates` -/
def BuildCrossIdentityCandidates (resources : List HarvestedResource) (endpoints : List Endpoint)
    (identities : List JsString) : List ProbeCandidate :=
  resources.flatMap fun res => endpoints.flatMap fun ep =>
    match matchEndpointToResource ep.Path res.PathPrefix with
    | none => []
    | some paramName => ((identities ++ [anonymous]).filter (· ≠ creator)).map fun probeId =>
      ⟨ep, substitutePathParam ep.Path paramName res.ID, res.ID, probeId, res.BaselineBody⟩

/-- What the phase is run on; a probe that is not sent has no response. -/
structure Inputs where
  endpoints : List Endpoint
  identities : List JsString
  results : List Result
  probe : ProbeCandidate → Option Response

def Libs.candidates (lib : Libs) (inp : Inputs) : List ProbeCandidate :=
  BuildCrossIdentityCandidates (lib.ingest inp.endpoints inp.results) inp.endpoints inp.identities

/-- The phase compares a response by this fingerprint. -/
def Libs.Compares (lib : Libs) (r : Response) (fp : SchemaFingerprint) : Prop :=
  r.succeeded = true ∧ lib.bytes r ≠ [] ∧ ExtractFingerprint lib.unmarshal (lib.bytes r) fp

/-- The phase reports a probe, whatever order the maps are ranged over in. -/
def Libs.Reports (lib : Libs) (c : ProbeCandidate) (r : Response) : Prop :=
  (∃ fp, lib.Compares r fp) ∧
    ∀ base fp, ExtractFingerprint lib.unmarshal c.BaselineBody base → lib.Compares r fp →
      (CompareFingerprints base fp).isProbableBOLA = true ∨
        (CompareFingerprints base fp).isSchemaLeak = true

end Swazz.Differential
