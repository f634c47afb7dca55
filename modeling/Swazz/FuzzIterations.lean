import Swazz.Generator

/-! The iterations of an endpoint: the payload of each, whether the endpoint is fuzzed as a whole
or one parameter after the other, and which of them a resumed scan passes over. Sending, pausing
and stopping are left out, and with them the attribution of OOB tokens. -/
namespace Swazz.Payloads

open AtomicCalls SequentialPicks

structure Endpoint where
  method : String
  schema : Schema
  pathParams : List (String × Option Schema)
  queryParams : List (String × Option Schema)
  headerParams : List (String × Option Schema)
  exampleValue : Option Value

structure GeneratedPayload where
  body : Option (List (String × Value)) := none
  queryParams : Option (List (String × Value)) := none
  headers : Option (List (String × String)) := none
  pathParams : Option (List (String × String)) := none

/-- How values are printed, what a payload's encoding comes to, and how the runtime grows a
slice. -/
structure Env where
  /-- `%v` -/
  sprint : Value → String
  capPathParam : Value → String
  payloadFits : GeneratedPayload → ℤ → Bool
  /-- `none` if the payload does not fit -/
  sizedPayloadHash : GeneratedPayload → ℤ → Option ℕ
  /-- the capacity after an append to a full slice of this length -/
  growslice : ℕ → ℕ

def isNoBodyMethod (method : String) : Bool :=
  let m := toUpper method
  m = "GET" ∨ m = "HEAD" ∨ m = "OPTIONS"

def hasFields (ep : Endpoint) : Bool :=
  (ep.schema.properties.getD []).length > 0 ∨ ep.pathParams.length > 0 ∨
    ep.queryParams.length > 0 ∨ ep.headerParams.length > 0

def calcEffectiveIterations (m : Malicious) (profile : FuzzingProfile) (settings : Settings)
    (ep : Endpoint) : ℤ :=
  let minNeeded : ℤ := minIterationsNeeded m profile settings
  let n := max minNeeded settings.iterationsPerProfile
  if hasFields ep then n
  else if profile = .malicious then max minNeeded 1
  else 1

/-! ## Building a payload -/

/-- A map with one entry set. -/
def setKey {α : Type} (k : String) (v : α) : List (String × α) → List (String × α)
  | [] => [(k, v)]
  | (k', v') :: rest => if k' = k then (k, v) :: rest else (k', v') :: setKey k v rest

def objectSchema (props : List (String × Option Schema)) : Option Schema :=
  some ⟨"object", "", [], some props, none, []⟩

/-- The keys of `b` overwrite those of `a`. -/
def mergeProps (a b : List (String × Option Schema)) : List (String × Option Schema) :=
  a.filter (fun p => (b.lookup p.1).isNone) ++ b

def buildHeaders (env : Env) (ep : Endpoint) (g : Generator) :
    Gen (Option (List (String × String))) :=
  if ep.headerParams.length = 0 then return none
  else do
    let headerObj ← g.buildObject (objectSchema ep.headerParams)
    return some (headerObj.map fun (k, v) => (k, env.sprint v))

def pathParamsFrom (env : Env) (g : Generator) (params : List (String × Option Schema)) :
    List String → Gen (List (String × String))
  | [] => return []
  | name :: names =>
    match params.lookup name with
    | none => pathParamsFrom env g params names
    | some schema => do
      let v ← g.generate name (some (schema.getD ⟨"string", "", [], none, none, []⟩))
      return (name, env.capPathParam v) :: (← pathParamsFrom env g params names)

def buildPathParams (env : Env) (ep : Endpoint) (g : Generator) :
    Gen (Option (List (String × String))) :=
  if ep.pathParams.length = 0 then return none
  else do
    let names ← ask (.order (ep.pathParams.map Prod.fst))
    return some (← pathParamsFrom env g ep.pathParams names)

/-- The body from the schema; `emptied` leaves it empty. -/
def bodyFromSchema (ep : Endpoint) (g : Generator) (emptied : Gen Bool) :
    Gen (Option (List (String × Value))) :=
  if (ep.schema.properties.getD []).length > 0 ∨ ep.schema.type = "array" ∨
      ep.schema.type = "object" then do
    if ← emptied then return some []
    else return some (← g.buildObject (some ep.schema))
  else return none

def queryFrom (g : Generator) (params : List (String × Option Schema)) :
    Gen (Option (List (String × Value))) :=
  if params.length > 0 then return some (← g.buildObject (objectSchema params))
  else return none

def buildFromSchema (ep : Endpoint) (g : Generator) (emptied : Gen Bool) :
    Gen GeneratedPayload :=
  if isNoBodyMethod ep.method then do
    -- schema and query properties share the query string
    let combined := mergeProps (ep.schema.properties.getD []) ep.queryParams
    return { queryParams := ← queryFrom g combined }
  else do
    let body ← bodyFromSchema ep g emptied
    let queryParams ← queryFrom g ep.queryParams
    return { body := body, queryParams := queryParams }

def buildFromExample (ep : Endpoint) (v : Value) : GeneratedPayload :=
  let fields := match v with
    | .object entries => some entries
    | _ => none
  if isNoBodyMethod ep.method then { queryParams := fields } else { body := fields }

def buildSafePayload (env : Env) (ep : Endpoint) (safeGen : Generator) : Gen GeneratedPayload :=
  match ep.exampleValue with
  | some v => do
    let headers ← buildHeaders env ep safeGen
    let pathParams ← buildPathParams env ep safeGen
    return { buildFromExample ep v with headers := headers, pathParams := pathParams }
  | none =>
    if hasFields ep then do
      let out ← buildFromSchema ep safeGen (pure false)
      let headers ← buildHeaders env ep safeGen
      let pathParams ← buildPathParams env ep safeGen
      return { out with headers := headers, pathParams := pathParams }
    else return {}

def selectGen (gen safeGen : Generator) (isSecHeaderIter : Bool) : Generator :=
  if isSecHeaderIter then safeGen else gen

def buildFuzzPayload (env : Env) (ep : Endpoint) (gen safeGen : Generator)
    (isSecHeaderIter isRandom : Bool) : Gen GeneratedPayload := do
  let g := selectGen gen safeGen isSecHeaderIter
  if hasFields ep then
    let out ← buildFromSchema ep g (if isRandom then ask (.chance 15) else pure false)
    let headers ← buildHeaders env ep g
    let pathParams ← buildPathParams env ep g
    return { out with headers := headers, pathParams := pathParams }
  else
    return { headers := ← buildHeaders env ep g }

/-! ## Target fields -/

inductive Location where
  | body
  | query
  | header
  | path
  deriving DecidableEq

structure TargetField where
  location : Location
  path : List String
  schema : Option Schema

/-- A slice of strings: its backing array and its length. -/
structure Slice where
  array : ℕ
  len : ℕ

/-- A backing array: the cells written so far and the capacity. -/
structure Backing where
  cells : List String
  cap : ℕ

/-- `append(s, k)`, which writes to the backing array as long as it has room. -/
def appendTo (env : Env) (arrays : List Backing) (s : Slice) (k : String) :
    List Backing × Slice :=
  match arrays[s.array]? with
  | none => (arrays, s)
  | some b =>
    if s.len < b.cap then
      let cells := b.cells.take s.len ++ k :: b.cells.drop (s.len + 1)
      (arrays.set s.array { b with cells := cells }, ⟨s.array, s.len + 1⟩)
    else
      (arrays ++ [⟨b.cells.take s.len ++ [k], env.growslice s.len⟩], ⟨arrays.length, s.len + 1⟩)

/-- What a slice holds. -/
def Slice.read (s : Slice) (arrays : List Backing) : List String :=
  match arrays[s.array]? with
  | none => []
  | some b => b.cells.take s.len

/-- Goes through a schema under a path, and adds to the fields found. -/
abbrev Visit := Slice → List Backing → Gen (List Backing × List (Slice × Schema))

/-- The children in the order they are ranged over, each under the path with its key. -/
def visitChildren (env : Env) (path : Slice) (children : List (String × Visit)) :
    List String → List Backing → Gen (List Backing × List (Slice × Schema))
  | [], arrays => return (arrays, [])
  | k :: keys, arrays =>
    match children.lookup k with
    | none => visitChildren env path children keys arrays
    | some visit => do
      let (arrays, childPath) := appendTo env arrays path k
      let (arrays, found) ← visit childPath arrays
      let (arrays, more) ← visitChildren env path children keys arrays
      return (arrays, found ++ more)

mutual

def collectBody (env : Env) : Schema → Visit
  | ⟨type, format, enum, some props, items, required⟩, path, arrays =>
    if type = "object" ∧ props.length > 0 then do
      let keys ← ask (.order (props.map Prod.fst))
      visitChildren env path (collectProps env props) keys arrays
    else return (arrays, [(path, ⟨type, format, enum, some props, items, required⟩)])
  | ⟨type, format, enum, none, items, required⟩, path, arrays =>
    return (arrays, [(path, ⟨type, format, enum, none, items, required⟩)])

def collectProps (env : Env) : List (String × Option Schema) → List (String × Visit)
  | [] => []
  | (k, none) :: rest => (k, fun _ arrays => return (arrays, [])) :: collectProps env rest
  | (k, some schema) :: rest => (k, collectBody env schema) :: collectProps env rest

end

/-- The top level, where each path starts in an array of its own. -/
def collectTop (children : List (String × Visit)) :
    List String → List Backing → Gen (List Backing × List (Slice × Schema))
  | [], arrays => return (arrays, [])
  | k :: keys, arrays =>
    match children.lookup k with
    | none => collectTop children keys arrays
    | some visit => do
      let (arrays, found) ← visit ⟨arrays.length, 1⟩ (arrays ++ [⟨[k], 1⟩])
      let (arrays, more) ← collectTop children keys arrays
      return (arrays, found ++ more)

def collectParams (location : Location) (params : List (String × Option Schema)) :
    Gen (List TargetField) := do
  let keys ← ask (.order (params.map Prod.fst))
  return keys.filterMap fun k => (params.lookup k).map fun schema => ⟨location, [k], schema⟩

def collectBodyFields (env : Env) (ep : Endpoint) : Gen (List TargetField) :=
  let props := ep.schema.properties.getD []
  if isNoBodyMethod ep.method then return []
  else if ep.schema.type = "object" ∧ props.length > 0 then do
    let keys ← ask (.order (props.map Prod.fst))
    let (arrays, found) ← collectTop (collectProps env props) keys []
    -- the paths are read when all of them are there
    return found.map fun (path, schema) => ⟨.body, path.read arrays, some schema⟩
  else if ep.schema.type ≠ "" then return [⟨.body, [], some ep.schema⟩]
  else return []

def collectTargetFields (env : Env) (ep : Endpoint) : Gen (List TargetField) := do
  let body ← collectBodyFields env ep
  let query ← collectParams .query ep.queryParams
  let header ← collectParams .header ep.headerParams
  let path ← collectParams .path ep.pathParams
  return body ++ query ++ header ++ path

/-- Maps are made on the way where the path leads through none. -/
def setNestedValue (value : Value) : List String → List (String × Value) → List (String × Value)
  | [], m => m
  | [k], m => setKey k value m
  | k :: path, m =>
    let next := match m.lookup k with
      | some (.object entries) => entries
      | _ => []
    setKey k (.object (setNestedValue value path next)) m

def setField (env : Env) (field : TargetField) (value : Value) (p : GeneratedPayload) :
    GeneratedPayload :=
  match field.location with
  | .body =>
    if field.path.length = 0 then
      match value with
      | .object entries => { p with body := some entries }
      | v => { p with body := some [("value", v)] }
    else { p with body := some (setNestedValue value field.path (p.body.getD [])) }
  | .query =>
    { p with queryParams := some (setNestedValue value field.path (p.queryParams.getD [])) }
  | .header =>
    let headers := setKey (field.path.headD "") (env.sprint value) (p.headers.getD [])
    { p with headers := some headers }
  | .path =>
    let pathParams := setKey (field.path.headD "") (env.capPathParam value) (p.pathParams.getD [])
    { p with pathParams := some pathParams }

def buildMutatedPayload (env : Env) (baseline : GeneratedPayload) (field : TargetField)
    (gen : Generator) : Gen GeneratedPayload :=
  if field.path.length = 0 ∧ field.location ≠ .body then return baseline
  else do
    let fuzzedVal ← gen.generate (field.path.getLastD "") field.schema
    return setField env field fuzzedVal baseline

/-! ## Iterations -/

def isSecurityHeaderIteration (gen : Generator) (profile : FuzzingProfile) (i : ℕ) : Bool :=
  profile = .malicious ∧ i ≥ gen.bodyIterations

def mergeSecurityHeaders (built : GeneratedPayload) (gen : Generator) : Gen GeneratedPayload := do
  let secHeaders ← gen.generateSecurityHeaders
  if secHeaders.length = 0 then return built
  else
    let headers := secHeaders.foldl (fun m (k, v) => setKey k v m) (built.headers.getD [])
    return { built with headers := some headers }

/-- djb2 -/
def hashStr (s : String) : ℕ :=
  s.toUTF8.toList.foldl (fun h b => (h * 33 + b.toNat) % 2 ^ 32) 5381

/-- What a run of an endpoint starts from. -/
structure Run where
  env : Env
  payloads : Malicious
  dictionaries : List (String × List Value)
  settings : Settings
  profile : FuzzingProfile
  endpoint : Endpoint

def Run.enableDedup (r : Run) : Bool := r.profile = .random

/-- The attempts that are left. Without any, the iteration is skipped. -/
def buildAttempts (r : Run) (gen safeGen : Generator) (isSecHeaderIter : Bool) :
    ℕ → Gen (Option GeneratedPayload)
  | 0 => return none
  | n + 1 => do
    let attempt ← buildFuzzPayload r.env r.endpoint gen safeGen isSecHeaderIter r.enableDedup
    let cap := r.settings.payloadSizeCap
    if r.enableDedup then
      match r.env.sizedPayloadHash attempt cap with
      | none => buildAttempts r gen safeGen isSecHeaderIter n
      | some h =>
        if ← ask (.seenHash h) then buildAttempts r gen safeGen isSecHeaderIter n
        else return some attempt
    else if r.env.payloadFits attempt cap then return some attempt
    else buildAttempts r gen safeGen isSecHeaderIter n

def buildFuzzIteration (r : Run) (gen safeGen : Generator) (isSecHeaderIter : Bool) :
    Gen (Option GeneratedPayload) :=
  if hasFields r.endpoint then buildAttempts r gen safeGen isSecHeaderIter 10
  else do
    let headers ← buildHeaders r.env r.endpoint (selectGen gen safeGen isSecHeaderIter)
    let duplicate ← if r.enableDedup then ask (.seenHash (hashStr "empty")) else pure false
    if duplicate then return none else return some { headers := headers }

/-- The payload for one field, unless it does not fit or was sent before. -/
def buildActiveIteration (r : Run) (gen safeGen : Generator) (baseline : GeneratedPayload)
    (field : TargetField) (isSecHeaderIter : Bool) : Gen (Option GeneratedPayload) := do
  let built ← buildMutatedPayload r.env baseline field (selectGen gen safeGen isSecHeaderIter)
  let cap := r.settings.payloadSizeCap
  if r.enableDedup then
    match r.env.sizedPayloadHash built cap with
    | none => return none
    | some h => if ← ask (.seenHash h) then return none else return some built
  else if r.env.payloadFits built cap then return some built
  else return none

/-- What stands before the first iteration. -/
structure Setup where
  gen : Generator
  safeGen : Generator
  fields : List TargetField
  baseline : GeneratedPayload

/-- The fields of active fuzzing; without any, the endpoint is fuzzed as a whole. -/
def Run.targetFields (r : Run) : Gen (List TargetField) :=
  if r.settings.activeParameterFuzzing then collectTargetFields r.env r.endpoint else return []

def Run.baseline (r : Run) (safeGen : Generator) (fields : List TargetField) :
    Gen GeneratedPayload :=
  if fields.length > 0 then buildSafePayload r.env r.endpoint safeGen else return {}

def Run.setup (r : Run) : Gen Setup := do
  let gen ← newGenerator r.payloads .gen r.dictionaries r.profile r.settings
  let safeGen ← newGenerator r.payloads .safeGen r.dictionaries .random r.settings
  let fields ← r.targetFields
  let baseline ← r.baseline safeGen fields
  return ⟨gen, safeGen, fields, baseline⟩

/-- The target field of each iteration, if there are any, and its number for that field. -/
def Run.items (r : Run) (s : Setup) : List (Option TargetField × ℕ) :=
  let n := (calcEffectiveIterations r.payloads r.profile r.settings r.endpoint).toNat
  if s.fields.length > 0 then
    s.fields.flatMap fun field => (List.range n).map fun i => (some field, i)
  else (List.range n).map fun i => (none, i)

/-- The payload of an iteration; `none` if it is skipped. -/
def Run.iteration (r : Run) (s : Setup) : Option TargetField × ℕ → Gen (Option GeneratedPayload)
  | (field, i) => do
    let isSecHeaderIter := isSecurityHeaderIteration s.gen r.profile i
    let built ← match field with
      | some field => buildActiveIteration r s.gen s.safeGen s.baseline field isSecHeaderIter
      | none => buildFuzzIteration r s.gen s.safeGen isSecHeaderIter
    match built with
    | none => return none
    | some built =>
      if isSecHeaderIter then return some (← mergeSecurityHeaders built s.gen)
      else return some built

/-- What chance and the runtime decide in a run: before the first iteration, and in each. -/
structure Choices where
  before : ℕ → (q : Question) → Reply q
  during : ℕ → ℕ → (q : Question) → Reply q

/-- The generators of the endpoint before anything is picked. -/
def fresh : Counter → ℕ := fun _ => 0

def Run.started (r : Run) (ch : Choices) : Outcome String Counter Value Setup :=
  run r.setup fresh ch.before

/-- The iterations of `fuzzEndpoint`, and of `runActiveParameterFuzzing` where there are fields,
from the first that is not skipped. -/
def fuzzEndpoint (r : Run) (ch : Choices) (iterToSkip : ℕ) :
    List (ℕ × (Option TargetField × ℕ) ×
      Outcome String Counter Value (Option GeneratedPayload)) :=
  let s := (r.started ch).result
  walk (r.iteration s) ch.during iterToSkip (r.items s) 0 (r.started ch).counters

end Swazz.Payloads
