import Mathlib.Data.List.Infix
import Swazz.Globs
import Swazz.GoStrings

/-! The classification of fuzz results, one at a time. -/
namespace Swazz.Classifying

open RunnerAccess (JsString)
open Utf8

abbrev Severity := Text

def SeverityError : Severity := ascii "error"
def SeverityIgnore : Severity := ascii "ignore"

/-- A value of a result: another one than bytes and strings by the text that `json.Marshal`, or
else `%v`, has for it. -/
inductive Value where
  | nil
  | bytes (s : Text)
  | string (s : Text)
  | other (text : Text)
  deriving DecidableEq

structure AnalysisFinding where
  ruleID : Text
  level : Text
  evidence : Text
  owaspCategory : List Text
  owaspAPICategory : List Text
  cweIDs : List Text

structure FuzzResult where
  id : Text
  endpoint : Text
  resolvedPath : Text
  method : Text
  profile : Text
  status : ℤ
  duration : ℤ
  payload : Value
  responseBody : Value
  error : Text
  timestamp : ℤ
  analyzerFindings : List AnalysisFinding

/-- A classified result that is reportable. -/
structure Finding where
  id : Text
  ruleID : Text
  level : Severity
  endpoint : Text
  resolvedPath : Text
  method : Text
  profile : Text
  status : ℤ
  duration : ℤ
  payload : Value
  responseBody : Value
  error : Text
  timestamp : ℤ
  source : Text
  owaspCategory : List Text
  owaspAPICategory : List Text
  cweIDs : List Text
  deriving DecidableEq

structure IgnoreRule where
  ruleID : Text
  endpoint : Text
  method : Text
  payload : Text
  payloadRx : Option (Text → Bool)
  status : Text

structure RulesConfig where
  ignore : List ℤ
  severity : List (Text × Severity)
  defaults : List (Text × Severity)
  ignoreRules : List IgnoreRule

structure Classifier where
  ignoreSet : List ℤ
  severity : List (Text × Severity)
  defaults : List (Text × Severity)
  ignoreRules : List IgnoreRule

/-- The tables of the rules, and `regexp.Compile`. -/
structure Tables where
  owaspCategories : Text → List Text
  /-- By the rule, the method, the endpoint and the evidence. -/
  owaspAPICategories : Text → Text → Text → Text → List Text
  cweIdentifiers : Text → Text → Text → Text → List Text
  compile : Text → Option (Text → Bool)

/-! ### Rules -/

def defaultIgnore : List ℤ := [401, 403, 404, 405, 422, 429]

def defaultDefaults : List (Text × Severity) :=
  [("1xx", "ignore"), ("2xx", "ignore"), ("3xx", "ignore"), ("4xx", "error"), ("5xx", "error"),
    ("timeout", "error"), ("network_error", "error")].map fun e => (ascii e.1, ascii e.2)

def compilePayload (t : Tables) (r : IgnoreRule) : IgnoreRule :=
  if r.payload ≠ [] ∧ r.payloadRx.isNone then { r with payloadRx := t.compile r.payload } else r

/-- `New` -/
def new (t : Tables) : Option RulesConfig → Classifier
  | none => ⟨defaultIgnore, [], defaultDefaults, []⟩
  | some rules =>
    { ignoreSet := defaultIgnore ++ rules.ignore
      severity := rules.severity
      -- those of the user win
      defaults := rules.defaults ++ defaultDefaults
      ignoreRules := rules.ignoreRules.map (compilePayload t) }

def itoa (n : ℤ) : Text := ascii (toString n)

def timedOut (error : Text) : Bool := decide (ascii "timed out" <:+: error)

def RuleIDForResult (r : FuzzResult) : Text :=
  if r.status = 0 then
    if timedOut r.error then ascii "swazz/timeout" else ascii "swazz/network-error"
  else ascii "swazz/status-" ++ itoa r.status

def resolveLevel (c : Classifier) (r : FuzzResult) : Severity :=
  if r.status ∈ c.ignoreSet then SeverityIgnore
  else
    match c.severity.lookup (itoa r.status) with
    | some sev => sev
    | none =>
      let rangeKey :=
        if r.status = 0 then
          if timedOut r.error then ascii "timeout" else ascii "network_error"
        else itoa (r.status.tdiv 100) ++ ascii "xx"
      (c.defaults.lookup rangeKey).getD SeverityError

def Classify (t : Tables) (c : Classifier) (r : FuzzResult) : Option Finding :=
  let level := resolveLevel c r
  if level = SeverityIgnore then none
  else
    let ruleID := RuleIDForResult r
    some
      { id := r.id
        ruleID
        level
        endpoint := r.endpoint
        resolvedPath := r.resolvedPath
        method := r.method
        profile := r.profile
        status := r.status
        duration := r.duration
        payload := r.payload
        responseBody := r.responseBody
        error := r.error
        timestamp := r.timestamp
        source := ascii "status_code"
        owaspCategory := t.owaspCategories ruleID
        owaspAPICategory := t.owaspAPICategories ruleID r.method r.endpoint r.error
        cweIDs := t.cweIdentifiers ruleID r.method r.endpoint r.error }

/-! ### Ignore rules -/

/-- `strconv.Atoi`: digits behind a sign, within 64 bits. -/
def atoi (s : JsString) : Option ℤ :=
  let (negative, digits) :=
    match s with
    | 45 :: digits => (true, digits)
    | 43 :: digits => (false, digits)
    | _ => (false, s)
  if digits ≠ [] ∧ ∀ c ∈ digits, 48 ≤ c ∧ c ≤ 57 then
    let n : ℕ := digits.foldl (fun n c => 10 * n + (c - 48)) 0
    let v : ℤ := if negative then -n else n
    if -2 ^ 63 ≤ v ∧ v < 2 ^ 63 then some v else none
  else none

def statusCodeMatches (findingStatus : ℤ) (ruleStatus : Text) : Bool :=
  let trimmed := License.trim License.goSpace (GoStrings.runes ruleStatus)
  let ruleStatus := trimmed.map GoStrings.lowerRune
  if ruleStatus = [] then true
  else
    match ruleStatus with
    | [d, 120, 120] =>
      if 49 ≤ d ∧ d ≤ 57 then findingStatus.tdiv 100 = ((d - 48 : ℕ) : ℤ) else false
    | _ => atoi ruleStatus = some findingStatus

def payloadText : Value → Option Text
  | .nil => none
  | .bytes s => some s
  | .string s => some s
  | .other text => some text

def payloadMatches (payload : Value) (r : IgnoreRule) : Bool :=
  match payloadText payload with
  | none => false
  | some str =>
    match r.payloadRx with
    | some rx => rx str
    | none => decide (r.payload <:+: str)

/-- Every field of the rule that is not empty matches the finding. -/
def ruleMatches (f : Finding) (r : IgnoreRule) : Bool :=
  (r.ruleID = [] || r.ruleID = f.ruleID) &&
    (r.method = [] || Globs.equalFold (GoStrings.runes r.method) (GoStrings.runes f.method)) &&
    (r.endpoint = [] ||
      Globs.endpointMatches (GoStrings.runes r.endpoint) (GoStrings.runes f.endpoint)) &&
    (r.payload = [] || payloadMatches f.payload r) &&
    (r.status = [] || statusCodeMatches f.status r.status)

def IsIgnored (f : Finding) (rules : List IgnoreRule) : Bool := rules.any (ruleMatches f)

/-! ### Findings of analyzers -/

/-- The union in order. -/
def mergeTaxonomy (primary fallback : List Text) : List Text :=
  if primary = [] then fallback
  else if fallback = [] then primary
  else (primary ++ fallback).foldl (fun out v => if v ∈ out then out else out ++ [v]) []

def sourceOf (ruleID : Text) : Text :=
  if (ascii "swazz/crlf-").isPrefixOf ruleID ∨ (ascii "swazz/header-").isPrefixOf ruleID ∨
      ruleID = ascii "swazz/crlf-injection" then ascii "response_headers"
  else if ruleID = ascii "swazz/no-rate-limit" ∨ ruleID = ascii "swazz/rate-limit-active" then
    ascii "rate_limiting"
  else if ruleID = ascii "swazz/bola-idor" ∨ ruleID = ascii "swazz/unauthorized-access" then
    ascii "access_control"
  else ascii "response_body"

def analyzerFinding (t : Tables) (r : FuzzResult) (af : AnalysisFinding) : Finding :=
  { id := r.id
    ruleID := af.ruleID
    level := af.level
    endpoint := r.endpoint
    resolvedPath := r.resolvedPath
    method := r.method
    profile := r.profile
    status := r.status
    duration := r.duration
    payload := r.payload
    responseBody := r.responseBody
    error := af.evidence
    timestamp := r.timestamp
    source := sourceOf af.ruleID
    owaspCategory := mergeTaxonomy af.owaspCategory (t.owaspCategories af.ruleID)
    owaspAPICategory := mergeTaxonomy af.owaspAPICategory
      (t.owaspAPICategories af.ruleID r.method r.endpoint af.evidence)
    cweIDs := mergeTaxonomy af.cweIDs (t.cweIdentifiers af.ruleID r.method r.endpoint af.evidence) }

/-! ### The collector -/

def maxFindingsPerDefect : ℕ := 5
def maxFindingBodyBytes : ℕ := 50000

structure DefectKey where
  rule : Text
  method : Text
  endpoint : Text
  deriving DecidableEq

structure Collector where
  defectCounts : DefectKey → ℕ
  findings : List Finding

def newCollector : Collector := ⟨fun _ => 0, []⟩

def Collector.full (col : Collector) (rule method endpoint : Text) : Bool :=
  col.defectCounts ⟨rule, method, endpoint⟩ ≥ maxFindingsPerDefect

/-- The cut of a huge response body. -/
def cutBody (f : Finding) : Finding :=
  match f.responseBody with
  | .string body =>
    if body.length > maxFindingBodyBytes then
      { f with responseBody :=
          .string (body.take maxFindingBodyBytes ++ ascii "\n... [TRUNCATED BY SWAZZ]") }
    else f
  | _ => f

def Collector.keep (col : Collector) (f : Finding) : Collector :=
  let f := cutBody f
  let key : DefectKey := ⟨f.ruleID, f.method, f.endpoint⟩
  ⟨Function.update col.defectCounts key (col.defectCounts key + 1), col.findings ++ [f]⟩

def Collector.addStatus (t : Tables) (c : Classifier) (col : Collector) (r : FuzzResult) :
    Collector :=
  if col.full (RuleIDForResult r) r.method r.endpoint then col
  else
    match Classify t c r with
    | some sf => if IsIgnored sf c.ignoreRules then col else col.keep sf
    | none => col

def Collector.addAnalyzer (t : Tables) (c : Classifier) (r : FuzzResult) (col : Collector)
    (af : AnalysisFinding) : Collector :=
  if col.full af.ruleID r.method r.endpoint then col
  else
    let f := analyzerFinding t r af
    if IsIgnored f c.ignoreRules then col else col.keep f

def Collector.add (t : Tables) (c : Classifier) (col : Collector) (r : FuzzResult) : Collector :=
  r.analyzerFindings.foldl (Collector.addAnalyzer t c r) (col.addStatus t c r)

def ClassifyAll (t : Tables) (c : Classifier) (results : List FuzzResult) : List Finding :=
  (results.foldl (Collector.add t c) newCollector).findings

end Swazz.Classifying
