import Mathlib.Algebra.Group.Int.Defs
import Mathlib.Data.List.Basic
import Mathlib.Data.List.Infix
import Mathlib.Logic.Function.Basic
import Swazz.DeliveryTracker
import Swazz.PairMap
import Swazz.ScanRows

/-! `processFindingsQueueMessages`: a batch of runner events is turned into statements,
which D1 runs in order, all or none. Ids the code generates are left open, and so are the
functions that only produce stored text. -/
namespace Swazz.Findings

open Delivery (isValidSeq isValidExec)

def MAX_FINDINGS_PER_EVENT : ℕ := 1000

def MAX_OOB_TOKENS_PER_EVENT : ℕ := 100

def OOB_FIELD_LIMIT : ℕ := 256

def FINDING_TEXT_LIMIT : ℕ := 64*1024

def EVENT_ID_LOOKUP_CHUNK : ℕ := 90

def UNKNOWN_FAILURE : String := "The scan failed without an error message."

/-- Text functions whose results are only stored: `runnerErrorText`, `String`, the cut of a
string to UTF-16 length, and `JSON.stringify`. -/
structure TextFns where
  runnerErrorText : Option Json → String
  string : Json → String
  slice : String → ℕ → String
  stringify : Json → String

/-- A queue message's body. A `type` or `exec` that is no string and a `seq` that is no
natural number count as absent. -/
structure Body where
  scanId : String
  type : Option String
  payload : Option Json
  exec : Option String
  seq : Option ℕ

/-- A sequenced event's place in its runner's stream. -/
structure EventOrder where
  exec : String
  seq : ℕ
  deriving DecidableEq

inductive ProgressKind where
  | progress
  | fuzzProgress
  deriving DecidableEq

def Body.eventType (body : Body) : String :=
  match body.type with
  | some type => if type.isEmpty then "event" else type
  | none => "event"

def Body.payloadField (body : Body) (name : String) : Option Json :=
  body.payload.bind fun p => p.field name

def startsWith (s pre : String) : Bool := pre.toList.isPrefixOf s.toList

def includes (s part : String) : Bool := decide (part.toList <:+: s.toList)

def isCoalescedProgressEvent (body : Body) : Option ProgressKind :=
  if body.eventType ≠ "event" then none
  else if Json.isStr (body.payloadField "type") "progress" then some .progress
  else if Json.isStr (body.payloadField "type") "runner_log" then
    match (body.payloadField "data").bind fun d => d.field "message" with
    | some (.str msg) =>
      if startsWith msg "[Fuzz Progress]" ||
          (startsWith msg "\x7b" && includes msg "\"totalRequests\"") then
        some .fuzzProgress
      else none
    | _ => none
  else none

def eventOrder (body : Body) : Option EventOrder :=
  match body.exec, body.seq with
  | some exec, some seq => if isValidExec exec && isValidSeq seq then some ⟨exec, seq⟩ else none
  | _, _ => none

def supersedes (next kept : Option EventOrder) : Bool :=
  match next, kept with
  | some n, some k => decide (n.exec ≠ k.exec) || decide (k.seq < n.seq)
  | _, _ => true

def eventIdFor (runId exec : String) (seq : ℕ) : String :=
  "ev:" ++ runId ++ ":" ++ exec ++ ":" ++ toString seq

/-- The stable `scan_events` id of a sequenced runner event that is not coalesced. -/
def storedEventId (body : Body) : Option String :=
  if (isCoalescedProgressEvent body).isSome then none
  else if body.scanId.isEmpty then none
  else (eventOrder body).map fun o => eventIdFor body.scanId o.exec o.seq

structure Finding where
  id : Option String
  ruleId : String
  level : String
  message : String
  evidence : Option String
  deriving DecidableEq

/-- A `scan_events` payload: a string as it came, or the text of a value. -/
inductive Payload where
  | raw (s : String)
  | json (j : Json)

structure EventRow where
  id : Option String
  scanId : String
  type : String
  payload : Payload

/-- The row with the id `scanId:kind`. -/
structure ProgressRow where
  type : String
  payload : Json

structure FindingRow where
  scanId : String
  finding : Finding
  deriving DecidableEq

/-- What the loop looks up of a scan. -/
structure ProjInfo where
  projectId : String
  targetUrl : String
  profile : String
  deriving DecidableEq

structure Scan extends ProjInfo where
  status : ScanStatus
  summaryStats : Option Json
  lastCheckpoint : Option Json
  failureReason : Option String

/-- The tables, timestamps left out. A generated id is `none`. The coalesced rows of
`scan_events` are apart, keyed by what their ids are made of. -/
structure Db where
  scans : String → Option Scan
  events : List EventRow
  progress : String → ProgressKind → Option ProgressRow
  findings : List FindingRow

structure Webhook where
  projectId : String
  eventType : String
  scanId : String
  status : ScanStatus
  targetUrl : String
  profile : String
  summaryStats : Option Json

inductive Statement where
  | upsertProgress (scanId : String) (kind : ProgressKind) (row : ProgressRow)
  | insertEvent (row : EventRow)
  | complete (scanId : String) (stats : Json)
  | checkpoint (scanId : String) (data : Json)
  | fail (scanId : String) (reason : String)
  | insertFinding (row : FindingRow)

inductive SqlValue where
  | number (mantissa : ℤ) (exponent : ℕ)
  | text (s : String)

namespace SqlValue

def same : SqlValue → SqlValue → Bool
  | .number m e, .number n f => decide (m*10^f = n*10^e)
  | .text s, .text t => s == t
  | _, _ => false

/-- SQLite's order: numbers come before text. -/
def gt : SqlValue → SqlValue → Bool
  | .number m e, .number n f => decide (n*10^e < m*10^f)
  | .text s, .text t => decide (t < s)
  | .text _, .number _ _ => true
  | .number _ _, .text _ => false

end SqlValue

variable (T : TextFns)

/-- `json_extract(payload, '$.name')`; `none` is NULL. -/
def jsonExtract (payload : Json) (name : String) : Option SqlValue :=
  match payload.field name with
  | none | some .null => none
  | some (.bool b) => some (.number (if b then 1 else 0) 0)
  | some (.num m e) => some (.number m e)
  | some (.str s) => some (.text s)
  | some j => some (.text (T.stringify j))

/-- The upsert's WHERE clause. -/
def replaces (excluded stored : Json) : Bool :=
  match jsonExtract T excluded "_seq", jsonExtract T stored "_seq" with
  | some new, some old =>
    new.gt old ||
      match jsonExtract T excluded "_exec", jsonExtract T stored "_exec" with
      | some newExec, some oldExec => !newExec.same oldExec
      | none, none => false
      | _, _ => true
  | _, _ => true

namespace Db

/-- The scans the messages name are looked up; an empty id is not. -/
def scanToProject (db : Db) (scanId : String) : Option ProjInfo :=
  if scanId.isEmpty then none else (db.scans scanId).map Scan.toProjInfo

def hasEvent (db : Db) (id : String) : Bool := db.events.any fun r => r.id == some id

def hasFinding (db : Db) (id : String) : Bool := db.findings.any fun r => r.finding.id == some id

/-- Update the scan, if it has not ended. -/
def endScan (db : Db) (scanId : String) (f : Scan → Scan) : Db × ℕ :=
  match db.scans scanId with
  | some scan =>
    if scan.status.active then
      ({ db with scans := Function.update db.scans scanId (some (f scan)) }, 1)
    else (db, 0)
  | none => (db, 0)

/-- Run a statement; the rows it changed are counted. -/
def exec (db : Db) : Statement → Db × ℕ
  | .upsertProgress scanId kind row =>
    if (db.scans scanId).isSome &&
        (db.progress scanId kind).all fun stored => replaces T row.payload stored.payload then
      ({ db with progress := PairMap.put db.progress scanId kind row }, 1)
    else (db, 0)
  | .insertEvent row =>
    if (db.scans row.scanId).isSome && !row.id.any db.hasEvent then
      ({ db with events := db.events ++ [row] }, 1)
    else (db, 0)
  | .complete scanId stats =>
    db.endScan scanId fun s => { s with status := .completed, summaryStats := some stats }
  | .checkpoint scanId data =>
    match db.scans scanId with
    | some scan =>
      ({ db with
        scans := Function.update db.scans scanId
          (some { scan with lastCheckpoint := some data }) }, 1)
    | none => (db, 0)
  | .fail scanId reason =>
    db.endScan scanId fun s => { s with status := .failed, failureReason := some reason }
  | .insertFinding row =>
    if (db.scans row.scanId).isSome && !row.finding.id.any db.hasFinding then
      ({ db with findings := db.findings ++ [row] }, 1)
    else (db, 0)

/-- `db.batch`, with the change counts. -/
def batch (db : Db) : List Statement → Db × List ℕ
  | [] => (db, [])
  | s :: rest =>
    let (next, changes) := db.exec T s
    let (last, results) := batch next rest
    (last, changes :: results)

/-- The ids among `ids` that are stored, looked up chunk by chunk. -/
def lookupStored (db : Db) : ℕ → List String → List String
  | 0, _ => []
  | fuel+1, ids =>
    (ids.take EVENT_ID_LOOKUP_CHUNK).filter db.hasEvent ++
      db.lookupStored fuel (ids.drop EVENT_ID_LOOKUP_CHUNK)

end Db

/-- `text` in `sanitizeRunnerFinding`. -/
def text (v : Option Json) (max : ℕ) : String :=
  match v with
  | none | some .null => T.slice "" max
  | some (.str s) => T.slice s max
  | some j => T.slice (T.string j) max

def sanitizeRunnerFinding (raw : Json) : Option Finding :=
  match raw with
  | .obj _ =>
    let ruleId := text T (raw.field "ruleId") 256
    if ruleId.isEmpty then none
    else some {
      id := match raw.field "id" with
        | some (.str id) => if matchesId 64 id && decide (8 ≤ id.length) then some id else none
        | _ => none
      ruleId := ruleId
      level := text T (raw.field "level") 32
      message := text T (raw.field "message") FINDING_TEXT_LIMIT
      evidence := match raw.field "evidence" with
        | none | some .null => none
        | some (.str "") => none
        | some e => some (text T (some e) FINDING_TEXT_LIMIT) }
  | _ => none

/-- How many of the handed-over tokens `sanitizeOobPending` keeps. -/
def oobPendingCount (data : Option Json) : ℕ :=
  match data.bind fun d => d.field "tokens" with
  | some (.arr tokens) =>
    ((tokens.take MAX_OOB_TOKENS_PER_EVENT).filter fun t =>
      match t.field "uuid" with
      | some (.str uuid) => isValidId uuid
      | _ => false).length
  | _ => 0

/-- What `scan_events` keeps of an event's payload. -/
def payloadStr (body : Body) : Payload :=
  if Json.isStr (body.payloadField "type") "oob_pending" then
    .json (.obj [("type", .str "oob_pending"),
      ("data", .obj [("count", .num (oobPendingCount (body.payloadField "data")) 0)])])
  else if body.eventType == "event" &&
      ["result", "checkpoint", "complete"].any (Json.isStr (body.payloadField "type")) then
    .json (.obj [("type", (body.payloadField "type").getD .null)])
  else
    match body.payload with
    | some (.str s) => .raw s
    | some j => .json j
    | none => .raw "null"

/-- The coalesced row an event asks for. -/
def coalescedRow (body : Body) (kind : ProgressKind) : ProgressRow :=
  let base := match kind, body.payload with
    | .fuzzProgress, some (.obj fields) => fields
    | _, _ => [("type", .str "progress")]
  { type := body.eventType
    payload := match eventOrder body with
      | some order =>
        .obj (Json.setField "_seq" (.num order.seq 0)
          (Json.setField "_exec" (.str order.exec) base))
      | none => .obj base }

/-- The statement on the scan's own row an event leads to. -/
inductive ScanUpdate where
  | none
  | sets (statement : Statement)
  | ends (statement : Statement) (webhook : Option Webhook)
  | unbindable

def webhookOf (body : Body) (projInfo : ProjInfo) (eventType : String) (status : ScanStatus)
    (stats : Option Json) : Option Webhook :=
  if projInfo.projectId.isEmpty then none
  else some {
    projectId := projInfo.projectId, eventType := eventType, scanId := body.scanId,
    status := status, targetUrl := projInfo.targetUrl, profile := projInfo.profile,
    summaryStats := stats }

/-- A checkpoint without data cannot be bound to its statement, which throws. -/
def scanUpdate (body : Body) (projInfo : ProjInfo) : ScanUpdate :=
  if Json.isStr (body.payloadField "type") "complete" then
    let stats := ((body.payloadField "data").filter Json.truthy).getD (.obj [])
    .ends (.complete body.scanId stats)
      (webhookOf body projInfo "scan.completed" .completed (some stats))
  else if Json.isStr (body.payloadField "type") "checkpoint" then
    match body.payloadField "data" with
    | some data => .sets (.checkpoint body.scanId data)
    | none => .unbindable
  else if body.type == some "error" || Json.isStr (body.payloadField "type") "error" then
    let text := T.runnerErrorText body.payload
    .ends (.fail body.scanId (if text.isEmpty then UNKNOWN_FAILURE else text))
      (webhookOf body projInfo "scan.failed" .failed none)
  else .none

/-- The findings of a result event. -/
def analyzerFindings (body : Body) : List Finding :=
  if Json.isStr (body.payloadField "type") "result" then
    match (body.payloadField "data").bind fun d => d.field "analyzerFindings" with
    | some (.arr findings) =>
      (findings.take MAX_FINDINGS_PER_EVENT).filterMap (sanitizeRunnerFinding T)
    | _ => []
  else []

structure TerminalUpdate where
  statement : ℕ
  scanId : String
  webhook : Option Webhook

structure Kept where
  index : ℕ
  order : Option EventOrder

/-- The loop's local state. -/
structure Prepared where
  statements : List Statement
  terminalUpdates : List TerminalUpdate
  seenInBatch : List String
  droppedForMissingScan : List String
  coalescedInBatch : String → ProgressKind → Option Kept

def Prepared.init : Prepared where
  statements := []
  terminalUpdates := []
  seenInBatch := []
  droppedForMissingScan := []
  coalescedInBatch := fun _ _ => none

namespace Prepared

def push (p : Prepared) (statements : List Statement) : Prepared :=
  { p with statements := p.statements ++ statements }

/-- A coalesced event takes the place of the one kept before it, if it supersedes it. -/
def coalesce (p : Prepared) (body : Body) (kind : ProgressKind) : Prepared :=
  let order := eventOrder body
  let stmt := Statement.upsertProgress body.scanId kind (coalescedRow body kind)
  let keep (index : ℕ) := PairMap.put p.coalescedInBatch body.scanId kind ⟨index, order⟩
  match p.coalescedInBatch body.scanId kind with
  | none => { p.push [stmt] with coalescedInBatch := keep p.statements.length }
  | some kept =>
    if supersedes order kept.order then
      { p with statements := p.statements.set kept.index stmt, coalescedInBatch := keep kept.index }
    else p

/-- Every other event: its row, what it does to its scan, and its findings. -/
def store (p : Prepared) (id : Option String) (body : Body) (projInfo : ProjInfo) :
    Option Prepared :=
  let findings := (analyzerFindings T body).map fun f =>
    Statement.insertFinding ⟨body.scanId, f⟩
  let p := p.push [.insertEvent ⟨id, body.scanId, body.eventType, payloadStr body⟩]
  match scanUpdate T body projInfo with
  | .none => some (p.push findings)
  | .sets stmt => some ((p.push [stmt]).push findings)
  | .ends stmt webhook => some
      { (p.push [stmt]).push findings with
        terminalUpdates := p.terminalUpdates ++ [⟨p.statements.length, body.scanId, webhook⟩] }
  | .unbindable => none

/-- One round of the loop over the messages. -/
def addMessage (scanToProject : String → Option ProjInfo) (alreadyStored : List String)
    (p : Prepared) (body : Body) : Option Prepared :=
  let id := storedEventId body
  if id.any fun i => alreadyStored.contains i || p.seenInBatch.contains i then some p
  else
    let p := { p with seenInBatch := p.seenInBatch ++ id.toList }
    match scanToProject body.scanId with
    | none => some { p with droppedForMissingScan := p.droppedForMissingScan ++ [body.scanId] }
    | some projInfo =>
      match isCoalescedProgressEvent body with
      | some kind => some (p.coalesce body kind)
      | none => p.store T id body projInfo

end Prepared

/-- The rows after a batch, the scans it ended and the webhooks it fires. -/
structure Processed where
  db : Db
  ended : List String
  webhooks : List Webhook

/-- The terminal updates that changed a row. -/
def applied (updates : List TerminalUpdate) (results : List ℕ) : List TerminalUpdate :=
  updates.filter fun u => results[u.statement]? ≠ some 0

/-- Run the statements, and see which of the terminal updates changed a row. -/
def Prepared.finish (p : Prepared) (db : Db) : Processed :=
  let (after, results) := db.batch T p.statements
  let ended := applied p.terminalUpdates results
  ⟨after, ended.map TerminalUpdate.scanId, ended.filterMap TerminalUpdate.webhook⟩

/-- `none` when the batch throws. -/
def processFindingsQueueMessages (db : Db) (messages : List Body) : Option Processed :=
  let stableIds := (messages.filterMap storedEventId).eraseDups
  let alreadyStored := db.lookupStored stableIds.length stableIds
  (messages.foldlM (Prepared.addMessage T db.scanToProject alreadyStored)
    Prepared.init).map fun p => p.finish T db

/-- What was done, and then more. -/
def Processed.andThen (first last : Processed) : Processed :=
  ⟨last.db, first.ended ++ last.ended, first.webhooks ++ last.webhooks⟩

/-- Batches processed one after the other. -/
def processBatches (db : Db) (batches : List (List Body)) : Option Processed :=
  batches.foldlM (fun done messages =>
    (processFindingsQueueMessages T done.db messages).map done.andThen) ⟨db, [], []⟩

end Swazz.Findings
