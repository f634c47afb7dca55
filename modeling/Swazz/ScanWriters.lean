import Swazz.FindingsQueue
import Swazz.ProjectDeletion

/-! The calls that write or delete rows of a scan: the queue of runner events, the tokens of
out-of-band callbacks, and the deletions. A request whose call fails stops there, as one that
is never run on does; a deletion whose last batch fails says so. -/
namespace Swazz.ScanWriters

open AtomicCalls
open Findings (Body EventRow Finding FindingRow Prepared ProgressKind ProjInfo Scan Statement
  TextFns storedEventId)
open ProjectDeletion (Deletion)
open ScanDeletion (ChildTable Where purgeScanChildren)

def MAX_OOB_TOKENS_PER_SCAN : ℕ := 2000

def OOB_PENDING_SECONDS : ℕ := 7 * 24 * 60 * 60

/-- A token that a run hands over. -/
structure OobToken where
  token : String
  endpoint : String
  payload : String

structure OobRow where
  scanId : String
  token : String
  endpoint : Option String
  payload : Option String
  createdAt : ℕ

/-- `rows` has the scans, their events and their findings. -/
structure Db where
  rows : Findings.Db
  scanUser : String → Option String
  oobPending : List OobRow
  projects : List String
  users : List String
  now : ℕ

/-- Which rows a statement with a `LIMIT` takes is left open, and so is how many it counts. -/
structure Limited where
  event : Db → EventRow → Bool
  progress : Db → String → ProgressKind → Bool
  finding : Db → FindingRow → Bool
  oob : Db → OobRow → Bool
  changes : Db → ChildTable → ℕ

namespace Db

def hasScan (db : Db) (scanId : String) : Bool := (db.rows.scans scanId).isSome

def scanMatches (db : Db) (w : Where) (scanId : String) : Bool :=
  (db.rows.scans scanId).any fun s => w.matches (db.scanUser scanId) (some s.projectId)

/-- A row is on this token of the scan. -/
def isOn (scanId token : String) (row : OobRow) : Bool :=
  row.scanId == scanId && row.token == token

def insertToken (db : Db) (scanId : String) (t : OobToken) : Db :=
  if db.oobPending.any (isOn scanId t.token) then db
  else { db with
    oobPending := db.oobPending ++
      [⟨scanId, t.token, some t.endpoint, some t.payload, db.now⟩] }

/-- The statement selects no more tokens than the scan has room for, stored ones included. -/
def storeOobPending (db : Db) (scanId : String) (tokens : List OobToken) : Db :=
  if db.hasScan scanId then
    let stored := (db.oobPending.filter fun row => row.scanId == scanId).length
    (tokens.take (MAX_OOB_TOKENS_PER_SCAN - stored)).foldl (fun db t => db.insertToken scanId t) db
  else db

def pendingToken (db : Db) (scanId token : String) : Bool :=
  db.hasScan scanId && db.oobPending.any fun row =>
    isOn scanId token row && decide (db.now < row.createdAt + OOB_PENDING_SECONDS)

/-- `COALESCE(NULLIF(endpoint, ''), 'an unknown endpoint')` -/
def endpointText (row : OobRow) : String :=
  (row.endpoint.filter fun e => !e.isEmpty).getD "an unknown endpoint"

def lateFinding (row : OobRow) : FindingRow where
  scanId := row.scanId
  finding := {
    id := some ("oob-" ++ row.scanId ++ "-" ++ row.token)
    ruleId := "swazz/oob-interaction"
    level := "error"
    message := "Out-of-Band (OOB) Interaction detected after the scan ended: the target " ++
      "application initiated an external connection in response to the payload sent to " ++
      endpointText row ++ ": " ++ row.payload.getD ""
    evidence := some ("Late callback triggered with token/UUID: " ++ row.token) }

def insertFinding (rows : Findings.Db) (row : FindingRow) : Findings.Db :=
  if row.finding.id.any rows.hasFinding then rows
  else { rows with findings := rows.findings ++ [row] }

/-- The batch of `recordLateOobCallback`. -/
def recordLate (db : Db) (scanId token : String) : Db :=
  { db with
    rows := ((db.oobPending.filter (isOn scanId token)).map lateFinding).foldl insertFinding db.rows
    oobPending := db.oobPending.filter fun row => !isOn scanId token row }

/-- A statement of `purgeScanChildren`. -/
def purgeChunk (L : Limited) (db : Db) (w : Where) : ChildTable → Db
  | .findings => { db with
      rows := { db.rows with
        findings := db.rows.findings.filter fun r =>
          !(db.scanMatches w r.scanId && L.finding db r) } }
  | .scanEvents => { db with
      rows := { db.rows with
        events := db.rows.events.filter fun r => !(db.scanMatches w r.scanId && L.event db r)
        progress := fun id kind =>
          if db.scanMatches w id && L.progress db id kind then none
          else db.rows.progress id kind } }
  | .oobPending => { db with
      oobPending := db.oobPending.filter fun r => !(db.scanMatches w r.scanId && L.oob db r) }

/-- Children first, while the scans they belong to can still be found. -/
def deleteScansWhere (db : Db) (w : Where) : Db :=
  { db with
    rows := {
      findings := db.rows.findings.filter fun r => !db.scanMatches w r.scanId
      events := db.rows.events.filter fun r => !db.scanMatches w r.scanId
      progress := fun id kind => if db.scanMatches w id then none else db.rows.progress id kind
      scans := fun id => if db.scanMatches w id then none else db.rows.scans id }
    oobPending := db.oobPending.filter fun r => !db.scanMatches w r.scanId }

/-- The last batch of a deletion. -/
def deleteRows (db : Db) (d : Deletion) : Db :=
  { db.deleteScansWhere ⟨d.users, d.projects⟩ with
    projects := db.projects.filter fun p => !d.projects.contains p
    users := db.users.filter fun u => !d.users.contains u }

end Db

inductive Op where
  | lookupScans
  | storedIds (ids : List String)
  | batch (statements : List Statement)
  | storeOobPending (scanId : String) (tokens : List OobToken)
  | pendingToken (scanId token : String)
  | recordLate (scanId token : String)
  | purgeChunk (table : ChildTable) (w : Where)
  | deleteRows (d : Deletion)

@[reducible] def Answer : Op → Type
  | .lookupScans => String → Option ProjInfo
  | .storedIds _ => List String
  | .batch _ => List ℕ
  | .pendingToken .. => Bool
  | .purgeChunk .. => ℕ
  | _ => Unit

def exec (T : TextFns) (L : Limited) (db : Db) : (op : Op) → Answer op × Db
  | .lookupScans => (db.rows.scanToProject, db)
  | .storedIds ids => (ids.filter db.rows.hasEvent, db)
  | .batch statements =>
    ((db.rows.batch T statements).2, { db with rows := (db.rows.batch T statements).1 })
  | .storeOobPending scanId tokens => ((), db.storeOobPending scanId tokens)
  | .pendingToken scanId token => (db.pendingToken scanId token, db)
  | .recordLate scanId token => ((), db.recordLate scanId token)
  | .purgeChunk table w => (L.changes db table, db.purgeChunk L w table)
  | .deleteRows d => ((), db.deleteRows d)

def perform (op : Op) : Calls Answer (Answer op) := Calls.perform op

/-- How a request ended. -/
inductive Outcome where
  | done
  | failed
  | found (token : Bool)
  | ended (scanIds : List String)
  deriving DecidableEq

/-- The loop that looks up the stored ids. -/
def lookupStored : ℕ → List String → Calls Answer (List String)
  | 0, _ => .ret []
  | fuel+1, ids =>
    if ids.isEmpty then .ret []
    else (perform (.storedIds (ids.take Findings.EVENT_ID_LOOKUP_CHUNK))).bind fun found =>
      (lookupStored fuel (ids.drop Findings.EVENT_ID_LOOKUP_CHUNK)).bind fun rest =>
        .ret (found ++ rest)

def lookupScans (messages : List Body) : Calls Answer (String → Option ProjInfo) :=
  if messages.all fun m => m.scanId.isEmpty then .ret fun _ => none else perform .lookupScans

/-- `processFindingsQueueMessages` from the prepared statements on. -/
def runPrepared (p : Prepared) : Calls Answer Outcome :=
  if p.statements.isEmpty then .ret (.ended [])
  else (perform (.batch p.statements)).bind fun results =>
    .ret (.ended ((Findings.applied p.terminalUpdates results).map fun u => u.scanId))

/-- The statements are prepared from what the lookups found, while others write. -/
def processFindingsQueueMessages (T : TextFns) (messages : List Body) : Calls Answer Outcome :=
  (lookupScans messages).bind fun scanToProject =>
    let stableIds := (messages.filterMap storedEventId).eraseDups
    (lookupStored stableIds.length stableIds).bind fun alreadyStored =>
      match messages.foldlM (Prepared.addMessage T scanToProject alreadyStored) Prepared.init with
      | none => .ret .failed
      | some p => runPrepared p

def storeOobPending (scanId : String) (tokens : List OobToken) : Calls Answer Outcome :=
  if tokens.isEmpty then .ret .done
  else (perform (.storeOobPending scanId tokens)).bind fun _ => .ret .done

def recordLateOobCallback (scanId token : String) : Calls Answer Outcome :=
  (perform (.pendingToken scanId token)).bind fun pending =>
    if pending then (perform (.recordLate scanId token)).bind fun _ => .ret (.found true)
    else .ret (.found false)

/-- The last batch goes through or fails. -/
def deleteLast (d : Deletion) : Calls Answer Outcome :=
  .choose fun ok =>
    if ok then (perform (.deleteRows d)).bind fun _ => .ret .done else .ret .failed

def delete (d : Deletion) : Calls Answer Outcome :=
  match d with
  | .deleteUsersData [] _ => .ret .done
  | _ => (purgeScanChildren fun table =>
      perform (.purgeChunk table ⟨d.users, d.projects⟩)).bind fun _ => deleteLast d

inductive Request where
  | delete (d : Deletion)
  | processFindingsQueueMessages (messages : List Body)
  | storeOobPending (scanId : String) (tokens : List OobToken)
  | recordLateOobCallback (scanId token : String)

def serve (T : TextFns) : Request → Calls Answer Outcome
  | .delete d => delete d
  | .processFindingsQueueMessages messages => processFindingsQueueMessages T messages
  | .storeOobPending scanId tokens => storeOobPending scanId tokens
  | .recordLateOobCallback scanId token => recordLateOobCallback scanId token

/-- Time passes, and scans are started. -/
inductive Event where
  | elapse (seconds : ℕ)
  | insertScan (scanId : String) (userId : Option String) (scan : Scan)

def happen (db : Db) : Event → Db
  | .elapse seconds => { db with now := db.now + seconds }
  | .insertScan scanId userId scan =>
    if db.hasScan scanId then db
    else { db with
      rows := { db.rows with scans := Function.update db.rows.scans scanId (some scan) }
      scanUser := Function.update db.scanUser scanId userId }

/-- Any number of these requests at once. -/
def writers (T : TextFns) (L : Limited) : System Answer Db Request Event Outcome where
  exec _ _ op db := exec T L db op
  body := serve T
  world e db := happen db e

end Swazz.ScanWriters
