import Mathlib.Data.List.Basic
import Mathlib.Logic.Function.Basic
import Swazz.FindingsQueue

/-! What the coordinator keeps of its runners: connections with their attachments, the
in-memory maps of `StateManager`, its storage, and the scans' rows in D1. -/
namespace Swazz.Runners

open Findings (Db Scan)

def MAX_ACTIVE_JOBS_PER_RUNNER : ℕ := 10

def MAX_RECENT_JOBS : ℕ := 20

def MAX_FINISHED_SCANS : ℕ := 200

/-- The tags a connection is accepted with. A keyed runner is `pending` until it has
proven its key. -/
structure Tags where
  pending : Bool
  shared : Bool
  userId : Option String
  deriving DecidableEq

inductive Identity where
  | shared
  | user (id : String)
  deriving DecidableEq

def runnerIdentity (tags : Tags) : Option Identity :=
  if tags.shared then some .shared else tags.userId.map .user

structure Attachment where
  authenticated : Bool
  heartbeat : Bool
  resume : List String
  activeJobs : List String
  recentJobs : List String
  deriving DecidableEq

/-- A runner connection. `connected` while `getWebSockets` returns it; `closed` once the
coordinator closed it. -/
structure Socket where
  tags : Tags
  attachment : Attachment
  connected : Bool
  closed : Bool
  deriving DecidableEq

/-- `l.push(x)` and `shift()` while longer than `max`. -/
def pushBounded (max : ℕ) (l : List String) (x : String) : List String :=
  (l ++ [x]).drop ((l ++ [x]).length - max)

/-- A scan as `getActiveScans` returns it. -/
structure ActiveScan where
  id : String
  status : ScanStatus
  projectId : String

/-- The local state of `resumeRuns` in its loop; `rest` is still to be decided. -/
structure Resume where
  ws : ℕ
  rest : List String
  owned : List String
  finished : List String
  attachment : Attachment
  activeJobs : List String
  recentJobs : List String
  accepted : List String

/-- The local state of `dispatchPass` at a scan of its list. -/
structure Pass where
  ws : ℕ
  finished : List String
  recent : List String
  scan : ActiveScan
  rest : List ActiveScan

/-- A handler at an await, named for what it does next. -/
inductive Handler where
  | verify (ws : ℕ)
  | resumeOwners (ws : ℕ) (requested : List String)
  | resumeFinished (ws : ℕ) (requested owned : List String)
  | resumeStatus (loop : Resume)
  | resumeTake (loop : Resume) (status : Option ScanStatus)
  | resumeForget (loop : Resume)
  | resumeWrite (loop : Resume)
  | afterResume (ws : ℕ)
  | passActive (ws : ℕ)
  | passStored (ws : ℕ) (scans : List ActiveScan)
  | passScan (pass : Pass)
  | passConfig (pass : Pass)
  | passFail (pass : Pass)
  | passFinished (pass : Pass)
  | passHand (pass : Pass) (latestFinished : List String)
  | passRecord (pass : Pass)
  | passMark (pass : Pass)
  | dispatchStatus (runId : String)
  | dispatchHand (runId : String) (status : Option ScanStatus)
  | dispatchRecord (runId : String) (ws : ℕ)
  | consumerMark (runId : String)
  | startRecord (runId : String) (ws : ℕ)
  | eventCleanup (ws : ℕ) (runId : String)
  | eventFinished (ws : ℕ) (runId : String)
  | stopStatus (runId : String)
  | stopMark (runId reason : String)
  | stopForget (runId : String)
  | watchList (owned : String → Bool)
  | watchScan (candidates : List ActiveScan)
  | watchStatus (runner : Option ℕ) (runId : String) (rest : List ActiveScan)
  | watchEnd (runner : Option ℕ) (runId : String) (rest : List ActiveScan)
  | watchForget (runner : Option ℕ) (runId : String) (rest : List ActiveScan)
  | watchStop (runner : Option ℕ) (runId : String) (rest : List ActiveScan)

/-- The pass of `checkAndDispatchQueuedScans(ws)` a handler belongs to. -/
def Handler.passOf : Handler → Option ℕ
  | .passActive ws | .passStored ws _ => some ws
  | .passScan pass | .passConfig pass | .passFail pass | .passFinished pass
  | .passHand pass _ | .passRecord pass | .passMark pass => some pass.ws
  | _ => none

/-- The coordinator with D1. `lastOwner` is the connection each run was given to last, and
`handedOut` lists the `job_dispatch` messages sent. -/
structure State where
  accepted : ℕ
  socket : ℕ → Socket
  runners : List ℕ
  pendingChallenges : List ℕ
  jobs : String → Option ℕ
  lastOwner : String → Option ℕ
  pendingRerun : List ℕ
  finishedRuns : List String
  jobRunner : String → Option Identity
  db : Db
  handlers : List Handler
  handedOut : List (String × ℕ)

namespace State

def attachment (s : State) (ws : ℕ) : Attachment := (s.socket ws).attachment

def activeJobs (s : State) (ws : ℕ) : List String := (s.attachment ws).activeJobs

/-- `ws.serializeAttachment(attachment)` -/
def serializeAttachment (s : State) (ws : ℕ) (attachment : Attachment) : State :=
  { s with socket := Function.update s.socket ws { s.socket ws with attachment := attachment } }

def close (s : State) (ws : ℕ) : State :=
  { s with socket := Function.update s.socket ws { s.socket ws with closed := true } }

def spawn (s : State) (h : Handler) : State := { s with handlers := s.handlers ++ [h] }

def jobsSet (s : State) (runId : String) (ws : ℕ) : State :=
  { s with
    jobs := Function.update s.jobs runId (some ws)
    lastOwner := Function.update s.lastOwner runId (some ws) }

def jobsDelete (s : State) (runId : String) : State :=
  { s with jobs := Function.update s.jobs runId none }

def addRunner (s : State) (ws : ℕ) : State :=
  { s with runners := if ws ∈ s.runners then s.runners else s.runners ++ [ws] }

def runnersDelete (s : State) (ws : ℕ) : State :=
  { s with runners := s.runners.filter (· ≠ ws) }

/-- The connection leaves the runner set, and the runs it is named for are released. -/
def dropRunner (s : State) (ws : ℕ) : State :=
  { s.runnersDelete ws with
    pendingChallenges := s.pendingChallenges.filter (· ≠ ws)
    jobs := fun runId => (s.jobs runId).filter (· ≠ ws) }

/-- `acceptWebSocket`, with the first attachment. -/
def accept (s : State) (tags : Tags) (heartbeat : Bool) (resume : List String) : State :=
  { s with
    accepted := s.accepted+1
    socket := Function.update s.socket s.accepted {
      tags := tags
      attachment := {
        authenticated := !tags.pending, heartbeat := heartbeat
        resume := if tags.pending then resume else []
        activeJobs := [], recentJobs := [] }
      connected := true
      closed := false } }

/-- `pruneDeadRunners`, where the heartbeats of `expired` are overdue. -/
def pruneDeadRunners (s : State) (expired : List ℕ) : State :=
  (expired.filter fun ws => (decide (ws ∈ s.runners) || decide (ws ∈ s.pendingChallenges)) &&
    (s.attachment ws).heartbeat).foldl (fun s ws => (s.dropRunner ws).close ws) s

def hasCapacity (s : State) (ws : ℕ) : Bool :=
  decide ((s.activeJobs ws).length < MAX_ACTIVE_JOBS_PER_RUNNER)

/-- The runs in the attachments' `recentJobs`, of the runners and of `ws`. -/
def collectRecentJobIds (s : State) (ws : ℕ) : List String :=
  (ws :: s.runners).flatMap fun r => (s.attachment r).recentJobs

/-- Adds the run to the connection's attachment, unless it is there. -/
def pushJob (s : State) (runId : String) (ws : ℕ) : State :=
  if runId ∈ s.activeJobs ws then s
  else s.serializeAttachment ws
    { s.attachment ws with activeJobs := s.activeJobs ws ++ [runId] }

/-- Takes the run off the connection's attachment, if it is there (`releaseJob`). -/
def releaseJob (s : State) (ws : ℕ) (runId : String) : State :=
  if runId ∈ s.activeJobs ws then
    s.serializeAttachment ws
      { s.attachment ws with activeJobs := (s.activeJobs ws).filter (· ≠ runId) }
  else s

def getScanStatus (s : State) (runId : String) : Option ScanStatus :=
  (s.db.scans runId).map Scan.status

/-- Sets the row's status, whatever it is. -/
def updateScanStatus (s : State) (runId : String) (status : ScanStatus) : State :=
  { s with db := { s.db with
    scans := Function.update s.db.scans runId
      ((s.db.scans runId).map fun scan => { scan with status := status }) } }

/-- Sets the row's status, if it is one of `allowed`. -/
def changeActiveStatus (s : State) (runId : String) (allowed : List ScanStatus)
    (status : ScanStatus) : State :=
  if (s.getScanStatus runId).any fun now => now ∈ allowed then s.updateScanStatus runId status
  else s

/-- Fails the scan with the reason if it is active; says whether it was. -/
def markFailedIfActive (s : State) (runId reason : String) : State × Bool :=
  let (db, changes) := s.db.endScan runId fun scan =>
    { scan with status := .failed, failureReason := some reason }
  ({ s with db := db }, decide (0 < changes))

/-- The rows of the active scans among `ids`, in that order. -/
def activeScans (s : State) (ids : List String) : List ActiveScan :=
  ids.filterMap fun id => (s.db.scans id).bind fun scan =>
    if scan.status.active then some ⟨id, scan.status, scan.projectId⟩ else none

def recordJobRunner (s : State) (runId : String) (ws : ℕ) : State :=
  match runnerIdentity (s.socket ws).tags with
  | some identity => { s with jobRunner := Function.update s.jobRunner runId (some identity) }
  | none => s

def forgetJobRunner (s : State) (runId : String) : State :=
  { s with jobRunner := Function.update s.jobRunner runId none }

/-- The run goes to the end of `finished_runs`; what is evicted is forgotten. -/
def markScanFinished (s : State) (runId : String) : State :=
  let list := s.finishedRuns.filter (· ≠ runId) ++ [runId]
  let evicted := list.take (list.length - MAX_FINISHED_SCANS)
  { s with
    finishedRuns := list.drop (list.length - MAX_FINISHED_SCANS)
    jobRunner := fun id => if id ∈ evicted then none else s.jobRunner id }

end State

end Swazz.Runners
