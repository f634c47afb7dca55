import Swazz.RunnerState

/-! The coordinator's handlers, cut at their awaits, and the other writers of a scan's
status. What is stored of scan configs, which runner suits a scan, times and failures are
left to the `Choice` of a step. A loop may also be interrupted between two rounds. -/
namespace Swazz.Runners

open Findings (Body Scan TextFns processFindingsQueueMessages)

/-- What the lookups of a scan's config come to, for the runner of the pass. -/
inductive ConfigLookup where
  | incompatible
  | found (configRef : Bool)
  | unreadable
  | unavailable
  deriving DecidableEq

/-- What a step leaves open: whether the call or the `send` succeeds, which runner is
found, whose heartbeats are overdue, which scans a query lists, how a config lookup ends. -/
structure Choice where
  ok : Bool
  runner : Option ℕ
  expired : List ℕ
  listed : List String
  lookup : ConfigLookup

def Choice.plain : Choice where
  ok := true
  runner := none
  expired := []
  listed := []
  lookup := .found false

/-- The runs that `resumeRuns` decides on without asking D1. A finished one is only noted
for its late log lines. -/
def Resume.settle (loop : Resume) : List String → Resume
  | [] => { loop with rest := [] }
  | runId :: rest =>
    if runId ∉ loop.owned then loop.settle rest
    else if runId ∈ loop.finished then
      { loop with
        recentJobs := if runId ∈ loop.recentJobs then loop.recentJobs
          else pushBounded MAX_RECENT_JOBS loop.recentJobs runId }.settle rest
    else { loop with rest := runId :: rest }

/-- Why a scan whose config cannot be read failed, as the user is told. -/
def SCAN_CONFIG_UNREADABLE : String :=
  "The scan's configuration could not be read, so it never started. Start the scan again."

def STALLED_SCAN_MESSAGE : String :=
  "The runner executing this scan stopped responding, and no runner took the scan over. " ++
  "Start the scan again once a runner is connected (Settings → Runners)."

def SILENT_SCAN_MESSAGE : String :=
  "The scan reported no progress for 60 minutes, so it was stopped. " ++
  "Start it again; if this keeps happening, update the runner."

/-- The reason `CommandHandler` gives. -/
def stopReason (status : Option ScanStatus) : String :=
  if status = some .queued then "The scan was stopped before a runner started it."
  else "The scan was stopped."

namespace State

/-- The start of a pass of `dispatchPass`. -/
def startPass (s : State) (ws : ℕ) : State :=
  let s := { s with pendingRerun := s.pendingRerun.filter (· ≠ ws) }
  if s.hasCapacity ws then s.spawn (.passActive ws) else s

/-- The end of a pass, which is run again if that was asked for. -/
def endPass (s : State) (ws : ℕ) : State :=
  if ws ∈ s.pendingRerun then s.startPass ws else s

def checkAndDispatchQueuedScans (s : State) (ws : ℕ) (expired : List ℕ) : State :=
  let pruned := s.pruneDeadRunners expired
  if ws ∈ s.runners ∧ ws ∉ pruned.runners then pruned
  else if pruned.handlers.any fun h => h.passOf == some ws then
    { pruned with pendingRerun := pruned.pendingRerun ++ [ws] }
  else pruned.startPass ws

/-- The pass goes on to the next scan of its list. -/
def nextScan (s : State) (pass : Pass) : State :=
  match pass.rest with
  | scan :: rest => s.spawn (.passScan { pass with scan := scan, rest := rest })
  | [] => s.endPass pass.ws

/-- `jobs.set`, the attachment and the `send`; a failed `send` is rolled back. -/
def handOver (s : State) (runId : String) (ws : ℕ) (sent : Bool) : State × Bool :=
  let named := (s.jobsSet runId ws).pushJob runId ws
  if sent && !(s.socket ws).closed then (named, true)
  else
    (((named.jobsDelete runId).releaseJob ws runId).runnersDelete ws, false)

/-- A `job_dispatch` message was sent. -/
def noteHandOut (s : State) (runId : String) (ws : ℕ) : State :=
  { s with handedOut := s.handedOut ++ [(runId, ws)] }

/-- `dispatchPass`, from its last check of the runner's capacity on. -/
def passHandOver (s : State) (pass : Pass) (sent : Bool) : State :=
  if s.hasCapacity pass.ws then
    match s.handOver pass.scan.id pass.ws sent with
    | (s, true) => (s.noteHandOut pass.scan.id pass.ws).spawn (.passRecord pass)
    | (s, false) => s.endPass pass.ws
  else s.endPass pass.ws

/-- `dispatchPass`, from the config on. -/
def passConfig (s : State) (pass : Pass) (c : Choice) : State :=
  match c.lookup with
  | .incompatible => s.nextScan pass
  | .unavailable => s.nextScan pass
  | .unreadable =>
    if (s.jobs pass.scan.id).isSome then s.nextScan pass else s.spawn (.passFail pass)
  | .found configRef =>
    if !s.hasCapacity pass.ws then s.endPass pass.ws
    else if (s.jobs pass.scan.id).isSome || pass.scan.id ∈ s.collectRecentJobIds pass.ws then
      s.nextScan pass
    else if configRef || !pass.scan.projectId.isEmpty then s.spawn (.passFinished pass)
    else s.passHandOver pass c.ok

/-- The skips at the head of the loop of `dispatchPass`. -/
def passScan (s : State) (pass : Pass) : State :=
  if pass.scan.id ∈ pass.finished ∨ pass.scan.id ∈ pass.recent then s.nextScan pass
  else if (pass.scan.status = .dispatched ∨ pass.scan.status = .paused) ∧
      (s.jobs pass.scan.id).isSome then s.nextScan pass
  else s.spawn (.passConfig pass)

/-- `DispatchHandler`, once D1 answered. -/
def dispatchHand (s : State) (runId : String) (status : Option ScanStatus) (c : Choice) :
    State :=
  if status ≠ some .queued then s
  else if (s.jobs runId).isSome then s.spawn (.consumerMark runId)
  else
    let s := s.pruneDeadRunners c.expired
    match c.runner with
    | none => s
    | some ws =>
      if ws ∈ s.runners ∧ s.hasCapacity ws then
        match s.handOver runId ws c.ok with
        | (s, true) => (s.noteHandOut runId ws).spawn (.dispatchRecord runId ws)
        | (s, false) => s
      else s

/-- `StartRunHandler` -/
def startRun (s : State) (runId : String) (ws : ℕ) (sent : Bool) (expired : List ℕ) : State :=
  let s := s.pruneDeadRunners expired
  if ws ∈ s.runners ∧ s.hasCapacity ws then
    match s.handOver runId ws sent with
    | (s, true) => s.spawn (.startRecord runId ws)
    | (s, false) => s
  else s

/-- The loop of `resumeRuns` goes on: to a D1 read, or to its end. -/
def resumeNext (s : State) (loop : Resume) : State :=
  let loop := loop.settle loop.rest
  if loop.rest.isEmpty then s.spawn (.resumeWrite loop) else s.spawn (.resumeStatus loop)

/-- The map names the connection for the run, which is taken off the attachment of the
connection it named before. -/
def takeOver (s : State) (runId : String) (ws : ℕ) : State :=
  match s.jobs runId with
  | some previous =>
    if previous ≠ ws then (s.releaseJob previous runId).jobsSet runId ws else s.jobsSet runId ws
  | none => s.jobsSet runId ws

/-- A round of the loop of `resumeRuns`, once D1 answered. -/
def resumeTake (s : State) (loop : Resume) (status : Option ScanStatus) : State :=
  match loop.rest with
  | [] => s.resumeNext loop
  | runId :: rest =>
    if !status.any ScanStatus.active then s.spawn (.resumeForget loop)
    else if runId ∉ loop.activeJobs ∧ MAX_ACTIVE_JOBS_PER_RUNNER ≤ loop.activeJobs.length then
      s.resumeNext { loop with rest := rest }
    else
      (s.takeOver runId loop.ws).resumeNext { loop with
        rest := rest
        activeJobs := if runId ∈ loop.activeJobs then loop.activeJobs
          else loop.activeJobs ++ [runId]
        accepted := loop.accepted ++ [runId] }

/-- The end of `resumeRuns`. -/
def resumeWrite (s : State) (loop : Resume) : State :=
  (s.serializeAttachment loop.ws
    { loop.attachment with activeJobs := loop.activeJobs, recentJobs := loop.recentJobs }).spawn
      (.afterResume loop.ws)

def startResume (s : State) (ws : ℕ) (requested : List String) : State :=
  if (runnerIdentity (s.socket ws).tags).isSome && !requested.isEmpty then
    s.spawn (.resumeOwners ws requested)
  else s.spawn (.afterResume ws)

/-- A runner connects: a keyed one is challenged, another one is a runner at once. -/
def connect (s : State) (tags : Tags) (heartbeat : Bool) (resume : List String)
    (expired : List ℕ) : State :=
  let s := s.pruneDeadRunners expired
  let ws := s.accepted
  let s := s.accept tags heartbeat resume
  if tags.pending then { s with pendingChallenges := s.pendingChallenges ++ [ws] }
  else (s.addRunner ws).startResume ws resume

/-- A keyed runner has proven its key. -/
def authenticate (s : State) (ws : ℕ) : State :=
  let s := { s with pendingChallenges := s.pendingChallenges.filter (· ≠ ws) }
  (s.addRunner ws).serializeAttachment ws
    { s.attachment ws with authenticated := true, resume := [] }

/-- The answer to a challenge was checked. -/
def verify (s : State) (ws : ℕ) (valid : Bool) : State :=
  if valid then (s.authenticate ws).startResume ws (s.attachment ws).resume
  else s.close ws

/-- The cleanup after a terminal event. -/
def eventCleanup (s : State) (ws : ℕ) (runId : String) : State :=
  let s := s.jobsDelete runId
  let attachment := s.attachment ws
  (s.serializeAttachment ws
    { attachment with
      activeJobs := attachment.activeJobs.filter (· ≠ runId)
      recentJobs := pushBounded MAX_RECENT_JOBS (attachment.recentJobs.filter (· ≠ runId))
        runId }).spawn (.eventFinished ws runId)

/-- The watchdog goes on to its next candidate. -/
def watchNext (s : State) (rest : List ActiveScan) : State :=
  match rest with
  | [] => s
  | _ :: _ => s.spawn (.watchScan rest)

/-- A round of the watchdog: a scan that is owned and silent, or unowned for long. -/
def watchScan (s : State) (candidates : List ActiveScan) (overdue : Bool) : State :=
  match candidates with
  | [] => s
  | scan :: rest =>
    match s.jobs scan.id with
    | some runner =>
      if scan.status = .dispatched ∧ overdue then s.spawn (.watchStatus (some runner) scan.id rest)
      else s.watchNext rest
    | none =>
      if overdue then s.spawn (.watchStatus none scan.id rest) else s.watchNext rest

/-- `stopOnRunner`; a scan without a runner was ended all the same. -/
def watchStop (s : State) (runner : Option ℕ) (runId : String) : State :=
  match runner with
  | some ws => (s.jobsDelete runId).releaseJob ws runId
  | none => s

/-- A connection closed (`handleClose`). -/
def closed (s : State) (ws : ℕ) : State :=
  { s.dropRunner ws with
    socket := Function.update s.socket ws { s.socket ws with connected := false } }

/-- Whether `getWebSockets` returns the connection. -/
def isConnected (s : State) (ws : ℕ) : Bool :=
  decide (ws < s.accepted) && (s.socket ws).connected

def isRunner (s : State) (ws : ℕ) : Bool :=
  s.isConnected ws && (s.attachment ws).authenticated

/-- `reconstructState`: memory and handlers are lost, the connections are gone through in
the order in which `getWebSockets` returns them. -/
def reconstruct (s : State) (order : List ℕ) : State :=
  { s with
    runners := order.filter s.isRunner
    pendingChallenges := order.filter fun ws => s.isConnected ws && !s.isRunner ws
    jobs := fun runId =>
      ((order.filter s.isRunner).filter fun ws => runId ∈ s.activeJobs ws).getLast?
    pendingRerun := []
    handlers := [] }

end State

/-- The error the watchdog ends a scan with. -/
def stalledError (runner : Option ℕ) (runId : String) : Body where
  scanId := runId
  type := some "error"
  payload := some (.obj [("error",
    .str (if runner.isSome then SILENT_SCAN_MESSAGE else STALLED_SCAN_MESSAGE))])
  exec := none
  seq := none

variable (T : TextFns)

/-- What a handler does next. -/
def Handler.perform (s : State) (c : Choice) : Handler → State
  | .verify ws => s.verify ws c.ok
  | .resumeOwners ws requested =>
    s.spawn (.resumeFinished ws requested
      (requested.filter fun runId => s.jobRunner runId = runnerIdentity (s.socket ws).tags))
  | .resumeFinished ws requested owned =>
    let attachment := s.attachment ws
    s.resumeNext {
      ws := ws, rest := requested, owned := owned, finished := s.finishedRuns,
      attachment := attachment, activeJobs := attachment.activeJobs,
      recentJobs := attachment.recentJobs, accepted := [] }
  | .resumeStatus loop =>
    match loop.rest with
    | [] => s.resumeNext loop
    | runId :: rest =>
      if c.ok then s.spawn (.resumeTake loop (s.getScanStatus runId))
      else s.resumeNext { loop with rest := rest }
  | .resumeTake loop status => s.resumeTake loop status
  | .resumeForget loop =>
    match loop.rest with
    | [] => s.resumeNext loop
    | runId :: rest => (s.forgetJobRunner runId).resumeNext { loop with rest := rest }
  | .resumeWrite loop => s.resumeWrite loop
  | .afterResume ws => s.checkAndDispatchQueuedScans ws c.expired
  | .passActive ws =>
    let scans := s.activeScans c.listed
    if c.ok && !scans.isEmpty then s.spawn (.passStored ws scans) else s.endPass ws
  | .passStored ws scans =>
    match scans with
    | [] => s.endPass ws
    | scan :: rest => s.spawn (.passScan {
        ws := ws, finished := s.finishedRuns, recent := s.collectRecentJobIds ws,
        scan := scan, rest := rest })
  | .passScan pass => s.passScan pass
  | .passConfig pass => s.passConfig pass c
  | .passFail pass =>
    (if c.ok then (s.markFailedIfActive pass.scan.id SCAN_CONFIG_UNREADABLE).1 else s).nextScan pass
  | .passFinished pass => s.spawn (.passHand pass s.finishedRuns)
  | .passHand pass latestFinished =>
    if pass.scan.id ∈ latestFinished then s.nextScan pass else s.passHandOver pass c.ok
  | .passRecord pass => (s.recordJobRunner pass.scan.id pass.ws).spawn (.passMark pass)
  | .passMark pass =>
    (if c.ok then s.updateScanStatus pass.scan.id .dispatched else s).nextScan pass
  | .dispatchStatus runId =>
    if c.ok then s.spawn (.dispatchHand runId (s.getScanStatus runId)) else s
  | .dispatchHand runId status => s.dispatchHand runId status c
  | .dispatchRecord runId ws => (s.recordJobRunner runId ws).spawn (.consumerMark runId)
  | .consumerMark runId => if c.ok then s.updateScanStatus runId .dispatched else s
  | .startRecord runId ws => s.recordJobRunner runId ws
  | .eventCleanup ws runId => s.eventCleanup ws runId
  | .eventFinished ws runId =>
    (s.markScanFinished runId).checkAndDispatchQueuedScans ws c.expired
  | .stopStatus runId =>
    if c.ok then s.spawn (.stopMark runId (stopReason (s.getScanStatus runId))) else s
  | .stopMark runId reason =>
    match s.markFailedIfActive runId reason with
    | (s, true) => s.spawn (.stopForget runId)
    | (s, false) => s
  | .stopForget runId => s.forgetJobRunner runId
  | .watchList owned =>
    s.watchNext ((s.activeScans c.listed).filter fun scan =>
      scan.status = .dispatched ∨ scan.status = .paused ∧ !owned scan.id)
  | .watchScan candidates => s.watchScan candidates c.ok
  | .watchStatus runner runId rest =>
    if c.ok ∧ (s.getScanStatus runId = some .dispatched ∨ s.getScanStatus runId = some .paused)
    then s.spawn (.watchEnd runner runId rest)
    else s.watchNext rest
  | .watchEnd runner runId rest =>
    match processFindingsQueueMessages T s.db [stalledError runner runId] with
    | some done =>
      if runId ∈ done.ended then
        { s with db := done.db }.spawn (.watchForget runner runId rest)
      else { s with db := done.db }.watchNext rest
    | none => s.watchNext rest
  | .watchForget runner runId rest =>
    (s.forgetJobRunner runId).spawn (.watchStop runner runId rest)
  | .watchStop runner runId rest => (s.watchStop runner runId).watchNext rest

/-- What comes in from outside, and the next step of a handler. -/
inductive Label where
  | connect (tags : Tags) (heartbeat : Bool) (resume : List String) (expired : List ℕ)
  | challengeResponse (ws : ℕ)
  | dispatch (runId : String)
  | startRun (runId : String) (ws : ℕ) (sent : Bool) (expired : List ℕ)
  | stop (runId : String)
  | terminalEvent (ws : ℕ) (runId : String)
  | watchdog (expired : List ℕ)
  | listRunners (expired : List ℕ)
  | close (ws : ℕ)
  | rebuild (order : List ℕ)
  | findings (messages : List Body)
  | createScan (runId : String) (scan : Scan)
  | pause (runId : String)
  | unpause (runId : String)
  | notQueued (runId : String)
  | act (i : ℕ) (choice : Choice)

/-- Whether the coordinator reads a connection's messages as a runner's. -/
def State.readsRunner (s : State) (ws : ℕ) : Bool :=
  s.isConnected ws && (!(s.socket ws).tags.pending || decide (ws ∈ s.runners))

/-- Whether the coordinator takes a run's events, other than log lines, from the
connection. -/
def State.takesEvents (s : State) (ws : ℕ) (runId : String) : Bool :=
  s.readsRunner ws && decide (runId ∈ s.activeJobs ws)

def step (s : State) : Label → Option State
  | .connect tags heartbeat resume expired => some (s.connect tags heartbeat resume expired)
  | .challengeResponse ws =>
    if s.isConnected ws && (s.socket ws).tags.pending && decide (ws ∉ s.runners) &&
        decide (ws ∈ s.pendingChallenges) then some (s.spawn (.verify ws))
    else none
  | .dispatch runId =>
    if (s.jobs runId).isSome then some (s.spawn (.consumerMark runId))
    else some (s.spawn (.dispatchStatus runId))
  | .startRun runId ws sent expired => some (s.startRun runId ws sent expired)
  | .stop runId => if (s.jobs runId).isSome then some s else some (s.spawn (.stopStatus runId))
  | .terminalEvent ws runId =>
    if s.takesEvents ws runId then
      some (s.spawn (.eventCleanup ws runId))
    else none
  | .watchdog expired =>
    let s := s.pruneDeadRunners expired
    some (s.spawn (.watchList fun runId => (s.jobs runId).isSome))
  | .listRunners expired => some (s.pruneDeadRunners expired)
  | .close ws => if s.isConnected ws then some (s.closed ws) else none
  | .rebuild order =>
    if (List.range s.accepted).all fun ws => !s.isConnected ws || decide (ws ∈ order) then
      some (s.reconstruct order)
    else none
  | .findings messages =>
    (processFindingsQueueMessages T s.db messages).map fun done => { s with db := done.db }
  | .createScan runId scan =>
    if (s.db.scans runId).isNone && decide (scan.status = .queued) then
      some { s with db := { s.db with scans := Function.update s.db.scans runId (some scan) } }
    else none
  | .pause runId => some (s.changeActiveStatus runId [.queued, .dispatched] .paused)
  | .unpause runId => some (s.changeActiveStatus runId [.paused] .dispatched)
  | .notQueued runId => some (s.updateScanStatus runId .failed)
  | .act i choice =>
    (s.handlers[i]?).map fun h =>
      h.perform T { s with handlers := s.handlers.eraseIdx i } choice

end Swazz.Runners
