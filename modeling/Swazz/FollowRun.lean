import Mathlib.Data.List.Basic
import Swazz.StepSystem

/-! Following a scan's live stream until the scan ends: the socket, the ticket that opens it, the
questions about the scan's status, and the timers. A step is a task of the event loop with its
microtasks. -/
namespace Swazz.Following

variable {Stats Data Hint : Type}

inductive Level where
  | warning
  | error
  deriving DecidableEq

structure ScanIssue (Hint : Type) where
  level : Level
  title : String
  details : List String
  hint : Option Hint

structure Warnings where
  count : ℕ
  recent : List String

/-- The part of the dashboard's store that is about scans. Issues are told apart as objects are:
each has the number of its making. -/
structure Store (Stats Hint : Type) where
  isRunning : Bool
  isPaused : Bool
  isQueued : Bool
  runStalled : Bool
  scanIssue : Option (ℕ × ScanIssue Hint)
  runWarnings : Warnings
  stats : Stats

/-- A message of the stream. -/
inductive RunStreamEvent (Stats Data : Type) where
  | queued
  | result (data : Data)
  | progress (stats : Stats)
  | complete (stats : Stats)
  | error (message : String)
  /-- A line of the runner's log; `info` lines are not kept. -/
  | log (info : Bool) (message : String)
  | ignored

inductive ScanStatus (Stats : Type) where
  | active
  | completed (stats : Option Stats)
  | failed (reason : String)
  | unknown

/-- The calls of the handlers. -/
inductive Call (Stats Data : Type) where
  | onResult (data : Data)
  | onComplete (stats : Stats)
  | onError (message : String)

inductive SocketState where
  | connecting
  | isOpen
  | closing
  | closed
  deriving DecidableEq

/-- What `wsRef.current` is: no socket, one of this call, or that of another. -/
inductive Ref where
  | null
  | mine (i : ℕ)
  | other
  deriving DecidableEq

/-- A call of `includeStoredWarnings` that waits for its answer. -/
structure StoredCall where
  liveCount : ℕ
  shown : Option ℕ

structure State (Stats Data Hint : Type) where
  finished : Bool
  ws : Option ℕ
  reconnects : ℕ
  lastActivity : ℕ
  receivedAny : Bool
  lastProgressTime : ℕ
  lastStats : Option Stats
  statusTimer : Bool
  /-- How many timers for a reconnect run; the variable has the last of them. -/
  reconnectTimers : ℕ
  wsRef : Ref
  sockets : List SocketState
  /-- How many tickets have been asked for, without an answer yet. -/
  tickets : ℕ
  /-- The questions about the status without an answer yet: whether `onDrop` has asked. -/
  statuses : List Bool
  stored : List StoredCall
  store : Store Stats Hint
  /-- The number of the next issue made. -/
  fresh : ℕ
  /-- How many scans others have started, and how many of them before the end. -/
  scans : ℕ
  scansAtEnd : ℕ
  calls : List (Call Stats Data)

/-- `hint` is `hintForRunnerMessage`; `onError` says whether there is such a handler. -/
structure Config (Hint : Type) where
  hint : String → Option Hint
  onError : Bool

def RUN_STALL_AFTER_MS : ℕ := 90000

def RUN_MAX_RECONNECTS : ℕ := 5

def PROGRESS_THROTTLE_MS : ℕ := 300

def RECENT_WARNINGS : ℕ := 5

def firstHint (c : Config Hint) (messages : List String) : Option Hint := messages.findSome? c.hint

def failureIssue (c : Config Hint) (message : String) (warnings : List String) : ScanIssue Hint :=
  ⟨.error, "The scan failed", [message], firstHint c (message :: warnings)⟩

def warningsIssue (c : Config Hint) (count : ℕ) (recent : List String) :
    Option (ScanIssue Hint) :=
  if count = 0 then none
  else some ⟨.warning,
    "The scan completed with " ++ toString count ++ " warning" ++ (if count = 1 then "" else "s"),
    recent, firstHint c recent⟩

def lostConnection : ScanIssue Hint :=
  ⟨.warning, "The live connection to this scan was lost before it finished",
    ["The scan completed, but the dashboard may not have received all results. " ++
      "Open it from History to see them all."], none⟩

/-- `ws.close()` -/
def SocketState.close : SocketState → SocketState
  | .closed => .closed
  | _ => .closing

def closeWs (s : State Stats Data Hint) : List SocketState :=
  match s.ws with
  | some i => s.sockets.modify i SocketState.close
  | none => s.sockets

def refTo : Option ℕ → Ref
  | some i => .mine i
  | none => .null

def leaveRef (s : State Stats Data Hint) : Ref := if s.wsRef = refTo s.ws then .null else s.wsRef

/-- `useAppStore.setState({ scanIssue: … })` -/
def showIssue (s : State Stats Data Hint) (issue : Option (ScanIssue Hint)) :
    State Stats Data Hint :=
  { s with
    store := { s.store with scanIssue := issue.map fun i => (s.fresh, i) }
    fresh := if issue.isSome then s.fresh + 1 else s.fresh }

/-- What the end of the run and the returned function have in common. -/
def settleDown (s : State Stats Data Hint) : State Stats Data Hint :=
  { s with
    finished := true
    statusTimer := false
    reconnectTimers := s.reconnectTimers - 1
    wsRef := leaveRef s
    sockets := closeWs s
    scansAtEnd := s.scans }

/-- `end` -/
def endRun (s : State Stats Data Hint) : State Stats Data Hint :=
  { settleDown s with
    store := { s.store with
      isRunning := false
      isPaused := false
      isQueued := false
      runStalled := false } }

def fail (c : Config Hint) (s : State Stats Data Hint) (message : String) :
    State Stats Data Hint :=
  if s.finished then s
  else
    let t := showIssue (endRun s) (some (failureIssue c message s.store.runWarnings.recent))
    { t with calls := if c.onError then t.calls ++ [.onError message] else t.calls }

def complete (c : Config Hint) (s : State Stats Data Hint) (stats : Stats)
    (issue : Option (ScanIssue Hint)) : State Stats Data Hint :=
  if s.finished then s
  else
    let warnings := s.store.runWarnings
    let t := showIssue (endRun s) (issue.or (warningsIssue c warnings.count warnings.recent))
    { t with
      store := { t.store with stats := stats }
      calls := t.calls ++ [.onComplete stats]
      stored := if issue.isNone then
          t.stored ++ [⟨warnings.count, t.store.scanIssue.map Prod.fst⟩]
        else t.stored }

/-- `settleFromStatus`, once there is an answer; whether the run has ended. -/
def settleFromStatus (c : Config Hint) (s : State Stats Data Hint) :
    ScanStatus Stats → State Stats Data Hint × Bool
  | .failed reason => (fail c s reason, true)
  | .completed stats =>
    (complete c s (stats.getD (s.lastStats.getD s.store.stats)) (some lostConnection), true)
  | .active | .unknown => (s, s.finished)

def onMessage (c : Config Hint) (s : State Stats Data Hint) (now : ℕ)
    (event : RunStreamEvent Stats Data) : State Stats Data Hint :=
  let s := { s with
    lastActivity := now
    receivedAny := true
    reconnects := 0
    store := { s.store with runStalled := false } }
  match event with
  | .queued => { s with store := { s.store with isQueued := true } }
  | .result data =>
    { s with
      store := { s.store with isQueued := false }
      calls := s.calls ++ [.onResult data] }
  | .progress stats =>
    let s := { s with
      lastStats := some stats
      store := { s.store with isQueued := false } }
    if s.lastProgressTime + PROGRESS_THROTTLE_MS ≤ now then
      { s with
        lastProgressTime := now
        store := { s.store with stats := stats } }
    else s
  | .complete stats => complete c s stats none
  | .error message => fail c s message
  | .log info message =>
    if info then s
    else
      let recent := s.store.runWarnings.recent ++ [message]
      { s with store := { s.store with runWarnings :=
        ⟨s.store.runWarnings.count + 1, recent.drop (recent.length - RECENT_WARNINGS)⟩ } }
  | .ignored => s

/-- `open` -/
def openSocket (s : State Stats Data Hint) : State Stats Data Hint :=
  { s with
    sockets := s.sockets ++ [.connecting]
    ws := some s.sockets.length
    wsRef := .mine s.sockets.length }

def connect (s : State Stats Data Hint) (signedIn : Bool) : State Stats Data Hint :=
  if signedIn then { s with tickets := s.tickets + 1 } else openSocket s

/-- `onDrop`, up to its question. -/
def onDrop (s : State Stats Data Hint) : State Stats Data Hint :=
  { s with wsRef := leaveRef s, statuses := s.statuses ++ [true] }

/-- `onDrop` after an answer that the run has not ended. -/
def reconnect (s : State Stats Data Hint) : State Stats Data Hint :=
  if RUN_MAX_RECONNECTS ≤ s.reconnects then { s with store := { s.store with runStalled := true } }
  else { s with reconnects := s.reconnects + 1, reconnectTimers := s.reconnectTimers + 1 }

def answered (c : Config Hint) (s : State Stats Data Hint) (dropped : Bool)
    (status : ScanStatus Stats) : State Stats Data Hint :=
  if dropped && !(settleFromStatus c s status).2 then reconnect (settleFromStatus c s status).1
  else (settleFromStatus c s status).1

/-- The status timer. -/
def checkStatus (s : State Stats Data Hint) (now : ℕ) : State Stats Data Hint :=
  if s.finished then s
  else
    let quiet : Bool := s.lastActivity + RUN_STALL_AFTER_MS ≤ now
    let closed := match s.ws with
      | some i => s.sockets[i]? == some .closed
      | none => true
    { s with
      store := { s.store with
        runStalled := s.store.runStalled || (quiet && !s.store.isQueued && !s.store.isPaused) }
      statuses := if quiet || !s.receivedAny || closed then s.statuses ++ [false]
        else s.statuses }

/-- `includeStoredWarnings`, once there is an answer. -/
def includeStoredWarnings (c : Config Hint) (s : State Stats Data Hint) (call : StoredCall)
    (stored : Option Warnings) : State Stats Data Hint :=
  match stored with
  | none => s
  | some w =>
    if w.count ≤ call.liveCount then s
    else if s.store.scanIssue.map Prod.fst ≠ call.shown ∨ s.store.isRunning = true then s
    else showIssue { s with store := { s.store with runWarnings := w } }
      (warningsIssue c w.count w.recent)

/-- The function that is returned. -/
def stopFollowing (s : State Stats Data Hint) : State Stats Data Hint :=
  if s.finished then s else settleDown s

/-- What others make of the issue on screen. -/
inductive IssueChange (Hint : Type) where
  | keep
  | dismiss
  | replace (issue : ScanIssue Hint)
  /-- A scan starts, without the issue of the one before it. -/
  | startScan

inductive Event (Stats Data Hint : Type) where
  /-- The answer to the question for a ticket: whether the stream can be tried. -/
  | ticket (answer : Bool)
  | opened (i : ℕ)
  /-- A message, if it can be parsed. -/
  | message (i now : ℕ) (event : Option (RunStreamEvent Stats Data))
  | error (i : ℕ)
  | closed (i : ℕ)
  | status (i : ℕ) (answer : ScanStatus Stats)
  | reconnectTimer (signedIn : Bool)
  | statusTimer (now : ℕ)
  | stored (i : ℕ) (answer : Option Warnings)
  | stop
  /-- The server, the network or a holder of `wsRef` begins to close a socket. -/
  | closing (i : ℕ)
  /-- Others change the store and `wsRef`. -/
  | others (change : IssueChange Hint) (store : Store Stats Hint) (wsRef : Ref)

/-- What others leave in the store. -/
def changed (s : State Stats Data Hint) (change : IssueChange Hint) (store : Store Stats Hint)
    (wsRef : Ref) : State Stats Data Hint :=
  let s := { s with wsRef := wsRef }
  match change with
  | .keep => { s with store := { store with scanIssue := s.store.scanIssue } }
  | .dismiss => { s with store := { store with scanIssue := none } }
  | .replace issue => showIssue { s with store := store } (some issue)
  | .startScan =>
    { s with
      store := { store with
        isRunning := true
        isPaused := false
        isQueued := false
        runStalled := false
        scanIssue := none
        runWarnings := ⟨0, []⟩ }
      scans := s.scans + 1 }

def step (c : Config Hint) (s : State Stats Data Hint) :
    Event Stats Data Hint → Option (State Stats Data Hint)
  | .ticket answer =>
    if s.tickets = 0 then none
    else
      let s := { s with tickets := s.tickets - 1 }
      some (if s.finished then s else if answer then openSocket s else onDrop s)
  | .opened i =>
    if s.sockets[i]? = some .connecting then
      some { s with
        sockets := s.sockets.set i .isOpen
        statuses := if s.receivedAny then s.statuses else s.statuses ++ [false] }
    else none
  | .message i now event =>
    if s.sockets[i]? = some .isOpen then
      some (match event with
        | none => s
        | some event => onMessage c s now event)
    else none
  | .error i =>
    match s.sockets[i]? with
    | none | some .closed => none
    | some _ => some { s with sockets := s.sockets.modify i SocketState.close }
  | .closed i =>
    match s.sockets[i]? with
    | none | some .closed => none
    | some _ =>
      let s := { s with sockets := s.sockets.set i .closed }
      some (if s.finished || s.ws ≠ some i then s else onDrop s)
  | .status i answer =>
    match s.statuses[i]? with
    | some dropped => some (answered c { s with statuses := s.statuses.eraseIdx i } dropped answer)
    | none => none
  | .reconnectTimer signedIn =>
    if s.reconnectTimers = 0 then none
    else
      let s := { s with reconnectTimers := s.reconnectTimers - 1 }
      some (if s.finished then s else connect s signedIn)
  | .statusTimer now => if s.statusTimer then some (checkStatus s now) else none
  | .stored i answer =>
    match s.stored[i]? with
    | some call =>
      some (includeStoredWarnings c { s with stored := s.stored.eraseIdx i } call answer)
    | none => none
  | .stop => some (stopFollowing s)
  | .closing i =>
    match s.sockets[i]? with
    | none | some .closed => none
    | some _ => some { s with sockets := s.sockets.modify i SocketState.close }
  | .others change store wsRef => some (changed s change store wsRef)

/-- A call of `followRun` at the time `now`. -/
def start (store : Store Stats Hint) (wsRef : Ref) (fresh now : ℕ) (signedIn : Bool) :
    State Stats Data Hint :=
  connect
    { finished := false
      ws := none
      reconnects := 0
      lastActivity := now
      receivedAny := false
      lastProgressTime := 0
      lastStats := none
      statusTimer := true
      reconnectTimers := 0
      wsRef := wsRef
      sockets := []
      tickets := 0
      statuses := []
      stored := []
      store := store
      fresh := fresh
      scans := 0
      scansAtEnd := 0
      calls := [] } signedIn

end Swazz.Following
