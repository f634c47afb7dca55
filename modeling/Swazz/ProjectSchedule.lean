import Swazz.AtomicCalls
import Swazz.Scheduler

/-! `scan_configs`, where a project's row `default` holds its schedule: the requests that save
the configuration or the schedule, and the runs of the scheduler. Times are milliseconds. -/
namespace Swazz.ProjectSchedule

open AtomicCalls
open Scheduler (Owner Scan Status)

/-- A row of `scan_configs`. -/
structure Row where
  id : String
  projectId : String
  name : String
  configJson : String
  cronSchedule : Option String
  lastRunAt : Option ℤ
  deriving DecidableEq

/-- A row with a schedule, as the scheduler reads it. -/
structure Config extends Scheduler.ScanConfig where
  name : String

def Row.isDefault (projectId : String) (r : Row) : Bool :=
  r.projectId == projectId && r.name == "default"

def Config.isDefault (projectId : String) (c : Config) : Bool :=
  c.projectId == projectId && c.name == "default"

structure Db where
  rows : List Row
  scans : List Scan
  owners : String → Option Owner
  now : ℤ

namespace Db

def defaultRows (db : Db) (projectId : String) : List Row := db.rows.filter (Row.isDefault projectId)

/-- `.first()` of the query for the schedule. -/
def schedule (db : Db) (projectId : String) : Option String :=
  (db.defaultRows projectId).head?.bind Row.cronSchedule

def lastRun (db : Db) (projectId : String) : Option ℤ :=
  (db.defaultRows projectId).head?.bind Row.lastRunAt

def hasId (db : Db) (id : String) : Bool := db.rows.any fun r => r.id == id

/-- `none` when the id is taken. -/
def insertRow (db : Db) (r : Row) : Option Db :=
  if db.hasId r.id then none else some { db with rows := db.rows ++ [r] }

/-- The batch of `saveProjectConfig`. -/
def replaceDefault (db : Db) (r : Row) : Option Db :=
  { db with rows := db.rows.filter fun old => !old.isDefault r.projectId }.insertRow r

def updateSchedule (db : Db) (projectId : String) (cronSchedule : Option String) : Db :=
  { db with
    rows := db.rows.map fun r =>
      if r.isDefault projectId then { r with cronSchedule := cronSchedule } else r }

def getScheduledScanConfigs (db : Db) : List Config :=
  db.rows.filterMap fun r => r.cronSchedule.map fun cronSchedule =>
    ⟨⟨r.id, r.projectId, r.configJson, cronSchedule, r.lastRunAt⟩, r.name⟩

/-- `none` when the scan's id is taken. -/
def triggerScheduledScan (db : Db) (scan : Scan) : Option Db :=
  if db.scans.any fun s => s.id == scan.id then none
  else some { db with
    scans := db.scans ++ [scan]
    rows := db.rows.map fun r =>
      if r.id == scan.configId then { r with lastRunAt := some scan.time } else r }

def updateScanStatus (db : Db) (runId : String) (status : Status) : Db :=
  { db with scans := db.scans.map fun s => if s.id == runId then { s with status := status } else s }

end Db

inductive Op where
  | newDate
  | selectDefault (projectId : String)
  | replaceDefault (row : Row)
  | insertDefault (row : Row)
  | updateSchedule (projectId : String) (cronSchedule : Option String)
  | getScheduledScanConfigs
  | getProjectOwnerForScan (projectId : String)
  | triggerScheduledScan (config : Config) (scan : Scan)
  | writeScanConfig (runId : String)
  | sendScan (runId : String)
  | updateScanStatus (runId : String) (status : Status)

/-- A write that can fail on a taken id answers whether it did not. -/
@[reducible] def Answer : Op → Type
  | .newDate => ℤ
  | .selectDefault _ => Option (Option String × Option ℤ)
  | .replaceDefault _ | .insertDefault _ => Bool
  | .getScheduledScanConfigs => List Config
  | .getProjectOwnerForScan _ => Option Owner
  | .triggerScheduledScan .. => Bool
  | _ => Unit

/-- The database, and what went through so far: the schedules that were set, oldest first, and
the scans that were triggered with the row that they were for. -/
structure Store where
  db : Db
  scheduled : List (String × Option String)
  triggered : List (Config × ℤ)

namespace Store

/-- A write that failed changes nothing. -/
def write (s : Store) (db : Option Db) (after : Store → Store) : Bool × Store :=
  match db with
  | none => (false, s)
  | some db => (true, after { s with db := db })

def setSchedule (projectId : String) (cronSchedule : Option String) (s : Store) : Store :=
  { s with scheduled := s.scheduled ++ [(projectId, cronSchedule)] }

def exec (s : Store) : (op : Op) → Answer op × Store
  | .newDate => (s.db.now, s)
  | .selectDefault projectId =>
    ((s.db.defaultRows projectId).head?.map fun r => (r.cronSchedule, r.lastRunAt), s)
  | .replaceDefault row => s.write (s.db.replaceDefault row) id
  | .insertDefault row =>
    s.write (s.db.insertRow row) (setSchedule row.projectId row.cronSchedule)
  | .updateSchedule projectId cronSchedule =>
    ((), setSchedule projectId cronSchedule
      { s with db := s.db.updateSchedule projectId cronSchedule })
  | .getScheduledScanConfigs => (s.db.getScheduledScanConfigs, s)
  | .getProjectOwnerForScan projectId => (s.db.owners projectId, s)
  | .triggerScheduledScan config scan =>
    s.write (s.db.triggerScheduledScan scan) fun s =>
      { s with triggered := s.triggered ++ [(config, scan.time)] }
  | .writeScanConfig _ => ((), s)
  | .sendScan _ => ((), s)
  | .updateScanStatus runId status => ((), { s with db := s.db.updateScanStatus runId status })

end Store

def perform (op : Op) : Calls Answer (Answer op) := Calls.perform op

/-- A call that may fail. -/
def attempt (op : Op) : Calls Answer (Option (Answer op)) :=
  .choose fun ok => if ok then (perform op).bind fun a => .ret (some a) else .ret none

/-- `value || null` -/
def orNull (value : Option String) : Option String := value.filter fun v => !v.isEmpty

/-- The new row has a new id, and the schedule and last run that were read. -/
def saveProjectConfig (projectId id configJson : String) : Calls Answer Unit :=
  (perform (.selectDefault projectId)).bind fun existing =>
    let cronSchedule := orNull (existing.bind Prod.fst)
    let lastRunAt := existing.bind Prod.snd
    (perform (.replaceDefault
      ⟨id, projectId, "default", configJson, cronSchedule, lastRunAt⟩)).bind fun _ => .ret ()

def updateProjectSchedule (projectId id : String) (cronSchedule : Option String) :
    Calls Answer Unit :=
  (perform (.selectDefault projectId)).bind fun existingConfig =>
    match existingConfig with
    | none => (perform (.insertDefault
        ⟨id, projectId, "default", "\x7b\x7d", cronSchedule, none⟩)).bind fun _ => .ret ()
    | some _ => perform (.updateSchedule projectId cronSchedule)

/-- What the scheduler makes of a configuration, `none` where reading it throws, and the ids
of new scans. -/
structure Env where
  readConfig : String → Option (String × String)
  randomUUID : String → String

/-- After the scan was triggered: where it cannot be queued it is marked as failed. -/
def queueScan (runId : String) : Calls Answer Unit :=
  (attempt (.writeScanConfig runId)).bind fun written =>
    (if written.isSome then attempt (.sendScan runId) else .ret none).bind fun sent =>
      if sent.isSome then .ret ()
      else (attempt (.updateScanStatus runId .failed)).bind fun _ => .ret ()

/-- The body of the scheduler's loop. What throws is logged, and the next one follows. -/
def processConfig (env : Env) (now : ℤ) (config : Config) : Calls Answer Unit :=
  (attempt (.getProjectOwnerForScan config.projectId)).bind fun activeOwner =>
    match activeOwner, env.readConfig config.configJson with
    | some (some owner), some (targetUrl, profile) =>
      let runId := env.randomUUID config.id
      (attempt (.triggerScheduledScan config
        ⟨runId, config.projectId, targetUrl, profile, .queued, owner.id, config.id, now⟩)).bind
        fun triggered => if triggered = some true then queueScan runId else .ret ()
    | _, _ => .ret ()

def processConfigs (env : Env) (now : ℤ) : List Config → Calls Answer Unit
  | [] => .ret ()
  | config :: configs => (processConfig env now config).bind fun _ => processConfigs env now configs

def handleScheduledScans (env : Env) : Calls Answer Unit :=
  (perform .newDate).bind fun now =>
    (perform .getScheduledScanConfigs).bind fun configs =>
      processConfigs env now (configs.filter fun config => config.due now)

inductive Request where
  | saveProjectConfig (projectId id configJson : String)
  | updateProjectSchedule (projectId id : String) (cronSchedule : Option String)
  | handleScheduledScans (env : Env)

def serve : Request → Calls Answer Unit
  | .saveProjectConfig projectId id configJson => saveProjectConfig projectId id configJson
  | .updateProjectSchedule projectId id cronSchedule =>
    updateProjectSchedule projectId id cronSchedule
  | .handleScheduledScans env => handleScheduledScans env

/-- Time passes, and owners change. -/
inductive Event where
  | elapse (ms : ℕ)
  | setOwner (projectId : String) (owner : Option Owner)

def happen (s : Store) : Event → Store
  | .elapse ms => { s with db := { s.db with now := s.db.now + ms } }
  | .setOwner projectId owner =>
    { s with db := { s.db with
        owners := fun p => if p == projectId then owner else s.db.owners p } }

/-- Any number of these requests at once. -/
def requests : System Answer Store Request Event Unit where
  exec _ _ op s := s.exec op
  body := serve
  world e s := happen s e

def start (db : Db) : Store := ⟨db, [], []⟩

end Swazz.ProjectSchedule
