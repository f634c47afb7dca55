import Mathlib.Data.Int.Notation
import Mathlib.Data.List.Nodup

/-! Scheduled scans: when a cron expression matches, and what one invocation of the scheduler
triggers. Times are milliseconds since the epoch. -/
namespace Swazz.Scheduler

/-- What the pattern for white space matches, and what trimming a string removes. -/
def isSpace (c : Char) : Bool :=
  c.toNat ∈ [9, 10, 11, 12, 13, 32, 0xA0, 0x1680, 0x2028, 0x2029, 0x202F, 0x205F, 0x3000, 0xFEFF] ||
    (0x2000 ≤ c.toNat && c.toNat ≤ 0x200A)

/-- The number that the digits at the start of a string make, `none` where there are none. -/
def leadingDigits (s : List Char) : Option ℕ :=
  match s.takeWhile Char.isDigit with
  | [] => none
  | digits => some (digits.foldl (fun n d => 10*n + (d.toNat - '0'.toNat)) 0)

/-- `none` is NaN. -/
def parseInt (s : List Char) : Option ℤ :=
  match s.dropWhile isSpace with
  | '-' :: rest => (leadingDigits rest).map fun n => -(n : ℤ)
  | '+' :: rest => (leadingDigits rest).map fun n => (n : ℤ)
  | rest => (leadingDigits rest).map fun n => (n : ℤ)

def matchCronPart (part : List Char) (value min max : ℤ) : Bool :=
  let stepSplit := part.splitOn '/'
  let rangeExpr := stepSplit.headD []
  -- An empty step is no step.
  let step := match stepSplit[1]? with
    | some (c :: cs) => parseInt (c :: cs)
    | _ => some 1
  let range :=
    if rangeExpr = ['*'] then (some min, some max)
    else if '-' ∈ rangeExpr then
      let rangeSplit := rangeExpr.splitOn '-'
      (parseInt (rangeSplit.getD 0 []), parseInt (rangeSplit.getD 1 []))
    else (parseInt rangeExpr, parseInt rangeExpr)
  -- A comparison with NaN fails, and so does one with the remainder by zero.
  match range.1, range.2, step with
  | some start, some stop, some step =>
    start ≤ value && value ≤ stop && step ≠ 0 && (value - start).tmod step = 0
  | _, _, _ => false

def matchCronField (pattern : List Char) (value min max : ℤ) : Bool :=
  pattern = ['*'] ||
    (pattern.splitOn ',').any fun part => part = ['*'] || matchCronPart part value min max

def msPerMinute : ℤ := 60000

/-- The UTC minute of a time. -/
def minuteOf (t : ℤ) : ℤ := t / msPerMinute

def getUTCMinutes (t : ℤ) : ℤ := minuteOf t % 60

def getUTCHours (t : ℤ) : ℤ := minuteOf t / 60 % 24

/-- The number of the day, the first of January 1970 being 0. -/
def utcDay (t : ℤ) : ℤ := minuteOf t / 1440

def getUTCDay (t : ℤ) : ℤ := (utcDay t + 4) % 7

/-- The day of its year, where years begin on the first of March. -/
def dayOfYear (day : ℤ) : ℤ :=
  let dayOfEra := (day + 719468) % 146097
  let yearOfEra := (dayOfEra - dayOfEra / 1460 + dayOfEra / 36524 - dayOfEra / 146096) / 365
  dayOfEra - (365 * yearOfEra + yearOfEra / 4 - yearOfEra / 100)

/-- The month, March being 0. -/
def monthFromMarch (day : ℤ) : ℤ := (5 * dayOfYear day + 2) / 153

def getUTCDate (t : ℤ) : ℤ :=
  dayOfYear (utcDay t) - (153 * monthFromMarch (utcDay t) + 2) / 5 + 1

def getUTCMonth (t : ℤ) : ℤ := (monthFromMarch (utcDay t) + 2) % 12

/-- The fields of an expression, between white space. -/
def cronParts (cronExpr : String) : List (List Char) :=
  (cronExpr.toList.splitOnP isSpace).filter (· ≠ [])

def cronMatches (cronExpr : String) (date : ℤ) : Bool :=
  match cronParts cronExpr with
  | [minute, hour, dayOfMonth, month, dayOfWeek] =>
    matchCronField minute (getUTCMinutes date) 0 59 &&
      matchCronField hour (getUTCHours date) 0 23 &&
      matchCronField dayOfMonth (getUTCDate date) 1 31 &&
      matchCronField month (getUTCMonth date + 1) 1 12 &&
      matchCronField dayOfWeek (getUTCDay date) 0 6
  | _ => false

/-- A row of `scan_configs` with a schedule. -/
structure ScanConfig where
  id : String
  projectId : String
  configJson : String
  cronSchedule : String
  lastRunAt : Option ℤ

structure Owner where
  id : String
  publicKey : Option String

inductive Status where
  | queued
  | failed
  deriving DecidableEq

/-- A scan that the scheduler has inserted, and for which configuration. -/
structure Scan where
  id : String
  projectId : String
  targetUrl : String
  profile : String
  status : Status
  userId : String
  configId : String
  time : ℤ

/-- A message of the scan queue. -/
structure Message where
  runId : String
  userPublicKey : String
  targetUrl : String
  profile : String
  projectId : String
  userId : String

structure Db where
  configs : List ScanConfig
  scans : List Scan
  queue : List Message

/-- What an invocation meets: owners, the target and profile read from a configuration, new
identifiers, and whether the database, the storage and the queue take what they are given. -/
structure Env where
  getProjectOwnerForScan : String → Except Unit (Option Owner)
  readConfig : String → Except Unit (String × String)
  randomUUID : String → String
  inserts : String → Bool
  queues : String → Bool

def Db.triggerScheduledScan (db : Db) (scan : Scan) : Db :=
  { db with
    configs := db.configs.map fun c =>
      if c.id = scan.configId then { c with lastRunAt := some scan.time } else c
    scans := db.scans ++ [scan] }

def Db.updateScanStatus (db : Db) (runId : String) (status : Status) : Db :=
  { db with scans := db.scans.map fun s => if s.id = runId then { s with status := status } else s }

/-- The body of the loop over the matching configurations. -/
def processConfig (env : Env) (now : ℤ) (db : Db) (config : ScanConfig) : Db :=
  match env.getProjectOwnerForScan config.projectId, env.readConfig config.configJson with
  | .ok (some activeOwner), .ok (targetUrl, profile) =>
    let runId := env.randomUUID config.id
    if env.inserts config.id then
      let db := db.triggerScheduledScan
        ⟨runId, config.projectId, targetUrl, profile, .queued, activeOwner.id, config.id, now⟩
      if env.queues config.id then
        { db with queue := db.queue ++ [⟨runId, activeOwner.publicKey.getD "", targetUrl, profile,
          config.projectId, activeOwner.id⟩] }
      else db.updateScanStatus runId .failed
    else db
  | _, _ => db

def dedupWindow : ℤ := 50000

/-- A configuration that matches and has not run just before. -/
def ScanConfig.due (config : ScanConfig) (now : ℤ) : Bool :=
  !(config.lastRunAt.any fun lastRun => decide (now - lastRun < dedupWindow)) &&
    cronMatches config.cronSchedule now

def handleScheduledScans (env : Env) (now : ℤ) (db : Db) : Db :=
  (db.configs.filter fun config => config.due now).foldl (processConfig env now) db

example : cronMatches "30 12 1 1 3" 1735734600000 = true := by decide
example : cronMatches "*/7 * * * *" 1735734600000 = false := by decide
example : cronMatches "0-45/15 * 28-31 2,12 *" 1709209800000 = true := by decide

end Swazz.Scheduler
