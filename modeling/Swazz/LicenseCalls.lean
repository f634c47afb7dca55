import Mathlib
import Swazz.AtomicCalls
import Swazz.LicenseTokens

/-! The license service: its calls to the users' rows and to the cache, each of which may fail.
Times are milliseconds. -/
namespace Swazz.LicenseService

open AtomicCalls
open RunnerAccess (JsString)
open License (LicenseInfo LicenseError DateText)

def TRIAL_COOLDOWN_MS : ℤ := 24 * 60 * 60 * 1000

def expirationTtl : ℤ := 300 * 1000

/-- The columns of a user that the service reads; a date is `some none` where it is no date. -/
structure User where
  license_key : Option JsString
  trial_claimed_at : Option (Option ℤ)

/-- The trial status that a claim goes by. -/
structure TrialStatus where
  claimed : Bool
  claimed_at : Option (Option ℤ)
  can_claim : Bool
  cooldown_remaining_ms : ℤ
  next_available_at : Option ℤ
  deriving DecidableEq

/-- The calls, and the clock. What is put into the cache comes with the key that it was read
from, and a claim with the status that it goes by. -/
inductive Op where
  | clock
  | kvGet (userId : String)
  | kvPut (userId : String) (license : LicenseInfo) (key : JsString)
  | kvDelete (userId : String)
  | getLicenseKey (userId : String)
  | setLicenseKey (userId : String) (licenseKey : Option JsString)
  | getTrialClaimedAt (userId : String)
  | setTrialClaimedAt (userId : String) (trialStatus : TrialStatus)
  deriving DecidableEq

@[reducible] def Value : Op → Type
  | .clock => ℤ
  | .kvGet _ => Option LicenseInfo
  | .getLicenseKey _ => Option JsString
  | .getTrialClaimedAt _ => Option (Option ℤ)
  | _ => Unit

/-- `none` where the call fails. -/
@[reducible] def Answer (op : Op) : Type := Option (Value op)

/-- The rows, the cache with the time at which an entry ends, and the trials that were recorded:
whose, by which request, and when. -/
structure Store where
  users : String → User
  cache : String → Option (LicenseInfo × ℤ)
  now : ℤ
  dbFailing : Bool
  kvFailing : Bool
  recorded : List (String × ℕ × ℤ)

namespace Store

def setUser (s : Store) (userId : String) (f : User → User) : Store :=
  { s with users := fun u => if u = userId then f (s.users u) else s.users u }

def setCache (s : Store) (userId : String) (entry : Option (LicenseInfo × ℤ)) : Store :=
  { s with cache := fun u => if u = userId then entry else s.cache u }

/-- The entry, until it ends. -/
def cached (s : Store) (userId : String) : Option LicenseInfo :=
  (s.cache userId).bind fun entry => if s.now < entry.2 then some entry.1 else none

/-- `CURRENT_TIMESTAMP`, which has whole seconds. -/
def timestamp (s : Store) : ℤ := s.now / 1000 * 1000

def exec (i : ℕ) (s : Store) : (op : Op) → Answer op × Store
  | .clock => (some s.now, s)
  | .kvGet userId => if s.kvFailing then (none, s) else (some (s.cached userId), s)
  | .kvPut userId license _ =>
    if s.kvFailing then (none, s)
    else (some (), s.setCache userId (some (license, s.now + expirationTtl)))
  | .kvDelete userId => if s.kvFailing then (none, s) else (some (), s.setCache userId none)
  | .getLicenseKey userId =>
    if s.dbFailing then (none, s) else (some (s.users userId).license_key, s)
  | .setLicenseKey userId licenseKey =>
    if s.dbFailing then (none, s)
    else (some (), s.setUser userId fun u => { u with license_key := licenseKey })
  | .getTrialClaimedAt userId =>
    if s.dbFailing then (none, s) else (some (s.users userId).trial_claimed_at, s)
  | .setTrialClaimedAt userId _ =>
    if s.dbFailing then (none, s)
    else
      let dated := s.setUser userId fun u => { u with trial_claimed_at := some (some s.timestamp) }
      (some (), { dated with recorded := s.recorded ++ [(userId, i, s.now)] })

end Store

/-- What the service is given: the verification of a key at a time, the dates that `new Date`
reads, where a sigma is final, and the token of a trial for a name, if trials are configured. -/
structure Env where
  verifyToken : JsString → ℤ → Bool → Except LicenseError LicenseInfo
  readDate : DateText → Option ℤ
  isFinal : JsString → ℕ → Bool
  trialToken : String → ℤ → Option JsString

inductive Failure where
  | unavailable
  | license (e : LicenseError)
  | cooldown (hoursLeft : ℤ)
  | notConfigured
  deriving DecidableEq

inductive Status where
  | community
  | active
  | expired
  | invalid
  deriving DecidableEq

inductive Outcome where
  | failed (why : Failure)
  | ok (license : Option LicenseInfo)
  | status (status : Status) (license : Option LicenseInfo)
  | feature (granted : Bool)
  | trial (status : TrialStatus)
  deriving DecidableEq

def perform (op : Op) : Calls Answer (Answer op) := Calls.perform op

/-- A call whose failure ends the request. -/
def orFail (op : Op) (next : Value op → Calls Answer Outcome) : Calls Answer Outcome :=
  .call op fun answer =>
    match answer with
    | none => .ret (.failed .unavailable)
    | some value => next value

/-- A call to the cache that failed found nothing. -/
def getCachedLicense (userId : String) : Calls Answer (Option LicenseInfo) :=
  (perform (.kvGet userId)).bind fun raw => .ret (raw.getD none)

def setCachedLicense (userId : String) (license : LicenseInfo) (key : JsString) :
    Calls Answer Unit :=
  (perform (.kvPut userId license key)).bind fun _ => .ret ()

def deleteCachedLicense (userId : String) : Calls Answer Unit :=
  (perform (.kvDelete userId)).bind fun _ => .ret ()

inductive Reason where
  | ok
  | expired
  | invalid
  deriving DecidableEq

/-- A cached license is expired when its date is a date and past. -/
def Env.isExpired (env : Env) (license : LicenseInfo) (now : ℤ) : Bool :=
  match env.readDate license.expires_at with
  | none => false
  | some expires => license.expires_at ≠ .other [] ∧ expires < now

def loadLicenseDetailed (env : Env) (userId : String)
    (next : Option LicenseInfo → Reason → Calls Answer Outcome) : Calls Answer Outcome :=
  (getCachedLicense userId).bind fun cached =>
    match cached with
    | some license =>
      orFail .clock fun now =>
        next (some license) (if env.isExpired license now then .expired else .ok)
    | none =>
      orFail (.getLicenseKey userId) fun key =>
        match key.filter (· ≠ []) with
        | none => next none .invalid
        | some key =>
          orFail .clock fun now =>
            match env.verifyToken key now false with
            | .ok license =>
              (setCachedLicense userId license key).bind fun _ => next (some license) .ok
            | .error .licenseExpired =>
              match env.verifyToken key now true with
              | .ok expiredLicense => next (some expiredLicense) .expired
              | .error _ => next none .invalid
            | .error _ => next none .invalid

def activate (env : Env) (userId : String) (licenseKey : JsString) : Calls Answer Outcome :=
  orFail .clock fun now =>
    match env.verifyToken licenseKey now false with
    | .error e => .ret (.failed (.license e))
    | .ok license =>
      let key := License.trim License.jsSpace licenseKey
      orFail (.setLicenseKey userId (some key)) fun _ =>
        (setCachedLicense userId license key).bind fun _ => .ret (.ok (some license))

def deactivate (userId : String) : Calls Answer Outcome :=
  orFail (.setLicenseKey userId none) fun _ =>
    (deleteCachedLicense userId).bind fun _ => .ret (.ok none)

def getStatus (env : Env) (userId : String) : Calls Answer Outcome :=
  loadLicenseDetailed env userId fun license reason =>
    match reason, license with
    | .ok, some license => .ret (.status .active (some license))
    | .expired, some license => .ret (.status .expired (some license))
    | _, _ =>
      orFail (.getLicenseKey userId) fun key =>
        .ret (.status (if (key.filter (· ≠ [])).isSome then .invalid else .community) none)

/-- `loadLicense` and then `hasFeatureIn`. -/
def hasFeature (env : Env) (userId : String) (feature : JsString) : Calls Answer Outcome :=
  loadLicenseDetailed env userId fun license reason =>
    .ret (.feature (match reason, license with
      | .ok, some license => License.hasFeatureIn env.isFinal license feature
      | _, _ => false))

/-- The status by the recorded date, at the time of the clock. -/
def trialStatusAt (claimedAt : Option (Option ℤ)) (now : ℤ) : TrialStatus :=
  match claimedAt with
  | none => ⟨false, none, true, 0, none⟩
  | some none => ⟨true, claimedAt, true, 0, none⟩
  | some (some lastClaimed) =>
    let elapsed := now - lastClaimed
    if elapsed ≥ TRIAL_COOLDOWN_MS then ⟨true, claimedAt, true, 0, none⟩
    else
      ⟨true, claimedAt, false, TRIAL_COOLDOWN_MS - elapsed, some (lastClaimed + TRIAL_COOLDOWN_MS)⟩

def getTrialStatus (userId : String) (next : TrialStatus → Calls Answer Outcome) :
    Calls Answer Outcome :=
  orFail (.getTrialClaimedAt userId) fun claimedAt =>
    orFail .clock fun now => next (trialStatusAt claimedAt now)

/-- Rounded up, and one hour at least. -/
def hoursLeft (cooldown_remaining_ms : ℤ) : ℤ :=
  max 1 ((cooldown_remaining_ms + (60 * 60 * 1000 - 1)) / (60 * 60 * 1000))

def claimTrial (env : Env) (userId username : String) : Calls Answer Outcome :=
  getTrialStatus userId fun trialStatus =>
    if trialStatus.can_claim = false then
      .ret (.failed (.cooldown (hoursLeft trialStatus.cooldown_remaining_ms)))
    else
      orFail .clock fun now =>
        match env.trialToken username now with
        | none => .ret (.failed .notConfigured)
        | some token =>
          orFail .clock fun now =>
            match env.verifyToken token now false with
            | .error e => .ret (.failed (.license e))
            | .ok license =>
              orFail (.setTrialClaimedAt userId trialStatus) fun _ =>
                orFail (.setLicenseKey userId (some token)) fun _ =>
                  (setCachedLicense userId license token).bind fun _ => .ret (.ok (some license))

inductive Request where
  | activate (userId : String) (licenseKey : JsString)
  | deactivate (userId : String)
  | getStatus (userId : String)
  | hasFeature (userId : String) (feature : JsString)
  | getTrialStatus (userId : String)
  | claimTrial (userId username : String)
  deriving DecidableEq

def serve (env : Env) : Request → Calls Answer Outcome
  | .activate userId licenseKey => activate env userId licenseKey
  | .deactivate userId => deactivate userId
  | .getStatus userId => getStatus env userId
  | .hasFeature userId feature => hasFeature env userId feature
  | .getTrialStatus userId => getTrialStatus userId fun status => .ret (.trial status)
  | .claimTrial userId username => claimTrial env userId username

/-- Time passes, and the database or the cache fails for a while. -/
inductive Event where
  | elapse (ms : ℕ)
  | setDbFailing (failing : Bool)
  | setKvFailing (failing : Bool)

def happen (s : Store) : Event → Store
  | .elapse ms => { s with now := s.now + ms }
  | .setDbFailing failing => { s with dbFailing := failing }
  | .setKvFailing failing => { s with kvFailing := failing }

/-- Any number of these requests at once. -/
def requests (env : Env) : System Answer Store Request Event Outcome where
  exec i _ op s := s.exec i op
  body := serve env
  world e s := happen s e

/-- No request of the service has run yet. -/
def start (users : String → User) (cache : String → Option (LicenseInfo × ℤ)) (now : ℤ) : Store :=
  ⟨users, cache, now, false, false, []⟩

end Swazz.LicenseService
