import Swazz.AuthCalls
import Swazz.TurnTaking

/-! A login with the two limits it is under: the request rate of its address and the lockout of
its username. Both are a row that is read in one statement and written in a later one. -/
namespace Swazz.LoginCalls

open AtomicCalls
open AuthCalls (Challenge)

/-- A row of `rate_limits`; times are in milliseconds. -/
structure RateLimit where
  attempts : ℕ
  resetAt : ℕ
  deriving DecidableEq

/-- A row of `login_attempts`. -/
structure LoginAttempts where
  failedCount : ℕ
  lockedUntil : Option ℕ
  deriving DecidableEq

/-- What a login reads of a row of `users`. -/
structure User where
  id : String
  passwordHash : String
  isInteractive : Bool
  twoFactorEnabled : Bool
  twoFactorSecret : Option String

/-- The tables by their primary keys, the users by their names. -/
structure LoginStore where
  rateLimits : String → Option RateLimit
  loginAttempts : String → Option LoginAttempts
  loginChallenges : String → Option Challenge
  users : String → Option User
  lastCounters : String → Option ℕ
  now : ℕ

inductive Op where
  | now
  | deleteExpiredRateLimits
  | selectRateLimit (key : String)
  | insertRateLimit (key : String) (resetAt : ℕ)
  | resetRateLimit (key : String) (resetAt : ℕ)
  | incrementRateLimit (key : String)
  | selectChallenge (token : String)
  | deleteChallenge (token : String)
  | selectLoginAttempts (username : String)
  | clearLock (username : String)
  | recordFailedLogin (username : String) (lockedUntil : ℕ)
  | resetLoginAttempts (username : String)
  | getUserByUsername (username : String)
  | consumeTotpCounter (userId : String) (counter : ℕ)
  | recordLoginHistory (userId status : String)
  deriving DecidableEq

/-- The insert answers whether it succeeded; the key is the primary one. -/
@[reducible] def Answer : Op → Type
  | .now => ℕ
  | .selectRateLimit _ => Option RateLimit
  | .insertRateLimit _ _ => Bool
  | .selectChallenge _ => Option Challenge
  | .selectLoginAttempts _ => Option LoginAttempts
  | .getUserByUsername _ => Option User
  | .consumeTotpCounter _ _ => Bool
  | _ => Unit

/-- Dates are stored without their milliseconds. -/
def toSeconds (ms : ℕ) : ℕ := ms / 1000 * 1000

namespace LoginStore

def setRateLimit (s : LoginStore) (key : String) (row : Option RateLimit) : LoginStore :=
  { s with rateLimits := Function.update s.rateLimits key row }

def setAttempts (s : LoginStore) (username : String) (row : Option LoginAttempts) :
    LoginStore :=
  { s with loginAttempts := Function.update s.loginAttempts username row }

/-- One failure more; the fifth sets the lock. -/
def failed (row : Option LoginAttempts) (lockedUntil : ℕ) : LoginAttempts :=
  match row with
  | none => ⟨1, none⟩
  | some row =>
    ⟨row.failedCount + 1, if row.failedCount + 1 ≥ 5 then some lockedUntil else none⟩

def exec (s : LoginStore) : (op : Op) → Answer op × LoginStore
  | .now => (s.now, s)
  | .deleteExpiredRateLimits =>
    ((), { s with
      rateLimits := fun key => (s.rateLimits key).filter fun row => toSeconds s.now ≤ row.resetAt })
  | .selectRateLimit key => (s.rateLimits key, s)
  | .insertRateLimit key resetAt =>
    match s.rateLimits key with
    | some _ => (false, s)
    | none => (true, s.setRateLimit key (some ⟨1, resetAt⟩))
  | .resetRateLimit key resetAt =>
    ((), s.setRateLimit key ((s.rateLimits key).map fun _ => ⟨1, resetAt⟩))
  | .incrementRateLimit key =>
    ((), s.setRateLimit key
      ((s.rateLimits key).map fun row => { row with attempts := row.attempts + 1 }))
  | .selectChallenge token => (s.loginChallenges token, s)
  | .deleteChallenge token =>
    ((), { s with loginChallenges := Function.update s.loginChallenges token none })
  | .selectLoginAttempts username => (s.loginAttempts username, s)
  | .clearLock username =>
    ((), s.setAttempts username ((s.loginAttempts username).map fun _ => ⟨0, none⟩))
  | .recordFailedLogin username lockedUntil =>
    ((), s.setAttempts username (some (failed (s.loginAttempts username) lockedUntil)))
  | .resetLoginAttempts username => ((), s.setAttempts username none)
  | .getUserByUsername username => (s.users username, s)
  | .consumeTotpCounter userId counter =>
    if (s.lastCounters userId).all fun last => decide (last < counter) then
      (true, { s with lastCounters := Function.update s.lastCounters userId (some counter) })
    else (false, s)
  | .recordLoginHistory _ _ => ((), s)

end LoginStore

abbrev Service (α : Type) : Type := ExceptT String (Calls Answer) α

def perform (op : Op) : Calls Answer (Answer op) := Calls.perform op

def refuseIf (cond : Bool) (message : String) : Service Unit :=
  if cond then throw message else pure ()

namespace AuthRepository

/-- Whether the call is limited, by the row it read. -/
def countRequest (key : String) (maxAttempts now resetAt : ℕ) :
    Option RateLimit → Service Bool
  | none => do
    if ← perform (.insertRateLimit key resetAt) then return false
    else throw "UNIQUE constraint failed: rate_limits.key"
  | some row =>
    if row.resetAt < now then do
      perform (.resetRateLimit key resetAt)
      return false
    else if row.attempts ≥ maxAttempts then return true
    else do
      perform (.incrementRateLimit key)
      return false

/-- One call in a hundred cleans up first. -/
def checkIpRateLimit (key : String) (maxAttempts windowSeconds : ℕ) : Service Bool := do
  let now ← perform .now
  let cleanUp ← (.choose fun b => .ret b : Calls Answer Bool)
  if cleanUp then perform .deleteExpiredRateLimits
  let row ← perform (.selectRateLimit key)
  countRequest key maxAttempts now (toSeconds (now + windowSeconds * 1000)) row

/-- Whether a row locks its username; an expired lock is cleared. -/
def judgeLock (username : String) (row : Option LoginAttempts) : Calls Answer Bool :=
  match row.bind fun row => row.lockedUntil with
  | none => return false
  | some lockedUntil => do
    let now ← perform .now
    if lockedUntil > now then return true
    else
      perform (.clearLock username)
      return false

def checkLoginRateLimit (username : String) : Calls Answer Bool := do
  let row ← perform (.selectLoginAttempts username)
  judgeLock username row

def recordFailedLogin (username : String) : Calls Answer Unit := do
  let now ← perform .now
  perform (.recordFailedLogin username (toSeconds (now + 15 * 60 * 1000)))

def getAndConsumeChallenge (token : Option String) : Calls Answer (Option Challenge) :=
  match token.filter fun t => !t.isEmpty with
  | none => return none
  | some token => do
    let challengeRow ← perform (.selectChallenge token)
    if challengeRow.isSome then
      perform (.deleteChallenge token)
      return challengeRow
    else return none

end AuthRepository

/-- What the service is deployed with, and what its libraries compute. -/
structure Env where
  JWT_SECRET : Bool
  isTestEnv : Bool
  sha256Hex : String → String
  verifyPassword : String → String → Bool
  decryptTOTPSecret : String → String → Option String
  matchTOTP : String → String → Option ℕ

/-- `turnstileError` is what the Turnstile check says of the request, if it refuses it. -/
structure LoginRequest where
  clientIp : String
  turnstileError : Option String
  token : Option String
  username : Option String
  nonce : String
  password : String
  twoFactorCode : Option String

namespace AuthService

open AuthRepository

def solves (env : Env) (row : Challenge) (nonce : String) : Bool :=
  (List.replicate row.difficulty '0').isPrefixOf (env.sha256Hex (row.challenge ++ nonce)).toList

/-- Who logs in: the name of the challenge that the request solves. -/
def loginUsername (env : Env) (r : LoginRequest) : Service String :=
  match (r.username.filter fun u => !u.isEmpty),
      env.isTestEnv && r.token.all fun t => t.isEmpty with
  | some username, true => return username
  | _, _ =>
    match r.turnstileError with
    | some message => throw message
    | none => do
      let challengeRow ← getAndConsumeChallenge r.token
      match challengeRow with
      | none => throw "Session expired or invalid login token|401"
      | some row =>
        let now ← perform .now
        refuseIf (decide (row.expiresAt < now)) "Session expired|401"
        refuseIf (!solves env row r.nonce) "Proof of work verification failed|403"
        return row.username

/-- A failure goes on record before it is reported. -/
def rejectLogin (username : String) (user : User) (status : String) : Service String := do
  recordFailedLogin username
  let locked ← checkLoginRateLimit username
  perform (.recordLoginHistory user.id (if locked then "locked" else status))
  throw "Invalid credentials|401"

def acceptLogin (env : Env) (username : String) (user : User) : Service String := do
  perform (.resetLoginAttempts username)
  perform (.recordLoginHistory user.id "success")
  refuseIf (!env.JWT_SECRET) "Internal server error: auth not configured|500"
  return "ok"

def acceptTotp (env : Env) (userId secret code : String) : Calls Answer Bool :=
  match env.matchTOTP secret code with
  | none => return false
  | some counter => perform (.consumeTotpCounter userId counter)

/-- After the password: the second factor, if the account has one. -/
def secondFactor (env : Env) (r : LoginRequest) (username : String) (user : User) :
    Service String :=
  if user.twoFactorEnabled then
    match r.twoFactorCode.filter fun c => !c.isEmpty with
    | none => return "2fa_required"
    | some code =>
      match user.twoFactorSecret.filter fun s => !s.isEmpty with
      | none => throw "Internal server error: 2FA configured incorrectly|500"
      | some encrypted =>
        match env.decryptTOTPSecret encrypted r.password with
        | none => rejectLogin username user "failed_password"
        | some secret => do
          let isValid2fa ← acceptTotp env user.id secret code
          if isValid2fa then acceptLogin env username user
          else rejectLogin username user "failed_2fa"
  else acceptLogin env username user

/-- Once the name is known: the lock, the account and its password. -/
def loginAs (env : Env) (r : LoginRequest) (username : String) : Service String := do
  let locked ← checkLoginRateLimit username
  refuseIf locked "Account temporarily locked due to too many failed attempts|429"
  let user ← perform (.getUserByUsername username)
  match user with
  | none =>
    recordFailedLogin username
    throw "Invalid credentials|401"
  | some user =>
    refuseIf (!user.isInteractive) "Interactive login is disabled for service accounts|403"
    if env.verifyPassword r.password user.passwordHash then secondFactor env r username user
    else rejectLogin username user "failed_password"

def login (env : Env) (r : LoginRequest) : Service String := do
  let limited ← checkIpRateLimit ("ip:" ++ r.clientIp) 30 60
  refuseIf limited "Too many requests. Please try again later.|429"
  let username ← loginUsername env r
  loginAs env r username

end AuthService

end Swazz.LoginCalls
