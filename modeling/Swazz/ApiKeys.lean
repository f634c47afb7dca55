import Swazz.AtomicCalls

/-! API keys: a request that is identified by one, and the rotation of a user's key. The key
itself is in the database, the answers of the last minutes in a store shared by all isolates
and, where a key was refused, in the memory of the isolate that refused it. -/
namespace Swazz.ApiKeys

open AtomicCalls

def startsWith (text start : String) : Bool := start.toList.isPrefixOf text.toList

/-- A key in plain text, and not the digest of one. -/
def isPlain (key : String) : Bool := startsWith key "swazz_live_"

/-- What a deployment is configured with: `hashApiKey` gives 64 hexadecimal digits. -/
structure Env where
  SESSION_CACHE : Bool
  hashApiKey : String → String
  hex : ∀ key, (hashApiKey key).toList.length = 64 ∧
    ∀ c ∈ (hashApiKey key).toList, c ∈ "0123456789abcdef".toList

/-- The digest of a stored key; older accounts have their key in plain text. -/
def Env.digest (env : Env) (stored : String) : String :=
  if isPlain stored then env.hashApiKey stored else stored

/-- The accounts and their column `api_key`, the entries of the shared store under `apikey:`,
and for each isolate what it refuses until when, the oldest first. -/
structure KeyStore where
  users : List String
  apiKey : String → Option String
  kv : String → Option String
  kvUp : Bool
  negativeApiKeyCache : String → List (String × ℕ)
  now : ℕ

inductive Op where
  | checkNegative (isolate cacheKey : String)
  | kvGet (cacheKey : String)
  | selectByKey (apiKey : String)
  | migrateKey (hashedToken userId : String)
  | dropNegative (isolate cacheKey : String)
  | kvPut (cacheKey userId : String)
  | setNegative (isolate cacheKey : String)
  | getUserById (userId : String)
  | updateUserApiKey (userId hashedApiKey : String)
  | kvDelete (cacheKey : String)
  deriving DecidableEq

/-- A call of the shared store answers whether it succeeded, an update whether the key was not
another account's. -/
@[reducible] def Answer : Op → Type
  | .checkNegative _ _ => Bool
  | .kvGet _ => Option String
  | .selectByKey _ => Option String
  | .getUserById _ => Option (Option String)
  | .updateUserApiKey _ _ => Bool
  | .kvDelete _ => Bool
  | .kvPut _ _ => Bool
  | _ => Unit

namespace KeyStore

def NEGATIVE_API_KEY_TTL_MS : ℕ := 60000

def MAX_NEGATIVE_API_KEY_ENTRIES : ℕ := 1000

def negExpiry (s : KeyStore) (isolate cacheKey : String) : Option ℕ :=
  ((s.negativeApiKeyCache isolate).find? fun entry => entry.1 = cacheKey).map Prod.snd

def setNegatives (s : KeyStore) (isolate : String) (entries : List (String × ℕ)) : KeyStore :=
  { s with negativeApiKeyCache := Function.update s.negativeApiKeyCache isolate entries }

def setKv (s : KeyStore) (cacheKey : String) (entry : Option String) : KeyStore :=
  { s with kv := Function.update s.kv cacheKey entry }

def dropNegative (s : KeyStore) (isolate cacheKey : String) : KeyStore :=
  s.setNegatives isolate ((s.negativeApiKeyCache isolate).filter fun entry => entry.1 ≠ cacheKey)

/-- A key that is refused again keeps its place. -/
def refuse (entries : List (String × ℕ)) (cacheKey : String) (expiry : ℕ) :
    List (String × ℕ) :=
  let kept := if entries.length ≥ MAX_NEGATIVE_API_KEY_ENTRIES then entries.tail else entries
  if kept.any fun entry => entry.1 = cacheKey then
    kept.map fun entry => if entry.1 = cacheKey then (cacheKey, expiry) else entry
  else kept ++ [(cacheKey, expiry)]

/-- Each user with the key. -/
def hasKey (s : KeyStore) (apiKey userId : String) : Bool :=
  decide (userId ∈ s.users) && decide (s.apiKey userId = some apiKey)

/-- `api_key` is unique. -/
def updateApiKey (s : KeyStore) (userId apiKey : String) : Bool × KeyStore :=
  if s.users.any fun other => decide (other ≠ userId) && s.hasKey apiKey other then (false, s)
  else if userId ∈ s.users then
    (true, { s with apiKey := Function.update s.apiKey userId (some apiKey) })
  else (true, s)

def exec (s : KeyStore) : (op : Op) → Answer op × KeyStore
  | .checkNegative isolate cacheKey =>
    match s.negExpiry isolate cacheKey with
    | none => (false, s)
    | some expiry =>
      if s.now < expiry then (true, s) else (false, s.dropNegative isolate cacheKey)
  | .kvGet cacheKey => (if s.kvUp then s.kv cacheKey else none, s)
  | .selectByKey apiKey => (s.users.find? fun userId => s.hasKey apiKey userId, s)
  | .migrateKey hashedToken userId => ((), (s.updateApiKey userId hashedToken).2)
  | .dropNegative isolate cacheKey => ((), s.dropNegative isolate cacheKey)
  | .kvPut cacheKey userId =>
    if s.kvUp then (true, s.setKv cacheKey (some userId)) else (false, s)
  | .setNegative isolate cacheKey =>
    ((), s.setNegatives isolate
      (refuse (s.negativeApiKeyCache isolate) cacheKey (s.now + NEGATIVE_API_KEY_TTL_MS)))
  | .getUserById userId => (if userId ∈ s.users then some (s.apiKey userId) else none, s)
  | .updateUserApiKey userId hashedApiKey => s.updateApiKey userId hashedApiKey
  | .kvDelete cacheKey =>
    if s.kvUp then (true, s.setKv cacheKey none) else (false, s)

end KeyStore

/-- Time passes, an entry of the shared store expires, the store goes down and comes up, an
isolate starts anew. -/
inductive World where
  | tick (ms : ℕ)
  | expire (cacheKey : String)
  | setKvUp (up : Bool)
  | restart (isolate : String)

def KeyStore.pass (s : KeyStore) : World → KeyStore
  | .tick ms => { s with now := s.now + ms }
  | .expire cacheKey => s.setKv cacheKey none
  | .setKvUp up => { s with kvUp := up }
  | .restart isolate => s.setNegatives isolate []

def perform (op : Op) : Calls Answer (Answer op) := Calls.perform op

namespace AuthRepository

def verifyApiKey (hashedToken plainToken : String) : Calls Answer (Option String) := do
  let user ← perform (.selectByKey hashedToken)
  match user with
  | some id => return some id
  | none => do
    let user ← perform (.selectByKey plainToken)
    match user with
    | none => return none
    | some id => do
      perform (.migrateKey hashedToken id)
      return some id

end AuthRepository

/-- What identifies a request: the user of a redeemed ticket, its token, and who the token is
for if it is a session. -/
structure KeyLookup where
  isolate : String
  streamTicketUser : Option String
  token : Option String
  subject : Option String
  deriving DecidableEq

/-- The answer for a key is kept. -/
def remember (env : Env) (isolate cacheKey : String) :
    Option String → Calls Answer (Option String)
  | some userId => do
    perform (.dropNegative isolate cacheKey)
    if env.SESSION_CACHE then do
      let _ ← perform (.kvPut cacheKey userId)
      return some userId
    else return some userId
  | none => do
    perform (.setNegative isolate cacheKey)
    return none

def queryKey (env : Env) (isolate token : String) : Calls Answer (Option String) := do
  let userId ← AuthRepository.verifyApiKey (env.hashApiKey token) token
  remember env isolate (env.hashApiKey token) userId

def lookUpKey (env : Env) (isolate token : String) : Calls Answer (Option String) := do
  let refused ← perform (.checkNegative isolate (env.hashApiKey token))
  if refused then return none
  else if env.SESSION_CACHE then do
    let cached ← perform (.kvGet (env.hashApiKey token))
    match cached with
    | some userId => return some userId
    | none => queryKey env isolate token
  else queryKey env isolate token

def getUserIdFromRequest (env : Env) (r : KeyLookup) : Calls Answer (Option String) :=
  match r.streamTicketUser.filter fun u => !u.isEmpty with
  | some userId => return some userId
  | none =>
    match r.token.filter fun t => !t.isEmpty with
    | none => return none
    | some token =>
      if isPlain token then lookUpKey env r.isolate token else return r.subject

/-- The entry of the old key goes, and if that succeeds the new one is written. -/
def recache (env : Env) (userId hashedNewApiKey : String) (oldKey : Option String) :
    Calls Answer Bool :=
  match oldKey.filter fun key => !key.isEmpty with
  | none => perform (.kvPut hashedNewApiKey userId)
  | some stored => do
    let deleted ← perform (.kvDelete (env.digest stored))
    if deleted then perform (.kvPut hashedNewApiKey userId) else return false

def newKey (uuid : String) : String := "swazz_live_" ++ uuid

/-- Once the new key is stored. -/
def announceKey (env : Env) (userId uuid : String) (oldKey : Option String) :
    Calls Answer (Except String String) :=
  if env.SESSION_CACHE then do
    let _ ← recache env userId (env.hashApiKey (newKey uuid)) oldKey
    return .ok (newKey uuid)
  else return .ok (newKey uuid)

/-- From the reading of the user on. -/
def replaceKey (env : Env) (userId uuid : String) (oldKey : Option String) :
    Calls Answer (Except String String) := do
  let unique ← perform (.updateUserApiKey userId (env.hashApiKey (newKey uuid)))
  if unique then announceKey env userId uuid oldKey
  else return .error "UNIQUE constraint failed: users.api_key"

/-- `uuid` is what the random generator gives. -/
def regenerateApiKey (env : Env) (userId uuid : String) :
    Calls Answer (Except String String) := do
  let oldUser ← perform (.getUserById userId)
  match oldUser with
  | none => return .error "Unauthorized|401"
  | some oldKey => replaceKey env userId uuid oldKey

inductive KeyRequest where
  | lookUp (r : KeyLookup)
  | regenerate (userId uuid : String)

inductive KeyAnswer where
  | user (userId : Option String)
  | key (apiKey : Except String String)

def serve (env : Env) : KeyRequest → Calls Answer KeyAnswer
  | .lookUp r => do
    let userId ← getUserIdFromRequest env r
    return .user userId
  | .regenerate userId uuid => do
    let apiKey ← regenerateApiKey env userId uuid
    return .key apiKey

end Swazz.ApiKeys
