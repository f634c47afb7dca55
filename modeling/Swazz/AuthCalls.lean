import Mathlib.Logic.Function.Basic
import Swazz.AtomicCalls
import Swazz.Validation

/-! The credentials that are good for one use: where they are kept, and the requests that
spend them as the calls they make. Statements of D1 and operations of KV are atomic. -/
namespace Swazz.AuthCalls

open AtomicCalls

/-- A row of `login_challenges`; the times are in milliseconds. -/
structure Challenge where
  username : String
  challenge : String
  difficulty : ℕ
  expiresAt : ℕ
  deriving DecidableEq

/-- What a request reads of a row of `users`. -/
structure User where
  username : String
  twoFactorEnabled : Bool
  twoFactorSecret : Option String
  twoFactorLastCounter : Option ℕ
  emailVerified : Bool
  deriving DecidableEq

inductive KvKey where
  | oauthCode (code : String)
  | emailVerify (token : String)
  | passkeyLogin (userId : String)
  | passkeyLoginChallenge (challenge : String)
  deriving DecidableEq

/-- A value as it parses. -/
inductive KvValue where
  | exchange (token binding : String)
  | email (userId email : String)
  | challenge (challenge : String)
  | malformed
  deriving DecidableEq

/-- The tables by their primary keys, and KV. -/
structure AuthStore where
  loginChallenges : String → Option Challenge
  usedPasskeyChallenges : List String
  users : String → Option User
  usernames : String → Option String
  passkeys : String → Option String
  kv : KvKey → Option KvValue
  now : ℕ

inductive Op where
  | now
  | createLoginChallenge (token username challenge : String) (difficulty expiresAt : ℕ)
  | selectChallenge (token : String) (expectedUsername : Option String)
  | deleteChallenge (token : String)
  | createGuestUser (userId username : String)
  | getUserById (userId : String)
  | getUserByUsername (username : String)
  | updateUserTwoFactorSecret (userId : String) (encryptedSecret : Option String)
      (enabled : Bool)
  | consumeTotpCounter (userId : String) (counter : ℕ)
  | getPasskeyByCredentialId (credentialId : String)
  | consumePasskeyChallenge (challenge : String)
  | verifyUserEmail (userId : String)
  | kvPut (key : KvKey) (value : KvValue)
  | kvGet (key : KvKey)
  | kvDelete (key : KvKey)
  deriving DecidableEq

@[reducible] def Answer : Op → Type
  | .now => ℕ
  | .selectChallenge _ _ => Option Challenge
  | .getUserById _ => Option User
  | .getUserByUsername _ => Option (String × User)
  | .consumeTotpCounter _ _ | .consumePasskeyChallenge _ => Bool
  | .getPasskeyByCredentialId _ => Option String
  | .kvGet _ => Option KvValue
  | _ => Unit

namespace AuthStore

def setUser (s : AuthStore) (userId : String) (user : Option User) : AuthStore :=
  { s with users := Function.update s.users userId user }

/-- `SELECT … WHERE token = ?`, and `AND username = ?` when one is expected. -/
def selectChallenge (s : AuthStore) (token : String) (expectedUsername : Option String) :
    Option Challenge :=
  (s.loginChallenges token).filter fun row =>
    expectedUsername.all fun u => u.isEmpty || row.username == u

/-- The counter is newer than the one recorded. -/
def acceptsCounter (user : User) (counter : ℕ) : Bool :=
  user.twoFactorLastCounter.all fun last => decide (last < counter)

def exec (s : AuthStore) : (op : Op) → Answer op × AuthStore
  | .now => (s.now, s)
  | .createLoginChallenge token username challenge difficulty expiresAt =>
    ((), { s with
      loginChallenges := Function.update s.loginChallenges token
        (some ⟨username, challenge, difficulty, expiresAt⟩) })
  | .selectChallenge token expectedUsername => (s.selectChallenge token expectedUsername, s)
  | .deleteChallenge token =>
    ((), { s with loginChallenges := Function.update s.loginChallenges token none })
  | .createGuestUser userId username =>
    ((), { s with
      users := Function.update s.users userId (some ⟨username, false, none, none, false⟩)
      usernames := Function.update s.usernames username (some userId) })
  | .getUserById userId => (s.users userId, s)
  | .getUserByUsername username =>
    ((s.usernames username).bind fun userId => (s.users userId).map fun u => (userId, u), s)
  | .updateUserTwoFactorSecret userId encryptedSecret enabled =>
    -- Turning 2FA off forgets the replay marker.
    ((), s.setUser userId ((s.users userId).map fun u => { u with
      twoFactorSecret := encryptedSecret
      twoFactorEnabled := enabled
      twoFactorLastCounter := encryptedSecret.bind fun _ => u.twoFactorLastCounter }))
  | .consumeTotpCounter userId counter =>
    match (s.users userId).filter fun u => acceptsCounter u counter with
    | some u => (true, s.setUser userId (some { u with twoFactorLastCounter := some counter }))
    | none => (false, s)
  | .getPasskeyByCredentialId credentialId => (s.passkeys credentialId, s)
  | .consumePasskeyChallenge challenge =>
    if challenge ∈ s.usedPasskeyChallenges then (false, s)
    else (true, { s with usedPasskeyChallenges := challenge :: s.usedPasskeyChallenges })
  | .verifyUserEmail userId =>
    ((), s.setUser userId ((s.users userId).map fun u => { u with emailVerified := true }))
  | .kvPut key value => ((), { s with kv := Function.update s.kv key (some value) })
  | .kvGet key => (s.kv key, s)
  | .kvDelete key => ((), { s with kv := Function.update s.kv key none })

end AuthStore

abbrev Service (α : Type) : Type := ExceptT String (Calls Answer) α

def perform (op : Op) : Calls Answer (Answer op) := Calls.perform op

def refuseIf (cond : Bool) (message : String) : Service Unit :=
  if cond then throw message else pure ()

/-- What the service is deployed with. -/
structure Env where
  JWT_SECRET : Bool
  SESSION_CACHE : Bool
  sha256Hex : String → String

namespace AuthRepository

def getAndConsumeChallenge (token : Option String) (expectedUsername : Option String) :
    Calls Answer (Option Challenge) := do
  match token.filter fun t => !t.isEmpty with
  | none => return none
  | some token =>
    let challengeRow ← perform (.selectChallenge token expectedUsername)
    if challengeRow.isSome then perform (.deleteChallenge token)
    return challengeRow

end AuthRepository

namespace AuthService

/-- The proof of work: the digest starts with as many zeros as the difficulty. -/
def solves (env : Env) (row : Challenge) (nonce : String) : Bool :=
  (List.replicate row.difficulty '0').isPrefixOf (env.sha256Hex (row.challenge ++ nonce)).toList

/-- A valid code is accepted once. `matchTOTP` is what the code matches under a secret. -/
def acceptTotp (userId secret : String) (matchTOTP : String → Option ℕ) :
    Calls Answer Bool := do
  match matchTOTP secret with
  | none => return false
  | some counter => perform (.consumeTotpCounter userId counter)

/-- `registerGuest` after the Turnstile check. -/
def registerGuest (env : Env) (token : Option String) (nonce userId username : String) :
    Service String := do
  let challengeRow ← AuthRepository.getAndConsumeChallenge token (some "guest_temp")
  match challengeRow with
  | none => throw "Invalid or expired challenge token|400"
  | some row =>
    let now ← perform .now
    refuseIf (decide (row.expiresAt < now)) "Invalid or expired challenge token|400"
    refuseIf (!solves env row nonce) "Invalid Proof of Work solution|403"
    perform (.createGuestUser userId username)
    refuseIf (!env.JWT_SECRET) "Failed to create guest user account|500"
    return "ok"

/-- `login` of an interactive account after the rate limit and the Turnstile check, without
the record it keeps of failures. `isPasswordValid` is what `verifyPassword` says. -/
def login (env : Env) (token : Option String) (nonce : String) (isPasswordValid : Bool)
    (twoFactorCode : Bool) (matchTOTP : String → Option ℕ) : Service String := do
  let challengeRow ← AuthRepository.getAndConsumeChallenge token none
  match challengeRow with
  | none => throw "Session expired or invalid login token|401"
  | some row =>
    let now ← perform .now
    refuseIf (decide (row.expiresAt < now)) "Session expired|401"
    refuseIf (!solves env row nonce) "Proof of work verification failed|403"
    let user ← perform (.getUserByUsername row.username)
    match user with
    | none => throw "Invalid credentials|401"
    | some (userId, user) =>
      refuseIf (!isPasswordValid) "Invalid credentials|401"
      if user.twoFactorEnabled then
        if !twoFactorCode then return "2fa_required"
        match user.twoFactorSecret with
        | none => throw "Internal server error: 2FA configured incorrectly|500"
        | some secret =>
          let isValid2fa ← acceptTotp userId secret matchTOTP
          refuseIf (!isValid2fa) "Invalid credentials|401"
      refuseIf (!env.JWT_SECRET) "Internal server error: auth not configured|500"
      return "ok"

/-- The secret is a new one. -/
def setup2FA (userId secret : String) (isPasswordValid : Bool) : Service String := do
  let user ← perform (.getUserById userId)
  match user with
  | none => throw "User not found|404"
  | some user =>
    refuseIf user.twoFactorEnabled "2FA is already enabled. Disable it first.|400"
    let userPass ← perform (.getUserByUsername user.username)
    refuseIf userPass.isNone "User not found|404"
    refuseIf (!isPasswordValid) "Invalid password|401"
    perform (.updateUserTwoFactorSecret userId (some secret) false)
    return "ok"

def verify2FA (userId : String) (isPasswordValid : Bool) (matchTOTP : String → Option ℕ) :
    Service String := do
  let user ← perform (.getUserById userId)
  match user with
  | none => throw "User not found|404"
  | some user =>
    let userPass ← perform (.getUserByUsername user.username)
    match userPass.bind fun u => u.2.twoFactorSecret with
    | none => throw "2FA has not been set up. Call setup endpoint first.|400"
    | some secret =>
      refuseIf (!isPasswordValid) "Invalid password or 2FA code|401"
      let isValid ← acceptTotp userId secret matchTOTP
      refuseIf (!isValid) "Invalid password or 2FA code|401"
      perform (.updateUserTwoFactorSecret userId (some secret) true)
      return "ok"

def disable2FA (userId : String) (isPasswordValid : Bool) (matchTOTP : String → Option ℕ) :
    Service String := do
  let user ← perform (.getUserById userId)
  match user with
  | none => throw "User not found|404"
  | some user =>
    let userPass ← perform (.getUserByUsername user.username)
    match (userPass.filter fun u => u.2.twoFactorEnabled).bind
        fun u => u.2.twoFactorSecret with
    | none => throw "2FA is not enabled|400"
    | some secret =>
      refuseIf (!isPasswordValid) "Invalid password or 2FA code|401"
      let isValid ← acceptTotp userId secret matchTOTP
      refuseIf (!isValid) "Invalid password or 2FA code|401"
      perform (.updateUserTwoFactorSecret userId none false)
      return "ok"

/-- The challenge of a passkey login, kept under the user and under itself. -/
def generatePasskeyLoginOptions (env : Env) (userId : Option String) (challenge : String) :
    Service String := do
  refuseIf (!env.SESSION_CACHE)
    "Internal server error: SESSION_CACHE is not configured|500"
  match userId with
  | some userId => perform (.kvPut (.passkeyLogin userId) (.challenge challenge))
  | none => pure ()
  perform (.kvPut (.passkeyLoginChallenge challenge) (.challenge challenge))
  return "ok"

/-- `verifyPasskeyLogin` of an interactive account after the rate limit. `clientChallenge`
is the challenge that the client data names, and `verified` what
`verifyAuthenticationResponse` says of the one expected. -/
def verifyPasskeyLogin (env : Env) (credentialId : String) (clientChallenge : Option String)
    (verified : String → Bool) : Service String := do
  let pk ← perform (.getPasskeyByCredentialId credentialId)
  match pk with
  | none => throw "Credential not found|404"
  | some userId =>
    let user ← perform (.getUserById userId)
    refuseIf user.isNone "User not found|404"
    refuseIf (!env.SESSION_CACHE) "Challenge expired or not found|400"
    let first ← perform (.kvGet (.passkeyLogin userId))
    let found ← match first, clientChallenge with
      | none, some challenge => perform (.kvGet (.passkeyLoginChallenge challenge))
      | first, _ => pure first
    perform (.kvDelete (.passkeyLogin userId))
    match found with
    | some (.challenge expectedChallenge) =>
      perform (.kvDelete (.passkeyLoginChallenge expectedChallenge))
      -- The challenge is spent before the response is verified, whichever lookup found it.
      let spent ← perform (.consumePasskeyChallenge expectedChallenge)
      refuseIf (!spent) "Challenge expired or not found|400"
      refuseIf (!verified expectedChallenge) "Verification failed|400|400"
      refuseIf (!env.JWT_SECRET) "Internal server error: auth not configured|500|400"
      return "ok"
    | _ => throw "Challenge expired or not found|400"

def exchangeOauthToken (env : Env) (code : String) (browserBinding : Option String) :
    Service String := do
  refuseIf (!env.SESSION_CACHE)
    "Internal server error: SESSION_CACHE is not configured|500"
  let stored ← perform (.kvGet (.oauthCode code))
  refuseIf stored.isNone "Invalid or expired exchange code|400"
  -- The code is spent on the first attempt, whether or not the binding matches.
  perform (.kvDelete (.oauthCode code))
  match stored with
  | some (.exchange _ binding) =>
    refuseIf (browserBinding.all fun b => b.isEmpty || b != binding)
      "Invalid or expired exchange code|400"
    return "ok"
  | _ => throw "Invalid or expired exchange code|400"

def verifyEmail (env : Env) (token : String) : Service String := do
  refuseIf (isBlank token) "Invalid verification token|400"
  refuseIf (!env.SESSION_CACHE) "Session cache unavailable|500"
  let data ← perform (.kvGet (.emailVerify token))
  refuseIf data.isNone "Invalid or expired verification token|400"
  perform (.kvDelete (.emailVerify token))
  match data with
  | some (.email userId _) =>
    perform (.verifyUserEmail userId)
    return "ok"
  | _ => throw "Invalid token data|400"

/-- The end of a request that hands out a credential: it stores the credential. -/
def issue (op : Op) : Service String := do
  let _ ← perform op
  return "ok"

end AuthService

/-- A request that hands out or spends a credential. What it makes up at random is part
of it. -/
inductive AuthRequest where
  | createLoginChallenge (token username challenge : String) (difficulty expiresAt : ℕ)
  | registerGuest (token : Option String) (nonce userId username : String)
  | login (token : Option String) (nonce : String) (isPasswordValid twoFactorCode : Bool)
      (matchTOTP : String → Option ℕ)
  | setup2FA (userId secret : String) (isPasswordValid : Bool)
  | verify2FA (userId : String) (isPasswordValid : Bool) (matchTOTP : String → Option ℕ)
  | disable2FA (userId : String) (isPasswordValid : Bool) (matchTOTP : String → Option ℕ)
  | generatePasskeyLoginOptions (userId : Option String) (challenge : String)
  | verifyPasskeyLogin (credentialId : String) (clientChallenge : Option String)
      (verified : String → Bool)
  | issueExchangeCode (code token binding : String)
  | exchangeOauthToken (code : String) (browserBinding : Option String)
  | createEmailVerificationToken (token userId email : String)
  | verifyEmail (token : String)

def serveAuth (env : Env) : AuthRequest → Service String
  | .createLoginChallenge token username challenge difficulty expiresAt =>
    AuthService.issue (.createLoginChallenge token username challenge difficulty expiresAt)
  | .registerGuest token nonce userId username =>
    AuthService.registerGuest env token nonce userId username
  | .login token nonce isPasswordValid twoFactorCode matchTOTP =>
    AuthService.login env token nonce isPasswordValid twoFactorCode matchTOTP
  | .setup2FA userId secret isPasswordValid =>
    AuthService.setup2FA userId secret isPasswordValid
  | .verify2FA userId isPasswordValid matchTOTP =>
    AuthService.verify2FA userId isPasswordValid matchTOTP
  | .disable2FA userId isPasswordValid matchTOTP =>
    AuthService.disable2FA userId isPasswordValid matchTOTP
  | .generatePasskeyLoginOptions userId challenge =>
    AuthService.generatePasskeyLoginOptions env userId challenge
  | .verifyPasskeyLogin credentialId clientChallenge verified =>
    AuthService.verifyPasskeyLogin env credentialId clientChallenge verified
  | .issueExchangeCode code token binding =>
    AuthService.issue (.kvPut (.oauthCode code) (.exchange token binding))
  | .exchangeOauthToken code browserBinding =>
    AuthService.exchangeOauthToken env code browserBinding
  | .createEmailVerificationToken token userId email =>
    AuthService.issue (.kvPut (.emailVerify token) (.email userId email))
  | .verifyEmail token => AuthService.verifyEmail env token

end Swazz.AuthCalls
