import Swazz.ConfigForRunner
import Mathlib.Data.List.DropRight
import Mathlib.Data.Rat.Floor

/-! License tokens: what the edge and the runner sign, and how each of them reads a token out of
a text. Instants are nanoseconds since 1970. -/
namespace Swazz.License

open RunnerAccess UnicodeCase

/-- A number of the payload, by what is printed of it: `null` for what JSON has no number for,
digits alone, or digits with a point or an exponent. -/
inductive Numeral where
  | null
  | whole (n : ℤ)
  | decimal (q : ℚ)
  deriving DecidableEq

/-- A date of the payload: an RFC 3339 text, by the instant it names, or any other text. -/
inductive DateText where
  | rfc3339 (instant : ℤ)
  | other (text : JsString)
  deriving DecidableEq

/-- The JSON object that is signed; a key that is left out is `none`. -/
structure Payload where
  company : JsString
  expires_at : DateText
  /-- `none` is `null`. -/
  features : Option (List JsString)
  kind : Option JsString
  max_users : Option Numeral
  max_concurrency : Option Numeral
  deriving DecidableEq

/-- A signed payload: the first two parts of its text, and the signature. -/
structure Token where
  headerB64 : JsString
  payloadB64 : JsString
  signature : List ℕ
  payload : Payload
  length_signature : signature.length = 64

/-- How a payload is written and signed, with one key. -/
structure Signer where
  headerB64 : JsString
  payloadB64 : Payload → JsString
  sign : JsString → JsString → List ℕ
  length_sign : ∀ header payload, (sign header payload).length = 64

def Signer.token (s : Signer) (p : Payload) : Token :=
  ⟨s.headerB64, s.payloadB64 p, s.sign s.headerB64 (s.payloadB64 p), p, s.length_sign _ _⟩

/-- What `signLicenseToken` is given. -/
structure LicensePayload where
  company : JsString
  expires_at : DateText
  features : List JsString
  kind : Option JsString
  max_users : Option Numeral
  max_concurrency : Option Numeral

def signLicenseToken (s : Signer) (payload : LicensePayload) : Token :=
  s.token ⟨payload.company, payload.expires_at, some payload.features, payload.kind,
    payload.max_users, payload.max_concurrency⟩

/-- A Go time with the offset of its zone, in seconds. -/
structure Time where
  instant : ℤ
  offset : ℤ

/-- The zero time of Go: the first second of the year 1. -/
def zeroTime : ℤ := -62135596800 * 10 ^ 9

/-- A time is written with its offset in whole minutes, and only in the years from 0 to 9999 and
with offsets of less than a day. -/
def Time.marshal (t : Time) : Option DateText :=
  if -62167219200 * 10 ^ 9 ≤ t.instant + t.offset * 10 ^ 9 ∧
      t.instant + t.offset * 10 ^ 9 < 253402300800 * 10 ^ 9 ∧ t.offset.natAbs < 86400 then
    some (.rfc3339 (t.instant + (t.offset - t.offset.tdiv 60 * 60) * 10 ^ 9))
  else none

/-- What `GenerateToken` is given. -/
structure GoPayload where
  Company : JsString
  ExpiresAt : Time
  /-- `none` is a nil slice. -/
  Features : Option (List JsString)
  Kind : JsString
  MaxUsers : ℤ
  MaxConcurrency : ℤ

/-- A number with `omitempty`. -/
def omitZero (n : ℤ) : Option Numeral := if n = 0 then none else some (.whole n)

def GenerateToken (s : Signer) (lic : GoPayload) : Option Token :=
  lic.ExpiresAt.marshal.map fun expires_at =>
    s.token ⟨lic.Company, expires_at, lic.Features, if lic.Kind = [] then none else some lic.Kind,
      omitZero lic.MaxUsers, omitZero lic.MaxConcurrency⟩

inductive LicenseError where
  | invalidTokenFormat
  | invalidSignature
  | licenseExpired
  deriving DecidableEq

/-- The text of the error, which the edge ends with a status. -/
def LicenseError.message : LicenseError → String
  | .invalidTokenFormat => "license: invalid token format"
  | .invalidSignature => "license: invalid signature"
  | .licenseExpired => "license: expired license"

def LicenseError.edgeMessage (e : LicenseError) : String :=
  e.message ++ match e with
    | .licenseExpired => "|403"
    | _ => "|400"

/-! ### The text -/

/-- Blanks between `first` and `last`, as both languages have them. -/
def isSpace (c : ℕ) : Bool :=
  (9 ≤ c && c ≤ 13) || c = 32 || c = 0xA0 || c = 0x1680 || (0x2000 ≤ c && c ≤ 0x200A) ||
    c = 0x2028 || c = 0x2029 || c = 0x202F || c = 0x205F || c = 0x3000

/-- What `trim` takes away: a byte order mark as well. -/
def jsSpace (c : ℕ) : Bool := isSpace c || c = 0xFEFF

/-- What `strings.TrimSpace` takes away: a next line as well. -/
def goSpace (c : ℕ) : Bool := isSpace c || c = 0x85

def trim (space : ℕ → Bool) (s : JsString) : JsString :=
  (s.dropWhile space).rdropWhile space

/-- The text before the first `sep`, and that after it. -/
def cut (sep : JsString) : JsString → Option (JsString × JsString)
  | [] => none
  | c :: s =>
    if sep.isPrefixOf (c :: s) then some ([], (c :: s).drop sep.length)
    else (cut sep s).map fun p => (c :: p.1, p.2)

def marker : JsString := js "SWAZZ_LICENSE_KEY:"

/-- `split(/\r?\n/)`: a carriage return goes with the line feed that it stands before. -/
def crlfLines : List JsString → List JsString
  | [] => []
  | [line] => [line]
  | line :: rest => (if line.getLast? = some 13 then line.dropLast else line) :: crlfLines rest

def parts (s : JsString) : List JsString := s.splitOn 46

def looksSigned (line : JsString) : Bool := (js "eyJ").isPrefixOf line && (parts line).length = 3

/-- The part of a text that the edge takes for the token. -/
def edgeText (tokenStr : JsString) : JsString :=
  let clean := trim jsSpace tokenStr
  let clean := match cut marker clean with
    | none => clean
    | some (_, rest) =>
      -- the second part of `split`, which ends where the marker stands again
      trim jsSpace (match cut marker rest with
        | none => rest
        | some (first, _) => first)
  let lines := ((crlfLines (clean.splitOn 10)).map (trim jsSpace)).filter (· ≠ [])
  (lines.find? looksSigned).getD clean

/-- The part of a text that the runner takes for the token. -/
def goText (tokenStr : JsString) : JsString :=
  let clean := trim goSpace tokenStr
  let clean := match cut marker clean with
    | none => clean
    | some (_, rest) => trim goSpace rest
  (((clean.splitOn 10).map (trim goSpace)).find? looksSigned).getD clean

/-! ### The signature -/

/-- The value of a letter in base 64 whose last two letters are `c62` and `c63`. -/
def digit (c62 c63 c : ℕ) : Option ℕ :=
  if 65 ≤ c ∧ c ≤ 90 then some (c - 65)
  else if 97 ≤ c ∧ c ≤ 122 then some (c - 97 + 26)
  else if 48 ≤ c ∧ c ≤ 57 then some (c - 48 + 52)
  else if c = c62 then some 62
  else if c = c63 then some 63
  else none

def urlDigit : ℕ → Option ℕ := digit 45 95

def stdDigit : ℕ → Option ℕ := digit 43 47

/-- The bytes of digits of six bits; bits that are left over are dropped. -/
def bytes : List ℕ → Option (List ℕ)
  | [] => some []
  | [_] => none
  | [a, b] => some [a * 4 + b / 16]
  | [a, b, c] => some [a * 4 + b / 16, b % 16 * 16 + c / 4]
  | a :: b :: c :: d :: rest =>
    (bytes rest).map fun bs => (a * 4 + b / 16) :: (b % 16 * 16 + c / 4) :: (c % 4 * 64 + d) :: bs

/-- Base 64 without padding. -/
def rawDecode (digit : ℕ → Option ℕ) (s : JsString) : Option (List ℕ) :=
  (s.mapM digit).bind bytes

def dropPadding (s : JsString) : JsString :=
  if s.getLast? = some 61 then
    if s.dropLast.getLast? = some 61 then s.dropLast.dropLast else s.dropLast
  else s

/-- Base 64 with padding. -/
def paddedDecode (digit : ℕ → Option ℕ) (s : JsString) : Option (List ℕ) :=
  if s.length % 4 = 0 then rawDecode digit (dropPadding s) else none

/-- `base64UrlDecode` of the edge: all padding is taken away first. -/
def base64UrlDecode (s : JsString) : Option (List ℕ) :=
  rawDecode urlDigit (s.rdropWhile (· = 61))

/-- `base64Decode` of the runner; a decoder of Go passes over line ends. -/
def base64Decode (s : JsString) : Option (List ℕ) :=
  let s := s.filter fun c => c ≠ 10 ∧ c ≠ 13
  (rawDecode urlDigit s).orElse fun _ =>
    (paddedDecode urlDigit s).orElse fun _ => paddedDecode stdDigit s

/-! ### The edge -/

/-- One issued token, and what the edge's language leaves open: dates in other forms than
RFC 3339, in milliseconds, and where a sigma is final. -/
structure World where
  token : Token
  date : JsString → Option ℤ
  isFinal : JsString → ℕ → Bool

/-- The key accepts exactly what was signed with it. -/
def World.verify (w : World) (headerB64 payloadB64 : JsString) (sig : List ℕ) : Bool :=
  headerB64 = w.token.headerB64 ∧ payloadB64 = w.token.payloadB64 ∧ sig = w.token.signature

inductive Kind where
  | trial
  | commercial
  deriving DecidableEq

structure LicenseInfo where
  company : JsString
  expires_at : DateText
  features : List JsString
  kind : Kind
  max_users : Option Numeral
  max_concurrency : ℚ
  deriving DecidableEq

/-- The company name of a trial from before tokens had a kind. -/
def isLegacyTrialCompany (company : JsString) : Bool :=
  (js "(14-Day Trial)").isSuffixOf company || company = js "Swazz Trial User"

def World.lower (w : World) (s : JsString) : JsString := toLowerCase w.isFinal s

/-- The date that `new Date` reads, in milliseconds: digits after the third are dropped. -/
def World.readDate (w : World) : DateText → Option ℤ
  | .rfc3339 instant => some (instant / 10 ^ 6)
  | .other text => w.date text

def milliseconds (t : ℤ) : ℤ := t / 10 ^ 6

/-- The value of a number; `null` is none. -/
def Numeral.value : Numeral → Option ℚ
  | .null => none
  | .whole n => some n
  | .decimal q => some q

/-- The clamping of `max_concurrency`. -/
def clampConcurrency (max_concurrency : Option Numeral) (hasUnlimited : Bool) : ℚ :=
  match max_concurrency.bind Numeral.value with
  | none => if hasUnlimited then 1000 else 5
  | some q => if q ≤ 0 then (if hasUnlimited then 1000 else 5) else if 1000 < q then 1000 else q

/-- What `verifyToken` makes of a payload whose date it has passed. -/
def World.licenseInfo (w : World) (payload : Payload) : LicenseInfo :=
  let features := payload.features.getD []
  let hasUnlimited := features.any fun f =>
    w.lower f = js "*" ∨ w.lower f = js "all" ∨ w.lower f = js "unlimited_scans"
  let kind :=
    if payload.kind = some (js "trial") then .trial
    else if payload.kind = some (js "commercial") then .commercial
    else if isLegacyTrialCompany payload.company then .trial else .commercial
  ⟨payload.company, payload.expires_at, features, kind, payload.max_users,
    clampConcurrency payload.max_concurrency hasUnlimited⟩

/-- `verifyToken` after the signature: `now` is the clock. -/
def World.readPayload (w : World) (payload : Payload) (now : ℤ) (allowExpired : Bool) :
    Except LicenseError LicenseInfo :=
  if payload.expires_at = .other [] then .ok (w.licenseInfo payload)
  else
    match w.readDate payload.expires_at with
    | none => .error .invalidTokenFormat
    | some expires =>
      if allowExpired = false ∧ expires < milliseconds now then .error .licenseExpired
      else .ok (w.licenseInfo payload)

def World.verifyToken (w : World) (tokenStr : JsString) (now : ℤ) (allowExpired : Bool) :
    Except LicenseError LicenseInfo :=
  match parts (edgeText tokenStr) with
  | [headerB64, payloadB64, sigB64] =>
    match base64UrlDecode sigB64 with
    | none => .error .invalidTokenFormat
    | some sig =>
      if sig.length ≠ 64 then .error .invalidSignature
      else if w.verify headerB64 payloadB64 sig then
        w.readPayload w.token.payload now allowExpired
      else .error .invalidSignature
  | _ => .error .invalidTokenFormat

def hasFeatureIn (isFinal : JsString → ℕ → Bool) (license : LicenseInfo) (feature : JsString) :
    Bool :=
  license.features.any fun f =>
    toLowerCase isFinal f = js "*" ∨ toLowerCase isFinal f = js "all" ∨
      toLowerCase isFinal f = toLowerCase isFinal feature

def World.hasFeatureIn (w : World) (license : LicenseInfo) (feature : JsString) : Bool :=
  License.hasFeatureIn w.isFinal license feature

/-! ### The runner -/

/-- Lower case in Go, rune by rune: the dotted capital I has a single small letter. -/
def goLower (s : JsString) : JsString :=
  s.map fun c => if c = 0x130 then 0x69 else mapped lowerRuns c

/-- A decoded license. -/
structure GoLicense where
  Company : JsString
  ExpiresAt : ℤ
  Features : List JsString
  Kind : JsString
  MaxUsers : ℤ
  MaxConcurrency : ℤ

/-- A field of type `int`: `null` leaves it zero. -/
def decodeInt : Option Numeral → Option ℤ
  | none => some 0
  | some .null => some 0
  | some (.whole n) => if -2 ^ 63 ≤ n ∧ n < 2 ^ 63 then some n else none
  | some (.decimal _) => none

/-- A field of type `time.Time`. -/
def decodeTime : DateText → Option ℤ
  | .rfc3339 instant => some instant
  | .other _ => none

def unmarshal (payload : Payload) : Option GoLicense := do
  let ExpiresAt ← decodeTime payload.expires_at
  let MaxUsers ← decodeInt payload.max_users
  let MaxConcurrency ← decodeInt payload.max_concurrency
  return ⟨goString payload.company, ExpiresAt, (payload.features.getD []).map goString,
    goString (payload.kind.getD []), MaxUsers, MaxConcurrency⟩

/-- There is an expiry, and the clock is past it. -/
def GoLicense.expired (lic : GoLicense) (now : ℤ) : Bool :=
  lic.ExpiresAt ≠ zeroTime ∧ lic.ExpiresAt < now

def World.VerifyToken (w : World) (tokenStr : JsString) (now : ℤ) :
    Option GoLicense × Option LicenseError :=
  match parts (goText tokenStr) with
  | [headerB64, payloadB64, sigB64] =>
    match base64Decode sigB64 with
    | none => (none, some .invalidSignature)
    | some sig =>
      if sig.length ≠ 64 then (none, some .invalidSignature)
      else if w.verify headerB64 payloadB64 sig then
        match unmarshal w.token.payload with
        | none => (none, some .invalidTokenFormat)
        | some lic => if lic.expired now then (some lic, some .licenseExpired) else (some lic, none)
      else (none, some .invalidSignature)
  | _ => (none, some .invalidTokenFormat)

def GoLicense.IsTrial (lic : GoLicense) : Bool :=
  if lic.Kind ≠ [] then lic.Kind = js "trial" else isLegacyTrialCompany lic.Company

def GoLicense.HasFeature (lic : GoLicense) (now : ℤ) (feature : JsString) : Bool :=
  if lic.expired now then false
  else lic.Features.any fun f =>
    goLower f = js "*" ∨ goLower f = js "all" ∨ goLower f = goLower feature

def FreeConcurrencyCeiling : ℤ := 5

def MaxConcurrencyCeiling : ℤ := 1000

/-- The ceiling of the gate on a license. -/
def GoLicense.ConcurrencyCeiling (lic : GoLicense) (now : ℤ) : ℤ :=
  if 0 < lic.MaxConcurrency then
    if MaxConcurrencyCeiling < lic.MaxConcurrency then MaxConcurrencyCeiling else lic.MaxConcurrency
  else if lic.HasFeature now (js "unlimited_scans") then MaxConcurrencyCeiling
  else FreeConcurrencyCeiling

end Swazz.License
