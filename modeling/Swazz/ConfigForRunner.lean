import Swazz.UnicodeCase
import Mathlib.Data.List.Nodup

/-! The configuration that a runner receives: what the coordinator takes out of it for a shared
runner, and what the agent's decoder reads from it. -/
namespace Swazz.RunnerAccess

open UnicodeCase

/-- A JavaScript string as its code points; a surrogate that stands alone is one. -/
abbrev JsString := List ℕ

def js (s : String) : JsString := s.toList.map Char.toNat

/-- A JSON value; a number is what is printed of it. -/
inductive Json where
  | null
  | bool (b : Bool)
  | num (printed : String)
  | str (s : JsString)
  | arr (items : List Json)
  | obj (entries : List (JsString × Json))

/-- The own properties of an object, in the order in which they are listed. Keys that are array
indices come first in every object, so copies of a whole object list them first too. -/
abbrev Entries := List (JsString × Json)

/-- An own property is created, or its value replaced. -/
def define (o : Entries) (key : JsString) (value : Json) : Entries :=
  if key ∈ o.map (·.1) then o.map fun p => if p.1 = key then (key, value) else p
  else o ++ [(key, value)]

def proto : JsString := js "__proto__"

/-- The assignment `o[key] = value`. Where the object has no such property of its own,
`__proto__` names the one it inherits, which takes a new prototype and creates nothing. -/
def assign (o : Entries) (key : JsString) (value : Json) : Entries :=
  if key = proto ∧ key ∉ o.map (·.1) then o else define o key value

/-- The entries of `value` on top of those of `o`. -/
def spread (o value : Entries) : Entries := value.foldl (fun o p => define o p.1 p.2) o

/-- Upper case. -/
def toUpperCase (s : JsString) : JsString := s.flatMap upper

/-- Lower case; `isFinal` says of a capital sigma whether it ends a word. -/
def toLowerCase (isFinal : JsString → ℕ → Bool) (s : JsString) : JsString :=
  s.zipIdx.flatMap fun (c, i) => if c = 0x3A3 ∧ isFinal s i then [0x3C2] else lower c

def goJsonFold (isFinal : JsString → ℕ → Bool) (key : JsString) : JsString :=
  toLowerCase isFinal (toUpperCase key)

def SHARED_RUNNER_TAG : String := "shared"

def isSharedRunnerTags (tags : List String) : Bool := tags.contains SHARED_RUNNER_TAG

/-- A value that is an object is spread over what has been collected. -/
def mergeSecurity (security : Entries) : Json → Entries
  | .obj inner => spread (spread [] security) inner
  | _ => security

/-- The loop over the entries of the configuration: `security` and `rest`. -/
def splitSecurity (isFinal : JsString → ℕ → Bool) : Entries → Entries × Entries → Entries × Entries
  | [], acc => acc
  | p :: entries, acc =>
    if goJsonFold isFinal p.1 = js "security" then
      splitSecurity isFinal entries (mergeSecurity acc.1 p.2, acc.2)
    else splitSecurity isFinal entries (acc.1, assign acc.2 p.1 p.2)

/-- The loop over the entries of `security`. -/
def guardedEntries (isFinal : JsString → ℕ → Bool) (security : Entries) : Entries :=
  security.foldl (fun guarded p =>
    if goJsonFold isFinal p.1 ≠ js "allow_private_ips" then assign guarded p.1 p.2 else guarded) []

def configForRunner (isFinal : JsString → ℕ → Bool) (config : Json) (tags : List String)
    (SHARED_RUNNERS_ALLOW_PRIVATE_IPS : Option String) : Json :=
  if isSharedRunnerTags tags = false ∨ SHARED_RUNNERS_ALLOW_PRIVATE_IPS = some "true" then config
  else
    match config with
    | .obj entries =>
      let split := splitSecurity isFinal entries ([], [])
      let guarded := guardedEntries isFinal split.1
      .obj (define (spread [] split.2) (js "security")
        (.obj (define (spread [] guarded) (js "allow_private_ips") (.bool false))))
    | config => config

/-- A surrogate that stands alone is replaced when Go decodes it. -/
def goRune (c : ℕ) : ℕ := if 0xD800 ≤ c ∧ c ≤ 0xDFFF then 0xFFFD else c

def goString (s : JsString) : JsString := s.map goRune

def foldName (s : JsString) : JsString := s.map foldRune

/-- The field of a structure that a key is decoded into: the one of this name, or one whose
name is folded to the same. -/
def matchField (fields : List JsString) (key : JsString) : Option JsString :=
  if key ∈ fields then some key else fields.find? fun f => foldName f = foldName key

/-- The names of the fields of `CliConfig`. -/
def cliConfigFields : List JsString :=
  ["swagger_urls", "_swagger_urls", "base_url", "headers", "global_headers", "cookies",
    "wordlist_files", "dictionaries", "settings", "endpoints", "endpoint_definitions",
    "disabled_endpoints", "rules", "auth_sequence", "auth_identities", "variables", "security",
    "mcp_server", "license_key"].map js

def securityConfigFields : List JsString := [js "allow_private_ips"]

structure SecurityConfig where
  allowPrivateIPs : Bool

/-- Of the decoded configuration, the field that guards private addresses. -/
structure CliConfig where
  security : SecurityConfig

/-- A value of another type is an error that stops the dispatch, and `null` is nothing; both
leave the field as it is. -/
def decodeBool (field : Bool) : Json → Bool
  | .bool b => b
  | _ => field

/-- Each entry in order, into what the earlier ones have left. -/
def decodeSecurity (security : SecurityConfig) : Json → SecurityConfig
  | .obj entries => entries.foldl (fun security p =>
      if matchField securityConfigFields (goString p.1) = some (js "allow_private_ips") then
        ⟨decodeBool security.allowPrivateIPs p.2⟩
      else security) security
  | _ => security

def decodeConfig : Json → CliConfig
  | .obj entries => entries.foldl (fun config p =>
      if matchField cliConfigFields (goString p.1) = some (js "security") then
        ⟨decodeSecurity config.security p.2⟩
      else config) ⟨⟨false⟩⟩
  | _ => ⟨⟨false⟩⟩

/-- The decoder takes the key for `name`. -/
def goFolds (key name : JsString) : Bool := foldName (goString key) = foldName name

end Swazz.RunnerAccess
