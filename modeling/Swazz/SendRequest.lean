import Mathlib.Data.List.Infix
import Swazz.GoUrlPaths
import Swazz.GoStrings
import Swazz.TextRewriting

/-! How the runner assembles a request: before its first attempt, in each attempt, and once more
after the session was renewed. -/
namespace Swazz.SendRequest

open Utf8 hiding runes
open GoUrl EntryMap TextRewriting GoStrings

/-- Headers or cookies; the entries of a map in the order that it is ranged over. -/
abbrev Headers := List (Text × Text)

/-- A value of a payload. -/
inductive Any where
  | null
  | str (s : Text)
  | map (entries : List (Text × Any))
  | list (items : List Any)
  | other (shown : Text)

/-- What the runner calls and does not implement here: the test for an IPv6 address, and the
encoders of a body. -/
structure Libs where
  isIPv6 : Text → Bool
  marshal : Any → Text
  encodeForm : List (Text × Any) → Text
  /-- `WrapInSOAP` of `ToXML` -/
  soap : List (Text × Any) → Text

/-! ### Variables -/

/-- The text that stands for a variable. -/
def reference (name : Text) : Text := ascii "\x7b\x7b" ++ name ++ ascii "\x7d\x7d"

/-- Variables with the texts of their values, in the order that the replacer was built in. -/
abbrev Variables := List (Text × Text)

/-- How long the first reference is that stands at the start of a text. -/
def Variables.referenceAt (vs : Variables) (s : Text) : ℕ :=
  ((vs.find? fun e => (reference e.1).isPrefixOf s).map fun e => (reference e.1).length).getD 0

def Variables.valueOf (vs : Variables) (w : Text) : Text :=
  ((vs.find? fun e => reference e.1 = w).map Prod.snd).getD w

/-- `Replace` of a `strings.Replacer` of the references. -/
def Variables.Replace (vs : Variables) (s : Text) : Text := replaceAll vs.referenceAt vs.valueOf s

/-- The text that every reference begins with. -/
def braces : Text := ascii "\x7b\x7b"

mutual

def Variables.subVarsRecursive (vs : Variables) : Any → Any
  | .str s => .str (if braces <:+: s then vs.Replace s else s)
  | .map entries => .map (vs.subVarsEntries entries)
  | .list items => .list (vs.subVarsItems items)
  | .null => .null
  | .other shown => .other shown

def Variables.subVarsEntries (vs : Variables) : List (Text × Any) → List (Text × Any)
  | [] => []
  | (k, v) :: rest => (k, vs.subVarsRecursive v) :: vs.subVarsEntries rest

def Variables.subVarsItems (vs : Variables) : List Any → List Any
  | [] => []
  | v :: rest => vs.subVarsRecursive v :: vs.subVarsItems rest

end

/-- What the runner knows at some moment: `config.Variables`, the state variables of the responses
so far, and the CSRF token. -/
structure World where
  configVariables : Variables
  stateVariables : Variables
  activeCSRFToken : Text

def World.subVarsLocked (w : World) (input : Text) : Text := w.configVariables.Replace input

def World.subStateVars (w : World) (input : Text) : Text :=
  if braces <:+: input then w.stateVariables.Replace input else input

def World.subStateVarsAny (w : World) (v : Any) : Any := w.stateVariables.subVarsRecursive v

/-! ### Headers -/

/-- `strings.EqualFold` -/
def equalFold (s t : Text) : Bool :=
  (runes s).map UnicodeCase.foldRune = (runes t).map UnicodeCase.foldRune

def hasHeader (m : Headers) (name : Text) : Bool := m.any fun e => equalFold e.1 name

theorem hasHeader_of_mem {m : Headers} {k name : Text} (hk : k ∈ keys m)
    (hname : equalFold k name = true) : hasHeader m name = true := by
  obtain ⟨e, he, rfl⟩ := List.mem_map.mp hk
  exact List.any_eq_true.mpr ⟨e, he, hname⟩

structure Settings where
  RandomizeUserAgent : Bool

def defaultUserAgent : Text := ascii "Swazz/1.0 (+https://github.com/SecH0us3/swazz)"

/-- The arguments of `sendRequest` that its request depends on; a query parameter is the text of
its value. -/
structure Call where
  baseURL : Text
  resolvedPath : Text
  method : Text
  payload : Any
  queryParams : List (Text × Text)
  generatedHeaders : Headers
  contentType : Text

local instance instLawfulBEqName : LawfulBEq (List ℕ) := inferInstance

def isNoBodyMethod (method : Text) : Bool :=
  (runes method).map (UnicodeCase.mapped UnicodeCase.upperRuns) ∈
    [ascii "GET", ascii "HEAD", ascii "OPTIONS"].map fun m => m.map Fin.val

def Call.isBody (c : Call) : Bool := !isNoBodyMethod c.method

def Call.effectiveCT (c : Call) : Text :=
  if c.contentType = [] then ascii "application/json" else c.contentType

/-- `generatedHeaders` under the global ones. -/
def mergeHeaders (w : World) (c : Call) (headers : Headers) : Headers :=
  setAll (c.generatedHeaders.map fun e => (e.1, w.subStateVars e.2))
    (headers.map fun e => (e.1, w.subStateVars (w.subVarsLocked e.2)))

/-- `random` is the answer of `getRandomUserAgent`. -/
def addUserAgent (settings : Settings) (random : Text) (m : Headers) : Headers :=
  if hasHeader m (ascii "user-agent") then m
  else set m (ascii "User-Agent") (if settings.RandomizeUserAgent then random else defaultUserAgent)

def addContentType (c : Call) (m : Headers) : Headers :=
  if c.isBody && !hasHeader m (ascii "content-type") then set m (ascii "Content-Type") c.effectiveCT
  else m

/-! ### The URL -/

def trimRightSlashes (s : Text) : Text := s.rdropWhile (· = slash)

def trimLeftSlashes (s : Text) : Text := s.dropWhile (· = slash)

/-- The endpoint's path joined to the base URL, before any variable is replaced. -/
def joinedURL (libs : Libs) (baseURL resolvedPath : Text) : Text :=
  match Parse libs.isIPv6 (trimRightSlashes baseURL) with
  | some base => (base.JoinPath resolvedPath).String
  | none => trimRightSlashes baseURL ++ [slash] ++ trimLeftSlashes resolvedPath

def withQuery (libs : Libs) (w : World) (queryParams : List (Text × Text)) (rawURL : Text) : Text :=
  if queryParams = [] then rawURL
  else
    match Parse libs.isIPv6 rawURL with
    | some parsedURL =>
      { parsedURL with
        RawQuery := (queryParams.foldl
          (fun (query : Values) (e : Text × Text) => query.Set e.1 (w.subStateVars e.2))
          (ParseQuery parsedURL.RawQuery)).Encode }.String
    | none => rawURL

def requestURL (libs : Libs) (w : World) (c : Call) : Text :=
  withQuery libs w c.queryParams
    (w.subStateVars (w.subVarsLocked (joinedURL libs c.baseURL c.resolvedPath)))

/-! ### The request -/

/-- The variables of `sendRequest` that an attempt reads. -/
structure Built where
  mergedHeaders : Headers
  payload : Any
  rawURL : Text

/-- What is assembled before the first attempt. -/
def build (libs : Libs) (w : World) (settings : Settings) (random : Text) (c : Call)
    (headers : Headers) : Built where
  mergedHeaders := addContentType c (addUserAgent settings random (mergeHeaders w c headers))
  payload := w.subStateVarsAny c.payload
  rawURL := requestURL libs w c

/-- What is assembled after a renewal of the session, from what there was. -/
def rebuild (libs : Libs) (w : World) (c : Call) (newHeaders : Headers) (b : Built) : Built where
  mergedHeaders := addContentType c (mergeHeaders w c newHeaders)
  payload := b.payload
  rawURL := requestURL libs w c

/-- A name with `csrf` or `xsrf` in it. -/
def isCSRFName (k : Text) : Bool :=
  let kLower := (runes k).map lowerRune
  decide ((ascii "csrf").map Fin.val <:+: kLower) || decide ((ascii "xsrf").map Fin.val <:+: kLower)

def injectHeaders (token : Text) (m : Headers) : Headers :=
  if (keys m).any isCSRFName then replaceAt isCSRFName token m
  else set m (ascii "X-CSRF-Token") token

def injectPayload (token : Text) : Any → Any
  | .map entries => .map (replaceAt isCSRFName (.str token) entries)
  | payload => payload

def takesCSRF (method : Text) : Bool :=
  method ∈ [ascii "POST", ascii "PUT", ascii "DELETE", ascii "PATCH"]

/-- Whether an attempt puts the token into the request. -/
def World.injects (w : World) (c : Call) : Bool := w.activeCSRFToken ≠ [] && takesCSRF c.method

def csrfHeaders (w : World) (c : Call) (m : Headers) : Headers :=
  if w.injects c then injectHeaders w.activeCSRFToken m else m

def csrfPayload (w : World) (c : Call) (payload : Any) : Any :=
  if w.injects c then injectPayload w.activeCSRFToken payload else payload

/-- The body of a payload; `none` is a request without one. -/
def bodyOf (libs : Libs) (c : Call) (payload : Any) : Option Text :=
  if !c.isBody then none
  else
    match payload with
    | .null => none
    | .map entries =>
      if ascii "x-www-form-urlencoded" <:+: c.effectiveCT then some (libs.encodeForm entries)
      else if ascii "xml" <:+: c.effectiveCT then some (libs.soap entries)
      else some (libs.marshal (.map entries))
    | payload => some (libs.marshal payload)

def cookieText (cookies : Headers) : Text :=
  (ascii "; ").intercalate (cookies.map fun e => e.1 ++ ascii "=" ++ e.2)

/-- The headers as an attempt leaves them. -/
def withCookies (cookies m : Headers) : Headers :=
  if cookies = [] then m else set m (ascii "Cookie") (cookieText cookies)

/-- What is handed to the HTTP client. -/
structure Request where
  method : Text
  url : Text
  host : Option Text
  headers : Headers
  cookies : Headers
  body : Option Text

/-- An attempt: what is sent, and what the variables are afterwards. -/
def attempt (libs : Libs) (w : World) (c : Call) (cookies : Headers) (b : Built) :
    Request × Built :=
  let payload := csrfPayload w c b.payload
  let mergedHeaders := withCookies cookies (csrfHeaders w c b.mergedHeaders)
  ({ method := c.method
     url := b.rawURL
     host := (mergedHeaders.filter fun e => equalFold e.1 (ascii "Host")).getLast?.map Prod.snd
     headers := mergedHeaders.filter fun e => !equalFold e.1 (ascii "Host") &&
       (!equalFold e.1 (ascii "Cookie") || cookies = [])
     cookies := cookies
     body := bodyOf libs c payload },
    ⟨mergedHeaders, payload, b.rawURL⟩)

end Swazz.SendRequest
