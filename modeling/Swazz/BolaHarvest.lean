import Swazz.Base64Url
import Swazz.EntryMap
import Swazz.FillUp
import Swazz.GoStrings
import Swazz.GoUrlPaths
import Swazz.StepSystem

/-! The IDs that the BOLA phase harvests of responses, by workers that share them, and the requests
that it replays with them. -/
namespace Swazz.Bola

open Utf8 hiding runes
open GoUrl EntryMap FillUp GoStrings StepSystem

/-- A value of a payload or of a body; `int` is either of the integer types. -/
inductive Any (F : Type) where
  | null
  | bool (b : Bool)
  | str (s : Text)
  | float (x : F)
  | int (n : ℤ)
  | list (items : List (Any F))
  | map (entries : List (Text × Any F))

/-- `strconv` for the floating point numbers `F`. -/
structure Floats (F : Type) where
  ParseFloat : Text → Option F
  FormatFloat : F → Text

def maxHarvestedIDLen : ℕ := 128

def maxHarvestedIDsPerPrefix : ℕ := 100

def maxHarvestedIDsToTest : ℕ := 25

/-! ### Texts -/

/-- `strings.ToLower` -/
def lower (s : Text) : List ℕ := (runes s).map lowerRune

def idSuffix : List ℕ := (ascii "id").map Fin.val

def isIDParam (name : Text) : Bool :=
  lower name = idSuffix || lower name = (ascii "uuid").map Fin.val || idSuffix.isSuffixOf (lower name)

/-- `unicode.IsControl` -/
def isControl (c : ℕ) : Bool := c < 0x20 || (0x7F ≤ c && c < 0xA0)

def isReplayableID (id : Text) : Bool :=
  id ≠ [] && id.length ≤ maxHarvestedIDLen && id ≠ ascii "." && id ≠ ascii ".." &&
    (Utf8.runes id).all Option.isSome && !(runes id).any isControl

/-- `strconv.Itoa` -/
def Itoa (n : ℤ) : Text := ascii (toString n)

/-- Decimal digits, after a sign. -/
def Atoi (s : Text) : Option ℤ :=
  let digits := if s.head? = some 43 ∨ s.head? = some 45 then s.tail else s
  let n : ℕ := digits.foldl (fun n c => n * 10 + (c.val - 48)) 0
  let value : ℤ := if s.head? = some 45 then -(n : ℤ) else n
  if digits ≠ [] ∧ digits.all isDigit ∧ -2 ^ 63 ≤ value ∧ value < 2 ^ 63 then some value else none

section Values

variable {F : Type} (fl : Floats F)

/-- `none` is a value without an ID, and the empty string. -/
def formatIDScalar : Any F → Option Text
  | .str s => if s = [] then none else some s
  | .float x => some (fl.FormatFloat x)
  | .int n => some (Itoa n)
  | _ => none

mutual

/-- `walkScalars`: the keys with their scalars, as they are met. -/
def walkScalars (key : Text) : Any F → List (Text × Text)
  | .map entries => walkEntries entries
  | .list items => walkItems key items
  | .null => []
  | .bool _ => []
  | .str s => if s ≠ [] ∧ key ≠ [] then [(key, s)] else []
  | .float x => if key ≠ [] then [(key, fl.FormatFloat x)] else []
  | .int n => if key ≠ [] then [(key, Itoa n)] else []

def walkEntries : List (Text × Any F) → List (Text × Text)
  | [] => []
  | (k, x) :: rest => walkScalars k x ++ walkEntries rest

def walkItems (key : Text) : List (Any F) → List (Text × Text)
  | [] => []
  | x :: rest => walkScalars key x ++ walkItems key rest

end

/-- The text by which an echo is known: the key in lower case, a zero, and the value. -/
def echoKey (e : Text × Text) : List ℕ :=
  (lower e.1).flatMap Base64Url.pointBytes ++ 0 :: e.2.map Fin.val

/-! ### Harvesting -/

/-- A call of `HarvestFromResponse`; `found` says whether there is such an endpoint. -/
structure Harvest (F : Type) where
  originalPath : Text
  found : Bool
  respStatus : ℕ
  respBody : Any F
  sent : List (Any F)

def getPathPrefix (originalPath : Text) : Text :=
  if 123 ∈ originalPath then (originalPath.takeWhile (· ≠ 123)).rdropWhile (· = slash)
  else originalPath

def Harvest.prefixOf (h : Harvest F) : Text := getPathPrefix h.originalPath

def isNil : Any F → Bool
  | .null => true
  | _ => false

/-- The call goes on to harvest. -/
def Harvest.admitted (h : Harvest F) : Bool :=
  200 ≤ h.respStatus && h.respStatus < 300 && !isNil h.respBody && h.found

local instance instLawfulBEqEcho : LawfulBEq (List ℕ) := inferInstance

/-- The values under an ID's key that are no echo of what was sent. -/
def Harvest.harvested (h : Harvest F) : List Text :=
  let echoed := (h.sent.flatMap (walkScalars fl [])).map echoKey
  ((walkScalars fl [] h.respBody).filter fun e => isIDParam e.1 && echoKey e ∉ echoed).map Prod.snd

/-- The harvested values that may be replayed, each once, sorted. -/
def Harvest.newIDs (h : Harvest F) : List Text :=
  ((h.harvested fl).dedup.filter isReplayableID).mergeSort fun a b => !textLess b a

/-- `appendUniqueCapped`: the merged list. -/
def appendUniqueCapped (existing add : List Text) (limit : ℕ) : List Text :=
  fillUp limit existing add

/-- The IDs of each prefix, the calls that are about to store theirs, and the calls so far. -/
structure State (F : Type) where
  harvestedIDs : List (Text × List Text)
  pending : List (Text × List Text)
  calls : List (Harvest F)

def State.ids (st : State F) (p : Text) : List Text := (get? st.harvestedIDs p).getD []

def start (F : Type) : State F := ⟨[], [], []⟩

inductive Action (F : Type) where
  /-- A call walks its body, without the lock. -/
  | harvest (h : Harvest F)
  /-- One of the calls merges its IDs, under the lock. -/
  | store (i : ℕ)

def step (st : State F) : Action F → Option (State F)
  | .harvest h =>
    let st' := { st with calls := st.calls ++ [h] }
    if !h.admitted || maxHarvestedIDsPerPrefix ≤ (st.ids h.prefixOf).length || (h.newIDs fl).isEmpty then
      some st'
    else some { st' with pending := st.pending ++ [(h.prefixOf, h.newIDs fl)] }
  | .store i =>
    match st.pending[i]? with
    | none => none
    | some (p, newIDs) =>
      let merged := appendUniqueCapped (st.ids p) newIDs maxHarvestedIDsPerPrefix
      let st' := { st with pending := st.pending.eraseIdx i }
      if merged = st.ids p then some st'
      else some { st' with harvestedIDs := set st.harvestedIDs p merged }

/-! ### Choosing IDs -/

def trimSlashes (s : Text) : Text := (s.dropWhile (· = slash)).rdropWhile (· = slash)

/-- They share the first two segments, or the one that there is. -/
def arePrefixesRelated (p1 p2 : Text) : Bool :=
  let p1Trim := trimSlashes p1
  let p2Trim := trimSlashes p2
  if p1Trim = [] ∨ p2Trim = [] then false
  else
    let p1Parts := p1Trim.splitOn slash
    let p2Parts := p2Trim.splitOn slash
    let matchLen := min 2 (min p1Parts.length p2Parts.length)
    p1Parts.take matchLen = p2Parts.take matchLen

/-- The prefixes that have IDs, in the order of their names. -/
def State.sortedPrefixes (st : State F) (p : Text → Bool) : List Text :=
  ((keys st.harvestedIDs).filter p).mergeSort fun a b => !textLess b a

/-- The IDs of some prefixes. -/
def State.idsOf (st : State F) (prefixes : List Text) : List Text := prefixes.flatMap st.ids

def State.related (st : State F) (p : Text) : List Text :=
  st.sortedPrefixes fun q => q ≠ p && arePrefixesRelated p q

def State.other (st : State F) (p : Text) : List Text :=
  st.sortedPrefixes fun q => q ≠ p && !arePrefixesRelated p q

/-- `harvestedIDsFor`, for a limit that is not zero. -/
def State.harvestedIDsFor (st : State F) (p : Text) (limit : ℕ) : List Text :=
  fillUp limit [] (st.ids p ++ st.idsOf (st.related p) ++ st.idsOf (st.other p))

/-! ### Replaying -/

/-- A result that is replayed. -/
structure Candidate (F : Type) where
  Endpoint : Text
  ResolvedPath : Text
  Payload : Any F
  isGetLike : Bool

structure ReplayTarget where
  path : Text
  id : Text
  deriving DecidableEq

def isParam (part : Text) : Bool := (ascii "\x7b").isPrefixOf part && (ascii "\x7d").isSuffixOf part

def isIDSegment (part : Text) : Bool := isParam part && isIDParam part.tail.dropLast

def segments (path : Text) : List Text := (trimSlashes path).splitOn slash

def templateHasIDParam (templatePath : Text) : Bool := (segments templatePath).any isIDSegment

def firstPathParam (templatePath : Text) : Text :=
  (((segments templatePath).find? isParam).map fun part => part.tail.dropLast).getD []

/-- The payload's entries are listed in the order that they are ranged over. -/
def replayParamName (cand : Candidate F) : Text :=
  if 123 ∈ cand.Endpoint then firstPathParam cand.Endpoint
  else
    match cand.Payload with
    | .map entries => (((keys entries).find? isIDParam)).getD []
    | _ => []

def placeIDInSegments (template base : List Text) (id : Text) : List Text :=
  List.zipWith (fun part segment => if isIDSegment part then PathEscape id else segment) template base

/-- `m[k]`; the zero value is nil. -/
def field (entries : List (Text × Any F)) (k : Text) : Any F := (get? entries k).getD .null

/-- The candidate's own path and the IDs that it has already are passed over. -/
def isOwn (cand : Candidate F) (paramName newPath id : Text) : Bool :=
  if templateHasIDParam cand.Endpoint then
    newPath = cand.ResolvedPath || unescape .pathSegment newPath = some cand.ResolvedPath
  else
    match cand.Payload with
    | .map entries => formatIDScalar fl (field entries paramName) = some id
    | _ => false

/-- The path of a target for an ID. -/
def newPath (cand : Candidate F) (id : Text) : Text :=
  if 123 ∈ cand.Endpoint then
    slash :: [slash].intercalate
      (placeIDInSegments (segments cand.Endpoint) (segments cand.ResolvedPath) id)
  else cand.ResolvedPath

/-- Whether there is a place for an ID in a replay of the candidate. -/
def expandable (cand : Candidate F) (expandIDs : Bool) : Bool :=
  replayParamName cand ≠ [] && expandIDs && (123 ∉ cand.Endpoint ||
    (segments cand.Endpoint).length = (segments cand.ResolvedPath).length)

def addTarget (cand : Candidate F) (targets : List ReplayTarget) (id : Text) : List ReplayTarget :=
  if isOwn fl cand (replayParamName cand) (newPath cand id) id then targets
  else if ⟨newPath cand id, id⟩ ∈ targets then targets
  else targets ++ [⟨newPath cand id, id⟩]

def State.buildPathsToTest (st : State F) (cand : Candidate F) (expandIDs : Bool) :
    List ReplayTarget :=
  if expandable cand expandIDs then
    (st.harvestedIDsFor (getPathPrefix cand.Endpoint) maxHarvestedIDsToTest).foldl
      (addTarget fl cand) [⟨cand.ResolvedPath, []⟩]
  else [⟨cand.ResolvedPath, []⟩]

/-- `strings.EqualFold` -/
def equalFold (s t : Text) : Bool :=
  (runes s).map UnicodeCase.foldRune = (runes t).map UnicodeCase.foldRune

def coerceID (orig : Any F) (harvestedID : Text) : Any F :=
  match orig with
  | .float _ => ((fl.ParseFloat harvestedID).map Any.float).getD (.str harvestedID)
  | .int _ => ((Atoi harvestedID).map Any.int).getD (.str harvestedID)
  | _ => .str harvestedID

mutual

def substituteIDsInPayload (paramName harvestedID : Text) : Any F → Any F
  | .map entries => .map (substituteEntries paramName harvestedID entries)
  | .list items => .list (substituteItems paramName harvestedID items)
  | .null => .null
  | .bool b => .bool b
  | .str s => .str s
  | .float x => .float x
  | .int n => .int n

def substituteEntries (paramName harvestedID : Text) : List (Text × Any F) → List (Text × Any F)
  | [] => []
  | (k, v) :: rest =>
    (k, if equalFold k paramName || isIDParam k then coerceID fl v harvestedID
      else substituteIDsInPayload paramName harvestedID v) ::
      substituteEntries paramName harvestedID rest

def substituteItems (paramName harvestedID : Text) : List (Any F) → List (Any F)
  | [] => []
  | v :: rest =>
    substituteIDsInPayload paramName harvestedID v :: substituteItems paramName harvestedID rest

end

/-- `resolveReplayPayload`: what is sent of the payload, in the body or in the query. -/
def resolveReplayPayload (cand : Candidate F) (paramName targetID : Text) : Any F :=
  if cand.isGetLike then
    match cand.Payload with
    | .map entries =>
      if targetID ≠ [] ∧ paramName ≠ [] then
        substituteIDsInPayload fl paramName targetID (.map entries)
      else .map entries
    | _ => .null
  else if targetID ≠ [] ∧ paramName ≠ [] ∧ !isNil cand.Payload then
    substituteIDsInPayload fl paramName targetID cand.Payload
  else cand.Payload

/-- The request of a target: its path, and its payload, in the body or in the query. -/
def request (cand : Candidate F) (t : ReplayTarget) : Text × Any F :=
  (t.path, resolveReplayPayload fl cand (replayParamName cand) t.id)

end Values

end Swazz.Bola
