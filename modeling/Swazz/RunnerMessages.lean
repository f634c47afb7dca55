import Swazz.TextRewriting
import Swazz.LicenseTokens

/-! What users are shown of a runner's messages: the text without stack traces, escape sequences
and control characters, and the URLs in it kept to scheme and host. -/
namespace Swazz.RunnerMessages

open TextRewriting
open RunnerAccess (js)
open License (jsSpace trim)

/-- A JavaScript string as its UTF-16 units. -/
abbrev Text := List ℕ

/-- The unit of `…`, which stands for what is left out. -/
def mark : ℕ := 0x2026

def isLetter (c : ℕ) : Bool := (65 ≤ c && c ≤ 90) || (97 ≤ c && c ≤ 122)

def isDigit (c : ℕ) : Bool := 48 ≤ c && c ≤ 57

def isWord (c : ℕ) : Bool := isLetter c || isDigit c || c = 95

/-! ### The patterns -/

/-- `[A-Za-z0-9+.-]` -/
def isSchemeUnit (c : ℕ) : Bool := isLetter c || isDigit c || c = 43 || c = 46 || c = 45

/-- A unit that is neither blank nor a quote nor an angle bracket. -/
def isUrlUnit (c : ℕ) : Bool := !jsSpace c && c ≠ 34 && c ≠ 39 && c ≠ 60 && c ≠ 62

def colonSlashes : Text := js "://"

/-- `URL_IN_TEXT`. The colon is no part of a scheme, so that the scheme is as long as it can be. -/
def urlInText : Text → ℕ
  | [] => 0
  | c :: s =>
    let scheme := s.takeWhile isSchemeUnit
    let body := ((s.dropWhile isSchemeUnit).drop 3).takeWhile isUrlUnit
    if isLetter c && colonSlashes.isPrefixOf (s.dropWhile isSchemeUnit) && body ≠ [] then
      1 + scheme.length + 3 + body.length
    else 0

def isAnsiParameter (c : ℕ) : Bool := isDigit c || c = 59 || c = 63

def isAnsiIntermediate (c : ℕ) : Bool := 32 ≤ c && c ≤ 47

def isAnsiFinal (c : ℕ) : Bool := 64 ≤ c && c ≤ 126

def escape : ℕ := 27

/-- `ANSI_ESCAPES`. -/
def ansiEscape (s : Text) : ℕ :=
  if [escape, 91].isPrefixOf s then
    let parameters := (s.drop 2).takeWhile isAnsiParameter
    let s' := (s.drop 2).dropWhile isAnsiParameter
    if ((s'.dropWhile isAnsiIntermediate).head?.any isAnsiFinal) then
      2 + parameters.length + (s'.takeWhile isAnsiIntermediate).length + 1
    else 0
  else 0

def isControl (c : ℕ) : Bool := c ≤ 0x1f || (0x7f ≤ c && c ≤ 0x9f)

/-- A run of one kind of units: `CONTROL_CHARS` of control characters, and that of blanks. -/
def runOf (p : ℕ → Bool) (s : Text) : ℕ := (s.takeWhile p).length

/-! ### Stack traces -/

def after (w s : Text) : Option Text := if w.isPrefixOf s then some (s.drop w.length) else none

/-- One unit of a kind at least, and then `w`. -/
def runThen (p : ℕ → Bool) (w s : Text) : Bool :=
  (s.takeWhile p ≠ []) && w.isPrefixOf (s.dropWhile p)

def isCallee (c : ℕ) : Bool := isWord c || c = 36 || c = 46 || c = 60 || c = 62

def isPathUnit (c : ℕ) : Bool := isWord c || c = 46 || c = 47 || c = 92 || c = 45

/-- A place in a source file. The ending is made of units of the path too, and the colon is none:
it is what the longest path ends with. -/
def isLocation (s : Text) : Bool :=
  let path := s.takeWhile isPathUnit
  [js ".go", js ".ts", js ".js", js ".mjs"].any (fun ending =>
      ending.isSuffixOf path && ending.length < path.length) &&
    (after (js ":") (s.dropWhile isPathUnit)).any fun s => s.head?.any isDigit

/-- The alternatives of `STACK_TRACE_START`. -/
def startsTrace (s : Text) : Bool :=
  (after (js "goroutine ") s).any (runThen isDigit (js " [")) || (js "panic:").isPrefixOf s ||
    (after (js "at ") s).any (runThen isCallee (js " (")) || isLocation s

/-- The text before the first line break that a trace follows. -/
def beforeTrace : Text → Text
  | [] => []
  | c :: s => if c = 10 && startsTrace (s.dropWhile jsSpace) then [] else c :: beforeTrace s

/-- The text before `text.search(STACK_TRACE_START)`. -/
def cutTrace (text : Text) : Text :=
  if startsTrace (text.dropWhile jsSpace) then [] else beforeTrace text

/-! ### The messages -/

/-- The parts of a parsed URL. -/
structure Url where
  protocol : Text
  username : Text
  password : Text
  host : Text
  pathname : Text
  search : Text
  hash : Text

/-- What a URL shows after its slashes. -/
def shown (raw : Text) (u : Url) : Text :=
  let userinfo := if u.username ≠ [] ∨ u.password ≠ [] then [mark, 64] else []
  let query := if u.search ≠ [] ∨ 63 ∈ raw then [63, mark] else []
  let fragment := if u.hash ≠ [] then [35, mark] else []
  let path := if u.pathname ≠ [] ∧ u.pathname ≠ js "/" then [47, mark] else []
  userinfo ++ u.host ++ (path ++ query ++ fragment)

section

-- `new URL`, which throws where there is none.
variable (newURL : Text → Option Url)

def redactUrl (raw : Text) : Text :=
  match newURL raw with
  | none => js "(URL)"
  | some u => if u.host = [] then u.protocol ++ [mark] else u.protocol ++ js "//" ++ shown raw u

def redactUrls (text : Text) : Text := replaceAll urlInText (redactUrl newURL) text

def removeEscapes (text : Text) : Text := replaceAll ansiEscape (fun _ => []) text

/-- A run becomes one blank. -/
def foldRuns (p : ℕ → Bool) (text : Text) : Text := replaceAll (runOf p) (fun _ => [32]) text

/-- `text.slice(0, stop)` -/
def sliceTo (text : Text) (stop : ℤ) : Text :=
  text.take (if stop < 0 then text.length + stop else stop).toNat

def trimEnd (text : Text) : Text := text.rdropWhile jsSpace

/-- What a runner sends: a string, nothing, or another value, by its JSON text (or, where it has
none, what `String` makes of it). -/
inductive Raw where
  | str (s : Text)
  | nullish
  | other (text : Text)

def Raw.text : Raw → Text
  | .str s => s
  | .nullish => []
  | .other text => text

def MAX_RUNNER_MESSAGE_LENGTH : ℤ := 500

/-- The one line that is left of a text. -/
def oneLine (text : Text) : Text :=
  let text := removeEscapes (redactUrls newURL (cutTrace text))
  trim jsSpace (foldRuns jsSpace (foldRuns isControl text))

def sanitizeRunnerText (raw : Raw) (max : ℤ) : Text :=
  let text := oneLine newURL raw.text
  if max < text.length then trimEnd (sliceTo text (max - 1)) ++ [mark] else text

def MAX_RUNNER_LOG_LENGTH : ℤ := 4000

def redactRunnerLogText (raw : Raw) (max : ℤ) : Text :=
  let text := match raw with
    | .str s => s
    | _ => []
  let text := removeEscapes (redactUrls newURL text)
  if max < text.length then sliceTo text (max - 1) ++ [mark] else text

end

/-! ### What a message may show -/

def isAuthorityUnit (c : ℕ) : Bool := c ≠ 47 && c ≠ 63 && c ≠ 35 && c ≠ 92

/-- What the URL standard says of the parts: a protocol is a scheme and a colon, and no host has a
control character or one of the units that end it. -/
structure ParsesUrls (newURL : Text → Option Url) : Prop where
  protocol : ∀ raw u, newURL raw = some u → ∃ c scheme, u.protocol = c :: scheme ++ [58] ∧
    isLetter c ∧ ∀ x ∈ scheme, isSchemeUnit x
  host : ∀ raw u, newURL raw = some u → ∀ c ∈ u.host, isAuthorityUnit c ∧ c ≠ 64 ∧ ¬ isControl c

/-- What stands before the last `@`. -/
def userinfo (authority : Text) : Text := (authority.rdropWhile (· ≠ 64)).dropLast

/-- What follows `://` has, after the host, no more than the marks, and nothing else before it. -/
def HostOnly (body : Text) : Prop :=
  (∀ c ∈ userinfo (body.takeWhile isAuthorityUnit), c = mark) ∧
    ∀ c ∈ body.dropWhile isAuthorityUnit, c ∈ [47, 63, 35, mark]

instance : DecidablePred HostOnly := fun _ => inferInstanceAs (Decidable (_ ∧ _))

/-- A match of `URL_IN_TEXT`: a scheme of at least one letter, `://` and a body. -/
structure IsUrl (c : ℕ) (scheme body : Text) : Prop where
  letter : isLetter c
  units : ∀ x ∈ scheme, isSchemeUnit x
  nonempty : body ≠ []
  body_units : ∀ x ∈ body, isUrlUnit x

def url (c : ℕ) (scheme body : Text) : Text := c :: (scheme ++ (colonSlashes ++ body))

/-- The bodies of all the parts of a text that match `URL_IN_TEXT` are as `P` has it. -/
def UrlsAre (P : Text → Prop) (text : Text) : Prop :=
  ∀ a c scheme body b, text = a ++ (url c scheme body ++ b) → IsUrl c scheme body → P body

/-- What is left of pieces without the escape sequences among them. -/
def kept (ps : List (Piece ℕ)) : Text := render (fun _ => []) ps

/-- No escape sequence stands inside the scheme and the `://` of a URL that has more than a host
after them. -/
def Unsplit (text : Text) : Prop :=
  ∀ l w r, pieces ansiEscape text = l ++ .hit w :: r →
    ∀ a c u v scheme body b, kept l = a ++ c :: u → kept r = v ++ (body ++ b) → v ≠ [] →
      u ++ v = scheme ++ colonSlashes → IsUrl c scheme body → HostOnly body

/-- Every URL in a text is kept to scheme and host. -/
def Redacted (text : Text) : Prop := UrlsAre HostOnly text

/-- What users are shown of a string that a runner sends, whatever the bound on its length. -/
structure ShowsHostsOnly (newURL : Text → Option Url) (s : Text) : Prop where
  log : ∀ max, Redacted (redactRunnerLogText newURL (.str s) max)
  message : ∀ max, Redacted (sanitizeRunnerText newURL (.str s) max)
  printable : ∀ max, ∀ c ∈ sanitizeRunnerText newURL (.str s) max, ¬ isControl c
  noEscape : ∀ max i, ansiEscape ((sanitizeRunnerText newURL (.str s) max).drop i) = 0
  bounded : ∀ max, 1 ≤ max → (sanitizeRunnerText newURL (.str s) max).length ≤ max

end Swazz.RunnerMessages
