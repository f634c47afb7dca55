import Swazz.Wildcards
import Swazz.LicenseTokens

/-! Endpoint globs: those of the ignore rules, those of the runner's filter, and those of the
dashboard. -/
namespace Swazz.Globs

open RunnerAccess (JsString js)
open UnicodeCase
open Wildcards

/-! ### Regular expressions -/

/-- The characters that stand for themselves only behind a backslash. -/
def metaCharacters : JsString := js "\\.+*?()|[]\x7b\x7d^$"

structure Regexp where
  ignoreCase : Bool
  parts : List (PatternPart ℕ)

/-- What follows `^`, up to `$`: characters, `.*` and `[^/]*`. -/
def compileParts : JsString → Option (List (PatternPart ℕ))
  | 36 :: [] => some []
  | 46 :: 42 :: s => (compileParts s).map (.wide :: ·)
  | 91 :: 94 :: 47 :: 93 :: 42 :: s => (compileParts s).map (.narrow :: ·)
  | 92 :: c :: s => if c ∈ metaCharacters then (compileParts s).map (.item c :: ·) else none
  | c :: s => if c ∈ metaCharacters then none else (compileParts s).map (.item c :: ·)
  | [] => none

/-- The regular expressions that the globs are written to; no value for another text. -/
def compile : JsString → Option Regexp
  | 40 :: 63 :: 105 :: 41 :: 94 :: s => (compileParts s).map (⟨true, ·⟩)
  | 94 :: s => (compileParts s).map (⟨false, ·⟩)
  | _ => none

/-- `.` is no line feed, and a letter is all those of its class of simple folding. -/
def goRules (ignoreCase : Bool) : Rules ℕ where
  same c d := if ignoreCase then foldRune c = foldRune d else c = d
  narrow c := c ≠ 47
  wide c := c ≠ 10

/-- `regexp.MustCompile` and `MatchString`, on what Go ranges over in a string. -/
def matchString (text s : JsString) : Bool :=
  match compile text with
  | some re => (goRules re.ignoreCase).accepts re.parts s
  | none => false

/-- `regexp.QuoteMeta` of one character -/
def quoteMeta (c : ℕ) : JsString := if c ∈ metaCharacters then [92, c] else [c]

/-- `strings.EqualFold` -/
def equalFold (s t : JsString) : Bool := s.map foldRune = t.map foldRune

/-- The loop of both translations. -/
def globItems : JsString → JsString
  | 42 :: 42 :: s => js ".*" ++ globItems s
  | 42 :: s => js "[^/]*" ++ globItems s
  | c :: s => quoteMeta c ++ globItems s
  | [] => []

/-! ### The ignore rules -/

def endpointGlobToRegex (p : JsString) : JsString := js "^" ++ globItems p ++ js "$"

def endpointMatches (pattern endpoint : JsString) : Bool :=
  if 42 ∉ pattern then equalFold pattern endpoint
  else matchString (endpointGlobToRegex pattern) endpoint

/-! ### The runner's filter -/

def globToRegex (p : JsString) : JsString := js "(?i)^" ++ globItems p ++ js "$"

def matchesAny (key path : JsString) (patterns : List JsString) : Bool :=
  patterns.any fun p =>
    if 42 ∉ p then equalFold p key || equalFold p path
    else matchString (globToRegex p) key || matchString (globToRegex p) path

/-! ### The dashboard -/

/-- `Canonicalize` of one unit: its upper case, if that is one unit and does not become ASCII. -/
def canonicalize (u : ℕ) : ℕ :=
  match upper u with
  | [v] => if 128 ≤ u ∧ v < 128 then u else v
  | _ => u

/-- The flag `i` without `u`, and `.` without `s`. -/
def jsRules : Rules ℕ where
  same c d := canonicalize c = canonicalize d
  narrow c := c ≠ 47
  wide c := c ∉ [10, 13, 0x2028, 0x2029]

/-- `/[.+^?${}()|[\]\\]/` -/
def syntaxCharacters : JsString := js ".+^?$\x7b\x7d()|[]\\"

def escapeSyntax (pattern : JsString) : JsString :=
  pattern.flatMap fun c => if c ∈ syntaxCharacters then [92, c] else [c]

/-- `.replace(/\*\*|\*/g, ..)` -/
def replaceStars : JsString → JsString
  | 42 :: 42 :: s => js ".*" ++ replaceStars s
  | 42 :: s => js "[^/]*" ++ replaceStars s
  | c :: s => c :: replaceStars s
  | [] => []

def getRegex (pattern : JsString) : JsString :=
  js "^" ++ replaceStars (escapeSyntax pattern) ++ js "$"

/-- `new RegExp(source, 'i').test(s)` -/
def regexTest (source s : JsString) : Bool :=
  match compile source with
  | some re => jsRules.accepts re.parts s
  | none => false

/-- `/^[A-Z]+\s/i` -/
def hasMethodPrefix (p : JsString) : Bool :=
  let isLetter u := 65 ≤ canonicalize u && canonicalize u ≤ 90
  match p.takeWhile isLetter, p.dropWhile isLetter with
  | _ :: _, c :: _ => License.jsSpace c
  | _, _ => false

def matchesPattern (method path : JsString) (patterns : List JsString) : Bool :=
  let key := method ++ js " " ++ path
  patterns.any fun p =>
    if hasMethodPrefix p then regexTest (getRegex p) key
    else regexTest (getRegex p) path || regexTest (getRegex p) key

end Swazz.Globs
