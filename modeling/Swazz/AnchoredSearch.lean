import Swazz.GoRegexp
import Swazz.Prefilter

/-! The searches of the analyzers that try a pattern only where a match can begin. -/
namespace Swazz.Analyzer

open Utf8 Regexes GoRegexp AnalysisInput

/-! ### Anchored patterns -/

/-- `^(?:pattern)` -/
def anchoredRegexp (pattern : Regex RuneClass) : Regex RuneClass := .begin ++ pattern

/-- `bytes.IndexByte` -/
def IndexByte (s : Text) (c : Byte) : Option ℕ := s.findIdx? (· = c)

def findFromAt (body : Text) (anchored : Regex RuneClass) (first : Byte) (canStart : ℕ → Bool)
    (i : ℕ) : Option (ℕ × ℕ) :=
  if i < body.length then
    match IndexByte (body.drop i) first with
    | none => none
    | some j =>
      match if canStart (i + j) then FindIndex anchored (body.drop (i + j)) else none with
      | some loc => some (i + j + loc.1, i + j + loc.2)
      | none => findFromAt body anchored first canStart (i + j + 1)
  else none
termination_by body.length - i

def findFrom (body : Text) (anchored : Regex RuneClass) (first : Byte) (canStart : ℕ → Bool) :
    Option (ℕ × ℕ) := findFromAt body anchored first canStart 0

def isWordASCII (c : Byte) : Bool :=
  c = 95 || (48 ≤ c && c ≤ 57) || (97 ≤ c && c ≤ 122) || (65 ≤ c && c ≤ 90)

/-! ### Internal addresses -/

/-- `\d{1,3}` -/
def upToThree : Regex RuneClass := .many digit 1 (some 3)

def internalIPPattern : Regex RuneClass :=
  .boundary ++ (
    ((lit "10." ++ upToThree ++ lit "." ++ upToThree ++ lit "." ++ upToThree) |||
      (lit "172." ++
        ((lit "1" ++ .one (.set [(54, 57)])) ||| (lit "2" ++ .one digit) |||
          (lit "3" ++ .one (.set [(48, 49)]))) ++
        lit "." ++ upToThree ++ lit "." ++ upToThree) |||
      (lit "192.168." ++ upToThree ++ lit "." ++ upToThree)) ++
    .boundary)

example : FindIndex internalIPPattern (ascii "x10.0.0.1 172.16.4.4") = some (10, 20) := by
  decide

def internalIPAt : Regex RuneClass := anchoredRegexp internalIPPattern

def internalIPStarts : List Text := [ascii "10.", ascii "172.", ascii "192.168."]

def findInternalIP (body : Text) : Option (ℕ × ℕ) :=
  findFrom body internalIPAt 49 fun i =>
    if 0 < i && isWordASCII (body.getD (i - 1) 0) then false
    else internalIPStarts.any fun start => start.isPrefixOf (body.drop i)

/-! ### Attributes -/

def longS : Text := [0xC5, 0xBF]

def kelvinSign : Text := [0xE2, 0x84, 0xAA]

def AnalysisInput.hasUnicodeFoldRunes (input : AnalysisInput) : Bool :=
  Contains input.ResponseBody longS || Contains input.ResponseBody kelvinSign

/-- `[^"]*` -/
def untilQuote : Regex RuneClass := star (.outside [(34, 34)])

def massAssignmentRx : Regex RuneClass :=
  foldLit "\"" ++
    (foldLit "role" ||| foldLit "role_id" ||| foldLit "is_admin" ||| foldLit "admin" |||
      foldLit "tier" ||| foldLit "permissions" ||| foldLit "verified" ||| foldLit "status") ++
    foldLit "\"" ++ star space ++ foldLit ":" ++ star space ++
    (foldLit "\"admin\"" ||| foldLit "\"superadmin\"" ||| foldLit "\"active\"" |||
      foldLit "true" ||| foldLit "1" |||
      (foldLit "[\"" ++ untilQuote ++ foldLit "*" ++ untilQuote ++ foldLit "\"]"))

def massAssignmentAt : Regex RuneClass := anchoredRegexp massAssignmentRx

def ormErrorRx : Regex RuneClass :=
  foldLit "ActiveRecord::UnknownAttributeError" ||| foldLit "UnrecognizedPropertyException" |||
    (foldLit "Cannot set property '" ++
      (foldLit "role" ||| foldLit "role_id" ||| foldLit "is_admin" ||| foldLit "admin" |||
        foldLit "tier" ||| foldLit "status") ++ foldLit "' on") |||
    (foldLit "MongoError: Unknown modifier: $set." ++
      (foldLit "role" ||| foldLit "role_id" ||| foldLit "is_admin" ||| foldLit "status"))

def ormErrorLiterals : List Text :=
  ["activerecord::unknownattributeerror", "unrecognizedpropertyexception",
    "cannot set property '", "mongoerror: unknown modifier: $set."].map ascii

def findORMError (pools : Pools) (input : AnalysisInput) : Option (ℕ × ℕ) × AnalysisInput :=
  if !input.hasUnicodeFoldRunes then
    let (found, input) := input.containsAnyLower pools ormErrorLiterals
    if !found then (none, input) else (FindIndex ormErrorRx input.ResponseBody, input)
  else (FindIndex ormErrorRx input.ResponseBody, input)

def massAssignmentKeys : List Text :=
  ["role\"", "role_id\"", "is_admin\"", "admin\"", "tier\"", "permissions\"", "verified\"",
    "status\""].map ascii

def findMassAssignment (pools : Pools) (input : AnalysisInput) :
    Option (ℕ × ℕ) × AnalysisInput :=
  if input.hasUnicodeFoldRunes then (FindIndex massAssignmentRx input.ResponseBody, input)
  else
    let (lower, input) := input.lowerBody pools
    (findFrom input.ResponseBody massAssignmentAt 34 fun i =>
      massAssignmentKeys.any fun k => k.isPrefixOf (lower.drop (i + 1)), input)

/-! ### The output of `id` -/

def unixIdRegex : Regex RuneClass :=
  (lit "uid" ||| lit "gid" ||| lit "groups") ++ lit "=" ++ plus digit ++ lit "(" ++
    plus (.set [(48, 57), (65, 90), (95, 95), (97, 122), (45, 45)]) ++ lit ")"

def unixIdLiterals : List Text := [ascii "id=", ascii "groups="]

def containsAnyLiteral (body : Text) (literals : List Text) : Bool :=
  if literals.length = 0 then true else literals.any fun l => Contains body l

def findUnixID (body : Text) : Option Text :=
  if !containsAnyLiteral body unixIdLiterals then none else Find unixIdRegex body

end Swazz.Analyzer
