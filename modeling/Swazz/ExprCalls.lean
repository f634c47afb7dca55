import Swazz.Classifying
import Swazz.ExprParser

/-! The built-in functions of the expressions, with every index and bound that they take, and the
evaluation with its cache. A string is the list of its bytes, each as the character of its number. -/
namespace Swazz.Expressions

open GoSlices
open SetVariables (Text Map Node Value cacheKey nondeterministic lookupVar ParseError)

/-- What `json.Unmarshal` makes of a value: `%v` prints what is neither an object nor an array. -/
inductive Any where
  | nil
  | obj (m : List (Text × Any))
  | arr (l : List Any)
  | other (printed : Text)

/-- The packages that the functions call. -/
structure Library where
  /-- The results of `uuid.New` and of `rand.Read`, one after the other. -/
  uuid : ℕ → Text
  entropy : ℕ → Option (List ℕ)
  Sum256 : List ℕ → { h : List ℕ // h.length = 32 }
  hmac : List ℕ → List ℕ → List ℕ
  hexEncode : List ℕ → Text
  stdEncode : List ℕ → Text
  rawURLEncode : List ℕ → Text
  ToUpper : Text → Text
  ToLower : Text → Text
  TrimSpace : Text → Text
  /-- `url.Parse`, and the first value of a parameter of the query. -/
  parseURL : Text → Option (Text → Text)
  /-- `regexp.Compile` and `FindStringSubmatch`. -/
  compile : Text → Option (Text → List Text)
  unmarshal : Text → Option (Map Any)
  sprint : Any → Text

inductive EvalError where
  | undefined (name : Text)
  | inArg (i : ℕ) (function : Text) (e : EvalError)
  | takes (function : Text) (got : ℕ)
  | entropy
  | notInteger (function arg : Text)
  | invalid (function arg : Text)
  | notFound (path : Text)
  | difficulty (n : ℤ)
  | noNonce (difficulty : ℤ)
  | unknown (function : Text)

abbrev Evaluated (α : Type) := Run EvalError α

def bytes (s : Text) : List ℕ := s.map Char.toNat

/-- `strconv.Atoi` -/
def Atoi (s : Text) : Option ℤ := Classifying.atoi (bytes s)

def IndexByte (s : Text) (c : Char) : ℤ := if c ∈ s then (s.idxOf c : ℤ) else -1

/-! ### JSON paths -/

/-- The key and the array index of a part of a path, `-1` for none. -/
def pathPart (part : Text) : Evaluated (Text × ℤ) :=
  let start := IndexByte part '['
  if 0 ≤ start then
    let stop := IndexByte part ']'
    if start < stop then do
      match Atoi (← slice part (start + 1) stop) with
      | some idx => return (← slice part 0 start, idx)
      | none => return (part, -1)
    else return (part, -1)
  else return (part, -1)

def elementAt (current : Any) (arrIdx : ℤ) : Evaluated Any :=
  match current with
  | .nil => return .nil
  | current =>
    if 0 ≤ arrIdx then
      match current with
      | .arr l => if arrIdx < l.length then index l arrIdx else return .nil
      | _ => return .nil
    else return current

def extractParts : List Text → Any → Evaluated Any
  | [], _ => return .nil
  | part :: rest, current => do
    let (key, arrIdx) ← pathPart part
    match current with
    | .obj m =>
      match ← elementAt ((m.lookup key).getD .nil) arrIdx with
      | .nil => return .nil
      | current => if rest = [] then return current else extractParts rest current
    | _ => return .nil

def extractJSONPath (data : Map Any) (path : Text) : Evaluated Any :=
  extractParts (path.splitOn '.') (.obj data)

/-! ### Proof of work -/

/-- `for i := range numZeroBytes`: whether these bytes from `i` on are zero. -/
def zeroBytes (hash : List ℕ) : ℕ → ℕ → Evaluated Bool
  | 0, _ => return true
  | left + 1, i => do if (← index hash i) ≠ 0 then return false else zeroBytes hash left (i + 1)

/-- Whether a hash begins with so many zero digits. -/
def hasZeros (hash : List ℕ) (difficulty : ℕ) : Evaluated Bool := do
  let matched ← zeroBytes hash (difficulty / 2) 0
  if matched ∧ difficulty % 2 ≠ 0 then do
    let b ← index hash (difficulty / 2 : ℕ)
    return b / 16 = 0
  else return matched

/-- At most so many nonces, from the next one on. -/
def searchNonce (lib : Library) (challenge : Text) (difficulty : ℕ) : ℕ → ℕ → Evaluated Text
  | 0, _ => .error (.error (.noNonce difficulty))
  | left + 1, nonce => do
    let digits := (Nat.repr nonce).toList
    if ← hasZeros (lib.Sum256 (bytes challenge ++ bytes digits)).1 difficulty then return digits
    else searchNonce lib challenge difficulty left (nonce + 1)

def solvePoW (lib : Library) (challenge : Text) (difficulty : ℤ) : Evaluated Text :=
  if difficulty < 0 then .error (.error (.difficulty difficulty))
  else if difficulty = 0 then return ['0']
  else if 64 < difficulty then .error (.error (.difficulty difficulty))
  else searchNonce lib challenge difficulty.toNat 10000000 0

/-! ### Functions -/

section

variable (lib : Library)

def takesOne (name : Text) (args : List Text) (f : Text → Evaluated Text) : Evaluated Text :=
  match args with
  | [a] => f a
  | _ => .error (.error (.takes name args.length))

def takesTwo (name : Text) (args : List Text) (f : Text → Text → Evaluated Text) :
    Evaluated Text :=
  match args with
  | [a, b] => f a b
  | _ => .error (.error (.takes name args.length))

def atoiOr (name arg : Text) : Evaluated ℤ :=
  match Atoi arg with
  | some n => .ok n
  | none => .error (.error (.notInteger name arg))

def substring (args : List Text) : Evaluated Text :=
  let name := "substring".toList
  match args with
  | [s, start, stop] => do
    let start ← atoiOr name start
    let stop ← atoiOr name stop
    let start := if start < 0 then 0 else start
    let stop := if s.length < stop then (s.length : ℤ) else stop
    if stop ≤ start then return [] else slice s start stop
  | _ => .error (.error (.takes name args.length))

/-- With `none` for the group that is not given. -/
def extractGroup (s pattern : Text) (group : Option Text) : Evaluated Text :=
  match lib.compile pattern with
  | none => .error (.error (.invalid "regexExtract".toList pattern))
  | some find =>
    let ms := find s
    if ms = [] then return []
    else
      let group := (group.bind Atoi).getD 1
      if group < ms.length then index ms group else index ms 0

def regexExtract (args : List Text) : Evaluated Text :=
  match args with
  | [s, pattern] => extractGroup lib s pattern none
  | [s, pattern, group] => extractGroup lib s pattern (some group)
  | _ => .error (.error (.takes "regexExtract".toList args.length))

def jsonPath (json path : Text) : Evaluated Text :=
  match lib.unmarshal json with
  | none => .error (.error (.invalid "jsonPath".toList json))
  | some parsed => do
    match ← extractJSONPath parsed path with
    | .nil => .error (.error (.notFound path))
    | val => return lib.sprint val

/-- The number says how many random values were taken before. -/
def callBuiltin (drawn : ℕ) (name : Text) (args : List Text) : Evaluated Text :=
  if name = "uuid".toList then
    if args ≠ [] then .error (.error (.takes name args.length)) else return lib.uuid drawn
  else if name = "pkceVerifier".toList then
    if args ≠ [] then .error (.error (.takes name args.length))
    else
      match lib.entropy drawn with
      | none => .error (.error .entropy)
      | some b => return lib.rawURLEncode b
  else if name = "pkceChallenge".toList then
    takesOne name args fun a => return lib.rawURLEncode (lib.Sum256 (bytes a)).1
  else if name = "sha256".toList then
    takesOne name args fun a => return lib.hexEncode (lib.Sum256 (bytes a)).1
  else if name = "hmacSHA256".toList then
    takesTwo name args fun a key => return lib.hexEncode (lib.hmac (bytes key) (bytes a))
  else if name = "base64".toList then takesOne name args fun a => return lib.stdEncode (bytes a)
  else if name = "hex".toList then takesOne name args fun a => return lib.hexEncode (bytes a)
  else if name = "concat".toList then return args.flatten
  else if name = "upper".toList then takesOne name args fun a => return lib.ToUpper a
  else if name = "lower".toList then takesOne name args fun a => return lib.ToLower a
  else if name = "trim".toList then takesOne name args fun a => return lib.TrimSpace a
  else if name = "substring".toList then substring args
  else if name = "urlQuery".toList then
    takesTwo name args fun u param =>
      match lib.parseURL u with
      | none => .error (.error (.invalid name u))
      | some get => return get param
  else if name = "regexExtract".toList then regexExtract lib args
  else if name = "jsonPath".toList then takesTwo name args (jsonPath lib)
  else if name = "solvePoW".toList then
    takesTwo name args fun challenge difficulty => do
      solvePoW lib challenge (← atoiOr name difficulty)
  else .error (.error (.unknown name))

end

/-! ### Evaluation -/

/-- The cache, how many random values were taken, and the calls that were made. -/
structure State where
  cache : Map Text
  drawn : ℕ
  calls : List (Text × List Text)

/-- A function is called, its result cached unless it is random. -/
def State.call (lib : Library) (s : State) (name : Text) (args : List Text) (key : Text) :
    Evaluated Text × State :=
  let result := callBuiltin lib s.drawn name args
  (result,
    { cache := if nondeterministic name then s.cache
        else match result with
          | .ok v => (key, v) :: s.cache
          | .error _ => s.cache
      drawn := if nondeterministic name ∧ args = [] then s.drawn + 1 else s.drawn
      calls := s.calls ++ [(name, args)] })

section

variable (lib : Library) (vars : Map Value)

mutual

def evalExpr : Node → State → Evaluated Text × State
  | .literal name, s => (.ok name, s)
  | .varRef name, s =>
    match lookupVar vars name with
    | none => (.error (.error (.undefined name)), s)
    | some v => (.ok v, s)
  | .call name args, s =>
    match if nondeterministic name then none else s.cache.lookup (cacheKey (.call name args)) with
    | some v => (.ok v, s)
    | none =>
      match evalArgs args name 1 s with
      | (.error e, s) => (.error e, s)
      | (.ok vs, s) => s.call lib name vs (cacheKey (.call name args))

def evalArgs : List Node → Text → ℕ → State → Evaluated (List Text) × State
  | [], _, _, s => (.ok [], s)
  | a :: args, function, i, s =>
    match evalExpr a s with
    | (.error (.error e), s) => (.error (.error (.inArg i function e)), s)
    | (.error .panic, s) => (.error .panic, s)
    | (.ok v, s) =>
      match evalArgs args function (i + 1) s with
      | (.error e, s) => (.error e, s)
      | (.ok vs, s) => (.ok (v :: vs), s)

end

end

end Swazz.Expressions
