import Mathlib.Algebra.BigOperators.Group.Finset.Basic
import Mathlib.Algebra.Order.BigOperators.Group.Finset
import Mathlib.Data.List.Dedup

/-! The results that a run keeps for the phases after the scan: how many of each kind, and which
of those that arrive. -/
namespace Swazz.Retention

/-- A Go string, by its bytes. -/
abbrev Bytes := List UInt8

def maxRetainedPerEndpoint : ℕ := 25
def minRetainedPerEndpoint : ℕ := 3
def maxRetainedResults : ℕ := 10000
def maxFullPerDefect : ℕ := 20
def maxFullResults : ℕ := 2000
def maxSlimFindings : ℕ := 100000
def maxSlimTextBytes : ℕ := 1000

structure AnalysisFinding where
  ruleID : Bytes
  evidence : Bytes
  message : Bytes

/-- A result, with payloads and bodies of some type and headers of another. -/
structure FuzzResult (β γ : Type) where
  method : Bytes
  endpoint : Bytes
  profile : Bytes
  payload : Option β
  responseBody : Option β
  responseHeaders : Option γ
  requestHeaders : Option γ
  requestURI : Bytes
  resolvedPath : Bytes
  error : Bytes
  analyzerFindings : List AnalysisFinding
  slim : Bool

structure PlainKey where
  method : Bytes
  endpoint : Bytes
  profile : Bytes
  active : Bool
  deriving DecidableEq

structure DefectKey where
  rule : Bytes
  method : Bytes
  endpoint : Bytes
  deriving DecidableEq

structure RetainedResults where
  plainPer : PlainKey → ℕ
  defectPer : DefectKey → ℕ
  plain : ℕ
  full : ℕ
  slim : ℕ
  notRetained : ℕ
  droppedFindings : ℕ

structure Runner (β γ : Type) where
  allResults : List (FuzzResult β γ)
  retained : RetainedResults

/-- A run that starts. -/
def Runner.start (β γ : Type) : Runner β γ := ⟨[], ⟨fun _ => 0, fun _ => 0, 0, 0, 0, 0, 0⟩⟩

/-! ### Slim results -/

/-- Whether a byte may begin a character. -/
def runeStart (b : UInt8) : Bool := b &&& 0xC0 ≠ 0x80

/-- Where a text of more than `n` bytes is cut, after at most `steps` steps back. -/
def cutPoint (s : Bytes) : ℕ → ℕ → ℕ
  | 0, n => n
  | steps + 1, n =>
    if 0 < n ∧ (s[n]?.any fun b => !runeStart b) then cutPoint s steps (n - 1) else n

/-- No character has more than four bytes. -/
def cutText (s : Bytes) (n : ℕ) : Bytes := if s.length ≤ n then s else s.take (cutPoint s 3 n)

variable {β γ : Type}

def slimResult (res : FuzzResult β γ) : FuzzResult β γ :=
  { res with
    payload := none
    responseBody := none
    responseHeaders := none
    requestHeaders := none
    requestURI := cutText res.requestURI maxSlimTextBytes
    resolvedPath := cutText res.resolvedPath maxSlimTextBytes
    error := cutText res.error maxSlimTextBytes
    analyzerFindings := res.analyzerFindings.map fun f =>
      { f with
        evidence := cutText f.evidence maxSlimTextBytes
        message := cutText f.message maxSlimTextBytes }
    slim := true }

/-! ### Keeping a result -/

/-- The loop over the findings: each rule but those `seen` before counts once while it has room,
and one that does makes the result whole. -/
def countRules (method endpoint : Bytes) :
    List Bytes → List AnalysisFinding → (DefectKey → ℕ) → (DefectKey → ℕ) × Bool
  | _, [], per => (per, false)
  | seen, f :: fs, per =>
    if f.ruleID ∈ seen then countRules method endpoint (f.ruleID :: seen) fs per
    else
      let key : DefectKey := ⟨f.ruleID, method, endpoint⟩
      if per key < maxFullPerDefect then
        ((countRules method endpoint (f.ruleID :: seen) fs
          (Function.update per key (per key + 1))).1, true)
      else countRules method endpoint (f.ruleID :: seen) fs per

def plainLimit (k : RetainedResults) : ℕ :=
  if maxRetainedResults ≤ k.plain then minRetainedPerEndpoint else maxRetainedPerEndpoint

def retainPlain (r : Runner β γ) (result : FuzzResult β γ) (active : Bool) : Runner β γ :=
  let k := r.retained
  let key : PlainKey := ⟨result.method, result.endpoint, result.profile, active⟩
  if plainLimit k ≤ k.plainPer key then
    { r with retained := { k with notRetained := k.notRetained + 1 } }
  else
    { allResults := r.allResults ++ [result]
      retained := { k with
        plainPer := Function.update k.plainPer key (k.plainPer key + 1)
        plain := k.plain + 1 } }

/-- What the loop leaves, which is skipped once the run has kept enough whole results. -/
def countDefects (k : RetainedResults) (result : FuzzResult β γ) : (DefectKey → ℕ) × Bool :=
  if k.full < maxFullResults then
    countRules result.method result.endpoint [] result.analyzerFindings k.defectPer
  else (k.defectPer, false)

def retainDefect (r : Runner β γ) (result : FuzzResult β γ) : Runner β γ :=
  let counted := countDefects r.retained result
  let k := { r.retained with defectPer := counted.1 }
  if counted.2 then ⟨r.allResults ++ [result], { k with full := k.full + 1 }⟩
  else if maxSlimFindings ≤ k.slim then
    { r with retained := { k with
        notRetained := k.notRetained + 1
        droppedFindings := k.droppedFindings + result.analyzerFindings.length } }
  else ⟨r.allResults ++ [slimResult result], { k with slim := k.slim + 1 }⟩

def retain (r : Runner β γ) (result : FuzzResult β γ) (active : Bool) : Runner β γ :=
  if result.analyzerFindings = [] then retainPlain r result active else retainDefect r result

/-- `retainResult`, and `retainActiveResult` where `active` is set. -/
structure Call (β γ : Type) where
  result : FuzzResult β γ
  active : Bool

def run (r : Runner β γ) (calls : List (Call β γ)) : Runner β γ :=
  calls.foldl (fun r c => retain r c.result c.active) r

/-! ### What becomes of the results that arrive -/

inductive Fate where
  | plain
  | whole
  | slim
  | dropped
  deriving DecidableEq

/-- What became of a result, by the counter that grew. -/
def fate (r : Runner β γ) (c : Call β γ) : Fate :=
  let r' := retain r c.result c.active
  if r.retained.plain < r'.retained.plain then .plain
  else if r.retained.full < r'.retained.full then .whole
  else if r.retained.slim < r'.retained.slim then .slim
  else .dropped

def history (r : Runner β γ) : List (Call β γ) → List (Call β γ × Fate)
  | [] => []
  | c :: cs => (c, fate r c) :: history (retain r c.result c.active) cs

def stored (c : Call β γ) : Fate → Option (FuzzResult β γ)
  | .plain => some c.result
  | .whole => some c.result
  | .slim => some (slimResult c.result)
  | .dropped => none

/-- The key under which a result without findings counts. -/
def plainKey (c : Call β γ) : Option PlainKey :=
  if c.result.analyzerFindings = [] then
    some ⟨c.result.method, c.result.endpoint, c.result.profile, c.active⟩
  else none

/-- The plain results of a key, in the order of their arrival. -/
def arrivals (key : PlainKey) (h : List (Call β γ × Fate)) : List (Call β γ × Fate) :=
  h.filter fun p => plainKey p.1 = some key

/-- Whether a result is one of a defect. -/
def hasDefect (key : DefectKey) (c : Call β γ) : Prop :=
  c.result.method = key.method ∧ c.result.endpoint = key.endpoint ∧
    ∃ f ∈ c.result.analyzerFindings, f.ruleID = key.rule

instance (key : DefectKey) (c : Call β γ) : Decidable (hasDefect key c) :=
  inferInstanceAs (Decidable (_ ∧ _ ∧ _))

/-- How many results of a defect were kept whole. -/
def wholeResults (key : DefectKey) (h : List (Call β γ × Fate)) : ℕ :=
  h.countP fun p => p.2 = .whole ∧ hasDefect key p.1

/-- The bounds on what a run keeps of the results that arrived, and what it keeps within them. -/
structure KeepsWithinBounds (calls : List (Call β γ)) : Prop where
  results : (run (.start β γ) calls).allResults =
    (history (.start β γ) calls).filterMap fun p => stored p.1 p.2
  counted : (run (.start β γ) calls).allResults.length =
    (run (.start β γ) calls).retained.plain + (run (.start β γ) calls).retained.full +
      (run (.start β γ) calls).retained.slim
  plain_le : (run (.start β γ) calls).retained.plain ≤
    maxRetainedResults + minRetainedPerEndpoint * (calls.filterMap plainKey).dedup.length
  full_le : (run (.start β γ) calls).retained.full ≤ maxFullResults
  slim_le : (run (.start β γ) calls).retained.slim ≤ maxSlimFindings
  /-- Of each key the first arrivals are kept. -/
  firsts : ∀ key, ∃ m rest,
    (arrivals key (history (.start β γ) calls)).map (·.2) =
      List.replicate m .plain ++ List.replicate rest .dropped ∧
    min (m + rest) minRetainedPerEndpoint ≤ m ∧ m ≤ maxRetainedPerEndpoint
  /-- A result with findings is kept. -/
  dropped : ∀ before c after, calls = before ++ c :: after → c.result.analyzerFindings ≠ [] →
    fate (run (.start β γ) before) c = .dropped →
    (run (.start β γ) before).retained.slim = maxSlimFindings
  whole : ∀ before c after, calls = before ++ c :: after →
    (run (.start β γ) before).retained.full < maxFullResults →
    (∃ f ∈ c.result.analyzerFindings,
      wholeResults ⟨f.ruleID, c.result.method, c.result.endpoint⟩
        (history (.start β γ) before) < maxFullPerDefect) →
    fate (run (.start β γ) before) c = .whole

end Swazz.Retention
