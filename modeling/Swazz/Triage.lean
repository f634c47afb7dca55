import Mathlib.Data.List.Perm.Basic
import Swazz.ClassFold
import Swazz.StepSystem
import Swazz.Utf8

/-! The triage of findings after a scan: groups by defect, and the workers that have one finding
of each group classified. -/
namespace Swazz.Triage

open Utf8 ClassFold

structure AnalysisFinding where
  ID : Text
  RuleID : Text
  Evidence : Text
  deriving DecidableEq

structure FuzzResult where
  Method : Text
  Endpoint : Text
  AnalyzerFindings : List AnalysisFinding
  /-- What makes a result large was cut off. -/
  Slim : Bool
  deriving DecidableEq

structure GroupFinding where
  DefectKey : Text
  Representative : AnalysisFinding
  Result : FuzzResult
  AffectedFindingIDs : List Text
  deriving DecidableEq

structure TriageResult where
  DefectKey : Text
  FindingIDs : List Text
  AIStatus : Text
  AIRelevance : Option Bool
  AIExplanation : Text
  AIConfidence : ℤ
  deriving DecidableEq

def confirmedRules : List Text :=
  [ascii "swazz/sqli-confirmed", ascii "swazz/ssrf-oob", ascii "swazz/path-traversal-confirmed",
    ascii "swazz/rce-confirmed"]

/-- A finding where the loops meet it: in its result, at its index there. -/
structure Item where
  res : FuzzResult
  i : ℕ
  finding : AnalysisFinding
  deriving DecidableEq

/-- The findings of a result that are not confirmed, with their indices among all of them. -/
def itemsOf (res : FuzzResult) : List Item :=
  (res.AnalyzerFindings.zipIdx.map fun p => ⟨res, p.2, p.1⟩).filter
    fun item => item.finding.RuleID ∉ confirmedRules

def items (results : List (Option FuzzResult)) : List Item :=
  results.flatMap fun res => res.elim [] itemsOf

/-- `%s::%s %s` -/
def joinKey (rule method endpoint : Text) : Text :=
  rule ++ ascii "::" ++ method ++ ascii " " ++ endpoint

def defectKey (item : Item) : Text :=
  joinKey item.finding.RuleID item.res.Method item.res.Endpoint

/-- `%d` -/
def decimal (n : ℕ) : Text := (Nat.toDigits 10 n).map fun c => Fin.ofNat 256 c.toNat

def findingID (item : Item) : Text :=
  if item.finding.ID = [] then defectKey item ++ ascii "-" ++ decimal item.i else item.finding.ID

def newGroup (item : Item) : GroupFinding where
  DefectKey := defectKey item
  Representative := item.finding
  Result := item.res
  AffectedFindingIDs := [findingID item]

/-- A result kept whole is preferred, then the longer evidence. -/
def GroupFinding.add (gf : GroupFinding) (item : Item) : GroupFinding :=
  let gf := { gf with AffectedFindingIDs := gf.AffectedFindingIDs ++ [findingID item] }
  let longer := gf.Representative.Evidence.length < item.finding.Evidence.length
  if (gf.Result.Slim ∧ ¬item.res.Slim) ∨ (longer ∧ item.res.Slim = gf.Result.Slim) then
    { gf with Representative := item.finding, Result := item.res }
  else gf

def GroupFindings (results : List (Option FuzzResult)) : List GroupFinding :=
  (collect defectKey newGroup GroupFinding.add (items results)).entries

/-! The workers. -/

structure Orchestrator where
  /-- Whether there is a client for the gateway. -/
  client : Bool
  maxTriage : ℕ

def workerCount : ℕ := 3

def NewOrchestrator (client : Bool) (maxTriage : ℤ) : Orchestrator :=
  ⟨client, if maxTriage ≤ 0 then 30 else maxTriage.toNat⟩

/-- What becomes of a request to the gateway: a text with the error, or a verdict. -/
inductive Outcome where
  | gatewayError (err : Text)
  | parsingError (err : Text)
  | verdict (truePositive : Bool) (reasoning : Text) (confidence : ℤ)

def failed (group : GroupFinding) (explanation : Text) : TriageResult :=
  ⟨group.DefectKey, group.AffectedFindingIDs, ascii "failed", none, explanation, 0⟩

def triageSingleGroup (group : GroupFinding) : Outcome → TriageResult
  | .gatewayError err => failed group (ascii "AI Gateway error: " ++ err)
  | .parsingError err => failed group (ascii "Parsing error: " ++ err)
  | .verdict truePositive reasoning confidence =>
    ⟨group.DefectKey, group.AffectedFindingIDs, ascii "completed", some truePositive, reasoning,
      confidence⟩

/-- The two channels, the group each worker is busy with, and whether the context is done. -/
structure Pool where
  jobs : List GroupFinding
  workers : List (Option GroupFinding)
  results : List TriageResult
  cancelled : Bool

inductive Move where
  | cancel
  /-- A worker without a group takes the next one. -/
  | take (w : ℕ)
  | finish (w : ℕ) (outcome : Outcome)

def step (s : Pool) : Move → Option Pool
  | .cancel => some { s with cancelled := true }
  | .take w =>
    match s.jobs, s.workers[w]? with
    | group :: jobs, some none =>
      if s.cancelled then
        some { s with
          jobs := jobs
          results := s.results ++ [failed group (ascii "Triage context cancelled")] }
      else some { s with jobs := jobs, workers := s.workers.set w (some group) }
    | _, _ => none
  | .finish w outcome =>
    match s.workers[w]? with
    | some (some group) =>
      some { s with
        workers := s.workers.set w none
        results := s.results ++ [triageSingleGroup group outcome] }
    | _ => none

/-- Where `Run` starts the workers; without a client there is nothing to do. -/
def Orchestrator.start (o : Orchestrator) (results : List (Option FuzzResult)) : Pool where
  jobs := if o.client then (GroupFindings results).take o.maxTriage else []
  workers := List.replicate workerCount none
  results := []
  cancelled := false

/-- All workers have left: what is in the channel is returned. -/
def Pool.done (s : Pool) : Prop := s.jobs = [] ∧ ∀ w ∈ s.workers, w = none

end Swazz.Triage
