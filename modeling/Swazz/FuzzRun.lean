import Swazz.ContiguousPrefix
import Swazz.StepSystem

/-! A run of the fuzzer: the main loop over profiles, endpoints and iterations, its workers,
and the goroutine that owns the statistics and broadcasts checkpoints. Payloads, requests and
the concurrency limit are left open: any iteration may be a duplicate, and workers finish in
any order. -/
namespace Swazz.Fuzz

/-- An endpoint; `requests` is `endpointRequests` for a profile. -/
structure Endpoint where
  method : String
  path : String
  requests : String → ℕ

def Endpoint.key (e : Endpoint) : String := e.method ++ " " ++ e.path

structure Checkpoint where
  profile : String
  endpoint : String
  iteration : ℕ
  deriving DecidableEq

/-- What a run takes from the scan's config; `profiles` is the setting. -/
structure Config where
  profiles : List String
  endpoints : List Endpoint
  checkpoint : Option Checkpoint

def profileBoundary : String := "BOUNDARY"

def baseline : String := "BASELINE"

def Config.getOrderedProfiles (cfg : Config) : List String :=
  cfg.profiles.filter (· ≠ profileBoundary) ++ cfg.profiles.filter (· = profileBoundary)

/-- The profile and the endpoint key that the loops come to at their indices. -/
def Config.pair (cfg : Config) (p e : ℕ) : Option (String × String) :=
  (cfg.getOrderedProfiles[p]?).bind fun profile =>
    (cfg.endpoints[e]?).map fun endpoint => (profile, endpoint.key)

/-- How many iterations the pair at the indices has. -/
def Config.requests (cfg : Config) (p e : ℕ) : ℕ :=
  match cfg.getOrderedProfiles[p]?, cfg.endpoints[e]? with
  | some profile, some endpoint => endpoint.requests profile
  | _, _ => 0

/-- The checkpoint's profile and endpoint exist in the config. -/
def Config.hasPair (cfg : Config) (c : Checkpoint) : Bool :=
  decide (c.profile ∈ cfg.getOrderedProfiles) &&
    decide (c.endpoint ∈ cfg.endpoints.map Endpoint.key)

/-- The checkpoint a run resumes from, if it can. -/
def Config.resumePoint (cfg : Config) : Option Checkpoint :=
  cfg.checkpoint.filter cfg.hasPair

/-- The requests of the endpoints in a row, as far as `resumeEndpoint`. -/
def skippedOfProfile (profile resumeEndpoint : String) (resumeIteration : ℕ) :
    List Endpoint → ℕ
  | [] => 0
  | endpoint :: rest =>
    if endpoint.key ≠ resumeEndpoint then
      endpoint.requests profile + skippedOfProfile profile resumeEndpoint resumeIteration rest
    else resumeIteration

/-- `skippedRequests` of a run that resumes. -/
def skippedRequests (endpoints : List Endpoint) (c : Checkpoint) : List String → ℕ
  | [] => 0
  | profile :: rest =>
    if profile ≠ c.profile then
      (endpoints.map fun endpoint => endpoint.requests profile).sum +
        skippedRequests endpoints c rest
    else skippedOfProfile profile c.endpoint c.iteration endpoints

/-- What a worker tells the aggregator about a result. -/
structure StatsMsg where
  currentIteration : ℕ
  totalIterations : ℕ
  endpoint : String
  profile : String

/-- `completed` is `none` before the first result. -/
structure IterationWatermark where
  endpoint : String
  profile : String
  completed : Option (List ℕ)
  contiguous : ℕ

namespace IterationWatermark

def empty : IterationWatermark := ⟨"", "", none, 0⟩

/-- Another endpoint or profile starts over. -/
def switch (w : IterationWatermark) (endpoint profile : String) : IterationWatermark :=
  if w.completed.isNone ∨ endpoint ≠ w.endpoint ∨ profile ≠ w.profile then
    ⟨endpoint, profile, some [], 0⟩
  else w

def complete (w : IterationWatermark) (endpoint profile : String) (iteration total : ℕ) :
    IterationWatermark × ℕ :=
  let w := w.switch endpoint profile
  let completed := iteration :: w.completed.getD []
  let contiguous := ContiguousPrefix.advance completed completed.length w.contiguous
  ({ w with completed := some completed, contiguous := contiguous }, min contiguous total)

end IterationWatermark

/-- The aggregator's local state; `loaded` is the profile of the tick it is at. -/
structure Aggregator where
  iters : IterationWatermark
  latestIteration : ℕ
  totalRequests : ℕ
  lastCheckpointRequests : ℕ
  initializedTotalRequests : Bool
  dirty : Bool
  loaded : Option String

def Aggregator.init : Aggregator where
  iters := .empty
  latestIteration := 0
  totalRequests := 0
  lastCheckpointRequests := 0
  initializedTotalRequests := false
  dirty := false
  loaded := none

/-- `handle(msg)`, where `progress` is what `r.progress.totalRequests` holds. -/
def Aggregator.handle (a : Aggregator) (progress : ℕ) (msg : StatsMsg) : Aggregator :=
  let done := a.iters.complete msg.endpoint msg.profile msg.currentIteration msg.totalIterations
  let before := if a.initializedTotalRequests then a.totalRequests else progress
  { a with
    iters := done.1
    latestIteration := done.2
    totalRequests := before + 1
    lastCheckpointRequests :=
      if a.initializedTotalRequests then a.lastCheckpointRequests else progress
    initializedTotalRequests := true
    dirty := true }

/-- The main loop, at what it does next. -/
inductive Main where
  | baseline (e : ℕ)
  | baselineWait
  | profile (p : ℕ)
  | endpoint (p e : ℕ)
  | walk (p e i iterToSkip : ℕ)
  | wait (p e : ℕ)
  | phases
  deriving DecidableEq

/-- An iteration of the pair at the indices. -/
structure Iteration where
  p : ℕ
  e : ℕ
  i : ℕ
  deriving DecidableEq

/-- How a worker ends: with a result, with a request the run stopped before sending, or with
a panic. -/
inductive Outcome where
  | result
  | notSent
  | panic

/-- A run. `cancelled` says that its context ended, `panicked` that a worker panicked.
`completed` and `dropped` list the iterations with a result, and those whose payload was
not worth sending. -/
structure State where
  main : Main
  resuming : Option Checkpoint
  currentProfile : String
  currentEndpoint : String
  stopped : Bool
  cancelled : Bool
  panicked : Bool
  baselines : List ℕ
  workers : List Iteration
  ch : List StatsMsg
  aggregator : Aggregator
  totalRequests : ℕ
  checkpoints : List Checkpoint
  completed : List Iteration
  dropped : List Iteration

variable (cfg : Config)

/-- `Start`, up to its loops; the atomics still hold what an earlier run left in them. -/
def State.start (currentProfile currentEndpoint : String) (totalRequests : ℕ) : State where
  main := if cfg.resumePoint.isSome then .profile 0 else .baseline 0
  resuming := cfg.resumePoint
  currentProfile := if cfg.resumePoint.isSome then currentProfile else baseline
  currentEndpoint := currentEndpoint
  stopped := false
  cancelled := false
  panicked := false
  baselines := []
  workers := []
  ch := []
  aggregator := .init
  totalRequests := match cfg.resumePoint with
    | some c => skippedRequests cfg.endpoints c cfg.getOrderedProfiles
    | none => totalRequests
  checkpoints := []
  completed := []
  dropped := []

namespace State

/-- The top of the loop over the profiles. -/
def atProfile (s : State) (p : ℕ) : State :=
  match cfg.getOrderedProfiles[p]? with
  | none => { s with main := .phases }
  | some profile =>
    if s.stopped then { s with main := .phases }
    else if s.resuming.any fun c => profile ≠ c.profile then { s with main := .profile (p+1) }
    else { s with main := .endpoint p 0, currentProfile := profile }

/-- The top of the loop over the endpoints, and the start of `fuzzEndpoint`. -/
def atEndpoint (s : State) (p e : ℕ) : State :=
  match cfg.endpoints[e]? with
  | none => { s with main := .profile (p+1) }
  | some endpoint =>
    if s.stopped || s.cancelled then { s with main := .profile (p+1) }
    else if s.resuming.any fun c => endpoint.key ≠ c.endpoint then
      { s with main := .endpoint p (e+1) }
    else { s with
      main := .walk p e 0 (s.resuming.elim 0 Checkpoint.iteration)
      resuming := none
      currentEndpoint := endpoint.key }

/-- A round of the loop over the iterations; `duplicate` if the payload is not sent. -/
def atWalk (s : State) (p e i iterToSkip : ℕ) (duplicate : Bool) : State :=
  if cfg.requests p e ≤ i then { s with main := .wait p e }
  else if i < iterToSkip then { s with main := .walk p e (i+1) iterToSkip }
  else if s.stopped then { s with main := .wait p e }
  else if duplicate then
    { s with main := .walk p e (i+1) iterToSkip, dropped := s.dropped ++ [⟨p, e, i⟩] }
  else if s.cancelled then { s with main := .wait p e }
  else { s with main := .walk p e (i+1) iterToSkip, workers := s.workers ++ [⟨p, e, i⟩] }

/-- `baselinePhase`, at its next endpoint; `done` if that one has its baseline. -/
def atBaseline (s : State) (e : ℕ) (done : Bool) : State :=
  if s.stopped || s.cancelled || decide (cfg.endpoints.length ≤ e) then
    { s with main := .baselineWait }
  else if done then { s with main := .baseline (e+1) }
  else { s with main := .baseline (e+1), baselines := s.baselines ++ [e] }

/-- The main loop's next step; it waits for its workers at the end of a pair. -/
def advance (s : State) (skip : Bool) : Option State :=
  match s.main with
  | .baseline e => some (s.atBaseline cfg e skip)
  | .baselineWait => if s.baselines.isEmpty then some { s with main := .profile 0 } else none
  | .profile p => some (s.atProfile cfg p)
  | .endpoint p e => some (s.atEndpoint cfg p e)
  | .walk p e i iterToSkip => some (s.atWalk cfg p e i iterToSkip skip)
  | .wait p e =>
    if s.workers.isEmpty then some { s with main := .endpoint p (e+1) } else none
  | .phases => none

/-- A worker's statistics, once its request is done. -/
def messageOf (it : Iteration) : StatsMsg where
  currentIteration := it.i+1
  totalIterations := cfg.requests it.p it.e
  endpoint := ((cfg.pair it.p it.e).map Prod.snd).getD ""
  profile := ((cfg.pair it.p it.e).map Prod.fst).getD ""

/-- A worker ends. A panic is told to its run only later (`recover`). -/
def finish (s : State) (k : ℕ) (outcome : Outcome) : Option State :=
  match s.workers[k]? with
  | none => none
  | some it =>
    let s := { s with workers := s.workers.eraseIdx k }
    match outcome with
    | .result => some { s with
        ch := s.ch ++ [messageOf cfg it], completed := s.completed ++ [it] }
    | .notSent => if s.stopped || s.cancelled then some s else none
    | .panic => some { s with panicked := true }

/-- A worker of the baseline phase tells which endpoint it is at. -/
def baselineStarts (s : State) (k : ℕ) : Option State :=
  (s.baselines[k]?).map fun e =>
    { s with currentEndpoint := ((cfg.endpoints[e]?).map Endpoint.key).getD "" }

def baselineEnds (s : State) (k : ℕ) (outcome : Outcome) : Option State :=
  match s.baselines[k]? with
  | none => none
  | some e =>
    let s := { s with baselines := s.baselines.eraseIdx k }
    match outcome with
    | .result => some { s with ch := s.ch ++ [{
        currentIteration := 1, totalIterations := 1
        endpoint := ((cfg.endpoints[e]?).map Endpoint.key).getD "", profile := baseline }] }
    | .notSent => if s.stopped || s.cancelled then some s else none
    | .panic => some { s with panicked := true }

/-- The ticker fires: the profile is loaded if a checkpoint is due. -/
def tick (s : State) : State :=
  let a := s.aggregator
  if a.dirty then
    { s with aggregator := { a with
      dirty := false
      loaded :=
        if s.currentProfile ≠ baseline ∧ s.currentProfile ≠ "" ∧
            a.lastCheckpointRequests + 100 ≤ a.totalRequests then some s.currentProfile
        else none } }
  else s

/-- The checkpoint event that is broadcast now. -/
def checkpointEvent (s : State) (profile : String) : Checkpoint :=
  ⟨profile, s.currentEndpoint, s.aggregator.latestIteration⟩

end State

inductive Label where
  | main (skip : Bool)
  | finish (k : ℕ) (outcome : Outcome)
  | baselineStarts (k : ℕ)
  | baselineEnds (k : ℕ) (outcome : Outcome)
  | recover
  | stop
  | cancel
  | phase (profile : String)
  | phaseEndpoint (endpoint : String)
  | phaseStat (iteration total : ℕ)
  | take
  | tick
  | broadcast

def step (s : State) : Label → Option State
  | .main skip => s.advance cfg skip
  | .finish k outcome => s.finish cfg k outcome
  | .baselineStarts k => s.baselineStarts cfg k
  | .baselineEnds k outcome => s.baselineEnds cfg k outcome
  | .recover => if s.panicked then some { s with cancelled := true } else none
  | .stop => some { s with stopped := true }
  | .cancel => some { s with cancelled := true }
  | .phase profile =>
    if s.main = .phases ∧ profile ∈ ["BOLA", "DIFFERENTIAL", "RATE-LIMIT"] then
      some { s with currentProfile := profile }
    else none
  | .phaseEndpoint endpoint =>
    if s.main = .phases then some { s with currentEndpoint := endpoint } else none
  | .phaseStat iteration total =>
    if s.main = .phases then some { s with ch := s.ch ++ [⟨iteration, total, "", ""⟩] } else none
  | .take =>
    match s.aggregator.loaded, s.ch with
    | none, msg :: rest => some { s with
        ch := rest, aggregator := s.aggregator.handle s.totalRequests msg }
    | _, _ => none
  | .tick => if s.aggregator.loaded.isNone then some s.tick else none
  | .broadcast =>
    (s.aggregator.loaded).map fun profile => { s with
      checkpoints := s.checkpoints ++ [s.checkpointEvent profile]
      aggregator := { s.aggregator with
        lastCheckpointRequests := s.aggregator.totalRequests, loaded := none } }

end Swazz.Fuzz
