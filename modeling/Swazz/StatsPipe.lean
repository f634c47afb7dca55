import Mathlib.Algebra.GroupWithZero.Nat
import Mathlib.Data.List.Basic
import Swazz.InfiniteRun

/-! The pipe from a run's workers to the goroutine that owns its statistics, and how it is closed:
a channel that unblocks the senders, a lock that waits for them, and a channel that starts the last
drain. Every operation on a channel or on the lock is a step of its own. -/
namespace Swazz.StatsPipe

open StepSystem

/-- Where a call of `send` stands. -/
inductive SendAt where
  /-- About to lock for reading. -/
  | entering
  | locked
  /-- In the `select`. -/
  | selecting
  /-- About to unlock, with its result. -/
  | leaving (ok : Bool)
  | returned (ok : Bool)
  deriving DecidableEq

/-- It holds the lock for reading. -/
def SendAt.active : SendAt → Bool
  | .locked | .selecting | .leaving _ => true
  | .entering | .returned _ => false

/-- Its message was taken. -/
def SendAt.accepted : SendAt → Bool
  | .leaving ok | .returned ok => ok
  | .entering | .locked | .selecting => false

/-- A call of `send`; `cancel` is a channel, or nil. -/
structure Call (α : Type) where
  msg : α
  cancel : Option ℕ
  place : SendAt
  deriving DecidableEq

/-- Where a call of `close` stands. -/
inductive CloseAt where
  /-- About to call `once.Do`. -/
  | entering
  /-- In the function that is run once. -/
  | inside
  /-- On the channel `done`. -/
  | waiting
  | returned
  deriving DecidableEq

/-- What the function that is run once does next. The writer blocks new readers from `announced`
on, and has the lock from `holding` on. -/
inductive Body where
  | stopping
  | locking
  | announced
  | holding
  | unlocking
  | sealing

inductive Once where
  | idle
  | running (closer : ℕ) (body : Body)
  | ended

/-- How many steps of it are left. -/
def Once.rank : Once → ℕ
  | .idle => 7
  | .running _ .stopping => 6
  | .running _ .locking => 5
  | .running _ .announced => 4
  | .running _ .holding => 3
  | .running _ .unlocking => 2
  | .running _ .sealing => 1
  | .ended => 0

/-- Where the aggregator stands. -/
inductive Aggregator where
  | running
  /-- It has seen `sealed`. -/
  | draining
  /-- It returns, and is about to close `done`. -/
  | exiting
  | finished
  deriving DecidableEq

structure State (α : Type) where
  /-- The messages in the channel, each with the call that sent it. -/
  ch : List (ℕ × α)
  calls : List (Call α)
  closers : List CloseAt
  once : Once
  stopped : Bool
  stop : Bool
  sealed : Bool
  done : Bool
  aggregator : Aggregator
  /-- The cancel channels that are closed. -/
  cancelled : List ℕ
  /-- What was put into the channel, and what the aggregator handled. -/
  delivered : List (ℕ × α)
  handled : List (ℕ × α)

variable {α : Type}

def newStatsPipe : State α :=
  ⟨[], [], [], .idle, false, false, false, false, .running, [], [], []⟩

def cap : ℕ := 4096

inductive Action (α : Type) where
  | send (msg : α) (cancel : Option ℕ)
  | cancel (c : ℕ)
  | close
  | rLock (i : ℕ)
  /-- The test of `stopped`. -/
  | check (i : ℕ)
  | push (i : ℕ)
  | onStop (i : ℕ)
  | onCancel (i : ℕ)
  | rUnlock (i : ℕ)
  | once (j : ℕ)
  /-- The next statement of the function that is run once. -/
  | body (j : ℕ)
  | wait (j : ℕ)
  | receive
  | onSealed
  /-- The ticker's case, which sends nothing. -/
  | tick
  /-- The default case of the last drain. -/
  | drained
  | closeDone

/-- The call `i` goes on to another place. -/
def State.move (s : State α) (i : ℕ) (place : SendAt) : State α :=
  { s with calls := s.calls.modify i fun c => { c with place := place } }

def State.place (s : State α) (i : ℕ) : Option SendAt := s.calls[i]?.map (·.place)

/-- Whether the writer keeps new readers out. -/
def Once.blocks (o : Once) : Bool := 2 ≤ o.rank && o.rank ≤ 4

/-- One statement of the function that is run once. -/
def State.body (s : State α) (j : ℕ) : Body → Option (State α)
  | .stopping => some { s with stop := true, once := .running j .locking }
  | .locking => some { s with once := .running j .announced }
  | .announced =>
    if s.calls.all fun c => !c.place.active then some { s with once := .running j .holding }
    else none
  | .holding => some { s with stopped := true, once := .running j .unlocking }
  | .unlocking => some { s with once := .running j .sealing }
  | .sealing => some { s with
      sealed := true
      once := .ended
      closers := s.closers.set j .waiting }

def step (s : State α) : Action α → Option (State α)
  | .send msg cancel => some { s with calls := s.calls ++ [⟨msg, cancel, .entering⟩] }
  | .cancel c => some { s with cancelled := c :: s.cancelled }
  | .close => some { s with closers := s.closers ++ [.entering] }
  | .rLock i =>
    if s.place i = some .entering ∧ s.once.blocks = false then some (s.move i .locked) else none
  | .check i =>
    if s.place i = some .locked then
      some (s.move i (if s.stopped then .leaving false else .selecting))
    else none
  | .push i =>
    if s.place i = some .selecting ∧ s.ch.length < cap then do
      let c ← s.calls[i]?
      return { s.move i (.leaving true) with
        ch := s.ch ++ [(i, c.msg)]
        delivered := s.delivered ++ [(i, c.msg)] }
    else none
  | .onStop i =>
    if s.place i = some .selecting ∧ s.stop = true then some (s.move i (.leaving false)) else none
  | .onCancel i =>
    if s.place i = some .selecting ∧ (s.calls[i]?.bind (·.cancel)).any (· ∈ s.cancelled) = true then
      some (s.move i (.leaving false))
    else none
  | .rUnlock i =>
    match s.place i with
    | some (.leaving ok) => some (s.move i (.returned ok))
    | _ => none
  | .once j =>
    if s.closers[j]? = some .entering then
      match s.once with
      | .idle => some { s with once := .running j .stopping, closers := s.closers.set j .inside }
      | .running _ _ => none
      | .ended => some { s with closers := s.closers.set j .waiting }
    else none
  | .body j =>
    match s.once with
    | .running j' b => if j' = j then s.body j b else none
    | _ => none
  | .wait j =>
    if s.closers[j]? = some .waiting ∧ s.done = true then
      some { s with closers := s.closers.set j .returned }
    else none
  | .receive =>
    match s.ch with
    | m :: ch =>
      if s.aggregator = .running ∨ s.aggregator = .draining then
        some { s with ch := ch, handled := s.handled ++ [m] }
      else none
    | [] => none
  | .onSealed =>
    if s.aggregator = .running ∧ s.sealed = true then some { s with aggregator := .draining }
    else none
  | .tick => if s.aggregator = .running then some s else none
  | .drained =>
    if s.aggregator = .draining ∧ s.ch = [] then some { s with aggregator := .exiting } else none
  | .closeDone =>
    if s.aggregator = .exiting then some { s with aggregator := .finished, done := true } else none

inductive Goroutine where
  | send (i : ℕ)
  | close (j : ℕ)
  | aggregator
  deriving DecidableEq

/-- Whose step it is; new calls and cancellations are nobody's. -/
def Action.own : Action α → Option Goroutine
  | .send _ _ | .cancel _ | .close => none
  | .rLock i | .check i | .push i | .onStop i | .onCancel i | .rUnlock i => some (.send i)
  | .once j | .body j | .wait j => some (.close j)
  | .receive | .onSealed | .tick | .drained | .closeDone => some .aggregator

end Swazz.StatsPipe
