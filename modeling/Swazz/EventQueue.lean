import Swazz.StepSystem
import Mathlib.Data.List.Nodup
import Mathlib.Data.List.Perm.Subperm
import Mathlib.Logic.Function.Basic

/-! The queue of a run's events: producers push onto a stack by compare-and-swap, and one consumer
takes the whole stack and turns it round. Every access to shared memory is a step of its own. -/
namespace Swazz.EventQueue

open StepSystem

/-- A node, by its address and the event in it. What it points to is in the memory. -/
structure EventNode (α : Type) where
  address : ℕ
  value : α

/-- Where a producer stands in `Push`. -/
inductive Producer (α : Type) where
  | idle
  /-- About to load the head. -/
  | loading (node : EventNode α)
  /-- About to set the next node, to the head that was loaded. -/
  | linking (node : EventNode α) (head : Option (EventNode α))
  /-- About to compare and swap. -/
  | swapping (node : EventNode α) (head : Option (EventNode α))
  /-- About to send on the channel, or to find that it is full. -/
  | notifying

def Producer.node? {α : Type} : Producer α → Option (EventNode α)
  | idle => none
  | loading node => some node
  | linking node _ => some node
  | swapping node _ => some node
  | notifying => none

/-- Where the consumer stands in its loop. -/
inductive Consumer (α : Type) where
  /-- On the channel. -/
  | waiting
  /-- About to swap the head. -/
  | popping
  | reversing (prev curr : Option (EventNode α))
  /-- With the nodes that `PopAll` returned. -/
  | served

structure State (α P : Type) where
  head : Option (EventNode α)
  /-- What the node at an address points to. -/
  next : ℕ → Option (EventNode α)
  /-- Whether a notification is in the channel, which has room for one. -/
  notify : Bool
  producers : P → Producer α
  consumer : Consumer α
  allocated : ℕ
  /-- The nodes in the order of their compare-and-swaps. -/
  pushed : List (EventNode α)
  /-- What each `PopAll` returned that found something. -/
  returned : List (List (EventNode α))

variable {α P : Type}

/-- `NewMPSCQueue`, and a consumer that waits. -/
def State.new : State α P := ⟨none, fun _ => none, false, fun _ => .idle, .waiting, 0, [], []⟩

/-- The nodes that one finds from a node on, at most so many. -/
def follow (next : ℕ → Option (EventNode α)) : ℕ → Option (EventNode α) → List (EventNode α)
  | 0, _ => []
  | _ + 1, none => []
  | fuel + 1, some n => n :: follow next fuel (next n.address)

inductive Action (α P : Type) where
  | push (p : P) (value : α)
  | load (p : P)
  | link (p : P)
  | compareAndSwap (p : P)
  | send (p : P)
  | receive
  | swap
  | turn
  /-- `PopAll` again before waiting. -/
  | again
  | wait

def step [DecidableEq P] (s : State α P) : Action α P → Option (State α P)
  | .push p value =>
    match s.producers p with
    | .idle => some { s with
        producers := Function.update s.producers p (.loading ⟨s.allocated, value⟩)
        next := Function.update s.next s.allocated none
        allocated := s.allocated + 1 }
    | _ => none
  | .load p =>
    match s.producers p with
    | .loading node => some { s with
        producers := Function.update s.producers p (.linking node s.head) }
    | _ => none
  | .link p =>
    match s.producers p with
    | .linking node head => some { s with
        next := Function.update s.next node.address head
        producers := Function.update s.producers p (.swapping node head) }
    | _ => none
  | .compareAndSwap p =>
    match s.producers p with
    | .swapping node head =>
      if s.head.map (·.address) = head.map (·.address) then
        some { s with
          head := some node
          producers := Function.update s.producers p (if head.isNone then .notifying else .idle)
          pushed := s.pushed ++ [node] }
      else some { s with producers := Function.update s.producers p (.loading node) }
    | _ => none
  | .send p =>
    match s.producers p with
    | .notifying => some { s with
        notify := true
        producers := Function.update s.producers p .idle }
    | _ => none
  | .receive =>
    match s.consumer with
    | .waiting => if s.notify then some { s with notify := false, consumer := .popping } else none
    | _ => none
  | .swap =>
    match s.consumer with
    | .popping => some { s with
        head := none
        consumer := if s.head.isNone then .waiting else .reversing none s.head }
    | _ => none
  | .turn =>
    match s.consumer with
    | .reversing prev (some curr) => some { s with
        next := Function.update s.next curr.address prev
        consumer := .reversing (some curr) (s.next curr.address) }
    | .reversing prev none => some { s with
        consumer := .served
        returned := s.returned ++ [follow s.next s.allocated prev] }
    | _ => none
  | .again =>
    match s.consumer with
    | .served => some { s with consumer := .popping }
    | _ => none
  | .wait =>
    match s.consumer with
    | .served => some { s with consumer := .waiting }
    | _ => none

/-- The events that the consumer has taken from the stack and not returned yet, oldest first: those
still to be turned round, and those that are. -/
def inHands (s : State α P) : List (EventNode α) :=
  match s.consumer with
  | .reversing prev curr =>
    (follow s.next s.allocated curr).reverse ++ follow s.next s.allocated prev
  | _ => []

/-- The events on the stack, oldest first. -/
def queued (s : State α P) : List (EventNode α) := (follow s.next s.allocated s.head).reverse

/-- The steps of the consumer, and the notification that a producer still owes it. -/
def Consumes (_ : State α P) : Action α P → Prop
  | .send _ => True
  | .receive => True
  | .swap => True
  | .turn => True
  | .again => True
  | .wait => True
  | _ => False

/-- Nothing is lost, doubled or out of order, and nothing waits unnoticed. -/
structure Delivers [DecidableEq P] (s : State α P) : Prop where
  inOrder : s.pushed = s.returned.flatten ++ inHands s ++ queued s
  once : (s.pushed.map (·.address)).Nodup
  awake : s.head ≠ none → s.consumer = .waiting → s.notify ∨ ∃ p, s.producers p = .notifying
  /-- Where nothing is left to do but a new `Push`, all events have been returned. -/
  quiet : s.consumer = .waiting → s.notify = false → (∀ p, s.producers p = .idle) →
    s.pushed = s.returned.flatten
  /-- Without another `Push` the consumer comes to return all events. -/
  drains : ∃ t, ReachesUnder step Consumes s t ∧ t.pushed = s.pushed ∧
    t.pushed = t.returned.flatten

end Swazz.EventQueue
