import Mathlib.Algebra.Group.Nat.Defs
import Mathlib.Data.Int.Notation
import Mathlib.Logic.Function.Basic
import Swazz.BinarySearch
import Swazz.StepSystem

/-! The agent's log of the events that the coordinator has not acknowledged yet. Its calls hold one
lock, so that each is a step. -/
namespace Swazz.AgentDelivery

open StepSystem BinarySearch

/-- A run event; `δ` is the type of payloads. -/
structure WSEventOut (δ : Type) where
  RunID : String
  Payload : δ
  Seq : ℕ
  Exec : String
  deriving DecidableEq

structure RunLog (δ : Type) where
  exec : String
  nextSeq : ℕ
  /-- The highest number written, or given up on. -/
  writtenSeq : ℕ
  ackedSeq : ℕ
  unacked : List (WSEventOut δ)
  touched : ℤ
  dropped : Bool

structure DeliveryLog (δ : Type) where
  runs : String → Option (RunLog δ)
  enabled : Bool

def maxUnackedPerRun : ℕ := 10000

/-- Fifteen minutes in nanoseconds. -/
def idleRunLogTTL : ℤ := 15 * 60 * 1000000000

variable {δ : Type}

def RunLog.new (exec : String) (now : ℤ) : RunLog δ := ⟨exec, 0, 0, 0, [], now, false⟩

namespace DeliveryLog

def new : DeliveryLog δ := ⟨fun _ => none, false⟩

def put (l : DeliveryLog δ) (runID : String) (rl : RunLog δ) : DeliveryLog δ :=
  { l with runs := Function.update l.runs runID (some rl) }

def setEnabled (l : DeliveryLog δ) (enabled : Bool) : DeliveryLog δ where
  runs runID := (l.runs runID).map fun rl => if enabled then rl else { rl with unacked := [] }
  enabled := enabled

/-- `exec` is the id that `newExecID` draws. -/
def reset (l : DeliveryLog δ) (runID exec : String) (now : ℤ) : DeliveryLog δ :=
  l.put runID (RunLog.new exec now)

/-- Gives the message the next number of its run's log. -/
def number (l : DeliveryLog δ) (rl : RunLog δ) (msg : WSEventOut δ) (now : ℤ) :
    DeliveryLog δ × WSEventOut δ :=
  let nextSeq := (rl.nextSeq + 1) % 2 ^ 64
  (l.put msg.RunID { rl with nextSeq := nextSeq, touched := now },
    { msg with Seq := nextSeq, Exec := rl.exec })

/-- The message with its number, or nothing if it is of an earlier execution; `exec` is the id that
`newExecID` would draw. -/
def stamp (l : DeliveryLog δ) (msg : WSEventOut δ) (exec : String) (now : ℤ) :
    DeliveryLog δ × Option (WSEventOut δ) :=
  match l.runs msg.RunID with
  | none =>
    let (l, msg) := l.number (RunLog.new (if msg.Exec = "" then exec else msg.Exec) now) msg now
    (l, some msg)
  | some rl =>
    if msg.Exec ≠ "" ∧ msg.Exec ≠ rl.exec then (l, none)
    else
      let (l, msg) := l.number rl msg now
      (l, some msg)

end DeliveryLog

/-- The kept messages with one more in its place, unless it is kept already. -/
def insertUnacked (unacked : List (WSEventOut δ)) (msg : WSEventOut δ) :
    Option (List (WSEventOut δ)) :=
  let i := first (fun e => msg.Seq ≤ e.Seq) unacked
  if unacked[i]?.any (·.Seq = msg.Seq) then none
  else some (unacked.take i ++ msg :: unacked.drop i)

/-- What is dropped when there are too many: the oldest, down to half the bound. -/
def tooOld (unacked : List (WSEventOut δ)) : ℕ :=
  if maxUnackedPerRun < unacked.length then unacked.length - maxUnackedPerRun / 2 else 0

namespace RunLog

def written (rl : RunLog δ) (msg : WSEventOut δ) (keep : Bool) (now : ℤ) : RunLog δ :=
  let rl := { rl with writtenSeq := max rl.writtenSeq msg.Seq, touched := now }
  if keep = false ∨ msg.Seq ≤ rl.ackedSeq then rl
  else
    match insertUnacked rl.unacked msg with
    | none => rl
    | some unacked => { rl with
      unacked := unacked.drop (tooOld unacked)
      dropped := rl.dropped || tooOld unacked ≠ 0 }

def ack (rl : RunLog δ) (seq : ℕ) (now : ℤ) : RunLog δ :=
  { rl with
    ackedSeq := max rl.ackedSeq seq
    unacked := rl.unacked.drop (first (fun e => seq < e.Seq) rl.unacked)
    touched := now }

end RunLog

namespace DeliveryLog

def written (l : DeliveryLog δ) (msg : WSEventOut δ) (sent : Bool) (now : ℤ) : DeliveryLog δ :=
  match l.runs msg.RunID with
  | some rl =>
    if rl.exec = msg.Exec then l.put msg.RunID (rl.written msg (l.enabled && sent) now) else l
  | none => l

def ack (l : DeliveryLog δ) (runID exec : String) (seq : ℕ) (now : ℤ) : DeliveryLog δ :=
  match l.runs runID with
  | some rl => if rl.exec = exec then l.put runID (rl.ack seq now) else l
  | none => l

def gc (l : DeliveryLog δ) (isActive : String → Bool) (now : ℤ) : DeliveryLog δ :=
  { l with runs := fun runID => (l.runs runID).filter fun rl =>
      !(rl.touched < now - idleRunLogTTL && !isActive runID && rl.nextSeq ≤ rl.writtenSeq) }

def unacked (l : DeliveryLog δ) (runID : String) : List (WSEventOut δ) :=
  (l.runs runID).elim [] (·.unacked)

/-- Whether the first run is replayed before the second one. -/
def before (l : DeliveryLog δ) (isActive : String → Bool) (a b : String) : Bool :=
  let touched := fun id => (l.runs id).elim 0 (·.touched)
  if isActive a ≠ isActive b then isActive a
  else if touched a ≠ touched b then touched b < touched a
  else a < b

/-- The order is the one in which the map of runs is ranged over. -/
def replay (l : DeliveryLog δ) (order : List String) (isActive : String → Bool) :
    List (WSEventOut δ) :=
  let ids := order.filter fun id => !(l.unacked id).isEmpty
  (ids.mergeSort fun a b => !l.before isActive b a).flatMap l.unacked

end DeliveryLog

/-! ## Runs of its calls -/

/-- What happened to a run's log since it was made. -/
structure History (δ : Type) where
  stamped : List (WSEventOut δ)
  /-- Written with success while acknowledgements were enabled, and not disabled since. -/
  sent : List (WSEventOut δ)
  /-- What was dropped and what was kept each time that there was too much. -/
  trims : List (List (WSEventOut δ) × List (WSEventOut δ))

structure State (δ : Type) extends DeliveryLog δ where
  hist : String → History δ
  /-- All messages that were ever given a number. -/
  stamped : List (WSEventOut δ)
  /-- All execution ids that were ever drawn. -/
  execs : List String

def State.new : State δ := ⟨DeliveryLog.new, fun _ => ⟨[], [], []⟩, [], []⟩

inductive Action (δ : Type) where
  | setEnabled (enabled : Bool)
  | reset (runID exec : String) (now : ℤ)
  | stamp (msg : WSEventOut δ) (exec : String) (now : ℤ)
  | written (msg : WSEventOut δ) (sent : Bool) (now : ℤ)
  | ack (runID exec : String) (seq : ℕ) (now : ℤ)
  | gc (isActive : String → Bool) (now : ℤ)

/-- What a write drops, and what it then keeps. -/
def RunLog.trims (rl : RunLog δ) (msg : WSEventOut δ) :
    List (List (WSEventOut δ) × List (WSEventOut δ)) :=
  if msg.Seq ≤ rl.ackedSeq then []
  else
    match insertUnacked rl.unacked msg with
    | none => []
    | some unacked =>
      if tooOld unacked = 0 then []
      else [(unacked.take (tooOld unacked), unacked.drop (tooOld unacked))]

def History.written (h : History δ) (rl : RunLog δ) (msg : WSEventOut δ) (keep : Bool) :
    History δ :=
  if keep = true then { h with sent := h.sent ++ [msg], trims := h.trims ++ rl.trims msg } else h

/-- The history after a message got its number, in a log that may be new. -/
def State.stampedIn (s : State δ) (msg : WSEventOut δ) : History δ :=
  match s.runs msg.RunID with
  | none => ⟨[msg], [], []⟩
  | some _ => { s.hist msg.RunID with stamped := (s.hist msg.RunID).stamped ++ [msg] }

def State.writtenIn (s : State δ) (msg : WSEventOut δ) (sent : Bool) : History δ :=
  match s.runs msg.RunID with
  | none => s.hist msg.RunID
  | some rl =>
    if rl.exec = msg.Exec then (s.hist msg.RunID).written rl msg (s.enabled && sent)
    else s.hist msg.RunID

def step (s : State δ) : Action δ → Option (State δ)
  | .setEnabled enabled => some { s with
      toDeliveryLog := s.setEnabled enabled
      hist := fun runID =>
        if enabled then s.hist runID else { s.hist runID with sent := [], trims := [] } }
  | .reset runID exec now => some { s with
      toDeliveryLog := s.reset runID exec now
      hist := Function.update s.hist runID ⟨[], [], []⟩
      execs := exec :: s.execs }
  | .stamp msg exec now =>
    match s.toDeliveryLog.stamp msg exec now with
    | (l, none) => some { s with toDeliveryLog := l }
    | (l, some msg) => some {
        toDeliveryLog := l
        hist := Function.update s.hist msg.RunID (s.stampedIn msg)
        stamped := msg :: s.stamped
        execs := exec :: s.execs }
  | .written msg sent now => some { s with
      toDeliveryLog := s.toDeliveryLog.written msg sent now
      hist := Function.update s.hist msg.RunID (s.writtenIn msg sent) }
  | .ack runID exec seq now => some { s with toDeliveryLog := s.toDeliveryLog.ack runID exec seq now }
  | .gc isActive now => some { s with toDeliveryLog := s.toDeliveryLog.gc isActive now }

/-- What a run's log keeps: of its own events those that may still be lost, in order, and not too
many. -/
structure Keeps (runID : String) (rl : RunLog δ) (h : History δ) : Prop where
  increasing : rl.unacked.Pairwise fun a b => a.Seq < b.Seq
  own : ∀ e ∈ rl.unacked, e.RunID = runID ∧ e.Exec = rl.exec
  bounds : ∀ e ∈ rl.unacked, rl.ackedSeq < e.Seq ∧ e.Seq ≤ rl.writtenSeq
  written : rl.writtenSeq ≤ rl.nextSeq
  capped : rl.unacked.length ≤ maxUnackedPerRun
  complete : ∀ e ∈ h.sent, rl.ackedSeq < e.Seq → e ∈ rl.unacked ∨ ∃ t ∈ h.trims, e ∈ t.1
  sent : ∀ e ∈ rl.unacked, e ∈ h.sent
  trims : ∀ t ∈ h.trims, maxUnackedPerRun < t.1.length + t.2.length ∧
    t.2.length = maxUnackedPerRun / 2 ∧ ∀ a ∈ t.1, ∀ b ∈ t.2, a.Seq < b.Seq

/-- Every log keeps what may still be lost, and a replay returns it run by run. -/
structure Sound (s : State δ) : Prop where
  keeps : ∀ runID rl, s.runs runID = some rl → Keeps runID rl (s.hist runID)
  replay : ∀ order isActive, order.Nodup → (∀ runID, (s.runs runID).isSome → runID ∈ order) →
    ∀ runID, (s.replay order isActive).filter (·.RunID = runID) = s.unacked runID

end Swazz.AgentDelivery
