import Mathlib.Data.List.Flatten
import Mathlib.Data.Multiset.AddSub
import Mathlib.Data.Multiset.OrderedMonoid
import Mathlib.Tactic.Abel
import Swazz.StepSystem

/-! The writer of a live scan's result rows: rows that wait, batches that are written one after the
other, and those that a closing page writes at once. -/
namespace Swazz.ResultWriter

open StepSystem

variable {Row : Type}

/-- How a transaction ends; it stores all of its rows or none. -/
inductive Outcome where
  | committed
  | dataCloneError
  | failed
  deriving DecidableEq

/-- A call of `write`, from the promise that is to make it up to its last transaction. -/
inductive Write (Row : Type) where
  | waiting (rows : List Row)
  | batch (rows : List Row)
  /-- One by one: `row` is being written, `dropped` of the `total` rows have been. -/
  | single (row : Row) (rest : List Row) (dropped total : ℕ)
  deriving DecidableEq

/-- What the end of a transaction makes of a call of `write`: what comes next, the rows stored or
dropped, the numbers of a warning, the batch that is tried again row by row, and the next row of one
that is. -/
structure Settled (Row : Type) where
  next : Option (Write Row)
  committed : List Row
  dropped : List Row
  warning : List (ℕ × ℕ)
  refused : List (List Row)
  retried : List Row

def Write.settle : Write Row → Outcome → Option (Settled Row)
  | .waiting _, _ => none
  | .batch rows, .committed => some ⟨none, rows, [], [], [], []⟩
  | .batch (row :: next :: rest), .dataCloneError =>
    some ⟨some (.single row (next :: rest) 0 (rest.length + 2)), [], [], [],
      [row :: next :: rest], [row]⟩
  | .batch rows, _ => some ⟨none, [], rows, [(rows.length, rows.length)], [], []⟩
  | .single row [] dropped total, .committed => some ⟨none, [row], [], [(dropped, total)], [], []⟩
  | .single row [] dropped total, _ => some ⟨none, [], [row], [(dropped + 1, total)], [], []⟩
  | .single row (next :: rest) dropped total, .committed =>
    some ⟨some (.single next rest dropped total), [row], [], [], [], [next]⟩
  | .single row (next :: rest) dropped total, _ =>
    some ⟨some (.single next rest (dropped + 1) total), [], [row], [], [], [next]⟩

/-- A promise that `flush` has returned: the number of batches before it, and of the rows added
before the call. -/
structure Flush where
  behind : ℕ
  rows : ℕ
  deriving DecidableEq

/-- What has happened to the rows. -/
structure Journal (Row : Type) where
  added : List Row
  /-- The batches for which a transaction was opened. -/
  handed : List (List Row)
  /-- The rows for which there was no database. -/
  unhandled : List Row
  refused : List (List Row)
  retried : List Row
  committed : List Row
  dropped : List Row
  warned : List (ℕ × ℕ)
  /-- What `onWritten` was called with. -/
  reported : List ℕ
  /-- The rows that the chain of batches has stored, in this order. -/
  inTurn : List Row

structure State (Row : Type) where
  pending : List Row
  timer : Bool
  /-- The listener for `pagehide` is registered. -/
  listening : Bool
  writtenRows : ℕ
  /-- The batches behind `written`, the first of which may be under way. -/
  chain : List (Write Row)
  /-- How many batches have been chained, and how many of their promises are fulfilled. -/
  issued : ℕ
  settled : ℕ
  /-- A batch of the chain has ended with an exception of `onWritten`. -/
  rejected : Bool
  /-- The batches of `pagehide` under way. -/
  aside : List (Write Row)
  flushes : List Flush
  resolved : List Flush
  journal : Journal Row

def start : State Row where
  pending := []
  timer := false
  listening := false
  writtenRows := 0
  chain := []
  issued := 0
  settled := 0
  rejected := false
  aside := []
  flushes := []
  resolved := []
  journal := ⟨[], [], [], [], [], [], [], [], [], []⟩

/-- The options; `window` says whether there is one. -/
structure Config where
  maxRows : ℕ
  window : Bool

/-- `take`, without the rows that it returns. -/
def take (c : Config) (s : State Row) : State Row :=
  { s with timer := false, pending := [], listening := s.listening && !c.window }

def flush (c : Config) (s : State Row) : State Row :=
  if s.pending = [] then take c s
  else { take c s with chain := s.chain ++ [.waiting s.pending], issued := s.issued + 1 }

def push (c : Config) (s : State Row) (row : Row) : State Row :=
  { s with
    listening := s.listening || (s.pending.isEmpty && c.window)
    pending := s.pending ++ [row]
    journal := { s.journal with added := s.journal.added ++ [row] } }

def setTimer (s : State Row) : State Row := { s with timer := true }

def add (c : Config) (s : State Row) (row : Row) : State Row :=
  if c.maxRows ≤ (push c s row).pending.length then flush c (push c s row)
  else setTimer (push c s row)

/-- `write` begins: `db` says whether there is a database. -/
def Journal.hand (j : Journal Row) (db : Bool) (rows : List Row) : Journal Row :=
  if db then { j with handed := j.handed ++ [rows] }
  else { j with unhandled := j.unhandled ++ rows }

def begun (db : Bool) (rows : List Row) : List (Write Row) := if db then [.batch rows] else []

def onPageHide (c : Config) (s : State Row) (db : Bool) : State Row :=
  if s.pending = [] then take c s
  else { take c s with
    aside := s.aside ++ begun db s.pending
    journal := s.journal.hand db s.pending }

/-- What the end of a transaction changes, whoever began it. -/
def absorb (s : State Row) (e : Settled Row) : State Row :=
  { s with
    writtenRows := s.writtenRows + e.committed.length
    journal := { s.journal with
      refused := s.journal.refused ++ e.refused
      retried := s.journal.retried ++ e.retried
      committed := s.journal.committed ++ e.committed
      dropped := s.journal.dropped ++ e.dropped
      warned := s.journal.warned ++ e.warning
      reported := s.journal.reported ++
        if e.next.isNone then [s.writtenRows + e.committed.length] else [] } }

inductive Event (Row : Type) where
  | add (row : Row)
  | timer
  | pagehide (db : Bool)
  | flush
  /-- The next batch of the chain begins. -/
  | start (db : Bool)
  /-- Its transaction ends; `throws` says what `onWritten` does, if it is called then. -/
  | settle (outcome : Outcome) (throws : Bool)
  /-- The transaction of a batch of `pagehide` ends. -/
  | settleAside (i : ℕ) (outcome : Outcome)
  | resolve (i : ℕ)
  deriving DecidableEq

def step (c : Config) (s : State Row) : Event Row → Option (State Row)
  | .add row => some (add c s row)
  | .timer => if s.timer then some (flush c s) else none
  | .pagehide db => some (if s.listening then onPageHide c s db else s)
  | .flush =>
    some { flush c s with
      flushes := s.flushes ++ [⟨(flush c s).issued, s.journal.added.length⟩] }
  | .start db =>
    match s.chain with
    | .waiting rows :: rest =>
      if s.rejected then none
      else some { s with
        chain := begun db rows ++ rest
        settled := if db then s.settled else s.settled + 1
        journal := s.journal.hand db rows }
    | _ => none
  | .settle outcome throws =>
    match s.chain with
    | w :: rest =>
      (w.settle outcome).map fun e =>
        { absorb s e with
          chain := e.next.toList ++ rest
          settled := if e.next.isNone && !throws then s.settled + 1 else s.settled
          rejected := s.rejected || (e.next.isNone && throws)
          journal := { (absorb s e).journal with inTurn := s.journal.inTurn ++ e.committed } }
    | [] => none
  | .settleAside i outcome =>
    match s.aside[i]? with
    | some w =>
      (w.settle outcome).map fun e =>
        { absorb s e with aside := s.aside.take i ++ (e.next.toList ++ s.aside.drop (i + 1)) }
    | none => none
  | .resolve i =>
    match s.flushes[i]? with
    | some f =>
      if f.behind ≤ s.settled then
        some { s with flushes := s.flushes.eraseIdx i, resolved := s.resolved ++ [f] }
      else none
    | none => none

/-- The rows of a call of `write` of which nothing is known yet. -/
def Write.left : Write Row → List Row
  | .waiting rows | .batch rows => rows
  | .single row rest _ _ => row :: rest

/-- The rows for which a transaction of their own is still to be opened. -/
def Write.toRetry : Write Row → List Row
  | .single _ rest _ _ => rest
  | _ => []

/-- The rows that will be in a warning. -/
def Write.count : Write Row → ℕ
  | .single _ _ dropped _ => dropped
  | _ => 0

/-- The rows of a call of `write` that has not begun. -/
def Write.notBegun : Write Row → List Row
  | .waiting rows => rows
  | _ => []

/-- The rows in transactions. -/
def Write.inFlight : Write Row → List Row
  | .waiting _ => []
  | w => w.left

end Swazz.ResultWriter
