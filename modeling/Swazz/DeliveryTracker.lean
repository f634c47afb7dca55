import Mathlib.Algebra.Group.Nat.Defs
import Mathlib.Data.List.Basic
import Mathlib.Logic.Function.Basic
import Swazz.Validation

/-! The coordinator's side of acknowledged delivery. A step of the model is a stretch
of code between two awaits. Code that awaits a settled promise goes on before any new
message, storage result or queue answer is delivered, and no new message is delivered
while a storage operation is in progress. -/
namespace Swazz.Delivery

def ACK_EVERY : ℕ := 50

def MAX_EXEC_LENGTH : ℕ := 64

/-- `Number.MAX_SAFE_INTEGER` -/
def MAX_SAFE_INTEGER : ℕ := 2^53-1

inductive SeqVerdict where
  | new
  | duplicate
  | invalid
  deriving DecidableEq

structure DeliveredMark where
  exec : String
  seq : ℕ
  deriving DecidableEq

def isValidSeq (seq : ℕ) : Bool := decide (1 ≤ seq) && decide (seq ≤ MAX_SAFE_INTEGER)

/-- `EXEC_PATTERN` -/
def isValidExec (exec : String) : Bool := matchesId MAX_EXEC_LENGTH exec

inductive Phase where
  | pending
  | writing
  | settled
  deriving DecidableEq

/-- An event that `accept` classified as new, with its link in the run's persistence
chain. Links are numbered in the order of acceptance; the number also tells apart the
mark objects the events set. `done` says whether the event's own persist promise settled. -/
structure Link where
  run : String
  exec : String
  seq : ℕ
  done : Bool
  previous : Option ℕ
  mark : Option (ℕ × DeliveredMark)
  phase : Phase
  deriving DecidableEq

/-- A handler at an await: in `last`, with what its storage read will return, or in
`acknowledge`, with the chain it waits for. -/
inductive Task where
  | accepting (ws : ℕ) (run exec : String) (seq : ℕ) (terminal : Bool)
      (last : Option DeliveredMark)
  | requesting (ws : ℕ) (run exec : String) (seq : ℕ) (last : Option DeliveredMark)
  | duplicating (ws : ℕ) (run : String) (last : Option DeliveredMark)
  | acknowledging (ws : ℕ) (run exec : String) (seq : ℕ) (chain : Option ℕ)
  deriving DecidableEq

/-- Whether the handler is at a storage read. -/
def Task.reads : Task → Bool
  | .acknowledging .. => false
  | _ => true

/-- What leaves the tracker: acknowledgements and `delivered_seq` records. -/
inductive Output where
  | ack (ws : ℕ) (run exec : String) (seq : ℕ)
  | record (run : String) (mark : DeliveredMark)
  deriving DecidableEq

structure Coordinator where
  sinceAck : String → ℕ
  marks : String → Option (ℕ × DeliveredMark)
  persisting : String → Option ℕ
  duplicateAcked : List (ℕ × String)
  stored : String → Option DeliveredMark
  links : List Link
  tasks : List Task
  log : List Output

namespace Coordinator

/-- A coordinator just started over the given storage. -/
def init (stored : String → Option DeliveredMark) : Coordinator where
  sinceAck := fun _ => 0
  marks := fun _ => none
  persisting := fun _ => none
  duplicateAcked := []
  stored := stored
  links := []
  tasks := []
  log := []

/-- What `last` reads from storage. -/
def storedMark (c : Coordinator) (run : String) : Option DeliveredMark :=
  (c.stored run).filter fun m => isValidExec m.exec && isValidSeq m.seq

/-- `acknowledge`, up to its await. -/
def acknowledge (c : Coordinator) (ws : ℕ) (run exec : String) (seq : ℕ) : Coordinator :=
  { c with
    sinceAck := Function.update c.sinceAck run 0
    tasks := c.tasks ++ [.acknowledging ws run exec seq (c.persisting run)] }

/-- The end of `accept` for a new event. -/
def setMark (c : Coordinator) (run exec : String) (seq : ℕ) : Coordinator :=
  { c with marks := Function.update c.marks run (some (c.links.length, ⟨exec, seq⟩)) }

def persisted (c : Coordinator) (run exec : String) (seq : ℕ) : Coordinator :=
  { c with
    links := c.links ++ [{
      run := run, exec := exec, seq := seq, done := false,
      previous := c.persisting run, mark := c.marks run, phase := .pending }]
    persisting := Function.update c.persisting run (some c.links.length) }

def processed (c : Coordinator) (ws : ℕ) (run exec : String) (seq : ℕ) (terminal : Bool) :
    Coordinator :=
  let count := c.sinceAck run+1
  if count < ACK_EVERY ∧ terminal = false then
    { c with sinceAck := Function.update c.sinceAck run count }
  else c.acknowledge ws run exec seq

/-- The handler of a new event: its mark is set, its persistence started and tracked. -/
def takeIn (c : Coordinator) (ws : ℕ) (run exec : String) (seq : ℕ) (terminal : Bool) :
    Coordinator :=
  ((c.setMark run exec seq).persisted run exec seq).processed ws run exec seq terminal

local instance instLawfulBEqRun : LawfulBEq (ℕ × String) := inferInstance

/-- The handler of a replayed event; `onceFor` answers each connection once for a run. -/
def duplicate (c : Coordinator) (ws : ℕ) (run : String) : Coordinator :=
  if (ws, run) ∈ c.duplicateAcked then c else
    let c := { c with duplicateAcked := (ws, run) :: c.duplicateAcked }
    match c.marks run with
    | some (_, m) => c.acknowledge ws run m.exec m.seq
    | none => { c with tasks := c.tasks ++ [.duplicating ws run (c.storedMark run)] }

def verdict (last : Option DeliveredMark) (exec : String) (seq : ℕ) : SeqVerdict :=
  if last.any fun m => decide (m.exec = exec) && decide (seq ≤ m.seq) then .duplicate
  else .new

/-- `accept` from the answer of `last` on, and what the handler does with its verdict. -/
def accept (c : Coordinator) (ws : ℕ) (run exec : String) (seq : ℕ) (terminal : Bool)
    (last : Option DeliveredMark) : Coordinator :=
  match verdict last exec seq with
  | .new => c.takeIn ws run exec seq terminal
  | _ => c.duplicate ws run

/-- An event message of a run the connection owns. -/
def handleEvent (c : Coordinator) (ws : ℕ) (run exec : String) (seq : ℕ) (terminal : Bool) :
    Coordinator :=
  if isValidSeq seq && isValidExec exec then
    match c.marks run with
    | some (_, m) => c.accept ws run exec seq terminal (some m)
    | none => { c with
        tasks := c.tasks ++ [.accepting ws run exec seq terminal (c.storedMark run)] }
  else c

/-- `requested` from the answer of `last` on. -/
def answer (c : Coordinator) (ws : ℕ) (run exec : String) (seq : ℕ)
    (last : Option DeliveredMark) : Coordinator :=
  match last with
  | some m => if m.exec = exec then c.acknowledge ws run exec (min seq m.seq) else c
  | none => c

def requested (c : Coordinator) (ws : ℕ) (run exec : String) (seq : ℕ) : Coordinator :=
  if isValidExec exec && isValidSeq seq then
    match c.marks run with
    | some (_, m) => c.answer ws run exec seq (some m)
    | none => { c with tasks := c.tasks ++ [.requesting ws run exec seq (c.storedMark run)] }
  else c

/-- Whether awaiting the chain goes on at once. -/
def chainSettled (c : Coordinator) : Option ℕ → Bool
  | none => true
  | some k => c.links[k]?.any fun l => decide (l.phase = .settled)

def linkReady (c : Coordinator) (l : Link) : Bool :=
  decide (l.phase = .pending) && l.done && c.chainSettled l.previous

def taskReady (c : Coordinator) : Task → Bool
  | .acknowledging _ _ _ _ chain => c.chainSettled chain
  | _ => false

/-- No code that awaits a settled promise is left to run. -/
def drained (c : Coordinator) : Bool :=
  c.links.all (fun l => !c.linkReady l) && c.tasks.all fun t => !c.taskReady t

/-- No storage operation is in progress. -/
def gateOpen (c : Coordinator) : Bool :=
  c.tasks.all (fun t => !t.reads) && c.links.all fun l => decide (l.phase ≠ .writing)

/-- The chain's callback of link `i`: a later event of the run extends the chain and
writes the newer mark. A put takes effect when it is issued, if it succeeds (`ok`). -/
def runLink (c : Coordinator) (i : ℕ) (l : Link) (ok : Bool) : Coordinator :=
  match l.mark with
  | some (_, m) =>
    if c.persisting l.run = some i then
      { c with
        links := c.links.modify i fun l => { l with phase := .writing }
        stored := if ok then Function.update c.stored l.run (some m) else c.stored
        log := if ok then c.log ++ [.record l.run m] else c.log }
    else { c with links := c.links.modify i fun l => { l with phase := .settled } }
  | none => { c with links := c.links.modify i fun l => { l with phase := .settled } }

/-- The end of the callback, once the put of link `i` returned or failed. -/
def endLink (c : Coordinator) (i : ℕ) (l : Link) : Coordinator :=
  { c with
    links := c.links.modify i fun l => { l with phase := .settled }
    persisting :=
      if c.persisting l.run = some i then Function.update c.persisting l.run none
      else c.persisting
    marks :=
      if (c.marks l.run).map Prod.fst = l.mark.map Prod.fst then
        Function.update c.marks l.run none
      else c.marks }

/-- A handler whose storage read returned. -/
def resume (c : Coordinator) : Task → Coordinator
  | .accepting ws run exec seq terminal last => c.accept ws run exec seq terminal last
  | .requesting ws run exec seq last => c.answer ws run exec seq last
  | .duplicating ws run last =>
    match last with
    | some m => c.acknowledge ws run m.exec m.seq
    | none => c
  | .acknowledging .. => c

inductive Label where
  | event (ws : ℕ) (run exec : String) (seq : ℕ) (terminal : Bool)
  | ackRequest (ws : ℕ) (run exec : String) (seq : ℕ)
  | read (i : ℕ)
  | persist (i : ℕ)
  | link (i : ℕ) (ok : Bool)
  | put (i : ℕ)
  | ack (i : ℕ) (ok : Bool)
  | hibernate

def step (c : Coordinator) : Label → Option Coordinator
  | .event ws run exec seq terminal =>
    if c.drained && c.gateOpen then some (c.handleEvent ws run exec seq terminal) else none
  | .ackRequest ws run exec seq =>
    if c.drained && c.gateOpen then some (c.requested ws run exec seq) else none
  | .read i =>
    match c.tasks[i]? with
    | some t =>
      if c.drained && t.reads then
        some ({ c with tasks := c.tasks.eraseIdx i }.resume t)
      else none
    | none => none
  | .persist i =>
    match c.links[i]? with
    | some l =>
      if c.drained && !l.done then
        some { c with links := c.links.modify i fun l => { l with done := true } }
      else none
    | none => none
  | .link i ok =>
    match c.links[i]? with
    | some l => if c.linkReady l then some (c.runLink i l ok) else none
    | none => none
  | .put i =>
    match c.links[i]? with
    | some l =>
      if c.drained && decide (l.phase = .writing) then some (c.endLink i l) else none
    | none => none
  | .ack i ok =>
    match c.tasks[i]? with
    | some (.acknowledging ws run exec seq chain) =>
      if c.chainSettled chain then
        some { c with
          tasks := c.tasks.eraseIdx i
          log := if ok then c.log ++ [.ack ws run exec seq] else c.log }
      else none
    | _ => none
  | .hibernate =>
    if c.drained && c.tasks.isEmpty && c.links.all fun l => decide (l.phase = .settled) then
      some { c with
        sinceAck := fun _ => 0
        marks := fun _ => none
        persisting := fun _ => none
        duplicateAcked := [] }
    else none

/-- What a step of each kind requires and does. -/
theorem step_cases {c d : Coordinator} {a : Label} (h : c.step a = some d) :
    match a with
    | .event ws run exec seq terminal => c.drained = true ∧ c.gateOpen = true ∧
        d = c.handleEvent ws run exec seq terminal
    | .ackRequest ws run exec seq => c.drained = true ∧ c.gateOpen = true ∧
        d = c.requested ws run exec seq
    | .read i => ∃ t, c.tasks[i]? = some t ∧ c.drained = true ∧ t.reads = true ∧
        d = { c with tasks := c.tasks.eraseIdx i }.resume t
    | .persist i => ∃ l, c.links[i]? = some l ∧ c.drained = true ∧ l.done = false ∧
        d = { c with links := c.links.modify i fun l => { l with done := true } }
    | .link i ok => ∃ l, c.links[i]? = some l ∧ c.linkReady l = true ∧ d = c.runLink i l ok
    | .put i => ∃ l, c.links[i]? = some l ∧ c.drained = true ∧ l.phase = .writing ∧
        d = c.endLink i l
    | .ack i ok => ∃ ws run exec seq chain,
        c.tasks[i]? = some (.acknowledging ws run exec seq chain) ∧
        c.chainSettled chain = true ∧
        d = { c with
          tasks := c.tasks.eraseIdx i
          log := if ok then c.log ++ [.ack ws run exec seq] else c.log }
    | .hibernate => c.drained = true ∧ c.tasks = [] ∧ (∀ l ∈ c.links, l.phase = .settled) ∧
        d = { c with
          sinceAck := fun _ => 0
          marks := fun _ => none
          persisting := fun _ => none
          duplicateAcked := [] } := by
  cases a with
  | event ws run exec seq terminal =>
    simp only [step, Option.ite_none_right_eq_some, Option.some.injEq, Bool.and_eq_true] at h
    exact ⟨h.1.1, h.1.2, h.2.symm⟩
  | ackRequest ws run exec seq =>
    simp only [step, Option.ite_none_right_eq_some, Option.some.injEq, Bool.and_eq_true] at h
    exact ⟨h.1.1, h.1.2, h.2.symm⟩
  | read i =>
    simp only [step] at h
    split at h
    · rename_i t ht
      simp only [Option.ite_none_right_eq_some, Option.some.injEq, Bool.and_eq_true] at h
      exact ⟨t, ht, h.1.1, h.1.2, h.2.symm⟩
    · cases h
  | persist i =>
    simp only [step] at h
    split at h
    · rename_i l hl
      simp only [Option.ite_none_right_eq_some, Option.some.injEq, Bool.and_eq_true,
        Bool.not_eq_true'] at h
      exact ⟨l, hl, h.1.1, h.1.2, h.2.symm⟩
    · cases h
  | link i ok =>
    simp only [step] at h
    split at h
    · rename_i l hl
      simp only [Option.ite_none_right_eq_some, Option.some.injEq] at h
      exact ⟨l, hl, h.1, h.2.symm⟩
    · cases h
  | put i =>
    simp only [step] at h
    split at h
    · rename_i l hl
      simp only [Option.ite_none_right_eq_some, Option.some.injEq, Bool.and_eq_true,
        decide_eq_true_eq] at h
      exact ⟨l, hl, h.1.1, h.1.2, h.2.symm⟩
    · cases h
  | ack i ok =>
    simp only [step] at h
    split at h
    · rename_i ws run exec seq chain ht
      simp only [Option.ite_none_right_eq_some, Option.some.injEq] at h
      exact ⟨ws, run, exec, seq, chain, ht, h.1, h.2.symm⟩
    · cases h
  | hibernate =>
    simp only [step, Option.ite_none_right_eq_some, Option.some.injEq, Bool.and_eq_true,
      List.isEmpty_iff, List.all_eq_true, decide_eq_true_eq] at h
    exact ⟨h.1.1.1, h.1.1.2, h.1.2, h.2.symm⟩

end Coordinator

end Swazz.Delivery
