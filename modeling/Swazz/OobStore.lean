import Swazz.StepSystem
import Swazz.BoundedMap
import Mathlib.Data.List.Perm.Basic

/-! The store of a run's out-of-band tokens, which wait for a callback of the target, and its
calls in any order. -/
namespace Swazz.Oob

open StepSystem BoundedMap

/-- A Go string is its bytes. -/
abbrev Bytes := List UInt8

def defaultMaxEntries : ℤ := 50000

def maxPendingFieldBytes : ℕ := 256

def utfMax : ℕ := 4

/-- A payload: a string, or another value by what formatting it prints. -/
inductive Payload where
  | text (s : Bytes)
  | other (printed : Bytes)

/-- `R` is the type of request logs. -/
structure OOBContext (R : Type) where
  sessionID : Bytes
  endpoint : Bytes
  payload : Payload
  request : Option R

structure PendingToken where
  uuid : String
  endpoint : Bytes
  payload : Bytes
  deriving DecidableEq

/-- Contexts are shared by reference: what is at each address. -/
abbrev Heap (R : Type) := ℕ → OOBContext R

/-- A registered context is an address, or `none` where it is nil. -/
abbrev Tokens := Map String (Option ℕ)

/-- The store; `onDrop` says whether a callback is set. -/
structure Store where
  m : Tokens
  inStep : m.InStep
  onDrop : Bool
  dropped : Bool

structure CappedWriter where
  b : Bytes
  limit : ℕ

/-- Keeps the first bytes written, up to the limit. -/
def CappedWriter.write (w : CappedWriter) (p : Bytes) : CappedWriter :=
  let room := w.limit - w.b.length
  if room > 0 then { w with b := w.b ++ p.take (min room p.length) } else w

def payloadText : Payload → Bytes
  | .text s => s
  | .other printed => (CappedWriter.write ⟨[], maxPendingFieldBytes + utfMax⟩ printed).b

/-- Whether a byte can be the first of a character. -/
def runeStart (b : UInt8) : Bool := b &&& 0xC0 != 0x80

/-- At most so many steps back to the first byte of a character; `n` is an index of `s`. -/
def backOff (s : Bytes) : ℕ → ℕ → ℕ
  | 0, n => n
  | i + 1, n => if n > 0 ∧ !runeStart (s.getD n 0) then backOff s i (n-1) else n

/-- Cuts a string to at most `n` bytes without splitting a character. -/
def cutUTF8 (s : Bytes) (n : ℕ) : Bytes :=
  if s.length ≤ n then s else s.take (backOff s (utfMax - 1) n)

/-- A token as it is handed over. -/
def pendingToken {R : Type} (heap : Heap R) (t : String × ℕ) : PendingToken where
  uuid := t.1
  endpoint := cutUTF8 (heap t.2).endpoint maxPendingFieldBytes
  payload := cutUTF8 (payloadText (heap t.2).payload) maxPendingFieldBytes

/-- The loop over the keys to take: each is deleted, and kept with its context if it has one. -/
def takeKeys : Tokens → List String → List (String × ℕ) × Tokens
  | m, [] => ([], m)
  | m, k :: keys =>
    let found := m.delete k
    let rest := takeKeys found.2 keys
    match found.1.join with
    | some ctx => ((k, ctx) :: rest.1, rest.2)
    | none => rest

theorem takeKeys_inStep (keys : List String) {m : Tokens} (h : m.InStep) :
    (takeKeys m keys).2.InStep ∧ (takeKeys m keys).2.limit = m.limit := by
  induction keys generalizing m with
  | nil => exact ⟨h, rfl⟩
  | cons k keys ih =>
    obtain ⟨hstep, hlimit⟩ := ih (Map.delete_inStep h k)
    rw [Map.delete_limit] at hlimit
    rw [takeKeys]
    split
    · exact ⟨hstep, hlimit⟩
    · exact ⟨hstep, hlimit⟩

namespace Store

def newStoreWithLimit (limit : ℤ) : Store := ⟨.new limit, Map.new_inStep limit, false, false⟩

def newStore : Store := newStoreWithLimit defaultMaxEntries

def onFirstDrop (s : Store) : Store := { s with onDrop := true }

/-- Records a token, and whether the callback is to be called once the lock is released. -/
def registerUUID (s : Store) (uuid : String) (ctx : Option ℕ) : Store × Bool :=
  let set := s.m.set uuid ctx
  let first := set.2 && !s.dropped
  (⟨set.1, Map.set_inStep s.inStep uuid ctx, s.onDrop, s.dropped || first⟩, first && s.onDrop)

/-- The memory after the request of a token is noted; a nil context panics. -/
def updateRequest {R : Type} (s : Store) (heap : Heap R) (uuid : String) (req : Option R) :
    Option (Heap R) :=
  match s.m.get uuid with
  | some (some ctx) => some (Function.update heap ctx { heap ctx with request := req })
  | some none => none
  | none => some heap

def getAndRemoveUUID (s : Store) (uuid : String) : Option (Option ℕ) × Store :=
  ((s.m.delete uuid).1, { s with m := (s.m.delete uuid).2
                                 inStep := Map.delete_inStep s.inStep uuid })

def clear (s : Store) : Store :=
  ⟨s.m.clear, Map.clear_inStep s.inStep, s.onDrop, false⟩

def size (s : Store) : ℕ := s.m.ll.length

/-- The locked part of `TakePending`. -/
def takeLocked (s : Store) (n : ℤ) : List (String × ℕ) × Store :=
  let keys := s.m.newestKeys n
  ((takeKeys s.m keys).1, { s with m := (takeKeys s.m keys).2
                                   inStep := (takeKeys_inStep keys s.inStep).1 })

/-- The store never writes an endpoint or a payload, so formatting after the lock is released
prints what was there before. -/
def takePending {R : Type} (s : Store) (heap : Heap R) (n : ℤ) : List PendingToken × Store :=
  ((s.takeLocked n).1.map (pendingToken heap), (s.takeLocked n).2)

/-- The tokens that wait for a callback, in the order in which they were registered. -/
def waiting (s : Store) : List String := s.m.entries.map (·.1)

end Store

/-- A store, the memory of its contexts and what has happened to its tokens. A period goes from
one `Clear` to the next. -/
structure State (R : Type) where
  store : Store
  heap : Heap R
  period : ℕ
  registered : List (String × Option ℕ)
  matched : List String
  taken : List (List PendingToken)
  discarded : List String
  -- Each with the period of the drop.
  dropped : List (String × ℕ)
  cleared : List String
  -- The callbacks to be called, each by the period of its drop.
  owed : List ℕ
  -- Those called, by the period of the drop and the period of the call.
  calls : List (ℕ × ℕ)

inductive Move (R : Type) where
  | register (uuid : String) (ctx : Option ℕ)
  | notify (i : ℕ)
  | getAndRemove (uuid : String)
  | updateRequest (uuid : String) (req : Option R)
  | takePending (n : ℤ)
  | clear

variable {R : Type}

def init (store : Store) (heap : Heap R) : State R :=
  ⟨store, heap, 0, [], [], [], [], [], [], [], []⟩

/-- The tokens that have left the store. -/
def gone (before after : Store) : List String :=
  before.waiting.filter fun t => t ∉ after.waiting

/-- One call's locked section, or the callback that a `RegisterUUID` calls after its own.
Tokens are distinct. -/
def step (s : State R) : Move R → Option (State R)
  | .register uuid ctx =>
    if uuid ∈ s.registered.map (·.1) then none
    else
      let (store, notify) := s.store.registerUUID uuid ctx
      some { s with
        store := store
        registered := s.registered ++ [(uuid, ctx)]
        dropped := s.dropped ++ (gone s.store store).map fun t => (t, s.period)
        owed := if notify then s.owed ++ [s.period] else s.owed }
  | .notify i =>
    (s.owed[i]?).map fun p =>
      { s with owed := s.owed.eraseIdx i, calls := s.calls ++ [(p, s.period)] }
  | .getAndRemove uuid =>
    let (found, store) := s.store.getAndRemoveUUID uuid
    some { s with
      store := store
      matched := if found.isSome then s.matched ++ [uuid] else s.matched }
  | .updateRequest uuid req =>
    -- A panic releases the lock and leaves the memory as it is.
    some { s with heap := (s.store.updateRequest s.heap uuid req).getD s.heap }
  | .takePending n =>
    let (batch, store) := s.store.takePending s.heap n
    some { s with
      store := store
      taken := s.taken ++ [batch]
      discarded := s.discarded ++
        (gone s.store store).filter fun t => t ∉ batch.map (·.uuid) }
  | .clear =>
    some { s with
      store := s.store.clear
      cleared := s.cleared ++ gone s.store s.store.clear
      period := s.period + 1 }

/-- In how many ways a token is accounted for. -/
def State.fates (s : State R) (t : String) : ℕ :=
  s.store.waiting.count t + s.matched.count t + (s.taken.flatten.map (·.uuid)).count t +
    s.discarded.count t + (s.dropped.map (·.1)).count t + s.cleared.count t

end Swazz.Oob
