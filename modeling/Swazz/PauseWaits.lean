import Mathlib.Logic.Function.Basic
import Swazz.StepSystem

/-! The goroutines that wait while a run is paused or held, and the calls that wake them. Every load
or store of a flag and every operation on a mutex or on the condition variable is a step. -/
namespace Swazz.Pausing

open StepSystem

/-- The fields of a runner; contexts are numbers. -/
structure Shared where
  isRunning : Bool
  isPaused : Bool
  shouldStop : Bool
  held : Bool
  /-- Who has locked `pause.mu`. -/
  mu : Option ℕ
  /-- Who has locked `lifecycle.mu`. -/
  lifecycleMu : Option ℕ
  /-- The contexts that `lifecycle.cancel` ends. -/
  cancel : Option (ℕ → Bool)
  ended : ℕ → Bool

inductive WaitCall where
  | waitIfPaused
  | waitWhileHeld
  deriving DecidableEq

/-- Where a waiter stands: what it does next. -/
inductive WaitAt where
  /-- The tests before it waits. -/
  | testPaused
  | testHeld
  /-- `wakeOnDone` -/
  | registering
  | locking
  /-- The condition of the loop. -/
  | checkPaused
  | checkHeld
  | checkStop
  | checkCtx
  | waiting
  /-- In `cond.Wait`, until a broadcast. -/
  | sleeping
  /-- Still in `cond.Wait`, about to lock again. -/
  | woken
  | unlocking
  /-- The result of `waitWhileHeld`. -/
  | readStop
  | readCtx
  /-- About to stop the context's function. -/
  | leaving (abandoned : Bool)
  | returned (abandoned : Bool)
  deriving DecidableEq

/-- `wake` is the function that a waiter's context runs when it ends. -/
inductive WriteCall where
  | pause
  | resume
  | hold
  | release
  | stop
  | wake
  deriving DecidableEq

inductive WriteAt where
  | readRunning
  | pausing
  | locking
  | testHeld
  | storing
  | storingPaused
  | unlocking
  | lifecycleLocking
  | cancelling
  | lifecycleUnlocking
  | broadcasting
  /-- A broadcast under the lock. -/
  | waking
  | returned
  deriving DecidableEq

inductive Thread where
  /-- `registered`: the function of its context is still to run. -/
  | waiter (call : WaitCall) (ctx : ℕ) (place : WaitAt) (registered : Bool)
  | writer (call : WriteCall) (place : WriteAt)
  deriving DecidableEq

structure State where
  shared : Shared
  threads : ℕ → Option Thread

/-- Where the condition of the loop begins. -/
def WaitCall.loop : WaitCall → WaitAt
  | .waitIfPaused => .checkPaused
  | .waitWhileHeld => .checkHeld

def WaitCall.thread : WaitCall → ℕ → Thread
  | .waitIfPaused, ctx => .waiter .waitIfPaused ctx .testPaused false
  | .waitWhileHeld, ctx => .waiter .waitWhileHeld ctx .testHeld false

def WriteCall.thread : WriteCall → Thread
  | .pause => .writer .pause .readRunning
  | call => .writer call .locking

/-- A waiter's step, with what it leaves of the mutex and of its registration. -/
def waiterStep (sh : Shared) (i : ℕ) (call : WaitCall) (ctx : ℕ) (registered : Bool) :
    WaitAt → Option (Option ℕ × WaitAt × Bool)
  | .testPaused => some (sh.mu, if sh.isPaused then .registering else .testHeld, registered)
  | .testHeld => some (sh.mu, if sh.held then .registering else .returned false, registered)
  | .registering => some (sh.mu, .locking, true)
  | .locking => if sh.mu = none then some (some i, call.loop, registered) else none
  | .checkPaused => some (sh.mu, if sh.isPaused then .checkStop else .checkHeld, registered)
  | .checkHeld => some (sh.mu, if sh.held then .checkStop else .unlocking, registered)
  | .checkStop => some (sh.mu, if sh.shouldStop then .unlocking else .checkCtx, registered)
  | .checkCtx => some (sh.mu, if sh.ended ctx then .unlocking else .waiting, registered)
  | .waiting => some (none, .sleeping, registered)
  | .sleeping => none
  | .woken => if sh.mu = none then some (some i, call.loop, registered) else none
  | .unlocking =>
    some (none, if call = .waitWhileHeld then .readStop else .leaving false, registered)
  | .readStop => some (sh.mu, if sh.shouldStop then .leaving true else .readCtx, registered)
  | .readCtx => some (sh.mu, .leaving (sh.ended ctx), registered)
  | .leaving abandoned => some (sh.mu, .returned abandoned, false)
  | .returned _ => none

/-- What a call does once it has locked, and once it has unlocked. -/
def WriteCall.locked : WriteCall → WriteAt
  | .hold | .release => .testHeld
  | .wake => .waking
  | _ => .storing

def WriteCall.unlocked : WriteCall → WriteAt
  | .stop => .lifecycleLocking
  | .resume | .release => .broadcasting
  | _ => .returned

/-- A writer's step; what a broadcast does to the others is left to `step`. -/
def writerStep (sh : Shared) (i : ℕ) (call : WriteCall) : WriteAt → Option (Shared × WriteAt)
  | .readRunning => some (sh, if sh.isRunning then .pausing else .returned)
  | .pausing => some ({ sh with isPaused := true }, .returned)
  | .locking =>
    if sh.mu = none then some ({ sh with mu := some i }, call.locked) else none
  | .testHeld =>
    some (sh, if sh.held = decide (call = .release) then .storing else .unlocking)
  | .storing =>
    match call with
    | .resume => some ({ sh with isPaused := false }, .unlocking)
    | .stop => some ({ sh with shouldStop := true }, .storingPaused)
    | .hold => some ({ sh with held := true }, .unlocking)
    | .release => some ({ sh with held := false }, .unlocking)
    | _ => none
  | .storingPaused =>
    if call = .stop then some ({ sh with isPaused := false }, .unlocking) else none
  | .unlocking => some ({ sh with mu := none }, call.unlocked)
  | .lifecycleLocking =>
    if sh.lifecycleMu = none then some ({ sh with lifecycleMu := some i }, .cancelling) else none
  | .cancelling =>
    some ({ sh with ended := fun c => sh.ended c || sh.cancel.any fun ends => ends c },
      .lifecycleUnlocking)
  | .lifecycleUnlocking => some ({ sh with lifecycleMu := none }, .broadcasting)
  | .broadcasting => some (sh, .returned)
  | .waking => some (sh, .unlocking)
  | .returned => none

def WriteAt.broadcasts (place : WriteAt) : Bool := place = .broadcasting || place = .waking

/-- `cond.Broadcast` -/
def Thread.wakeUp : Thread → Thread
  | .waiter call ctx .sleeping registered => .waiter call ctx .woken registered
  | t => t

inductive Action where
  | wait (i : ℕ) (call : WaitCall) (ctx : ℕ)
  | write (i : ℕ) (call : WriteCall)
  /-- The context of a waiter ends. -/
  | cancel (ctx : ℕ)
  /-- A context that has ended runs its function in a goroutine of its own. -/
  | fire (i j : ℕ)
  /-- A run starts or ends. -/
  | running (b : Bool)
  | turn (i : ℕ)

def step (s : State) : Action → Option State
  | .wait i call ctx =>
    if s.threads i = none then
      some { s with threads := Function.update s.threads i (some (call.thread ctx)) }
    else none
  | .write i call =>
    if s.threads i = none ∧ call ≠ .wake then
      some { s with threads := Function.update s.threads i (some call.thread) }
    else none
  | .cancel ctx =>
    some { s with shared := { s.shared with ended := Function.update s.shared.ended ctx true } }
  | .fire i j =>
    match s.threads i with
    | some (.waiter call ctx place true) =>
      if s.shared.ended ctx = true ∧ s.threads j = none then
        some { s with
          threads := Function.update
            (Function.update s.threads i (some (.waiter call ctx place false))) j
            (some (WriteCall.thread .wake)) }
      else none
    | _ => none
  | .running b => some { s with shared := { s.shared with isRunning := b } }
  | .turn i =>
    match s.threads i with
    | some (.waiter call ctx place registered) =>
      (waiterStep s.shared i call ctx registered place).map fun (mu, place, registered) =>
        { shared := { s.shared with mu := mu }
          threads := Function.update s.threads i (some (.waiter call ctx place registered)) }
    | some (.writer call place) =>
      (writerStep s.shared i call place).map fun (shared, place') =>
        { shared := shared
          threads := Function.update
            (if place.broadcasts then fun j => (s.threads j).map Thread.wakeUp
              else s.threads) i (some (.writer call place')) }
    | none => none

/-- A runner with nothing under way. -/
def start (isRunning isPaused shouldStop held : Bool) (cancel : Option (ℕ → Bool))
    (ended : ℕ → Bool) : State where
  shared := ⟨isRunning, isPaused, shouldStop, held, none, none, cancel, ended⟩
  threads := fun _ => none

/-! ### Conditions -/

/-- What a waiter waits for the end of. -/
def WaitCall.Waits (call : WaitCall) (sh : Shared) : Prop :=
  match call with
  | .waitIfPaused => sh.isPaused = true ∨ sh.held = true
  | .waitWhileHeld => sh.held = true

/-- The call has a broadcast before it. -/
def WriteCall.wakes : WriteCall → WriteAt → Bool
  | .wake, place => place = .locking || place = .waking
  | .pause, _ | .hold, _ => false
  | _, place => place ≠ .readRunning && place ≠ .pausing && place ≠ .waking &&
      place ≠ .returned

/-- A broadcast is still to come for a waiter: of a call that is under way, or of its context. -/
def ToCome (s : State) (i : ℕ) : Prop :=
  (∃ j call place, s.threads j = some (.writer call place) ∧ call.wakes place = true) ∨
    ∃ call ctx place, s.threads i = some (.waiter call ctx place true) ∧ s.shared.ended ctx = true

def WaitAt.holds : WaitAt → Bool
  | .checkPaused | .checkHeld | .checkStop | .checkCtx | .waiting | .unlocking => true
  | _ => false

def WriteAt.holds : WriteAt → Bool
  | .testHeld | .storing | .storingPaused | .unlocking | .waking => true
  | _ => false

/-- A thread has locked `pause.mu`. -/
def Thread.holds : Thread → Bool
  | .waiter _ _ place _ => place.holds
  | .writer _ place => place.holds

/-- The function of the waiter's context has been registered, and not stopped. -/
def WaitAt.inside : WaitAt → Bool
  | .testPaused | .testHeld | .registering | .returned _ => false
  | _ => true

/-! ### One step -/

section

variable {sh sh' : Shared} {i j : ℕ} {call : WriteCall} {place place' : WriteAt}

/-- What nobody but a holder of the mutex takes back. -/
structure Keeps (sh sh' : Shared) : Prop where
  paused : sh.isPaused = true → sh'.isPaused = true
  held : sh.held = true → sh'.held = true
  stop : sh.shouldStop = false → sh'.shouldStop = false

theorem Keeps.waits (h : Keeps sh sh') {w : WaitCall} (hw : w.Waits sh) : w.Waits sh' := by
  cases w with
  | waitIfPaused => exact hw.imp h.paused h.held
  | waitWhileHeld => exact h.held hw

/-- The steps of a writer. -/
inductive WriterCases (sh : Shared) (j : ℕ) (call : WriteCall) :
    WriteAt → Shared → WriteAt → Prop
  | readRunning : WriterCases sh j call .readRunning sh
      (if sh.isRunning then .pausing else .returned)
  | pausing : WriterCases sh j call .pausing { sh with isPaused := true } .returned
  | locking (hmu : sh.mu = none) :
    WriterCases sh j call .locking { sh with mu := some j } call.locked
  | testHeld : WriterCases sh j call .testHeld sh
      (if sh.held = decide (call = .release) then .storing else .unlocking)
  | resuming (hcall : call = .resume) :
    WriterCases sh j call .storing { sh with isPaused := false } .unlocking
  | stopping (hcall : call = .stop) :
    WriterCases sh j call .storing { sh with shouldStop := true } .storingPaused
  | holding (hcall : call = .hold) :
    WriterCases sh j call .storing { sh with held := true } .unlocking
  | releasing (hcall : call = .release) :
    WriterCases sh j call .storing { sh with held := false } .unlocking
  | stopped (hcall : call = .stop) :
    WriterCases sh j call .storingPaused { sh with isPaused := false } .unlocking
  | unlocking : WriterCases sh j call .unlocking { sh with mu := none } call.unlocked
  | lifecycleLocking :
    WriterCases sh j call .lifecycleLocking { sh with lifecycleMu := some j } .cancelling
  | cancelling : WriterCases sh j call .cancelling
      { sh with ended := fun c => sh.ended c || sh.cancel.any fun ends => ends c }
      .lifecycleUnlocking
  | lifecycleUnlocking :
    WriterCases sh j call .lifecycleUnlocking { sh with lifecycleMu := none } .broadcasting
  | broadcasting : WriterCases sh j call .broadcasting sh .returned
  | waking : WriterCases sh j call .waking sh .unlocking

theorem writer_cases (h : writerStep sh j call place = some (sh', place')) :
    WriterCases sh j call place sh' place' := by
  cases place with
  | locking =>
    obtain ⟨hmu, h⟩ := Option.ite_none_right_eq_some.mp h
    cases h
    exact .locking hmu
  | storing =>
    cases call with
    | resume => cases h; exact .resuming rfl
    | stop => cases h; exact .stopping rfl
    | hold => cases h; exact .holding rfl
    | release => cases h; exact .releasing rfl
    | pause => cases h
    | wake => cases h
  | storingPaused =>
    obtain ⟨hcall, h⟩ := Option.ite_none_right_eq_some.mp h
    cases h
    exact .stopped hcall
  | lifecycleLocking =>
    obtain ⟨-, h⟩ := Option.ite_none_right_eq_some.mp h
    cases h
    exact .lifecycleLocking
  | readRunning => cases h; exact .readRunning
  | pausing => cases h; exact .pausing
  | testHeld => cases h; exact .testHeld
  | unlocking => cases h; exact .unlocking
  | cancelling => cases h; exact .cancelling
  | lifecycleUnlocking => cases h; exact .lifecycleUnlocking
  | broadcasting => cases h; exact .broadcasting
  | waking => cases h; exact .waking
  | returned => cases h

/-- A flag that a waiter waits for changes under the lock, before a broadcast. -/
theorem WriterCases.keeps (h : WriterCases sh j call place sh' place') :
    Keeps sh sh' ∨ place.holds = true ∧ call.wakes place' = true := by
  cases h with
  | pausing => exact Or.inl ⟨fun _ => rfl, id, id⟩
  | holding => exact Or.inl ⟨id, fun _ => rfl, id⟩
  | resuming hcall => exact Or.inr ⟨rfl, hcall ▸ rfl⟩
  | stopping hcall => exact Or.inr ⟨rfl, hcall ▸ rfl⟩
  | releasing hcall => exact Or.inr ⟨rfl, hcall ▸ rfl⟩
  | stopped hcall => exact Or.inr ⟨rfl, hcall ▸ rfl⟩
  | _ => exact Or.inl ⟨id, id, id⟩

/-- Contexts that have ended stay so. -/
theorem WriterCases.ended (h : WriterCases sh j call place sh' place') {c : ℕ}
    (hc : sh.ended c = true) : sh'.ended c = true := by
  cases h with
  | cancelling => exact Bool.or_eq_true_iff.mpr (Or.inl hc)
  | _ => exact hc

/-- A call with a broadcast before it has it before it until it broadcasts. -/
theorem WriterCases.wakes (h : WriterCases sh j call place sh' place')
    (hw : call.wakes place = true) (hne : place.broadcasts = false) :
    call.wakes place' = true := by
  cases h with
  | broadcasting => exact absurd hne (by decide)
  | waking => exact absurd hne (by decide)
  | readRunning => cases call <;> cases hw
  | pausing => cases call <;> cases hw
  | testHeld => cases call <;> split_ifs <;> first | rfl | cases hw
  | holding hcall => exact absurd hw (hcall ▸ by decide)
  | _ => cases call <;> first | rfl | cases hw

/-- The mutex is taken when it is free and given back by who has locked it. -/
theorem WriterCases.mu (h : WriterCases sh j call place sh' place') :
    (sh'.mu = sh.mu ∧ (place'.holds = true → place.holds = true)) ∨
      (sh.mu = none ∧ sh'.mu = some j) ∨ (place.holds = true ∧ place'.holds = false) := by
  cases h with
  | locking hmu => exact Or.inr (Or.inl ⟨hmu, rfl⟩)
  | unlocking => exact Or.inr (Or.inr ⟨rfl, by cases call <;> rfl⟩)
  | readRunning =>
    refine Or.inl ⟨rfl, fun h => ?_⟩
    split_ifs at h <;> cases h
  | _ => exact Or.inl ⟨rfl, fun h => by first | rfl | cases h⟩

end

/-! ### Steps of the system -/

/-- The threads once a writer has moved. -/
def afterWrite (s : State) (i : ℕ) (call : WriteCall) (place place' : WriteAt) :
    ℕ → Option Thread :=
  Function.update (if place.broadcasts then fun j => (s.threads j).map Thread.wakeUp
    else s.threads) i (some (.writer call place'))

/-- Whose step it is, and what it does. -/
inductive StepCases (s : State) : Action → State → Prop
  | wait {i : ℕ} {call : WaitCall} {ctx : ℕ} (hi : s.threads i = none) :
    StepCases s (.wait i call ctx)
      { s with threads := Function.update s.threads i (some (call.thread ctx)) }
  | write {i : ℕ} {call : WriteCall} (hi : s.threads i = none) :
    StepCases s (.write i call)
      { s with threads := Function.update s.threads i (some call.thread) }
  | cancel {ctx : ℕ} : StepCases s (.cancel ctx)
      { s with shared := { s.shared with ended := Function.update s.shared.ended ctx true } }
  | fire {i j ctx : ℕ} {call : WaitCall} {place : WaitAt}
    (hi : s.threads i = some (.waiter call ctx place true)) (hctx : s.shared.ended ctx = true)
    (hj : s.threads j = none) : StepCases s (.fire i j)
      { s with
        threads := Function.update
          (Function.update s.threads i (some (.waiter call ctx place false))) j
          (some (WriteCall.thread .wake)) }
  | running {b : Bool} :
    StepCases s (.running b) { s with shared := { s.shared with isRunning := b } }
  | waiter {i ctx : ℕ} {call : WaitCall} {place place' : WaitAt} {reg reg' : Bool}
    {mu : Option ℕ} (hi : s.threads i = some (.waiter call ctx place reg))
    (hstep : waiterStep s.shared i call ctx reg place = some (mu, place', reg')) :
    StepCases s (.turn i)
      { shared := { s.shared with mu := mu }
        threads := Function.update s.threads i (some (.waiter call ctx place' reg')) }
  | writer {i : ℕ} {call : WriteCall} {place place' : WriteAt} {sh : Shared}
    (hi : s.threads i = some (.writer call place))
    (hstep : WriterCases s.shared i call place sh place') :
    StepCases s (.turn i) ⟨sh, afterWrite s i call place place'⟩

theorem step_cases {s t : State} {a : Action} (h : step s a = some t) : StepCases s a t := by
  cases a with
  | wait i call ctx =>
    obtain ⟨hi, h⟩ := Option.ite_none_right_eq_some.mp h
    exact Option.some.inj h ▸ .wait hi
  | write i call =>
    obtain ⟨hi, h⟩ := Option.ite_none_right_eq_some.mp h
    exact Option.some.inj h ▸ .write hi.1
  | cancel ctx => exact Option.some.inj h ▸ .cancel
  | running b => exact Option.some.inj h ▸ .running
  | fire i j =>
    rw [step] at h
    split at h
    · rename_i call ctx place hi
      obtain ⟨⟨hctx, hj⟩, h⟩ := Option.ite_none_right_eq_some.mp h
      exact Option.some.inj h ▸ .fire hi hctx hj
    · cases h
  | turn i =>
    rw [step] at h
    split at h
    · rename_i call ctx place reg hi
      obtain ⟨⟨mu, place', reg'⟩, hstep, h⟩ := Option.map_eq_some_iff.mp h
      exact h ▸ .waiter hi hstep
    · rename_i call place hi
      obtain ⟨⟨sh, place'⟩, hstep, h⟩ := Option.map_eq_some_iff.mp h
      exact h ▸ .writer hi (writer_cases hstep)
    · cases h

theorem WaitCall.thread_eq (call : WaitCall) (ctx : ℕ) : ∃ place, call.thread ctx =
    .waiter call ctx place false ∧ (place = .testPaused ∨ place = .testHeld) := by
  cases call with
  | waitIfPaused => exact ⟨_, rfl, Or.inl rfl⟩
  | waitWhileHeld => exact ⟨_, rfl, Or.inr rfl⟩

theorem WriteCall.thread_eq (call : WriteCall) : ∃ place, call.thread = .writer call place ∧
    (place = .readRunning ∨ place = .locking) := by
  cases call with
  | pause => exact ⟨_, rfl, Or.inl rfl⟩
  | _ => exact ⟨_, rfl, Or.inr rfl⟩

section

variable {s t : State} {i j k ctx : ℕ} {call : WaitCall} {place place' : WaitAt} {reg : Bool}
  {op : WriteCall} {w w' : WriteAt}

/-- A waiter that a writer's step finds is as it was, or has been woken. -/
theorem afterWrite_waiter
    (h : afterWrite s i op w w' k = some (.waiter call ctx place reg)) :
    k ≠ i ∧ ∃ place', s.threads k = some (.waiter call ctx place' reg) ∧
      (place' = place ∧ (w.broadcasts = true → place ≠ .sleeping) ∨
        place' = .sleeping ∧ place = .woken) := by
  have hne : k ≠ i := by
    rintro rfl
    rw [afterWrite, Function.update_self] at h
    cases h
  refine ⟨hne, ?_⟩
  rw [afterWrite, Function.update_of_ne hne] at h
  split_ifs at h with hb
  · obtain ⟨th, hth, hwake⟩ := Option.map_eq_some_iff.mp h
    cases th with
    | writer op' w'' => cases hwake
    | waiter call' ctx' place' reg' =>
      by_cases hsleep : place' = .sleeping
      · rw [hsleep] at hwake hth
        cases hwake
        exact ⟨_, hth, Or.inr ⟨rfl, rfl⟩⟩
      · have hsame : Thread.wakeUp (.waiter call' ctx' place' reg') =
            .waiter call' ctx' place' reg' := by
          cases place' <;> first | rfl | exact absurd rfl hsleep
        rw [hsame] at hwake
        cases hwake
        exact ⟨_, hth, Or.inl ⟨rfl, fun _ => hsleep⟩⟩
  · exact ⟨place, h, Or.inl ⟨rfl, fun hb' => absurd hb' hb⟩⟩

theorem afterWrite_writer (hne : k ≠ i) {op' : WriteCall} {w'' : WriteAt} :
    afterWrite s i op w w' k = some (.writer op' w'') ↔ s.threads k = some (.writer op' w'') := by
  rw [afterWrite, Function.update_of_ne hne]
  split_ifs
  · constructor
    · intro h
      obtain ⟨th, hth, hwake⟩ := Option.map_eq_some_iff.mp h
      cases th with
      | writer => cases hwake; exact hth
      | waiter call ctx place reg => cases place <;> cases hwake
    · exact fun h => congrArg (Option.map Thread.wakeUp) h
  · rfl

end

/-! ### The invariant -/

/-- What the waiter has seen under the lock, and still holds. -/
def Checked (sh : Shared) (call : WaitCall) : WaitAt → Prop
  | .checkPaused => call = .waitIfPaused
  | .checkStop => call.Waits sh
  | .checkCtx | .waiting => call.Waits sh ∧ sh.shouldStop = false
  | _ => True

/-- The waiter has good reason to sleep. -/
def Ready (sh : Shared) (call : WaitCall) (ctx : ℕ) : Prop :=
  call.Waits sh ∧ sh.shouldStop = false ∧ sh.ended ctx = false

structure Fits (s : State) (k : ℕ) (call : WaitCall) (ctx : ℕ) (place : WaitAt) (reg : Bool) :
    Prop where
  registered : place.inside = true → reg = true ∨ s.shared.ended ctx = true
  checked : Checked s.shared call place
  /-- Whoever is to wake it cannot have the lock yet. -/
  about : place = .waiting → s.shared.ended ctx = true →
    reg = true ∨ ∃ j, s.threads j = some (.writer .wake .locking)
  asleep : place = .sleeping → Ready s.shared call ctx ∨ ToCome s k

structure Inv (s : State) : Prop where
  locked : ∀ k th, s.threads k = some th → th.holds = true → s.shared.mu = some k
  fits : ∀ k call ctx place reg, s.threads k = some (.waiter call ctx place reg) →
    Fits s k call ctx place reg

section

variable {s t : State} {i j k ctx : ℕ} {call : WaitCall} {place place' : WaitAt} {reg reg' : Bool}

theorem Checked.keeps {sh sh' : Shared} (h : Checked sh call place) (hkeeps : Keeps sh sh') :
    Checked sh' call place := by
  cases place with
  | checkPaused => exact h
  | checkStop => exact hkeeps.waits h
  | checkCtx => exact ⟨hkeeps.waits h.1, hkeeps.stop h.2⟩
  | waiting => exact ⟨hkeeps.waits h.1, hkeeps.stop h.2⟩
  | _ => trivial

theorem checked_of_not_holds (sh : Shared) (h : place.holds = false) : Checked sh call place := by
  cases place with
  | checkPaused => cases h
  | checkStop => cases h
  | checkCtx => cases h
  | waiting => cases h
  | _ => trivial

/-- A step of another thread. -/
theorem Fits.other (h : Fits s k call ctx place reg)
    (hkeeps : place.holds = true → Keeps s.shared t.shared)
    (hended : ∀ c, s.shared.ended c = true → t.shared.ended c = true)
    (hwaker : place.holds = true → ∀ j, s.threads j = some (.writer .wake .locking) →
      t.threads j = some (.writer .wake .locking))
    (hsleep : place = .sleeping → Keeps s.shared t.shared ∨ ToCome t k)
    (hcome : place = .sleeping → ToCome s k → ToCome t k)
    (ht : t.threads k = some (.waiter call ctx place reg)) : Fits t k call ctx place reg := by
  refine ⟨fun hin => (h.registered hin).imp_right (hended ctx), ?_, ?_, ?_⟩
  · by_cases hholds : place.holds = true
    · exact h.checked.keeps (hkeeps hholds)
    · exact checked_of_not_holds _ (Bool.eq_false_iff.mpr hholds)
  · rintro rfl -
    rcases h.registered rfl with hreg | hbefore
    · exact Or.inl hreg
    · exact (h.about rfl hbefore).imp_right (Exists.imp fun j hj => hwaker rfl j hj)
  · rintro rfl
    rcases h.asleep rfl with ⟨hwaits, hstop, halive⟩ | hcome'
    · rcases hsleep rfl with hk | hcome'
      · by_cases hnow : t.shared.ended ctx = true
        · -- the context has just ended, and its function is still to run
          have hreg : reg = true := (h.registered rfl).resolve_right (by rw [halive]; decide)
          exact Or.inr (Or.inr ⟨call, ctx, .sleeping, hreg ▸ ht, hnow⟩)
        · exact Or.inl ⟨hk.waits hwaits, hk.stop hstop, Bool.eq_false_iff.mpr hnow⟩
      · exact Or.inr hcome'
    · exact Or.inr (hcome rfl hcome')

/-- The mutex is taken when it is free and given back by who has locked it. -/
theorem waiterStep_mu {sh : Shared} {mu : Option ℕ}
    (h : waiterStep sh i call ctx reg place = some (mu, place', reg')) :
    (mu = sh.mu ∧ (place'.holds = true → place.holds = true)) ∨ (sh.mu = none ∧ mu = some i) ∨
      (place.holds = true ∧ place'.holds = false) := by
  cases place with
  | locking =>
    obtain ⟨hmu, h⟩ := Option.ite_none_right_eq_some.mp h
    cases h
    exact Or.inr (Or.inl ⟨hmu, rfl⟩)
  | woken =>
    obtain ⟨hmu, h⟩ := Option.ite_none_right_eq_some.mp h
    cases h
    exact Or.inr (Or.inl ⟨hmu, rfl⟩)
  | waiting =>
    cases h
    exact Or.inr (Or.inr ⟨rfl, rfl⟩)
  | unlocking =>
    cases h
    exact Or.inr (Or.inr ⟨rfl, by split_ifs <;> rfl⟩)
  | sleeping => cases h
  | returned => cases h
  | checkPaused => cases h; exact Or.inl ⟨rfl, fun _ => rfl⟩
  | checkHeld => cases h; exact Or.inl ⟨rfl, fun _ => rfl⟩
  | checkStop => cases h; exact Or.inl ⟨rfl, fun _ => rfl⟩
  | checkCtx => cases h; exact Or.inl ⟨rfl, fun _ => rfl⟩
  | registering => cases h; exact Or.inl ⟨rfl, id⟩
  | leaving => cases h; exact Or.inl ⟨rfl, id⟩
  | readCtx => cases h; exact Or.inl ⟨rfl, id⟩
  | testPaused => cases h; exact Or.inl ⟨rfl, fun h => by split_ifs at h <;> cases h⟩
  | testHeld => cases h; exact Or.inl ⟨rfl, fun h => by split_ifs at h <;> cases h⟩
  | readStop => cases h; exact Or.inl ⟨rfl, fun h => by split_ifs at h <;> cases h⟩

theorem waiterStep_registered {sh : Shared} {mu : Option ℕ}
    (h : waiterStep sh i call ctx reg place = some (mu, place', reg'))
    (hin : place'.inside = true) : reg' = true ∨ place.inside = true ∧ reg' = reg := by
  cases place with
  | testPaused => cases h; split_ifs at hin <;> cases hin
  | testHeld => cases h; split_ifs at hin <;> cases hin
  | registering => cases h; exact Or.inl rfl
  | locking =>
    obtain ⟨-, h⟩ := Option.ite_none_right_eq_some.mp h
    cases h
    exact Or.inr ⟨rfl, rfl⟩
  | woken =>
    obtain ⟨-, h⟩ := Option.ite_none_right_eq_some.mp h
    cases h
    exact Or.inr ⟨rfl, rfl⟩
  | leaving => cases h; cases hin
  | sleeping => cases h
  | returned => cases h
  | _ => cases h; exact Or.inr ⟨rfl, rfl⟩

theorem waiterStep_checked {sh : Shared} {mu : Option ℕ}
    (h : waiterStep sh i call ctx reg place = some (mu, place', reg'))
    (hc : Checked sh call place) : Checked sh call place' := by
  have hloop : Checked sh call call.loop := by
    cases call with
    | waitIfPaused => rfl
    | waitWhileHeld => trivial
  cases place with
  | locking =>
    obtain ⟨-, h⟩ := Option.ite_none_right_eq_some.mp h
    cases h
    exact hloop
  | woken =>
    obtain ⟨-, h⟩ := Option.ite_none_right_eq_some.mp h
    cases h
    exact hloop
  | checkPaused =>
    cases h
    split_ifs with hpaused
    · have hcall : call = .waitIfPaused := hc
      exact hcall ▸ Or.inl hpaused
    · trivial
  | checkHeld =>
    cases h
    split_ifs with hheld
    · cases call with
      | waitIfPaused => exact Or.inr hheld
      | waitWhileHeld => exact hheld
    · trivial
  | checkStop =>
    cases h
    split_ifs with hstop
    · trivial
    · exact ⟨hc, Bool.eq_false_iff.mpr hstop⟩
  | checkCtx =>
    cases h
    split_ifs
    · trivial
    · exact hc
  | sleeping => cases h
  | returned => cases h
  | testPaused => cases h; split_ifs <;> trivial
  | testHeld => cases h; split_ifs <;> trivial
  | unlocking => cases h; split_ifs <;> trivial
  | readStop => cases h; split_ifs <;> trivial
  | _ => cases h; trivial

/-- A waiter is about to sleep once it has found its context alive. -/
theorem waiterStep_waiting {sh : Shared} {mu : Option ℕ}
    (h : waiterStep sh i call ctx reg place = some (mu, .waiting, reg')) :
    sh.ended ctx = false := by
  cases place with
  | locking | woken =>
    obtain ⟨-, h⟩ := Option.ite_none_right_eq_some.mp h
    cases call <;> cases h
  | registering | waiting | sleeping | readCtx | leaving | returned => cases h
  | checkCtx =>
    simp only [waiterStep, Option.some.injEq, Prod.mk.injEq] at h
    obtain ⟨-, h, -⟩ := h
    split_ifs at h with hctx
    exact Bool.eq_false_iff.mpr hctx
  | testPaused | testHeld | checkPaused | checkHeld | checkStop | unlocking | readStop =>
    simp only [waiterStep, Option.some.injEq, Prod.mk.injEq] at h
    obtain ⟨-, h, -⟩ := h
    split_ifs at h

theorem waiterStep_sleeping {sh : Shared} {mu : Option ℕ}
    (h : waiterStep sh i call ctx reg place = some (mu, .sleeping, reg')) :
    place = .waiting ∧ reg' = reg := by
  cases place with
  | locking | woken =>
    obtain ⟨-, h⟩ := Option.ite_none_right_eq_some.mp h
    cases call <;> cases h
  | registering | sleeping | readCtx | leaving | returned => cases h
  | waiting =>
    cases h
    exact ⟨rfl, rfl⟩
  | testPaused | testHeld | checkPaused | checkHeld | checkStop | checkCtx | unlocking | readStop =>
    simp only [waiterStep, Option.some.injEq, Prod.mk.injEq] at h
    obtain ⟨-, h, -⟩ := h
    split_ifs at h

/-- A waiter's own step. -/
theorem Fits.own {mu : Option ℕ} (h : Fits s k call ctx place reg)
    (hk : s.threads k = some (.waiter call ctx place reg))
    (hstep : waiterStep s.shared k call ctx reg place = some (mu, place', reg'))
    (hshared : t.shared = { s.shared with mu := mu })
    (hthreads : t.threads = Function.update s.threads k (some (.waiter call ctx place' reg'))) :
    Fits t k call ctx place' reg' := by
  have ht : t.threads k = some (.waiter call ctx place' reg') := by
    rw [hthreads, Function.update_self]
  have hended : t.shared.ended = s.shared.ended := by rw [hshared]
  have hkeeps : Keeps s.shared t.shared := by rw [hshared]; exact ⟨id, id, id⟩
  refine ⟨fun hin => ?_, (waiterStep_checked hstep h.checked).keeps hkeeps, ?_, ?_⟩
  · rw [hended]
    rcases waiterStep_registered hstep hin with hreg | ⟨hin', rfl⟩
    · exact Or.inl hreg
    · exact h.registered hin'
  · rintro rfl hnow
    rw [hended, waiterStep_waiting hstep] at hnow
    cases hnow
  · rintro rfl
    obtain ⟨rfl, rfl⟩ := waiterStep_sleeping hstep
    obtain ⟨hwaits, hstop⟩ := h.checked
    by_cases hnow : s.shared.ended ctx = true
    · rcases h.about rfl hnow with rfl | ⟨j, hj⟩
      · exact Or.inr (Or.inr ⟨call, ctx, .sleeping, ht, by rw [hended]; exact hnow⟩)
      · refine Or.inr (Or.inl ⟨j, .wake, .locking, ?_, rfl⟩)
        have hne : j ≠ k := by
          rintro rfl
          rw [hj] at hk
          cases hk
        rw [hthreads, Function.update_of_ne hne, hj]
    · refine Or.inl ⟨hkeeps.waits hwaits, hkeeps.stop hstop, ?_⟩
      rw [hended]
      exact Bool.eq_false_iff.mpr hnow

/-- A writer that is not the one that moves stays where it is. -/
theorem StepCases.writer_stays {a : Action} (h : StepCases s a t) (ha : a ≠ .turn j)
    {op : WriteCall} {w : WriteAt} (hj : s.threads j = some (.writer op w)) :
    t.threads j = some (.writer op w) := by
  have hnew {i : ℕ} {th : Option Thread} (hi : s.threads i = none) :
      Function.update s.threads i th j = some (.writer op w) := by
    have hne : j ≠ i := by
      rintro rfl
      rw [hi] at hj
      cases hj
    rw [Function.update_of_ne hne, hj]
  cases h with
  | wait hi => exact hnew hi
  | write hi => exact hnew hi
  | cancel => exact hj
  | running => exact hj
  | fire hi hctx hi' =>
    rename_i i i' ctx call place
    have hne : j ≠ i := by
      rintro rfl
      rw [hi] at hj
      cases hj
    have hne' : j ≠ i' := by
      rintro rfl
      rw [hi'] at hj
      cases hj
    show Function.update (Function.update s.threads i _) i' _ j = _
    rw [Function.update_of_ne hne', Function.update_of_ne hne, hj]
  | waiter hi =>
    have hne : j ≠ _ := fun h => ha (h ▸ rfl)
    exact (Function.update_of_ne hne _ _).trans hj
  | writer hi =>
    have hne : j ≠ _ := fun h => ha (h ▸ rfl)
    exact (afterWrite_writer hne).mpr hj

theorem StepCases.ended {a : Action} (h : StepCases s a t) {c : ℕ}
    (hc : s.shared.ended c = true) : t.shared.ended c = true := by
  cases h with
  | cancel =>
    rename_i ctx
    show Function.update s.shared.ended ctx true c = true
    by_cases hctx : c = ctx
    · rw [hctx, Function.update_self]
    · rw [Function.update_of_ne hctx, hc]
  | writer hi hstep => exact hstep.ended hc
  | _ => exact hc

/-- Under the lock of one thread the others leave the flags that a waiter waits for. -/
theorem StepCases.keeps {a : Action} (hinv : Inv s) (h : StepCases s a t) (ha : a ≠ .turn k)
    (hmu : s.shared.mu = some k) : Keeps s.shared t.shared := by
  cases h with
  | writer hi hstep =>
    refine hstep.keeps.resolve_right ?_
    rintro ⟨hholds, -⟩
    have hlocked := hinv.locked _ _ hi hholds
    rw [hmu] at hlocked
    exact ha (Option.some.inj hlocked ▸ rfl)
  | _ => exact ⟨id, id, id⟩

theorem thread_not_holds {call : WaitCall} {ctx : ℕ} : (call.thread ctx).holds = false := by
  obtain ⟨place, hth, rfl | rfl⟩ := call.thread_eq ctx <;> rw [hth] <;> rfl

theorem writer_not_holds {op : WriteCall} : op.thread.holds = false := by
  obtain ⟨w, hth, rfl | rfl⟩ := op.thread_eq <;> rw [hth] <;> rfl

theorem afterWrite_holds {op : WriteCall} {w w' : WriteAt} {th : Thread} (hne : k ≠ i)
    (h : afterWrite s i op w w' k = some th) (hholds : th.holds = true) :
    s.threads k = some th := by
  cases th with
  | writer op' w'' => exact (afterWrite_writer hne).mp h
  | waiter call ctx place reg =>
    obtain ⟨-, place', hk, ⟨rfl, -⟩ | ⟨-, rfl⟩⟩ := afterWrite_waiter h
    · exact hk
    · cases hholds

theorem locked_step {a : Action} (hinv : Inv s) (h : StepCases s a t) :
    ∀ k th, t.threads k = some th → th.holds = true → t.shared.mu = some k := by
  intro k th hk hholds
  have hnew {i : ℕ} {th' : Thread} (hfree : th'.holds = false)
      (hk : Function.update s.threads i (some th') k = some th) : s.shared.mu = some k := by
    by_cases hki : k = i
    · rw [hki, Function.update_self] at hk
      rw [Option.some.inj hk, hholds] at hfree
      cases hfree
    · rw [Function.update_of_ne hki] at hk
      exact hinv.locked k th hk hholds
  -- the mutex after the step of thread `i`, for another thread that has locked it
  have hother {i : ℕ} {mu : Option ℕ} {before after : Bool} {th' : Thread}
      (hi : s.threads i = some th') (hbefore : before = th'.holds)
      (hmu : (mu = s.shared.mu ∧ (after = true → before = true)) ∨
        (s.shared.mu = none ∧ mu = some i) ∨ (before = true ∧ after = false)) :
      (k ≠ i → s.threads k = some th → mu = some k) ∧ (k = i → after = true → mu = some k) := by
    constructor
    · intro hne hk'
      have hlocked := hinv.locked k th hk' hholds
      rcases hmu with ⟨hsame, -⟩ | ⟨hnone, -⟩ | ⟨hheld, -⟩
      · rw [hsame, hlocked]
      · rw [hnone] at hlocked
        cases hlocked
      · rw [hinv.locked i th' hi (hbefore ▸ hheld)] at hlocked
        exact absurd (Option.some.inj hlocked).symm hne
    · rintro rfl hafter
      rcases hmu with ⟨hsame, hkept⟩ | ⟨-, htaken⟩ | ⟨-, hgone⟩
      · rw [hsame, hinv.locked k th' hi (hbefore ▸ hkept hafter)]
      · exact htaken
      · rw [hafter] at hgone
        cases hgone
  cases h with
  | wait hi => exact hnew thread_not_holds hk
  | write hi => exact hnew writer_not_holds hk
  | cancel => exact hinv.locked k th hk hholds
  | running => exact hinv.locked k th hk hholds
  | fire hi hctx hj =>
    rename_i i j ctx call place
    show s.shared.mu = some k
    have hk' : Function.update (Function.update s.threads i _) j _ k = some th := hk
    by_cases hkj : k = j
    · rw [hkj, Function.update_self] at hk'
      rw [← Option.some.inj hk', writer_not_holds] at hholds
      cases hholds
    · rw [Function.update_of_ne hkj] at hk'
      by_cases hki : k = i
      · rw [hki, Function.update_self] at hk'
        rw [← Option.some.inj hk'] at hholds
        exact hki ▸ hinv.locked i _ hi hholds
      · rw [Function.update_of_ne hki] at hk'
        exact hinv.locked k th hk' hholds
  | waiter hi hstep =>
    rename_i i ctx call place place' reg reg' mu
    obtain ⟨hne, heq⟩ := hother hi rfl (waiterStep_mu hstep)
    have hk' : Function.update s.threads i _ k = some th := hk
    by_cases hki : k = i
    · rw [hki, Function.update_self] at hk'
      rw [← Option.some.inj hk'] at hholds
      exact heq hki hholds
    · rw [Function.update_of_ne hki] at hk'
      exact hne hki hk'
  | writer hi hstep =>
    rename_i i op w w' sh
    obtain ⟨hne, heq⟩ := hother hi rfl hstep.mu
    have hk' : afterWrite s i op w w' k = some th := hk
    by_cases hki : k = i
    · rw [hki, afterWrite, Function.update_self] at hk'
      rw [← Option.some.inj hk'] at hholds
      exact heq hki hholds
    · exact hne hki (afterWrite_holds hki hk' hholds)

/-- Whatever is still to come for a sleeper comes, or has it woken. -/
theorem StepCases.toCome {a : Action} (h : StepCases s a t)
    (hk : s.threads k = some (.waiter call ctx .sleeping reg))
    (hk' : t.threads k = some (.waiter call ctx .sleeping reg)) (hcome : ToCome s k) :
    ToCome t k := by
  rcases hcome with ⟨j, op, w, hj, hw⟩ | ⟨call', ctx', place', hk'', hctx⟩
  · by_cases ha : a = .turn j
    · subst ha
      cases h with
      | waiter hi => rw [hj] at hi; cases hi
      | writer hi hstep =>
        rw [hj] at hi
        cases hi
        obtain ⟨-, place', -, ⟨-, hb⟩ | ⟨-, hwoken⟩⟩ := afterWrite_waiter hk'
        · have hquiet := Bool.eq_false_iff.mpr fun hb' => hb hb' rfl
          exact Or.inl ⟨j, op, _, Function.update_self .., hstep.wakes hw hquiet⟩
        · cases hwoken
    · exact Or.inl ⟨j, op, w, h.writer_stays ha hj, hw⟩
  · rw [hk] at hk''
    cases hk''
    exact Or.inr ⟨call, ctx, .sleeping, hk', h.ended hctx⟩

theorem StepCases.keeps_or_toCome {a : Action} (h : StepCases s a t) (k : ℕ) :
    Keeps s.shared t.shared ∨ ToCome t k := by
  cases h with
  | writer hi hstep =>
    refine hstep.keeps.imp_right ?_
    rintro ⟨-, hw⟩
    exact Or.inl ⟨_, _, _, Function.update_self .., hw⟩
  | _ => exact Or.inl ⟨id, id, id⟩

theorem fits_of_outside (hout : place.inside = false) (hfree : place.holds = false) :
    Fits s k call ctx place reg := by
  refine ⟨fun hin => ?_, checked_of_not_holds _ hfree, ?_, ?_⟩
  · rw [hout] at hin
    cases hin
  · rintro rfl
    cases hout
  · rintro rfl
    cases hout

theorem fits_step {a : Action} (hinv : Inv s) (h : StepCases s a t) :
    ∀ k call ctx place reg, t.threads k = some (.waiter call ctx place reg) →
      Fits t k call ctx place reg := by
  intro k call ctx place reg hk
  -- a waiter whose state is as it was
  have hsame (ha : a ≠ .turn k) (hbefore : s.threads k = some (.waiter call ctx place reg)) :
      Fits t k call ctx place reg := by
    have hmu (hholds : place.holds = true) : s.shared.mu = some k :=
      hinv.locked k _ hbefore hholds
    refine (hinv.fits k call ctx place reg hbefore).other
      (fun hholds => h.keeps hinv ha (hmu hholds)) (fun c hc => h.ended hc)
      (fun hholds j hj => h.writer_stays ?_ hj) (fun _ => h.keeps_or_toCome k) ?_ hk
    · -- the lock is not free for a waker
      rintro rfl
      cases h with
      | waiter hi => rw [hj] at hi; cases hi
      | writer hi hstep =>
        rw [hj] at hi
        cases hi
        cases hstep with
        | locking hnone =>
          rw [hmu hholds] at hnone
          cases hnone
    · rintro rfl hcome
      exact h.toCome hbefore hk hcome
  cases h with
  | wait hi =>
    rename_i i call' ctx'
    by_cases hki : k = i
    · have hk' : Function.update s.threads i (some (call'.thread ctx')) k = _ := hk
      rw [hki, Function.update_self] at hk'
      obtain ⟨place', hth, hplace⟩ := call'.thread_eq ctx'
      rw [hth] at hk'
      cases hk'
      rcases hplace with rfl | rfl <;> exact fits_of_outside rfl rfl
    · exact hsame (by simp) ((Function.update_of_ne hki _ _).symm.trans hk)
  | write hi =>
    rename_i i op
    by_cases hki : k = i
    · have hk' : Function.update s.threads i (some op.thread) k = _ := hk
      rw [hki, Function.update_self] at hk'
      obtain ⟨w, hth, -⟩ := op.thread_eq
      rw [hth] at hk'
      cases hk'
    · exact hsame (by simp) ((Function.update_of_ne hki _ _).symm.trans hk)
  | cancel => exact hsame (by simp) hk
  | running => exact hsame (by simp) hk
  | fire hi hctx hj =>
    rename_i i j ctx' call' place'
    have hk' : Function.update (Function.update s.threads i
      (some (.waiter call' ctx' place' false))) j (some (WriteCall.thread .wake)) k = _ := hk
    by_cases hkj : k = j
    · rw [hkj, Function.update_self] at hk'
      cases hk'
    · rw [Function.update_of_ne hkj] at hk'
      by_cases hki : k = i
      · subst hki
        rw [Function.update_self] at hk'
        cases hk'
        -- its context's function has become a goroutine
        have hwaker : ∃ j', (Function.update (Function.update s.threads k
            (some (.waiter call ctx place false))) j (some (WriteCall.thread .wake))) j' =
            some (.writer .wake .locking) := ⟨j, Function.update_self ..⟩
        refine ⟨fun _ => Or.inr hctx, (hinv.fits k call ctx place true hi).checked, ?_, ?_⟩
        · exact fun _ _ => Or.inr hwaker
        · exact fun _ => Or.inr (Or.inl (hwaker.imp fun j' hj' => ⟨_, _, hj', rfl⟩))
      · rw [Function.update_of_ne hki] at hk'
        exact hsame (by simp) hk'
  | waiter hi hstep =>
    rename_i i ctx' call' place₀ place' reg₀ reg' mu
    by_cases hki : k = i
    · subst hki
      have hk' : Function.update s.threads k (some (.waiter call' ctx' place' reg')) k = _ := hk
      rw [Function.update_self] at hk'
      cases hk'
      exact (hinv.fits k call ctx place₀ reg₀ hi).own hi hstep rfl rfl
    · refine hsame (fun h => hki ?_) ((Function.update_of_ne hki _ _).symm.trans hk)
      cases h
      rfl
  | writer hi hstep =>
    obtain ⟨hne, place', hbefore, ⟨rfl, -⟩ | ⟨rfl, rfl⟩⟩ := afterWrite_waiter hk
    · refine hsame (fun h => hne ?_) hbefore
      cases h
      rfl
    · have hfits := hinv.fits k call ctx .sleeping reg hbefore
      refine ⟨fun _ => (hfits.registered rfl).imp_right fun hc => hstep.ended hc, trivial, ?_, ?_⟩
      · exact fun h => absurd h (by decide)
      · exact fun h => absurd h (by decide)

theorem Inv.step {a : Action} (hinv : Inv s) (h : step s a = some t) : Inv t :=
  ⟨locked_step hinv (step_cases h), fits_step hinv (step_cases h)⟩

/-! ### Results -/

/-- A waiter that is past its first tests was where it is, or has moved there. -/
theorem StepCases.origin {a : Action} (h : StepCases s a t)
    (hk : t.threads k = some (.waiter call ctx place reg))
    (hplace : place ≠ .testPaused ∧ place ≠ .testHeld ∧ place ≠ .woken) :
    (∃ reg', s.threads k = some (.waiter call ctx place reg')) ∨
      ∃ place' reg' mu, s.threads k = some (.waiter call ctx place' reg') ∧
        waiterStep s.shared k call ctx reg' place' = some (mu, place, reg) := by
  cases h with
  | wait hi =>
    rename_i i call' ctx'
    by_cases hki : k = i
    · have hk' : Function.update s.threads i (some (call'.thread ctx')) k = _ := hk
      rw [hki, Function.update_self] at hk'
      obtain ⟨place', hth, hplace'⟩ := call'.thread_eq ctx'
      rw [hth] at hk'
      cases hk'
      rcases hplace' with rfl | rfl
      · exact absurd rfl hplace.1
      · exact absurd rfl hplace.2.1
    · exact Or.inl ⟨reg, (Function.update_of_ne hki _ _).symm.trans hk⟩
  | write hi =>
    rename_i i op
    by_cases hki : k = i
    · have hk' : Function.update s.threads i (some op.thread) k = _ := hk
      rw [hki, Function.update_self] at hk'
      obtain ⟨w, hth, -⟩ := op.thread_eq
      rw [hth] at hk'
      cases hk'
    · exact Or.inl ⟨reg, (Function.update_of_ne hki _ _).symm.trans hk⟩
  | cancel => exact Or.inl ⟨reg, hk⟩
  | running => exact Or.inl ⟨reg, hk⟩
  | fire hi hctx hj =>
    rename_i i j ctx' call' place'
    have hk' : Function.update (Function.update s.threads i
      (some (.waiter call' ctx' place' false))) j (some (WriteCall.thread .wake)) k = _ := hk
    by_cases hkj : k = j
    · rw [hkj, Function.update_self] at hk'
      cases hk'
    · rw [Function.update_of_ne hkj] at hk'
      by_cases hki : k = i
      · subst hki
        rw [Function.update_self] at hk'
        cases hk'
        exact Or.inl ⟨true, hi⟩
      · rw [Function.update_of_ne hki] at hk'
        exact Or.inl ⟨reg, hk'⟩
  | waiter hi hstep =>
    rename_i i ctx' call' place₀ place' reg₀ reg' mu
    by_cases hki : k = i
    · subst hki
      have hk' : Function.update s.threads k (some (.waiter call' ctx' place' reg')) k = _ := hk
      rw [Function.update_self] at hk'
      cases hk'
      exact Or.inr ⟨place₀, reg₀, mu, hi, hstep⟩
    · exact Or.inl ⟨reg, (Function.update_of_ne hki _ _).symm.trans hk⟩
  | writer hi hstep =>
    obtain ⟨-, place', hbefore, ⟨rfl, -⟩ | ⟨-, rfl⟩⟩ := afterWrite_waiter hk
    · exact Or.inl ⟨reg, hbefore⟩
    · exact absurd rfl hplace.2.2

theorem waiterStep_readCtx {sh : Shared} {mu : Option ℕ}
    (h : waiterStep sh i .waitWhileHeld ctx reg place = some (mu, .readCtx, reg')) :
    place = .readStop ∧ sh.shouldStop = false := by
  cases place with
  | locking | woken =>
    obtain ⟨-, h⟩ := Option.ite_none_right_eq_some.mp h
    cases h
  | registering | waiting | sleeping | readCtx | leaving | returned | unlocking => cases h
  | readStop =>
    simp only [waiterStep, Option.some.injEq, Prod.mk.injEq] at h
    obtain ⟨-, h, -⟩ := h
    split_ifs at h with hstop
    exact ⟨rfl, Bool.eq_false_iff.mpr hstop⟩
  | testPaused | testHeld | checkPaused | checkHeld | checkStop | checkCtx =>
    simp only [waiterStep, Option.some.injEq, Prod.mk.injEq] at h
    obtain ⟨-, h, -⟩ := h
    split_ifs at h

theorem waiterStep_false {sh : Shared} {mu : Option ℕ}
    (h : waiterStep sh i .waitWhileHeld ctx reg place = some (mu, place', reg'))
    (hplace : place' = .leaving false ∨ place' = .returned false) :
    (place = .testHeld ∧ sh.held = false) ∨ (place = .readCtx ∧ sh.ended ctx = false) ∨
      place = .leaving false := by
  cases place with
  | locking | woken =>
    obtain ⟨-, h⟩ := Option.ite_none_right_eq_some.mp h
    cases h
    rcases hplace with h | h <;> cases h
  | sleeping | returned => cases h
  | registering | waiting | unlocking =>
    cases h
    rcases hplace with h | h <;> cases h
  | leaving abandoned =>
    cases h
    rcases hplace with h | h <;> cases h
    exact Or.inr (Or.inr rfl)
  | readCtx =>
    cases h
    rcases hplace with h | h
    · exact Or.inr (Or.inl ⟨rfl, WaitAt.leaving.inj h⟩)
    · cases h
  | testHeld =>
    cases h
    split_ifs at hplace with hheld
    · rcases hplace with h | h <;> cases h
    · exact Or.inl ⟨rfl, Bool.eq_false_iff.mpr hheld⟩
  | testPaused | checkPaused | checkHeld | checkStop | checkCtx | readStop =>
    cases h
    split_ifs at hplace <;> rcases hplace with h | h <;> cases h

end

theorem reaches_ended {s t : State} (h : Reaches step s t) {c : ℕ}
    (hc : s.shared.ended c = true) : t.shared.ended c = true := by
  induction h with
  | refl => exact hc
  | tail _ hstep ih =>
    obtain ⟨a, -, ha⟩ := hstep
    exact (step_cases ha).ended ih

/-- At its first test the runner is not held, or when it reads `shouldStop` for its result the
runner is not stopped and its context is alive. -/
def Decisive (t : State) (k ctx : ℕ) : Prop :=
  (∃ reg, t.threads k = some (.waiter .waitWhileHeld ctx .testHeld reg) ∧ t.shared.held = false) ∨
    ∃ reg, t.threads k = some (.waiter .waitWhileHeld ctx .readStop reg) ∧
      t.shared.shouldStop = false ∧ t.shared.ended ctx = false

/-- How a call of `waitWhileHeld` comes to return false. -/
structure Decided (first s : State) (k ctx : ℕ) (place : WaitAt) : Prop where
  reading : place = .readCtx → ∃ t, Reaches step first t ∧ Reaches step t s ∧
    (∃ reg, t.threads k = some (.waiter .waitWhileHeld ctx .readStop reg)) ∧
      t.shared.shouldStop = false
  notAbandoned : place = .leaving false ∨ place = .returned false →
    ∃ t, Reaches step first t ∧ Reaches step t s ∧ Decisive t k ctx

theorem decided_step {first s t : State} {a : Action} (hs : Reaches step first s)
    (hd : ∀ k ctx place reg, s.threads k = some (.waiter .waitWhileHeld ctx place reg) →
      Decided first s k ctx place)
    (h : step s a = some t) (k ctx : ℕ) (place : WaitAt) (reg : Bool)
    (hk : t.threads k = some (.waiter .waitWhileHeld ctx place reg)) :
    Decided first t k ctx place := by
  have hlast : Reaches step s t := Relation.ReflTransGen.single ⟨a, trivial, h⟩
  constructor
  · rintro rfl
    rcases (step_cases h).origin hk (by decide) with ⟨reg', hbefore⟩ |
      ⟨place', reg', mu, hbefore, hstep⟩
    · obtain ⟨t', h₁, h₂, hread⟩ := (hd k ctx .readCtx reg' hbefore).reading rfl
      exact ⟨t', h₁, h₂.trans hlast, hread⟩
    · obtain ⟨rfl, hstop⟩ := waiterStep_readCtx hstep
      exact ⟨s, hs, hlast, ⟨reg', hbefore⟩, hstop⟩
  · intro hplace
    have hpast : place ≠ .testPaused ∧ place ≠ .testHeld ∧ place ≠ .woken := by
      rcases hplace with rfl | rfl <;> decide
    rcases (step_cases h).origin hk hpast with ⟨reg', hbefore⟩ |
      ⟨place', reg', mu, hbefore, hstep⟩
    · obtain ⟨t', h₁, h₂, hdec⟩ := (hd k ctx place reg' hbefore).notAbandoned hplace
      exact ⟨t', h₁, h₂.trans hlast, hdec⟩
    · rcases waiterStep_false hstep hplace with ⟨rfl, hheld⟩ | ⟨rfl, halive⟩ | rfl
      · exact ⟨s, hs, hlast, Or.inl ⟨reg', hbefore, hheld⟩⟩
      · obtain ⟨t', h₁, h₂, ⟨reg'', hread⟩, hstop⟩ := (hd k ctx .readCtx reg' hbefore).reading rfl
        -- a context that is alive now was so then
        have halive' : t'.shared.ended ctx = false := by
          refine Bool.eq_false_iff.mpr fun hended => ?_
          rw [reaches_ended h₂ hended] at halive
          cases halive
        exact ⟨t', h₁, h₂.trans hlast, Or.inr ⟨reg'', hread, hstop, halive'⟩⟩
      · obtain ⟨t', h₁, h₂, hdec⟩ := (hd k ctx _ reg' hbefore).notAbandoned (Or.inl rfl)
        exact ⟨t', h₁, h₂.trans hlast, hdec⟩

theorem inv_start (isRunning isPaused shouldStop held : Bool) (cancel : Option (ℕ → Bool))
    (ended : ℕ → Bool) : Inv (start isRunning isPaused shouldStop held cancel ended) where
  locked := fun _ _ hk => by cases hk
  fits := fun _ _ _ _ _ hk => by cases hk

/-- A sleeper that nothing is to wake any more sleeps rightly; and a call of `waitWhileHeld` returns
false on account of what held when it looked. -/
theorem waits_are_woken {isRunning isPaused shouldStop held : Bool} {cancel : Option (ℕ → Bool)}
    {ended : ℕ → Bool} {s : State}
    (h : Reaches step (start isRunning isPaused shouldStop held cancel ended) s) :
    (∀ k call ctx reg, s.threads k = some (.waiter call ctx .sleeping reg) → ¬ToCome s k →
      call.Waits s.shared ∧ s.shared.shouldStop = false ∧ s.shared.ended ctx = false) ∧
    ∀ k ctx reg, s.threads k = some (.waiter .waitWhileHeld ctx (.returned false) reg) →
      ∃ t, Reaches step (start isRunning isPaused shouldStop held cancel ended) t ∧
        Reaches step t s ∧ Decisive t k ctx := by
  constructor
  · intro k call ctx reg hk hnone
    have hinv : Inv s := ReachesUnder.invariant (inv_start ..)
      (fun t a u ht _ hu => ht.step hu) h
    exact ((hinv.fits k call ctx .sleeping reg hk).asleep rfl).resolve_right hnone
  · intro k ctx reg hk
    have hboth := ReachesUnder.invariant (I := fun s =>
      Reaches step (start isRunning isPaused shouldStop held cancel ended) s ∧
        ∀ k ctx place reg, s.threads k = some (.waiter .waitWhileHeld ctx place reg) →
          Decided (start isRunning isPaused shouldStop held cancel ended) s k ctx place)
      ⟨Relation.ReflTransGen.refl, fun _ _ _ _ hk => by cases hk⟩
      (fun t a u ht _ hu => ⟨ht.1.tail trivial hu, decided_step ht.1 ht.2 hu⟩) h
    exact (hboth.2 k ctx _ reg hk).notAbandoned (Or.inr rfl)

/-- A held runner. -/
abbrev heldRunner : State := start true false false true none fun _ => false

/-- A request waits, and the runner is released. -/
def released : List Action :=
  [.wait 0 .waitWhileHeld 0, .turn 0, .turn 0, .turn 0, .turn 0, .turn 0, .turn 0, .turn 0,
    .write 1 .release, .turn 1, .turn 1, .turn 1, .turn 1, .turn 1, .turn 0, .turn 0, .turn 0,
    .turn 0]

theorem waits_are_woken_released : ∃ s,
    s.threads 0 = some (.waiter .waitWhileHeld 0 (.returned false) false) ∧
      ∃ t, Reaches step heldRunner t ∧ Reaches step t s ∧ Decisive t 0 0 := by
  obtain ⟨s, hs, hp⟩ := reachesUnder_of_test step (fun _ _ => True) heldRunner
    (released ++ [.turn 0, .turn 0])
    (fun s => s.threads 0 = some (.waiter .waitWhileHeld 0 (.returned false) false)) (by decide)
  have hreturned := of_decide_eq_true hp
  exact ⟨s, hreturned, (waits_are_woken hs).2 0 0 false hreturned⟩

/-- It has read that the runner is not stopped, which then is held again and stopped. -/
def stoppedMeanwhile : List Action :=
  released ++ [.write 2 .hold, .turn 2, .turn 2, .turn 2, .turn 2, .write 3 .stop, .turn 3, .turn 3,
    .turn 3, .turn 3, .turn 3, .turn 3, .turn 3, .turn 3, .turn 0]

theorem returns_false_once_stopped : ¬∀ (s t : State) (a : Action) (k ctx : ℕ) (reg : Bool),
    Reaches step heldRunner s → step s a = some t → s.threads k ≠ t.threads k →
    t.threads k = some (.waiter .waitWhileHeld ctx (.returned false) reg) →
    t.shared.held = false ∨ t.shared.shouldStop = false ∧ t.shared.ended ctx = false := by
  intro h
  obtain ⟨s, hs, hp⟩ := reachesUnder_of_test step (fun _ _ => True) heldRunner stoppedMeanwhile
    (fun s => (step s (.turn 0)).any fun t => s.threads 0 ≠ t.threads 0 &&
      (t.threads 0 = some (.waiter .waitWhileHeld 0 (.returned false) false) &&
        t.shared.held && t.shared.shouldStop)) (by decide)
  obtain ⟨t, hstep, hlast⟩ := (Option.any_eq_true ..).mp hp
  simp only [Bool.and_eq_true, decide_eq_true_eq] at hlast
  obtain ⟨hmoved, ⟨hreturned, hheld⟩, hstop⟩ := hlast
  rcases h s t (.turn 0) 0 0 false hs hstep hmoved hreturned with hfree | ⟨halive, -⟩
  · rw [hheld] at hfree
    cases hfree
  · rw [hstop] at halive
    cases halive

end Swazz.Pausing
