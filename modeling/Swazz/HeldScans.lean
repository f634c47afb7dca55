import Mathlib.Logic.Function.Basic
import Swazz.StepSystem

/-! The agent's outbox and the scans that its dispatcher holds while the outbox is backed up. What
is done under one lock is one step; a load of `held` outside it is a step of its own. -/
namespace Swazz.HeldScans

open StepSystem

variable {Id Msg : Type*}

/-- The marks of an outbox: 8000, 4000 and 100000 in `newOutbox`, smaller in tests. -/
structure Marks where
  high : ℕ
  low : ℕ
  hardLimit : ℕ

structure Outbox (Msg : Type*) where
  items : List Msg
  replies : List Msg
  /-- Messages the pump has taken but not yet handed on. -/
  inFlight : ℕ

/-- The new outbox, and whether it has reached its high mark. -/
def Outbox.push (m : Marks) (o : Outbox Msg) (msg : Msg) : Outbox Msg × Bool :=
  ({ o with items := o.items ++ [msg] },
    decide (m.high ≤ (o.items ++ [msg]).length + o.inFlight))

def Outbox.pushReply (o : Outbox Msg) (msg : Msg) : Outbox Msg :=
  { o with replies := o.replies ++ [msg] }

/-- The message at the front; replies go first. It waits when there is none. -/
def Outbox.take (o : Outbox Msg) : Option (Msg × Outbox Msg) :=
  match o.replies, o.items with
  | msg :: rest, _ => some (msg, { o with replies := rest, inFlight := o.inFlight + 1 })
  | [], msg :: rest => some (msg, { o with items := rest, inFlight := o.inFlight + 1 })
  | [], [] => none

/-- The new outbox, and whether it is down to its low mark. -/
def Outbox.handed (m : Marks) (o : Outbox Msg) : Outbox Msg × Bool :=
  ({ o with inFlight := o.inFlight - 1 }, decide (o.items.length ≤ m.low))

/-- Where a goroutine stands in `releaseScans`. -/
inductive ReleaseAt where
  | testHeld
  | locking
  deriving DecidableEq

/-- Where a goroutine that queues events stands. -/
inductive SenderAt (Msg : Type*) where
  | outside
  | waitRoom (msg : Msg)
  /-- About to lock `sendMu`. -/
  | pushing (msg : Msg)
  /-- In `holdScans`. -/
  | testHeld
  | locking
  /-- Its last test, of the outbox it finds once scans are held. -/
  | recheck
  | releasing (place : ReleaseAt)
  deriving DecidableEq

inductive PumpAt (Msg : Type*) where
  | taking
  | handing (msg : Msg)
  | handed
  /-- In `onDrained`. -/
  | draining (place : ReleaseAt)
  deriving DecidableEq

structure State (Id Msg : Type*) where
  held : Bool
  /-- Whether each runner is held. -/
  activeRunners : Id → Option Bool
  outbox : Outbox Msg
  /-- What the connection's write loop has been handed. -/
  out : List Msg
  pump : PumpAt Msg
  senders : ℕ → SenderAt Msg

/-- `NewAgentDispatcher` -/
def start : State Id Msg := ⟨false, fun _ => none, ⟨[], [], 0⟩, [], .taking, fun _ => .outside⟩

/-- `Hold` and `Release` of every runner. -/
def holdAll (runners : Id → Option Bool) (held : Bool) (id : Id) : Option Bool :=
  (runners id).map fun _ => held

/-- What `holdScans` does under `activeRunnersMu`. -/
def State.hold (s : State Id Msg) : State Id Msg :=
  if s.held then s else { s with held := true, activeRunners := holdAll s.activeRunners true }

/-- What `releaseScans` does under `activeRunnersMu`. -/
def State.release (s : State Id Msg) : State Id Msg :=
  if s.held then { s with held := false, activeRunners := holdAll s.activeRunners false } else s

/-- A step of `releaseScans`, and where it goes on if it does. -/
def releaseScans (s : State Id Msg) : ReleaseAt → State Id Msg × Option ReleaseAt
  | .testHeld => (s, if s.held then some .locking else none)
  | .locking => (s.release, none)

/-- A step of `queueEvent`; `ok` is what `stamp` says of the event. -/
def senderStep (m : Marks) (s : State Id Msg) (ok : Bool) :
    SenderAt Msg → Option (State Id Msg × SenderAt Msg)
  | .outside => none
  | .waitRoom msg => if s.outbox.items.length < m.hardLimit then some (s, .pushing msg) else none
  | .pushing msg =>
    if ok then
      some ({ s with outbox := (s.outbox.push m msg).1 },
        if (s.outbox.push m msg).2 then .testHeld else .outside)
    else some (s, .outside)
  | .testHeld => some (s, if s.held then .outside else .locking)
  | .locking => some (s.hold, .recheck)
  | .recheck =>
    some (s, if s.outbox.items.length ≤ m.low then .releasing .testHeld else .outside)
  | .releasing place =>
    some ((releaseScans s place).1, ((releaseScans s place).2.map .releasing).getD .outside)

/-- A step of `pump`. -/
def pumpStep (m : Marks) (s : State Id Msg) :
    PumpAt Msg → Option (State Id Msg × PumpAt Msg)
  | .taking => s.outbox.take.map fun (msg, o) => ({ s with outbox := o }, .handing msg)
  | .handing msg => some ({ s with out := s.out ++ [msg] }, .handed)
  | .handed =>
    some ({ s with outbox := (s.outbox.handed m).1 },
      if (s.outbox.handed m).2 then .draining .testHeld else .taking)
  | .draining place =>
    some ((releaseScans s place).1, ((releaseScans s place).2.map .draining).getD .taking)

inductive Action (Id Msg : Type*) where
  | queueEvent (i : ℕ) (msg : Msg)
  /-- A goroutine inside `queueEvent` goes on. -/
  | sender (i : ℕ) (ok : Bool)
  | pump
  | queueReply (msg : Msg)
  /-- `handleJobDispatch` registers a runner. -/
  | register (id : Id)
  /-- A run is over and its runner goes. -/
  | remove (id : Id)

def step [DecidableEq Id] (m : Marks) (s : State Id Msg) : Action Id Msg → Option (State Id Msg)
  | .queueEvent i msg =>
    match s.senders i with
    | .outside => some { s with senders := Function.update s.senders i (.waitRoom msg) }
    | _ => none
  | .sender i ok =>
    (senderStep m s ok (s.senders i)).map fun (t, place) =>
      { t with senders := Function.update s.senders i place }
  | .pump => (pumpStep m s s.pump).map fun (t, place) => { t with pump := place }
  | .queueReply msg => some { s with outbox := s.outbox.pushReply msg }
  | .register id =>
    some { s with activeRunners := Function.update s.activeRunners id (some s.held) }
  | .remove id => some { s with activeRunners := Function.update s.activeRunners id none }

/-! ### Invariants -/

/-- Every runner is held exactly while the dispatcher holds. -/
def Agree (held : Bool) (runners : Id → Option Bool) : Prop :=
  ∀ id b, runners id = some b → b = held

/-- The pump will still look whether the outbox is down to its low mark. -/
def PumpAt.looks : PumpAt Msg → Bool
  | .taking => false
  | _ => true

/-- As `PumpAt.looks`, for a goroutine in `holdScans` once it has set `held`. -/
def SenderAt.looks : SenderAt Msg → Bool
  | .recheck | .releasing _ => true
  | _ => false

/-- Somebody is about to release the scans if the outbox has drained. -/
def Looked (s : State Id Msg) : Prop :=
  s.pump.looks = true ∨ ∃ i, (s.senders i).looks = true

structure Inv (m : Marks) (s : State Id Msg) : Prop where
  agree : Agree s.held s.activeRunners
  drained : s.held = true → s.outbox.items.length ≤ m.low → Looked s

theorem agree_holdAll (runners : Id → Option Bool) (held : Bool) :
    Agree held (holdAll runners held) := by
  intro id b hb
  obtain ⟨-, -, rfl⟩ := Option.map_eq_some_iff.mp hb
  rfl

theorem Agree.update [DecidableEq Id] {held : Bool} {runners : Id → Option Bool} (h : Agree held runners)
    {r : Option Bool} (hr : ∀ b, r = some b → b = held) (id : Id) :
    Agree held (Function.update runners id r) := by
  intro other b hb
  by_cases heq : other = id
  · rw [heq, Function.update_self] at hb
    exact hr b hb
  · rw [Function.update_of_ne heq] at hb
    exact h other b hb

theorem agree_hold {s : State Id Msg} (h : Agree s.held s.activeRunners) :
    Agree s.hold.held s.hold.activeRunners := by
  unfold State.hold
  split_ifs
  · exact h
  · exact agree_holdAll s.activeRunners true

theorem agree_release {s : State Id Msg} (h : Agree s.held s.activeRunners) :
    Agree s.release.held s.release.activeRunners := by
  unfold State.release
  split_ifs
  · exact agree_holdAll s.activeRunners false
  · exact h

theorem held_release (s : State Id Msg) : s.release.held = false := by
  unfold State.release
  split_ifs with hheld
  · rfl
  · exact Bool.eq_false_iff.mpr hheld

/-- `releaseScans` returns only with the scans released. -/
theorem releaseScans_returns (s : State Id Msg) (place : ReleaseAt)
    (h : (releaseScans s place).2 = none) : (releaseScans s place).1.held = false := by
  cases place with
  | testHeld =>
    by_cases hheld : s.held = true
    · rw [releaseScans, if_pos hheld] at h
      cases h
    · exact Bool.eq_false_iff.mpr hheld
  | locking => exact held_release s

theorem agree_releaseScans {s : State Id Msg} (h : Agree s.held s.activeRunners)
    (place : ReleaseAt) :
    Agree (releaseScans s place).1.held (releaseScans s place).1.activeRunners := by
  cases place with
  | testHeld => exact h
  | locking => exact agree_release h

section

variable {m : Marks} {s t : State Id Msg} {i : ℕ} {place : SenderAt Msg}

/-- A goroutine that looked still does. -/
theorem Looked.sender (h : Looked s) (hpump : t.pump = s.pump)
    (hsenders : t.senders = Function.update s.senders i place)
    (hi : (s.senders i).looks = true → place.looks = true) : Looked t := by
  rcases h with h | ⟨j, hj⟩
  · exact Or.inl (hpump ▸ h)
  · refine Or.inr ⟨j, ?_⟩
    rw [hsenders]
    by_cases heq : j = i
    · rw [heq, Function.update_self]
      exact hi (heq ▸ hj)
    · rw [Function.update_of_ne heq]
      exact hj

theorem looked_of_sender (hsenders : t.senders = Function.update s.senders i place)
    (hplace : place.looks = true) : Looked t :=
  Or.inr ⟨i, by rw [hsenders, Function.update_self]; exact hplace⟩

/-- A step that holds or releases nothing, and takes nothing off the queue unseen. -/
theorem Inv.keeps (h : Inv m s) (hheld : t.held = s.held)
    (hrunners : t.activeRunners = s.activeRunners)
    (hlooked : t.outbox.items.length ≤ m.low →
      (s.outbox.items.length ≤ m.low → Looked s) → Looked t) : Inv m t := by
  refine ⟨?_, fun hnow hlow => hlooked hlow (h.drained (hheld ▸ hnow))⟩
  rw [hheld, hrunners]
  exact h.agree

/-- A step of a sender that was not looking, and may leave messages. -/
theorem Inv.queues (h : Inv m s) (hheld : t.held = s.held)
    (hrunners : t.activeRunners = s.activeRunners)
    (hitems : s.outbox.items.length ≤ t.outbox.items.length) (hpump : t.pump = s.pump)
    (hsenders : t.senders = Function.update s.senders i place)
    (hi : (s.senders i).looks = false) : Inv m t := by
  refine h.keeps hheld hrunners fun hlow hlooked => ?_
  refine (hlooked (Nat.le_trans hitems hlow)).sender hpump hsenders fun hlooks => ?_
  rw [hi] at hlooks
  cases hlooks

theorem Inv.sender {ok : Bool} (h : Inv m s)
    (hstep : senderStep m s ok (s.senders i) = some (t, place)) :
    Inv m { t with senders := Function.update s.senders i place } := by
  cases hi : s.senders i with
  | outside =>
    rw [hi] at hstep
    cases hstep
  | waitRoom msg =>
    rw [hi] at hstep
    obtain ⟨-, hstep⟩ := Option.ite_none_right_eq_some.mp hstep
    cases hstep
    exact h.queues rfl rfl (Nat.le_refl _) rfl rfl (by rw [hi]; rfl)
  | pushing msg =>
    have hmore : s.outbox.items.length ≤ (s.outbox.push m msg).1.items.length := by
      simp [Outbox.push]
    rw [hi] at hstep
    cases ok with
    | true =>
      cases hstep
      exact h.queues rfl rfl hmore rfl rfl (by rw [hi]; rfl)
    | false =>
      cases hstep
      exact h.queues rfl rfl (Nat.le_refl _) rfl rfl (by rw [hi]; rfl)
  | testHeld =>
    rw [hi] at hstep
    cases hstep
    exact h.queues rfl rfl (Nat.le_refl _) rfl rfl (by rw [hi]; rfl)
  | locking =>
    rw [hi] at hstep
    cases hstep
    exact ⟨agree_hold h.agree, fun _ _ => looked_of_sender rfl rfl⟩
  | recheck =>
    rw [hi] at hstep
    cases hstep
    refine h.keeps rfl rfl fun hlow _ => looked_of_sender rfl ?_
    rw [if_pos (show s.outbox.items.length ≤ m.low from hlow)]
    rfl
  | releasing at' =>
    rw [hi] at hstep
    cases hstep
    refine ⟨agree_releaseScans h.agree at', fun hheld _ => looked_of_sender rfl ?_⟩
    cases hnext : (releaseScans s at').2 with
    | none =>
      have hnot := releaseScans_returns s at' hnext
      exact absurd (hheld.symm.trans hnot) (by decide)
    | some next => rfl

theorem Inv.pump {place : PumpAt Msg} (h : Inv m s)
    (hstep : pumpStep m s s.pump = some (t, place)) : Inv m { t with pump := place } := by
  cases hat : s.pump with
  | taking =>
    rw [hat] at hstep
    obtain ⟨⟨msg, o⟩, -, hstep⟩ := Option.map_eq_some_iff.mp hstep
    cases hstep
    exact h.keeps rfl rfl fun _ _ => Or.inl rfl
  | handing msg =>
    rw [hat] at hstep
    cases hstep
    exact h.keeps rfl rfl fun _ _ => Or.inl rfl
  | handed =>
    rw [hat] at hstep
    cases hstep
    refine h.keeps rfl rfl fun hlow _ => Or.inl ?_
    have hdrained : (s.outbox.handed m).2 = true := decide_eq_true hlow
    rw [if_pos hdrained]
    rfl
  | draining at' =>
    rw [hat] at hstep
    cases hstep
    refine ⟨agree_releaseScans h.agree at', fun hheld _ => Or.inl ?_⟩
    cases hnext : (releaseScans s at').2 with
    | none =>
      have hnot := releaseScans_returns s at' hnext
      exact absurd (hheld.symm.trans hnot) (by decide)
    | some next => rfl

end

theorem inv_step [DecidableEq Id] {m : Marks} {s t : State Id Msg} {a : Action Id Msg}
    (h : Inv m s) (hstep : step m s a = some t) : Inv m t := by
  cases a with
  | queueEvent i msg =>
    cases hi : s.senders i with
    | outside =>
      rw [step, hi] at hstep
      cases hstep
      exact h.queues rfl rfl (Nat.le_refl _) rfl rfl (by rw [hi]; rfl)
    | _ =>
      rw [step, hi] at hstep
      cases hstep
  | sender i ok =>
    obtain ⟨⟨u, place⟩, hu, rfl⟩ := Option.map_eq_some_iff.mp hstep
    exact h.sender hu
  | pump =>
    obtain ⟨⟨u, place⟩, hu, rfl⟩ := Option.map_eq_some_iff.mp hstep
    exact h.pump hu
  | queueReply msg =>
    cases hstep
    exact h.keeps rfl rfl fun hlow hlooked => hlooked hlow
  | register id =>
    cases hstep
    exact ⟨h.agree.update (fun b hb => (Option.some.inj hb).symm) id, h.drained⟩
  | remove id =>
    cases hstep
    refine ⟨h.agree.update (fun b hb => ?_) id, h.drained⟩
    cases hb

theorem inv_start (m : Marks) : Inv m (start : State Id Msg) :=
  ⟨fun _ _ hb => (Option.some_ne_none _ hb.symm).elim, fun hheld _ => (Bool.false_ne_true hheld).elim⟩

theorem inv_of_reaches [DecidableEq Id] {m : Marks} {s : State Id Msg}
    (h : Reaches (step m) start s) : Inv m s :=
  ReachesUnder.invariant (inv_start m) (fun _ _ _ ht _ hstep => inv_step ht hstep) h

/-! ### The pump alone -/

/-- Runs in which only the pump moves. -/
abbrev Pumps [DecidableEq Id] (m : Marks) : State Id Msg → State Id Msg → Prop :=
  ReachesUnder (step m) fun _ a => a = .pump

section

variable [DecidableEq Id] {m : Marks} {s : State Id Msg}

/-- A message is taken, handed on, and reported handed. -/
theorem pumps_hand_off {msg : Msg} {o : Outbox Msg} (hpump : s.pump = .taking)
    (ho : s.outbox.take = some (msg, o)) :
    Pumps m s { s with
      outbox := (o.handed m).1
      out := s.out ++ [msg]
      pump := if (o.handed m).2 then .draining .testHeld else .taking } := by
  have htake : step m s .pump = some { s with outbox := o, pump := .handing msg } := by
    rw [step, hpump, pumpStep, ho]
    rfl
  have hrun : Pumps m s { s with outbox := o, pump := .handing msg } :=
    ReachesUnder.tail Relation.ReflTransGen.refl rfl htake
  have hhand : step m { s with outbox := o, pump := .handing msg } .pump =
      some { s with outbox := o, out := s.out ++ [msg], pump := .handed } := rfl
  exact (hrun.tail rfl hhand).tail rfl rfl

theorem pumps_release (hpump : s.pump = .draining .testHeld) (hheld : s.held = true) :
    Pumps m s { s.release with pump := .taking } := by
  have htest : step m s .pump = some { s with pump := .draining .locking } := by
    rw [step, hpump, pumpStep, releaseScans, if_pos hheld]
    rfl
  have hrun : Pumps m s { s with pump := .draining .locking } :=
    ReachesUnder.tail Relation.ReflTransGen.refl rfl htest
  refine hrun.tail rfl ?_
  simp [step, pumpStep, releaseScans, State.release, hheld]

/-- What a take leaves of the queue. -/
theorem take_of_items {o : Outbox Msg} (h : o.items ≠ []) :
    ∃ msg o', o.take = some (msg, o') ∧
      o'.replies.length + o'.items.length + 1 = o.replies.length + o.items.length ∧
      o.items.length ≤ o'.items.length + 1 := by
  obtain ⟨items, replies, inFlight⟩ := o
  cases replies with
  | cons msg rest =>
    refine ⟨msg, _, rfl, ?_, Nat.le_succ _⟩
    simp only [List.length_cons]
    omega
  | nil =>
    cases items with
    | nil => exact absurd rfl h
    | cons msg rest => exact ⟨msg, _, rfl, by simp, Nat.le_refl _⟩

/-- With more than `low` messages queued the pump releases the scans, once it has handed on
enough. -/
theorem pumps_until_released (n : ℕ) (hpump : s.pump = .taking) (hheld : s.held = true)
    (hlow : m.low < s.outbox.items.length)
    (hn : s.outbox.replies.length + s.outbox.items.length = n) :
    ∃ t, Pumps m s t ∧ t.held = false := by
  induction n generalizing s with
  | zero => omega
  | succ n ih =>
    have hne : s.outbox.items ≠ [] := List.ne_nil_of_length_pos (by omega)
    obtain ⟨msg, o, ho, hless, hone⟩ := take_of_items hne
    have hrun := pumps_hand_off (m := m) hpump ho
    by_cases hdrained : o.items.length ≤ m.low
    · have hdown : (o.handed m).2 = true := decide_eq_true hdrained
      rw [hdown] at hrun
      exact ⟨_, hrun.trans (pumps_release rfl hheld), held_release _⟩
    · have hnot : (o.handed m).2 = false := decide_eq_false hdrained
      rw [hnot] at hrun
      obtain ⟨t, ht, hreleased⟩ := @ih { s with
        outbox := (o.handed m).1
        out := s.out ++ [msg]
        pump := .taking } rfl hheld (Nat.lt_of_not_le hdrained) (Nat.succ.inj (hless.trans hn))
      exact ⟨t, hrun.trans ht, hreleased⟩

end

/-! ### Result -/

/-- Nobody is inside `queueEvent`, `holdScans` or `releaseScans`, or between `take` and the end of
a hand-off. -/
def Quiet (s : State Id Msg) : Prop := s.pump = .taking ∧ ∀ i, s.senders i = .outside

theorem Quiet.not_looked {s : State Id Msg} (h : Quiet s) : ¬Looked s := by
  rintro (hpump | ⟨i, hi⟩)
  · rw [h.1] at hpump
    cases hpump
  · rw [h.2 i] at hi
    cases hi

/-- Every runner is held exactly while the dispatcher holds, and with nobody about to look it holds
only while more than `low` messages are queued, which the pump's hand-offs release. -/
theorem held_while_backed_up [DecidableEq Id] (m : Marks) {s : State Id Msg}
    (h : Reaches (step m) start s) :
    (∀ id b, s.activeRunners id = some b → (b = true ↔ s.held = true)) ∧
      (Quiet s → s.held = true →
        m.low < s.outbox.items.length ∧ ∃ t, Pumps m s t ∧ t.held = false) ∧
      (Quiet s → s.outbox.items.length ≤ m.low →
        ∀ id b, s.activeRunners id = some b → b = false) := by
  have hinv := inv_of_reaches h
  have hlow : Quiet s → s.held = true → m.low < s.outbox.items.length := by
    intro hquiet hheld
    by_contra hle
    exact hquiet.not_looked (hinv.drained hheld (Nat.le_of_not_lt hle))
  refine ⟨fun id b hb => by rw [hinv.agree id b hb], fun hquiet hheld => ?_,
    fun hquiet hle id b hb => ?_⟩
  · exact ⟨hlow hquiet hheld, pumps_until_released _ hquiet.1 hheld (hlow hquiet hheld) rfl⟩
  · rw [hinv.agree id b hb]
    refine Bool.eq_false_iff.mpr fun hheld => ?_
    exact absurd (hlow hquiet hheld) (Nat.not_lt_of_le hle)

theorem held_while_backed_up_full : ∃ s : State Unit ℕ, Quiet s ∧
    s.activeRunners () = some true ∧ 1 < s.outbox.items.length ∧
      ∃ t, Pumps ⟨2, 1, 10⟩ s t ∧ t.held = false := by
  have hrun : ∃ s : State Unit ℕ, Reaches (step ⟨2, 1, 10⟩) start s ∧ Quiet s ∧
      s.activeRunners () = some true ∧ s.held = true := by
    have hsteps : runUnder (step ⟨2, 1, 10⟩) (fun _ _ => True) start
        [.queueEvent 0 7, .sender 0 true, .sender 0 true, .queueEvent 0 8, .sender 0 true,
          .sender 0 true, .sender 0 true, .register (), .sender 0 true, .sender 0 true] = some _ :=
      rfl
    refine ⟨_, reachesUnder_of_run hsteps, ⟨rfl, fun i => ?_⟩, rfl, rfl⟩
    cases i <;> rfl
  obtain ⟨s, hs, hquiet, hrunner, hheld⟩ := hrun
  obtain ⟨hlow, hreleased⟩ := (held_while_backed_up ⟨2, 1, 10⟩ hs).2.1 hquiet hheld
  exact ⟨s, hquiet, hrunner, hlow, hreleased⟩

end Swazz.HeldScans
