import Swazz.HeldScans

/-! What the agent's outbox hands to the connection: the events in the order in which they were
queued, the replies in theirs, nothing lost and nothing twice. -/
namespace Swazz.HeldScans

open StepSystem

variable {Id Msg : Type*} {m : Marks} {s t : State Id Msg}

/-- A state, with the events and the replies that were queued so far. -/
structure Logged (Id Msg : Type*) where
  state : State Id Msg
  events : List Msg
  replies : List Msg

/-- The event that a goroutine queues if `stamp` accepts it. -/
def SenderAt.queues : SenderAt Msg → Bool → List Msg
  | .pushing msg, true => [msg]
  | _, _ => []

def queuedBy (s : State Id Msg) : Action Id Msg → List Msg × List Msg
  | .sender i ok => ((s.senders i).queues ok, [])
  | .queueReply msg => ([], [msg])
  | _ => ([], [])

def loggedStep [DecidableEq Id] (m : Marks) (l : Logged Id Msg) (a : Action Id Msg) : Option (Logged Id Msg) :=
  (step m l.state a).map fun t =>
    ⟨t, l.events ++ (queuedBy l.state a).1, l.replies ++ (queuedBy l.state a).2⟩

/-- The message that the pump is about to hand on. -/
def PumpAt.inHand : PumpAt Msg → List Msg
  | .handing msg => [msg]
  | _ => []

/-- The messages that `pending` counts as in flight. -/
def PumpAt.flying : PumpAt Msg → ℕ
  | .handing _ | .handed => 1
  | _ => 0

/-- What left the queue, each message as an event or as a reply, and what is still in it. -/
def InOrder (l : Logged Id Msg) : Prop :=
  ∃ taken : List (Msg ⊕ Msg),
    l.state.out ++ l.state.pump.inHand = taken.map (Sum.elim id id) ∧
    taken.filterMap Sum.getLeft? ++ l.state.outbox.items = l.events ∧
    taken.filterMap Sum.getRight? ++ l.state.outbox.replies = l.replies ∧
    l.state.outbox.inFlight = l.state.pump.flying

theorem releaseScans_outbox (s : State Id Msg) (place : ReleaseAt) :
    (releaseScans s place).1.outbox = s.outbox ∧ (releaseScans s place).1.out = s.out ∧
      (releaseScans s place).1.pump = s.pump := by
  cases place with
  | testHeld => exact ⟨rfl, rfl, rfl⟩
  | locking =>
    rw [releaseScans, State.release]
    split_ifs
    · exact ⟨rfl, rfl, rfl⟩
    · exact ⟨rfl, rfl, rfl⟩

/-- A goroutine in `queueEvent` adds its event to the queue and touches nothing else of it. -/
theorem senderStep_outbox {ok : Bool} {place place' : SenderAt Msg}
    (h : senderStep m s ok place = some (t, place')) :
    t.outbox = { s.outbox with items := s.outbox.items ++ place.queues ok } ∧ t.out = s.out ∧
      t.pump = s.pump := by
  cases place with
  | outside => cases h
  | waitRoom msg =>
    obtain ⟨-, h⟩ := Option.ite_none_right_eq_some.mp h
    cases h
    simp [SenderAt.queues]
  | pushing msg =>
    cases ok with
    | true =>
      cases h
      exact ⟨rfl, rfl, rfl⟩
    | false =>
      cases h
      simp [SenderAt.queues]
  | locking =>
    cases h
    unfold State.hold
    split_ifs <;> simp [SenderAt.queues]
  | releasing place =>
    cases h
    obtain ⟨houtbox, hout, hpump⟩ := releaseScans_outbox s place
    simp [SenderAt.queues, houtbox, hout, hpump]
  | _ =>
    cases h
    simp [SenderAt.queues]

theorem InOrder.pump {events replies : List Msg} {place : PumpAt Msg}
    (h : InOrder ⟨s, events, replies⟩) (hstep : pumpStep m s s.pump = some (t, place)) :
    InOrder ⟨{ t with pump := place }, events, replies⟩ := by
  obtain ⟨taken, hout, hevents, hreplies, hflying⟩ := h
  dsimp only at hout hevents hreplies hflying
  cases hat : s.pump with
  | taking =>
    rw [hat] at hstep hout hflying
    obtain ⟨⟨msg, o⟩, ho, hstep⟩ := Option.map_eq_some_iff.mp hstep
    cases hstep
    have hdone : s.out = taken.map (Sum.elim id id) := by rw [← hout]; exact (List.append_nil _).symm
    -- Replies are taken ahead of events.
    unfold Outbox.take at ho
    split at ho
    · rename_i rest hnext
      cases ho
      refine ⟨taken ++ [.inr msg], ?_, ?_, ?_, ?_⟩
      · simp [PumpAt.inHand, hdone]
      · simpa [List.filterMap_cons] using hevents
      · simpa [hnext] using hreplies
      · simp [PumpAt.flying, hflying]
    · rename_i rest hnone hnext
      cases ho
      refine ⟨taken ++ [.inl msg], ?_, ?_, ?_, ?_⟩
      · simp [PumpAt.inHand, hdone]
      · simpa [hnext] using hevents
      · simpa [List.filterMap_cons] using hreplies
      · simp [PumpAt.flying, hflying]
    · cases ho
  | handing msg =>
    rw [hat] at hstep hout hflying
    cases hstep
    exact ⟨taken, by simpa [PumpAt.inHand] using hout, hevents, hreplies, hflying⟩
  | handed =>
    rw [hat] at hstep hout hflying
    cases hstep
    refine ⟨taken, ?_, hevents, hreplies, ?_⟩
    · split_ifs <;> exact hout
    · rw [Outbox.handed, hflying]
      split_ifs <;> rfl
  | draining place =>
    rw [hat] at hstep hout hflying
    cases hstep
    obtain ⟨houtbox, hout', -⟩ := releaseScans_outbox s place
    refine ⟨taken, ?_, ?_, ?_, ?_⟩
    · cases hnext : (releaseScans s place).2 <;> simpa [PumpAt.inHand, hout'] using hout
    · simpa [houtbox] using hevents
    · simpa [houtbox] using hreplies
    · cases hnext : (releaseScans s place).2 <;> simpa [PumpAt.flying, houtbox] using hflying

theorem InOrder.same {events replies : List Msg} (h : InOrder ⟨s, events, replies⟩)
    (hout : t.out = s.out) (hpump : t.pump = s.pump) (houtbox : t.outbox = s.outbox) :
    InOrder ⟨t, events ++ [], replies ++ []⟩ := by
  rw [List.append_nil, List.append_nil, InOrder, hout, hpump, houtbox]
  exact h

theorem inOrder_step [DecidableEq Id] {l l' : Logged Id Msg} {a : Action Id Msg}
    (h : InOrder l) (hstep : loggedStep m l a = some l') : InOrder l' := by
  obtain ⟨s, events, replies⟩ := l
  obtain ⟨t, ht, rfl⟩ := Option.map_eq_some_iff.mp hstep
  cases a with
  | queueEvent i msg =>
    rw [step] at ht
    split at ht
    · cases ht
      exact h.same rfl rfl rfl
    · cases ht
  | sender i ok =>
    obtain ⟨⟨u, place⟩, hu, rfl⟩ := Option.map_eq_some_iff.mp ht
    obtain ⟨houtbox, hsame, hpump⟩ := senderStep_outbox hu
    obtain ⟨taken, hout, hevents, hreplies, hflying⟩ := h
    refine ⟨taken, ?_, ?_, ?_, ?_⟩
    · rw [hsame, hpump]
      exact hout
    · rw [houtbox, ← hevents]
      exact (List.append_assoc _ _ _).symm
    · rw [houtbox, ← hreplies]
      exact (List.append_nil _).symm
    · rw [houtbox, hpump]
      exact hflying
  | pump =>
    obtain ⟨⟨u, place⟩, hu, rfl⟩ := Option.map_eq_some_iff.mp ht
    simpa [queuedBy] using h.pump hu
  | queueReply msg =>
    cases ht
    obtain ⟨taken, hout, hevents, hreplies, hflying⟩ := h
    refine ⟨taken, hout, ?_, ?_, hflying⟩
    · rw [← hevents]
      exact (List.append_nil _).symm
    · rw [← hreplies]
      exact (List.append_assoc _ _ _).symm
  | _ =>
    cases ht
    exact h.same rfl rfl rfl

/-- In whatever order goroutines, pump and replies move: what the connection was handed and what
is still queued are the queued events and the queued replies, each in order and each once, and
`pending` counts what was not handed on. -/
theorem outbox_in_order [DecidableEq Id] {l : Logged Id Msg}
    (h : Reaches (loggedStep m) ⟨start, [], []⟩ l) : InOrder l :=
  ReachesUnder.invariant ⟨[], rfl, rfl, rfl, rfl⟩ (fun _ _ _ hl _ hstep => inOrder_step hl hstep) h

theorem event_and_reply : ∃ l : Logged ℕ ℕ, l.events = [7] ∧ l.replies = [8] ∧ InOrder l := by
  have hrun : runUnder (loggedStep ⟨2, 1, 3⟩) (fun _ _ => True) (⟨start, [], []⟩ : Logged ℕ ℕ)
      [.queueEvent 0 7, .sender 0 true, .queueReply 8, .sender 0 true, .pump, .pump] = some _ := rfl
  exact ⟨_, rfl, rfl, outbox_in_order (reachesUnder_of_run hrun)⟩

end Swazz.HeldScans
