import Mathlib.Data.List.Nodup
import Mathlib.Data.List.Perm.Basic
import Mathlib.Logic.Function.Basic
import Swazz.StepSystem

/-! The loop that hands a run's events to its subscribers: it waits for one that does not take a
critical event, but not for long, and remembers who missed one. -/
namespace Swazz.Subscribers

open StepSystem

inductive EventType where
  | result
  | progress
  | complete
  | error
  | checkpoint
  | oobPending
  | other (name : String)
  deriving DecidableEq

structure Event (α : Type) where
  type : EventType
  data : α

variable {α : Type}

def isCriticalEvent (evt : Event α) : Bool :=
  evt.type = .result || evt.type = .complete || evt.type = .error || evt.type = .checkpoint ||
    evt.type = .oobPending

/-- The delivery state of a subscriber that once missed a critical event. -/
structure SubLag where
  stalled : Bool
  dropped : ℕ

/-- A subscriber's channel, and what the loop keeps about it. -/
structure Channel (α : Type) where
  /-- How many events were broadcast before it subscribed. -/
  joined : ℕ
  /-- The events that were sent into the channel, with their numbers among the broadcast ones. -/
  sent : List (ℕ × Event α)
  /-- How many of them the subscriber has taken out. -/
  received : ℕ
  lag : Option SubLag

namespace Channel

def cap : ℕ := 512

def len (c : Channel α) : ℕ := c.sent.length - c.received

def send (c : Channel α) (i : ℕ) (evt : Event α) : Channel α :=
  { c with sent := c.sent ++ [(i, evt)] }

def stalled (c : Channel α) : Bool := c.lag.any (·.stalled)

/-- One turn of the inner loop of `processEvents`. The choice is whether a blocking send goes
through before its timeout, which it can only if there is room. -/
def offer (c : Channel α) (i : ℕ) (evt : Event α) (taken : Bool) : Option (Channel α) :=
  if isCriticalEvent evt = false then
    if c.stalled = false ∧ c.len < cap then some (c.send i evt) else some c
  else if c.lag.isSome = true ∧ evt.type = .checkpoint then some c
  else if c.stalled = true then
    if cap / 2 < c.len ∨ cap ≤ c.len then
      some { c with lag := c.lag.map fun lag => { lag with dropped := lag.dropped + 1 } }
    else some { c.send i evt with lag := c.lag.map fun _ => ⟨false, 0⟩ }
  else if taken = true then
    if c.len < cap then some (c.send i evt) else none
  else some { c with lag := some ⟨true, 1⟩ }

/-- What an offer does: a critical event that is not sent leaves a mark, the mark stays, and a
checkpoint is sent only to a channel without it. -/
theorem offer_cases {c d : Channel α} {i : ℕ} {evt : Event α} {taken : Bool}
    (h : c.offer i evt taken = some d) :
    d.joined = c.joined ∧ (d.lag = none → c.lag = none) ∧
      (d.sent = c.sent ∧ (isCriticalEvent evt = true → d.lag ≠ none) ∨
        d.sent = c.sent ++ [(i, evt)] ∧ (evt.type = .checkpoint → c.lag = none)) := by
  have hcheckpoint : isCriticalEvent evt = false → evt.type ≠ .checkpoint := by
    intro hno htype
    simp [isCriticalEvent, htype] at hno
  unfold offer at h
  split_ifs at h with hcritical hroom hmarked hstalled hfull htaken hroom
  · obtain rfl := Option.some.inj h
    exact ⟨rfl, id, Or.inr ⟨rfl, fun htype => absurd htype (hcheckpoint hcritical)⟩⟩
  · obtain rfl := Option.some.inj h
    exact ⟨rfl, id, Or.inl ⟨rfl, fun hyes => by rw [hcritical] at hyes; cases hyes⟩⟩
  · obtain rfl := Option.some.inj h
    exact ⟨rfl, id, Or.inl ⟨rfl, fun _ hnone => by rw [hnone] at hmarked; cases hmarked.1⟩⟩
  · obtain rfl := Option.some.inj h
    refine ⟨rfl, fun hnone => Option.map_eq_none_iff.mp hnone, Or.inl ⟨rfl, fun _ hnone => ?_⟩⟩
    rw [stalled, Option.map_eq_none_iff.mp hnone] at hstalled
    cases hstalled
  · obtain rfl := Option.some.inj h
    refine ⟨rfl, fun hnone => Option.map_eq_none_iff.mp hnone, Or.inr ⟨rfl, fun htype => ?_⟩⟩
    by_contra hlag
    exact hmarked ⟨Option.isSome_iff_ne_none.mpr hlag, htype⟩
  · obtain rfl := Option.some.inj h
    refine ⟨rfl, id, Or.inr ⟨rfl, fun htype => ?_⟩⟩
    by_contra hlag
    exact hmarked ⟨Option.isSome_iff_ne_none.mpr hlag, htype⟩
  · obtain rfl := Option.some.inj h
    exact ⟨rfl, fun hnone => absurd hnone (Option.some_ne_none _),
      Or.inl ⟨rfl, fun _ => Option.some_ne_none _⟩⟩

end Channel

/-- Where the loop stands. It holds the subscribers' lock only in the last two places. -/
inductive Loop where
  | waiting
  /-- With the events of `PopAll`, ahead of the lock. -/
  | locking
  | between
  /-- With one event, and the channels it is still to be offered to. -/
  | offering (rest : List ℕ)

structure State (α : Type) where
  subs : List ℕ
  chan : ℕ → Channel α
  /-- How many channels were made. -/
  channels : ℕ
  /-- The events in the order of their `Push`. -/
  broadcasts : List (Event α)
  /-- How many of them the loop has taken from the queue, and how many it is done with. -/
  popped : ℕ
  handled : ℕ
  loop : Loop

def State.start : State α := ⟨[], fun _ => ⟨0, [], 0, none⟩, 0, [], 0, 0, .waiting⟩

def Loop.unlocked : Loop → Bool
  | .waiting | .locking => true
  | .between | .offering _ => false

inductive Action (α : Type) where
  | broadcast (evt : Event α)
  | subscribe
  | unsubscribe (ch : ℕ)
  /-- The subscriber takes an event out of its channel. -/
  | receive (ch : ℕ)
  | popAll
  /-- The lock is taken, and the lags of channels that are gone are forgotten. -/
  | lock
  /-- The next event, with an order to range over the subscribers. -/
  | next (order : List ℕ)
  | offer (taken : Bool)
  | done

/-- The lags of the channels that are still subscribed. -/
def State.forget (s : State α) : ℕ → Channel α := fun ch =>
  if ch ∈ s.subs then s.chan ch else { s.chan ch with lag := none }

def step (s : State α) : Action α → Option (State α)
  | .broadcast evt => some { s with broadcasts := s.broadcasts ++ [evt] }
  | .subscribe =>
    if s.loop.unlocked = true then some { s with
      subs := s.subs ++ [s.channels]
      chan := Function.update s.chan s.channels ⟨s.broadcasts.length, [], 0, none⟩
      channels := s.channels + 1 }
    else none
  | .unsubscribe ch =>
    if s.loop.unlocked = true then some { s with subs := s.subs.erase ch } else none
  | .receive ch =>
    if 0 < (s.chan ch).len then some { s with
      chan := Function.update s.chan ch { s.chan ch with received := (s.chan ch).received + 1 } }
    else none
  | .popAll =>
    match s.loop with
    | .waiting =>
      if s.popped < s.broadcasts.length then
        some { s with popped := s.broadcasts.length, loop := .locking }
      else some s
    | _ => none
  | .lock =>
    match s.loop with
    | .locking => some { s with chan := s.forget, loop := .between }
    | _ => none
  | .next order =>
    match s.loop with
    | .between =>
      if s.handled < s.popped ∧ order.Perm s.subs then some { s with loop := .offering order }
      else none
    | _ => none
  | .offer taken =>
    match s.loop with
    | .offering (ch :: rest) => do
      let evt ← s.broadcasts[s.handled]?
      let c ← (s.chan ch).offer s.handled evt taken
      return { s with chan := Function.update s.chan ch c, loop := .offering rest }
    | _ => none
  | .done =>
    match s.loop with
    | .offering [] => some { s with handled := s.handled + 1, loop := .between }
    | .between =>
      if s.handled = s.popped then some { s with loop := .waiting } else none
    | _ => none

/-! ## One channel -/

/-- Of the first `bound` events. A live channel without a mark has got every critical one since it
subscribed. -/
structure Fed (broadcasts : List (Event α)) (bound : ℕ) (live : Prop) (c : Channel α) : Prop where
  ordered : c.sent.Pairwise fun a b => a.1 < b.1
  known : ∀ e ∈ c.sent, e.1 < bound ∧ broadcasts[e.1]? = some e.2
  checkpoints : ∀ k evt, (k, evt) ∈ c.sent → evt.type = .checkpoint → ∀ j e, c.joined ≤ j →
    j < k → broadcasts[j]? = some e → isCriticalEvent e = true → (j, e) ∈ c.sent
  covered : live → c.lag = none → ∀ j e, c.joined ≤ j → j < bound → broadcasts[j]? = some e →
    isCriticalEvent e = true → (j, e) ∈ c.sent

variable {broadcasts : List (Event α)} {bound i : ℕ} {live : Prop} {c d : Channel α}
  {evt : Event α}

theorem Fed.offer {taken : Bool} (h : Fed broadcasts i live c) (hlive : live)
    (hevt : broadcasts[i]? = some evt) (hoffer : c.offer i evt taken = some d) :
    Fed broadcasts (i + 1) live d := by
  obtain ⟨hjoined, hmark, hsent⟩ := Channel.offer_cases hoffer
  have hlast : ∀ j e, j < i + 1 → j ≠ i → broadcasts[j]? = some e → isCriticalEvent e = true →
      c.joined ≤ j → d.lag = none → (j, e) ∈ c.sent := fun j e hj hne he hcritical hle hnone =>
    h.covered hlive (hmark hnone) j e hle (by omega) he hcritical
  rcases hsent with ⟨heq, hmissed⟩ | ⟨heq, hcheckpoint⟩
  · refine ⟨heq ▸ h.ordered, ?_, ?_, ?_⟩
    · intro e he
      obtain ⟨hlt, hknown⟩ := h.known e (heq ▸ he)
      exact ⟨by omega, hknown⟩
    · rw [heq, hjoined]
      exact h.checkpoints
    · intro _ hnone j e hle hj he hcritical
      rw [heq]
      by_cases hji : j = i
      · subst hji
        obtain rfl := Option.some.inj (hevt.symm.trans he)
        exact absurd hnone (hmissed hcritical)
      · exact hlast j e hj hji he hcritical (hjoined ▸ hle) hnone
  · refine ⟨?_, ?_, ?_, ?_⟩
    · rw [heq, List.pairwise_append]
      refine ⟨h.ordered, List.pairwise_singleton _ _, fun a ha b hb => ?_⟩
      rw [List.mem_singleton.mp hb]
      exact (h.known a ha).1
    · intro e he
      rw [heq, List.mem_append, List.mem_singleton] at he
      rcases he with he | rfl
      · obtain ⟨hlt, hknown⟩ := h.known e he
        exact ⟨by omega, hknown⟩
      · exact ⟨Nat.lt_succ_self i, hevt⟩
    · intro k evt' hk htype j e hle hj he hcritical
      rw [heq, List.mem_append, List.mem_singleton] at hk
      rw [heq, List.mem_append]
      rw [hjoined] at hle
      rcases hk with hk | hk
      · exact Or.inl (h.checkpoints k evt' hk htype j e hle hj he hcritical)
      · -- the checkpoint that is sent now: nothing was missed so far
        obtain ⟨rfl, rfl⟩ := Prod.mk.inj hk
        exact Or.inl (h.covered hlive (hcheckpoint htype) j e hle hj he hcritical)
    · intro _ hnone j e hle hj he hcritical
      rw [heq, List.mem_append, List.mem_singleton]
      by_cases hji : j = i
      · subst hji
        obtain rfl := Option.some.inj (hevt.symm.trans he)
        exact Or.inr rfl
      · exact Or.inl (hlast j e hj hji he hcritical (hjoined ▸ hle) hnone)

/-- A channel that is not subscribed any more is not behind. -/
theorem Fed.keep {live' : Prop} {bound' : ℕ} (h : Fed broadcasts bound live c)
    (hle : bound ≤ bound') (hlive : live' → live ∧ bound' = bound ∧ d.lag = c.lag)
    (hsent : d.sent = c.sent) (hjoined : d.joined = c.joined) :
    Fed broadcasts bound' live' d where
  ordered := hsent ▸ h.ordered
  known e he := by
    obtain ⟨hlt, hknown⟩ := h.known e (hsent ▸ he)
    exact ⟨by omega, hknown⟩
  checkpoints := by
    rw [hsent, hjoined]
    exact h.checkpoints
  covered hyes hnone j e := by
    obtain ⟨hbefore, hbound, hlag⟩ := hlive hyes
    rw [hsent, hjoined, hbound]
    exact h.covered hbefore (hlag ▸ hnone) j e

theorem Fed.broadcast (h : Fed broadcasts bound live c) (hle : bound ≤ broadcasts.length)
    (evt : Event α) : Fed (broadcasts ++ [evt]) bound live c where
  ordered := h.ordered
  known e he := by
    obtain ⟨hlt, hknown⟩ := h.known e he
    exact ⟨hlt, by rw [List.getElem?_append_left (by omega), hknown]⟩
  checkpoints k evt' hk htype j e hj hjk he := by
    have hlt := (h.known _ hk).1
    dsimp only at hlt
    rw [List.getElem?_append_left (by omega)] at he
    exact h.checkpoints k evt' hk htype j e hj hjk he
  covered hlive hnone j e hj hjb he := by
    rw [List.getElem?_append_left (by omega)] at he
    exact h.covered hlive hnone j e hj hjb he

/-! ## All of them -/

/-- How many events the loop is done with for a channel. -/
def State.progress (s : State α) (ch : ℕ) : ℕ :=
  match s.loop with
  | .offering rest => if ch ∈ rest then s.handled else s.handled + 1
  | _ => s.handled

def State.rest (s : State α) : List ℕ :=
  match s.loop with
  | .offering rest => rest
  | _ => []

structure Inv (s : State α) : Prop where
  fed : ∀ ch, Fed s.broadcasts (s.progress ch) (ch ∈ s.subs) (s.chan ch)
  made : ∀ ch ∈ s.subs, ch < s.channels
  subs : s.subs.Nodup
  rest : s.rest.Nodup ∧ s.rest ⊆ s.subs
  handled : s.handled ≤ s.popped
  popped : s.popped ≤ s.broadcasts.length
  ahead : ∀ rest, s.loop = .offering rest → s.handled < s.popped

theorem inv_start : Inv (State.start : State α) where
  fed _ := ⟨List.Pairwise.nil, fun _ he => absurd he List.not_mem_nil,
    fun _ _ hk => absurd hk List.not_mem_nil, fun hlive => absurd hlive List.not_mem_nil⟩
  made _ hch := absurd hch List.not_mem_nil
  subs := List.nodup_nil
  rest := ⟨List.nodup_nil, List.nil_subset _⟩
  handled := Nat.le_refl _
  popped := Nat.le_refl _
  ahead _ h := by cases h

variable {s t : State α}

theorem Inv.progress_le (h : Inv s) (ch : ℕ) : s.progress ch ≤ s.broadcasts.length := by
  have hhandled := h.handled
  have hpopped := h.popped
  unfold State.progress
  cases hloop : s.loop with
  | offering rest =>
    have hahead := h.ahead rest hloop
    dsimp only
    split_ifs <;> omega
  | _ =>
    dsimp only
    omega

theorem Inv.step {a : Action α} (h : Inv s) (ht : step s a = some t) : Inv t := by
  cases a with
  | broadcast evt =>
    obtain rfl := Option.some.inj ht
    refine ⟨fun ch => (h.fed ch).broadcast (h.progress_le ch) evt, h.made, h.subs, h.rest,
      h.handled, ?_, h.ahead⟩
    have hpopped := h.popped
    have hlength : (s.broadcasts ++ [evt]).length = s.broadcasts.length + 1 := by simp
    dsimp only
    omega
  | subscribe =>
    obtain ⟨hfree, ht⟩ := Option.ite_none_right_eq_some.mp ht
    obtain rfl := Option.some.inj ht
    have hnew : s.channels ∉ s.subs := fun hmem => Nat.lt_irrefl _ (h.made _ hmem)
    refine ⟨fun ch => ?_, ?_, ?_, ⟨h.rest.1, ?_⟩, h.handled, h.popped, h.ahead⟩
    · dsimp only
      by_cases hch : ch = s.channels
      · subst hch
        rw [Function.update_self]
        refine ⟨List.Pairwise.nil, fun _ he => absurd he List.not_mem_nil,
          fun _ _ hk => absurd hk List.not_mem_nil, fun _ _ j e hle hlt => ?_⟩
        -- the events before it are not its own
        exact absurd (Nat.lt_of_lt_of_le hlt (h.progress_le s.channels)) (Nat.not_lt.mpr hle)
      · rw [Function.update_of_ne hch]
        refine (h.fed ch).keep (Nat.le_refl _) (fun hmem => ⟨?_, rfl, rfl⟩) rfl rfl
        rcases List.mem_append.mp hmem with hmem | hmem
        · exact hmem
        · exact absurd (List.mem_singleton.mp hmem) hch
    · intro ch hmem
      rcases List.mem_append.mp hmem with hmem | hmem
      · exact Nat.lt_succ_of_lt (h.made ch hmem)
      · rw [List.mem_singleton.mp hmem]
        exact Nat.lt_succ_self _
    · rw [List.nodup_append]
      refine ⟨h.subs, List.nodup_singleton _, fun a ha b hb hab => hnew ?_⟩
      rw [← List.mem_singleton.mp hb, ← hab]
      exact ha
    · exact List.Subset.trans h.rest.2 (List.subset_append_left _ _)
  | unsubscribe ch =>
    obtain ⟨hfree, ht⟩ := Option.ite_none_right_eq_some.mp ht
    obtain rfl := Option.some.inj ht
    have hrest : s.rest = [] := by
      unfold State.rest
      cases hloop : s.loop with
      | offering rest =>
        rw [hloop] at hfree
        cases hfree
      | _ => rfl
    refine ⟨fun c => (h.fed c).keep (Nat.le_refl _)
      (fun hmem => ⟨List.mem_of_mem_erase hmem, rfl, rfl⟩) rfl rfl,
      fun c hmem => h.made c (List.mem_of_mem_erase hmem), h.subs.erase ch, ?_, h.handled,
      h.popped, h.ahead⟩
    change s.rest.Nodup ∧ s.rest ⊆ _
    rw [hrest]
    exact ⟨List.nodup_nil, List.nil_subset _⟩
  | receive ch =>
    obtain ⟨hsome, ht⟩ := Option.ite_none_right_eq_some.mp ht
    obtain rfl := Option.some.inj ht
    refine ⟨fun c => ?_, h.made, h.subs, h.rest, h.handled, h.popped, h.ahead⟩
    dsimp only
    by_cases hc : c = ch
    · subst hc
      rw [Function.update_self]
      exact (h.fed c).keep (Nat.le_refl _) (fun hmem => ⟨hmem, rfl, rfl⟩) rfl rfl
    · rw [Function.update_of_ne hc]
      exact h.fed c
  | popAll =>
    rw [Subscribers.step] at ht
    split at ht
    · rename_i hloop
      split_ifs at ht with hmore
      · obtain rfl := Option.some.inj ht
        refine ⟨fun ch => ?_, h.made, h.subs, ⟨List.nodup_nil, List.nil_subset _⟩,
          Nat.le_trans h.handled h.popped, Nat.le_refl _, fun _ hne => by cases hne⟩
        have hfed := h.fed ch
        unfold State.progress at hfed
        rw [hloop] at hfed
        exact hfed
      · obtain rfl := Option.some.inj ht
        exact h
    · cases ht
  | lock =>
    rw [Subscribers.step] at ht
    split at ht
    · rename_i hloop
      obtain rfl := Option.some.inj ht
      refine ⟨fun ch => ?_, h.made, h.subs, ⟨List.nodup_nil, List.nil_subset _⟩, h.handled,
        h.popped, fun _ hne => by cases hne⟩
      have hfed := h.fed ch
      unfold State.progress at hfed
      rw [hloop] at hfed
      dsimp only [State.forget]
      split_ifs with hmem
      · exact hfed
      · exact hfed.keep (Nat.le_refl _) (fun hyes => absurd hyes hmem) rfl rfl
    · cases ht
  | next order =>
    rw [Subscribers.step] at ht
    split at ht
    · rename_i hloop
      obtain ⟨⟨hmore, horder⟩, ht⟩ := Option.ite_none_right_eq_some.mp ht
      obtain rfl := Option.some.inj ht
      refine ⟨fun ch => ?_, h.made, h.subs, ⟨horder.nodup_iff.mpr h.subs, horder.subset⟩,
        h.handled, h.popped, fun _ _ => hmore⟩
      have hfed := h.fed ch
      unfold State.progress at hfed
      rw [hloop] at hfed
      dsimp only [State.progress]
      split_ifs with hmem
      · exact hfed
      · exact hfed.keep (Nat.le_succ _)
          (fun hyes => absurd (horder.mem_iff.mpr hyes) hmem) rfl rfl
    · cases ht
  | offer taken =>
    rw [Subscribers.step] at ht
    split at ht
    · rename_i ch rest hloop
      obtain ⟨evt, hevt, ht⟩ := Option.bind_eq_some_iff.mp ht
      obtain ⟨c, hc, ht⟩ := Option.bind_eq_some_iff.mp ht
      obtain rfl := Option.some.inj ht
      have hrest : s.rest = ch :: rest := by
        unfold State.rest
        rw [hloop]
      have hnodup := List.nodup_cons.mp (hrest ▸ h.rest.1)
      have hsub := List.cons_subset.mp (hrest ▸ h.rest.2)
      refine ⟨fun c' => ?_, h.made, h.subs, ⟨hnodup.2, hsub.2⟩, h.handled, h.popped,
        fun _ _ => h.ahead _ hloop⟩
      have hfed := h.fed c'
      unfold State.progress at hfed
      rw [hloop] at hfed
      dsimp only [State.progress] at hfed ⊢
      by_cases hch : c' = ch
      · subst hch
        rw [if_pos List.mem_cons_self] at hfed
        rw [Function.update_self, if_neg hnodup.1]
        exact hfed.offer hsub.1 hevt hc
      · rw [Function.update_of_ne hch]
        rwa [if_congr (List.mem_cons.trans (or_iff_right hch)) rfl rfl] at hfed
    · cases ht
  | done =>
    rw [Subscribers.step] at ht
    split at ht
    · rename_i hloop
      obtain rfl := Option.some.inj ht
      refine ⟨fun ch => ?_, h.made, h.subs, ⟨List.nodup_nil, List.nil_subset _⟩,
        h.ahead _ hloop, h.popped, fun _ hne => by cases hne⟩
      have hfed := h.fed ch
      unfold State.progress at hfed
      rw [hloop] at hfed
      dsimp only at hfed
      rwa [if_neg List.not_mem_nil] at hfed
    · rename_i hloop
      obtain ⟨-, ht⟩ := Option.ite_none_right_eq_some.mp ht
      obtain rfl := Option.some.inj ht
      refine ⟨fun ch => ?_, h.made, h.subs, ⟨List.nodup_nil, List.nil_subset _⟩, h.handled,
        h.popped, fun _ hne => by cases hne⟩
      have hfed := h.fed ch
      unfold State.progress at hfed
      rwa [hloop] at hfed
    · cases ht

/-- What a channel holds and held, up to a checkpoint: broadcast events in their order, and all the
critical ones since it was subscribed. -/
structure NoGap (broadcasts : List (Event α)) (c : Channel α) : Prop where
  ordered : c.sent.Pairwise fun a b => a.1 < b.1
  known : ∀ e ∈ c.sent, broadcasts[e.1]? = some e.2
  complete : ∀ before k evt after, c.sent = before ++ (k, evt) :: after →
    evt.type = .checkpoint → ∀ j e, c.joined ≤ j → j < k → broadcasts[j]? = some e →
      isCriticalEvent e = true → (j, e) ∈ before

theorem Fed.noGap (h : Fed broadcasts bound live c) : NoGap broadcasts c where
  ordered := h.ordered
  known e he := (h.known e he).2
  complete before k evt after hsplit htype j e hle hlt he hcritical := by
    have hmem : (k, evt) ∈ c.sent := by
      rw [hsplit]
      exact List.mem_append_right _ List.mem_cons_self
    have hgot := h.checkpoints k evt hmem htype j e hle hlt he hcritical
    have hordered := h.ordered
    rw [hsplit] at hgot hordered
    rcases List.mem_append.mp hgot with hgot | hgot
    · exact hgot
    · -- what follows the checkpoint has a higher number
      have hafter := (List.pairwise_append.mp hordered).2.1
      rcases List.mem_cons.mp hgot with heq | hgot
      · obtain ⟨rfl, -⟩ := Prod.mk.inj heq
        exact absurd hlt (Nat.lt_irrefl _)
      · have hgt := (List.pairwise_cons.mp hafter).1 _ hgot
        dsimp only at hgt
        omega

theorem no_checkpoint_past_a_gap (h : Reaches step State.start s) (ch : ℕ) :
    NoGap s.broadcasts (s.chan ch) := by
  have hinv : Inv s := ReachesUnder.invariant inv_start
    (fun _ _ _ ht _ hu => ht.step hu) h
  exact (hinv.fed ch).noGap

/-- The second subscriber misses the result, and only the first one gets the checkpoint. -/
def missing : List (Action Unit) :=
  [.subscribe, .subscribe, .broadcast ⟨.result, ()⟩, .broadcast ⟨.checkpoint, ()⟩, .popAll, .lock,
    .next [0, 1], .offer true, .offer false, .done, .next [1, 0], .offer true, .offer true]

theorem no_checkpoint_past_a_gap_missing : ∃ s : State Unit,
    (∀ ch, NoGap s.broadcasts (s.chan ch)) ∧
      (s.chan 0).sent = [(0, ⟨.result, ()⟩), (1, ⟨.checkpoint, ()⟩)] ∧ (s.chan 1).sent = [] := by
  have hrun : runUnder step (fun _ _ => True) State.start missing = some _ := rfl
  exact ⟨_, fun ch => no_checkpoint_past_a_gap (reachesUnder_of_run hrun) ch, rfl, rfl⟩

end Swazz.Subscribers
