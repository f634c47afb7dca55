import Mathlib.Data.Int.Notation
import Mathlib.Data.List.Nodup
import Swazz.StepSystem

/-! The concurrency limiter: `Acquire` takes a slot or waits on a channel, a slot that is given back
goes to the first waiter, and a waiter can give up at any time. Each critical section is one step. -/
namespace Swazz.Limiter

open StepSystem

def MaxConcurrencyCeiling : ℤ := 1000

structure ConcurrencyLimiter where
  target : ℤ
  ceiling : ℤ
  current : ℤ
  /-- The channels that wait, by the calls of `Acquire` that made them. -/
  waiters : List ℕ

def NewConcurrencyLimiter (initial : ℤ) (ceilings : List ℤ) : ConcurrencyLimiter :=
  let initial := if initial ≤ 0 then 5 else initial
  let initial := if 1000 < initial then 1000 else initial
  let ceiling := if 0 < ceilings.headD 0 then ceilings.headD 0 else MaxConcurrencyCeiling
  let initial := if ceiling < initial then ceiling else initial
  ⟨initial, ceiling, 0, []⟩

/-- Where a call of `Acquire` stands. -/
inductive Call where
  /-- In the `select`, and whether its channel is closed. -/
  | selecting (closed : Bool)
  /-- The context is done, and the call is about to lock the limiter again. -/
  | leaving (closed : Bool)
  /-- It returned nil, and `Release` was not called yet. -/
  | holding
  | finished
  deriving DecidableEq

/-- The slots that are held, and those that were granted to a call that did not return yet. -/
def Call.hasSlot : Call → Bool
  | .selecting closed | .leaving closed => closed
  | .holding => true
  | .finished => false

def Call.waits : Call → Bool
  | .selecting closed | .leaving closed => !closed
  | .holding | .finished => false

def Call.close : Call → Call
  | .selecting _ => .selecting true
  | .leaving _ => .leaving true
  | c => c

structure State extends ConcurrencyLimiter where
  calls : List Call
  /-- The channels that were ever appended to the waiters, in that order. -/
  queued : List ℕ
  /-- The channels that were closed, in that order. -/
  granted : List ℕ

def start (initial : ℤ) (ceilings : List ℤ) : State :=
  { NewConcurrencyLimiter initial ceilings with calls := [], queued := [], granted := [] }

namespace State

def put (s : State) (i : ℕ) (c : Call) : State := { s with calls := s.calls.modify i fun _ => c }

/-- One turn of passing a slot on: to the first waiter, if the target allows it. -/
def passOn (s : State) : State :=
  match s.waiters with
  | [] => s
  | ch :: rest =>
    if s.current < s.target then
      { s with
        current := s.current + 1
        waiters := rest
        calls := s.calls.modify ch Call.close
        granted := s.granted ++ [ch] }
    else s

/-- The loop of `SetTarget`, at most so many turns. -/
def wake : ℕ → State → State
  | 0, s => s
  | n + 1, s => if s.waiters ≠ [] ∧ s.current < s.target then wake n s.passOn else s

def SetCeiling (s : State) (ceiling : ℤ) : State :=
  let ceiling := if ceiling ≤ 0 then MaxConcurrencyCeiling else ceiling
  { s with ceiling := ceiling, target := if ceiling < s.target then ceiling else s.target }

def SetTarget (s : State) (target : ℤ) : State :=
  let target := if target ≤ 0 then 1 else target
  let target := if 1000 < target then 1000 else target
  let target := if s.ceiling < target then s.ceiling else target
  { s with target := target }.wake s.waiters.length

/-- `Acquire` until it returns or waits. -/
def Acquire (s : State) : State :=
  if s.current < s.target then
    { s with current := s.current + 1, calls := s.calls ++ [.holding] }
  else
    { s with
      calls := s.calls ++ [.selecting false]
      waiters := s.waiters ++ [s.calls.length]
      queued := s.queued ++ [s.calls.length] }

/-- `Acquire` after its context is done. -/
def leave (s : State) (i : ℕ) : State :=
  if i ∈ s.waiters then { s.put i .finished with waiters := s.waiters.erase i }
  else { s.put i .finished with current := s.current - 1 }.passOn

def Release (s : State) (i : ℕ) : State :=
  { s.put i .finished with current := s.current - 1 }.passOn

end State

inductive Action where
  | acquire
  /-- The call finds its channel closed and returns nil. -/
  | receive (i : ℕ)
  /-- The call finds its context done, whether or not its channel is closed. -/
  | cancel (i : ℕ)
  | leave (i : ℕ)
  | release (i : ℕ)
  | setTarget (target : ℤ)
  | setCeiling (ceiling : ℤ)

def step (s : State) : Action → Option State
  | .acquire => some s.Acquire
  | .receive i => if s.calls[i]? = some (.selecting true) then some (s.put i .holding) else none
  | .cancel i =>
    match s.calls[i]? with
    | some (.selecting closed) => some (s.put i (.leaving closed))
    | _ => none
  | .leave i =>
    match s.calls[i]? with
    | some (.leaving _) => some (s.leave i)
    | _ => none
  | .release i => if s.calls[i]? = some .holding then some (s.Release i) else none
  | .setTarget target => some (s.SetTarget target)
  | .setCeiling ceiling => some (s.SetCeiling ceiling)

/-! ## What every critical section keeps -/

theorem countP_modify {α : Type*} (p : α → Bool) (f : α → α) {l : List α} {i : ℕ} {a : α}
    (h : l[i]? = some a) :
    (l.modify i f).countP p + (p a).toNat = l.countP p + (p (f a)).toNat := by
  induction l generalizing i with
  | nil => simp at h
  | cons x l ih =>
    cases i with
    | zero =>
      rw [List.getElem?_cons_zero, Option.some.injEq] at h
      subst h
      rw [List.modify_zero_cons, List.countP_cons, List.countP_cons]
      cases p x <;> cases p (f x) <;> simp
    | succ i =>
      rw [List.getElem?_cons_succ] at h
      have htail := ih h
      rw [List.modify_succ_cons, List.countP_cons, List.countP_cons]
      omega

/-- The slots that are held or granted. -/
def State.slots (s : State) : ℕ := s.calls.countP Call.hasSlot

/-- The calls and the queue agree, and the channels were closed in the order of the queue. -/
structure Inv (s : State) : Prop where
  waiting : ∀ i, i ∈ s.waiters ↔ ∃ c, s.calls[i]? = some c ∧ c.waits = true
  ordered : (s.granted ++ s.waiters).Sublist s.queued
  nodup : s.queued.Nodup
  known : ∀ i ∈ s.queued, i < s.calls.length
  counted : s.current = s.slots

/-- No wake-up is lost. -/
def Awake (s : State) : Prop := s.waiters ≠ [] → s.target ≤ s.current

variable {s t : State} {i : ℕ} {c d : Call}

theorem Inv.nodup_waiters (h : Inv s) : s.waiters.Nodup :=
  ((List.sublist_append_right _ _).trans h.ordered).nodup h.nodup

theorem hasSlot_of_waits (h : c.waits = true) : c.hasSlot = false := by
  cases c with
  | selecting closed | leaving closed => simpa [Call.waits, Call.hasSlot] using h
  | holding | finished => cases h

theorem hasSlot_close (h : c.waits = true) : c.close.hasSlot = true := by
  cases c with
  | selecting closed | leaving closed => rfl
  | holding | finished => cases h

/-- One call goes on, and neither becomes nor stops being a waiter. -/
theorem waiting_put (h : Inv s) (hi : s.calls[i]? = some c) (hwaits : d.waits = c.waits) (j : ℕ) :
    j ∈ s.waiters ↔ ∃ e, (s.put i d).calls[j]? = some e ∧ e.waits = true := by
  rw [h.waiting j, State.put, List.getElem?_modify]
  by_cases hij : i = j
  · subst hij
    simp [hi, hwaits]
  · simp [hij]

theorem Inv.put (h : Inv s) (hi : s.calls[i]? = some c) (hwaits : d.waits = c.waits)
    (hslot : d.hasSlot = c.hasSlot) : Inv (s.put i d) where
  waiting := waiting_put h hi hwaits
  ordered := h.ordered
  nodup := h.nodup
  known := by
    rw [State.put, List.length_modify]
    exact h.known
  counted := by
    have hcount := countP_modify Call.hasSlot (fun _ => d) hi
    rw [hslot] at hcount
    rw [State.slots, State.put, Nat.add_right_cancel hcount]
    exact h.counted

/-- A call that has a slot gives it back. -/
theorem Inv.giveBack (h : Inv s) (hi : s.calls[i]? = some c) (hslot : c.hasSlot = true)
    (hwaits : c.waits = false) : Inv { s.put i .finished with current := s.current - 1 } where
  waiting := waiting_put h hi hwaits.symm
  ordered := h.ordered
  nodup := h.nodup
  known := by
    dsimp only [State.put]
    rw [List.length_modify]
    exact h.known
  counted := by
    have hcount := countP_modify Call.hasSlot (fun _ => .finished) hi
    have hcounted := h.counted
    rw [hslot] at hcount
    simp only [Bool.toNat_true, Call.hasSlot, Bool.toNat_false, Nat.add_zero] at hcount
    dsimp only [State.slots, State.put] at hcounted ⊢
    omega

/-- The channel of the first waiter is closed. -/
theorem Inv.passOn (h : Inv s) : Inv s.passOn := by
  unfold State.passOn
  split
  · exact h
  rename_i ch rest hwaiters
  split_ifs
  · have hmem : ch ∈ s.waiters := hwaiters ▸ List.mem_cons_self
    obtain ⟨c, hc, hwaits⟩ := (h.waiting ch).mp hmem
    have hnodup := h.nodup_waiters
    rw [hwaiters, List.nodup_cons] at hnodup
    refine ⟨fun j => ?_, ?_, h.nodup, ?_, ?_⟩
    · dsimp only
      rw [List.getElem?_modify]
      by_cases hj : ch = j
      · subst hj
        have hclosed : c.close.waits = false := by cases c <;> rfl
        simp [hc, hclosed, hnodup.1]
      · have hrest : j ∈ rest ↔ j ∈ s.waiters := by
          rw [hwaiters, List.mem_cons, or_iff_right (Ne.symm hj)]
        rw [hrest, h.waiting j]
        simp [hj]
    · have hordered := h.ordered
      rw [hwaiters] at hordered
      dsimp only
      rwa [List.append_assoc, List.singleton_append]
    · dsimp only
      rw [List.length_modify]
      exact h.known
    · have hcount := countP_modify Call.hasSlot Call.close hc
      have hcounted := h.counted
      rw [hasSlot_of_waits hwaits, hasSlot_close hwaits] at hcount
      simp only [Bool.toNat_true, Bool.toNat_false, Nat.add_zero] at hcount
      dsimp only [State.slots] at hcounted ⊢
      omega
  · exact h

@[simp] theorem passOn_target (s : State) : s.passOn.target = s.target := by
  unfold State.passOn
  split
  · rfl
  · split_ifs <;> rfl

/-- Passing one slot on is enough when no more than one is free. -/
theorem awake_passOn (h : s.waiters ≠ [] → s.target ≤ s.current + 1) : Awake s.passOn := by
  unfold State.passOn
  split
  · rename_i hwaiters
    exact fun hne => absurd hwaiters hne
  rename_i ch rest hwaiters
  have hone : s.target ≤ s.current + 1 := h (by simp [hwaiters])
  split_ifs with hlt
  · exact fun _ => hone
  · exact fun _ => Int.not_lt.mp hlt

theorem passOn_waiters (hne : s.waiters ≠ []) (hlt : s.current < s.target) :
    s.passOn.waiters = s.waiters.tail := by
  unfold State.passOn
  split
  · rename_i hwaiters
    exact absurd hwaiters hne
  · rename_i ch rest hwaiters
    rw [if_pos hlt, hwaiters]
    rfl

theorem Inv.wake (h : Inv s) (n : ℕ) : Inv (s.wake n) := by
  induction n generalizing s with
  | zero => exact h
  | succ n ih =>
    rw [State.wake]
    split_ifs
    · exact ih h.passOn
    · exact h

/-- The loop of `SetTarget` ends with no waiter or with no free slot. -/
theorem awake_wake (n : ℕ) (hn : s.waiters.length ≤ n) : Awake (s.wake n) := by
  induction n generalizing s with
  | zero => exact fun hne => absurd (List.length_eq_zero_iff.mp (Nat.le_zero.mp hn)) hne
  | succ n ih =>
    rw [State.wake]
    split_ifs with hgo
    · apply ih
      rw [passOn_waiters hgo.1 hgo.2, List.length_tail]
      omega
    · intro hne
      by_contra hlt
      exact hgo ⟨hne, Int.not_le.mp hlt⟩

theorem Inv.SetTarget (h : Inv s) (target : ℤ) :
    Inv (s.SetTarget target) ∧ Awake (s.SetTarget target) := by
  refine ⟨Inv.wake ?_ _, awake_wake _ (Nat.le_refl _)⟩
  exact { waiting := h.waiting, ordered := h.ordered, nodup := h.nodup, known := h.known
          counted := h.counted }

theorem Inv.SetCeiling (h : Inv s) (hawake : Awake s) (ceiling : ℤ) :
    Inv (s.SetCeiling ceiling) ∧ Awake (s.SetCeiling ceiling) := by
  constructor
  · exact { waiting := h.waiting, ordered := h.ordered, nodup := h.nodup, known := h.known
            counted := h.counted }
  · intro hne
    have hbefore := hawake hne
    dsimp only [State.SetCeiling]
    split_ifs <;> omega

theorem Inv.Acquire (h : Inv s) (hawake : Awake s) : Inv s.Acquire ∧ Awake s.Acquire := by
  have hfresh : ∀ i ∈ s.queued, i ≠ s.calls.length := fun i hi => Nat.ne_of_lt (h.known i hi)
  unfold State.Acquire
  split_ifs with hlt
  · refine ⟨⟨fun j => ?_, h.ordered, h.nodup, fun i hi => ?_, ?_⟩, ?_⟩
    · rw [h.waiting j, List.getElem?_append]
      constructor
      · rintro ⟨c, hc, hwaits⟩
        have hj := (List.getElem?_eq_some_iff.mp hc).1
        exact ⟨c, by rwa [if_pos hj], hwaits⟩
      · rintro ⟨c, hc, hwaits⟩
        split_ifs at hc with hj
        · exact ⟨c, hc, hwaits⟩
        · have hholding := List.mem_singleton.mp (List.mem_of_getElem? hc)
          rw [hholding] at hwaits
          cases hwaits
    · have hknown := h.known i hi
      dsimp only
      rw [List.length_append]
      omega
    · have hcounted := h.counted
      simp only [State.slots, List.countP_append, List.countP_singleton, Call.hasSlot, if_true]
        at hcounted ⊢
      omega
    · intro hne
      have hfull := hawake hne
      omega
  · refine ⟨⟨fun j => ?_, ?_, ?_, fun i hi => ?_, ?_⟩, fun _ => Int.not_lt.mp hlt⟩
    · rw [List.mem_append, h.waiting j, List.mem_singleton, List.getElem?_append]
      constructor
      · rintro (⟨c, hc, hwaits⟩ | rfl)
        · have hj := (List.getElem?_eq_some_iff.mp hc).1
          exact ⟨c, by rwa [if_pos hj], hwaits⟩
        · exact ⟨.selecting false, by simp, rfl⟩
      · rintro ⟨c, hc, hwaits⟩
        split_ifs at hc with hj
        · exact Or.inl ⟨c, hc, hwaits⟩
        · have hlast := (List.getElem?_eq_some_iff.mp hc).1
          rw [List.length_singleton] at hlast
          exact Or.inr (by omega)
    · dsimp only
      rw [← List.append_assoc]
      exact h.ordered.append_right _
    · exact List.nodup_append.mpr ⟨h.nodup, List.nodup_singleton _, fun i hi j hj =>
        List.mem_singleton.mp hj ▸ hfresh i hi⟩
    · dsimp only at hi ⊢
      rw [List.length_append, List.length_singleton]
      rcases List.mem_append.mp hi with hi | hi
      · have hknown := h.known i hi
        omega
      · rw [List.mem_singleton.mp hi]
        omega
    · have hcounted := h.counted
      simp only [State.slots, List.countP_append, List.countP_singleton, Call.hasSlot]
        at hcounted ⊢
      simpa using hcounted

/-- A waiter that gives up leaves the queue. -/
theorem Inv.drop (h : Inv s) (hi : i ∈ s.waiters) :
    Inv { s.put i .finished with waiters := s.waiters.erase i } := by
  obtain ⟨c, hc, hwaits⟩ := (h.waiting i).mp hi
  refine ⟨fun j => ?_, ?_, h.nodup, ?_, ?_⟩
  · rw [h.nodup_waiters.mem_erase_iff, h.waiting j]
    dsimp only [State.put]
    rw [List.getElem?_modify]
    by_cases hj : i = j
    · subst hj
      simp [hc, Call.waits]
    · simp [hj, Ne.symm hj]
  · exact ((List.Sublist.refl _).append List.erase_sublist).trans h.ordered
  · dsimp only [State.put]
    rw [List.length_modify]
    exact h.known
  · have hcount := countP_modify Call.hasSlot (fun _ => .finished) hc
    rw [hasSlot_of_waits hwaits] at hcount
    have hcounted := h.counted
    dsimp only [State.slots, State.put] at hcounted ⊢
    rw [hcounted, ← Nat.add_right_cancel hcount]

theorem Inv.step (h : Inv s) (hawake : Awake s) {a : Action} (ht : step s a = some t) :
    Inv t ∧ Awake t := by
  cases a with
  | acquire =>
    obtain rfl := Option.some.inj ht
    exact h.Acquire hawake
  | receive i =>
    obtain ⟨hi, ht⟩ := Option.ite_none_right_eq_some.mp ht
    obtain rfl := Option.some.inj ht
    exact ⟨h.put hi rfl rfl, hawake⟩
  | cancel i =>
    rw [Limiter.step] at ht
    split at ht
    · rename_i closed hi
      obtain rfl := Option.some.inj ht
      exact ⟨h.put hi rfl rfl, hawake⟩
    · cases ht
  | leave i =>
    rw [Limiter.step] at ht
    split at ht
    · rename_i closed hi
      obtain rfl := Option.some.inj ht
      unfold State.leave
      split_ifs with hmem
      · refine ⟨h.drop hmem, fun hne => hawake fun hnil => hne ?_⟩
        dsimp only
        rw [hnil, List.erase_nil]
      · -- not among the waiters any more: the slot was granted meanwhile
        have hclosed : closed = true := by
          by_contra hopen
          exact hmem ((h.waiting i).mpr ⟨_, hi, by simpa [Call.waits] using hopen⟩)
        subst hclosed
        refine ⟨(h.giveBack hi rfl rfl).passOn, awake_passOn fun hne => ?_⟩
        have hbefore : s.target ≤ s.current := hawake hne
        simpa [State.put] using hbefore
    · cases ht
  | release i =>
    obtain ⟨hi, ht⟩ := Option.ite_none_right_eq_some.mp ht
    obtain rfl := Option.some.inj ht
    refine ⟨(h.giveBack hi rfl rfl).passOn, awake_passOn fun hne => ?_⟩
    have hbefore : s.target ≤ s.current := hawake hne
    simpa [State.put] using hbefore
  | setTarget target =>
    obtain rfl := Option.some.inj ht
    exact h.SetTarget target
  | setCeiling ceiling =>
    obtain rfl := Option.some.inj ht
    exact h.SetCeiling hawake ceiling

/-! ## More slots than the target -/

theorem current_passOn (h : s.target < s.passOn.current) : s.passOn.current = s.current := by
  unfold State.passOn at h ⊢
  split
  · rfl
  · rename_i ch rest hwaiters
    rw [hwaiters] at h
    dsimp only at h
    split_ifs at h ⊢ with hlt
    · dsimp only at h
      omega
    · rfl

theorem wake_target (s : State) (n : ℕ) : (s.wake n).target = s.target := by
  induction n generalizing s with
  | zero => rfl
  | succ n ih =>
    rw [State.wake]
    split_ifs
    · rw [ih, passOn_target]
    · rfl

theorem current_wake (n : ℕ) (h : s.target < (s.wake n).current) :
    (s.wake n).current = s.current := by
  induction n generalizing s with
  | zero => rfl
  | succ n ih =>
    rw [State.wake] at h ⊢
    split_ifs at h ⊢ with hgo
    · have hnext := ih (passOn_target s ▸ h)
      rw [hnext] at h
      have hsame := current_passOn h
      omega
    · rfl

/-- Whether an action can change the target. -/
def Action.retargets : Action → Bool
  | .setTarget _ | .setCeiling _ => true
  | _ => false

/-- A step that leaves more slots in use than the target hands none out, and there were too many
before it unless it lowered the target. -/
theorem current_step {a : Action} (ht : step s a = some t) (habove : t.target < t.current) :
    t.current ≤ s.current ∧ (s.target < s.current ∨
      a.retargets = true ∧ t.target < s.target ∧ t.current = s.current) := by
  have hgivenBack {i : ℕ}
      (heq : { s.put i .finished with current := s.current - 1 }.passOn = t) :
      t.current ≤ s.current ∧ s.target < s.current := by
    rw [← heq, passOn_target] at habove
    have hsame := current_passOn habove
    rw [hsame] at habove
    rw [← heq, hsame]
    dsimp only [State.put] at habove ⊢
    omega
  cases a with
  | acquire =>
    obtain rfl := Option.some.inj ht
    unfold State.Acquire at habove ⊢
    split_ifs at habove ⊢ with hlt
    · dsimp only at habove
      omega
    · exact ⟨Int.le_refl _, Or.inl habove⟩
  | receive i =>
    obtain ⟨-, ht⟩ := Option.ite_none_right_eq_some.mp ht
    obtain rfl := Option.some.inj ht
    exact ⟨Int.le_refl _, Or.inl habove⟩
  | cancel i =>
    rw [step] at ht
    split at ht
    · obtain rfl := Option.some.inj ht
      exact ⟨Int.le_refl _, Or.inl habove⟩
    · cases ht
  | leave i =>
    rw [step] at ht
    split at ht
    · have heq := Option.some.inj ht
      unfold State.leave at heq
      split_ifs at heq
      · subst heq
        exact ⟨Int.le_refl _, Or.inl habove⟩
      · exact (hgivenBack heq).imp_right Or.inl
    · cases ht
  | release i =>
    obtain ⟨-, ht⟩ := Option.ite_none_right_eq_some.mp ht
    exact (hgivenBack (Option.some.inj ht)).imp_right Or.inl
  | setTarget target =>
    obtain rfl := Option.some.inj ht
    unfold State.SetTarget at habove ⊢
    rw [wake_target] at habove
    have hsame := current_wake _ habove
    rw [hsame] at habove
    rw [wake_target, hsame]
    dsimp only at habove ⊢
    by_cases hbefore : s.target < s.current
    · exact ⟨Int.le_refl _, Or.inl hbefore⟩
    · exact ⟨Int.le_refl _, Or.inr ⟨rfl, by omega, rfl⟩⟩
  | setCeiling ceiling =>
    obtain rfl := Option.some.inj ht
    by_cases hbefore : s.target < s.current
    · exact ⟨Int.le_refl _, Or.inl hbefore⟩
    · refine ⟨Int.le_refl _, Or.inr ⟨rfl, ?_, rfl⟩⟩
      dsimp only [State.SetCeiling] at habove ⊢
      omega

/-- A step with more slots in use than the target after it, and no more of them. -/
def Draining (s t : State) : Prop :=
  (∃ a, step s a = some t) ∧ t.target < t.current ∧ t.current ≤ s.current

/-- The run lowered the target below the slots in use, and has handed none out since. -/
def LoweredSince (first s : State) : Prop :=
  ∃ u a v, Reaches step first u ∧ u.current ≤ u.target ∧ a.retargets = true ∧
    step u a = some v ∧ v.target < u.target ∧ v.current = u.current ∧ v.target < v.current ∧
    Relation.ReflTransGen Draining v s

theorem loweredSince_of_reaches {first : State} (hfirst : first.current ≤ first.target)
    (h : Reaches step first s) (habove : s.target < s.current) : LoweredSince first s := by
  induction h with
  | refl => omega
  | @tail u t hu hlast ih =>
    obtain ⟨a, -, ht⟩ := hlast
    obtain ⟨hle, hbefore | ⟨hret, hlower, hsame⟩⟩ := current_step ht habove
    · obtain ⟨u', a', v, hreach, hbelow, hret, hstep, hlower, hsame, hover, hdrain⟩ := ih hbefore
      exact ⟨u', a', v, hreach, hbelow, hret, hstep, hlower, hsame, hover,
        hdrain.tail ⟨⟨a, ht⟩, habove, hle⟩⟩
    · by_cases hbefore : u.target < u.current
      · obtain ⟨u', a', v, hreach, hbelow, hret', hstep, hlower', hsame', hover, hdrain⟩ :=
          ih hbefore
        exact ⟨u', a', v, hreach, hbelow, hret', hstep, hlower', hsame', hover,
          hdrain.tail ⟨⟨a, ht⟩, habove, hle⟩⟩
      · exact ⟨u, a, t, hu, Int.not_lt.mp hbefore, hret, ht, hlower, hsame, habove,
          Relation.ReflTransGen.refl⟩

/-! ## Whole runs -/

/-- Every slot in use is counted, there are more than the target only after it was lowered, no
waiter is forgotten while a slot is free, and the grants follow the order of the queue. -/
structure Sound (first s : State) : Prop where
  counted : s.current = s.slots
  lowered : s.target < s.current → LoweredSince first s
  awake : s.waiters ≠ [] → s.target ≤ s.current
  ordered : (s.granted ++ s.waiters).Sublist s.queued
  once : s.queued.Nodup

theorem inv_start (initial : ℤ) (ceilings : List ℤ) : Inv (start initial ceilings) where
  waiting := by simp [start, NewConcurrencyLimiter]
  ordered := List.Sublist.refl _
  nodup := List.nodup_nil
  known := fun _ hi => absurd hi List.not_mem_nil
  counted := rfl

theorem target_start (initial : ℤ) (ceilings : List ℤ) :
    (start initial ceilings).current ≤ (start initial ceilings).target := by
  dsimp only [start, NewConcurrencyLimiter, MaxConcurrencyCeiling]
  split_ifs <;> omega

theorem limiter_sound (initial : ℤ) (ceilings : List ℤ) {s : State}
    (h : Reaches step (start initial ceilings) s) : Sound (start initial ceilings) s := by
  have hinv : Inv s ∧ Awake s := by
    refine ReachesUnder.invariant (I := fun s => Inv s ∧ Awake s)
      ⟨inv_start initial ceilings, fun hne => absurd rfl hne⟩ ?_ h
    exact fun t a u ht _ hu => ht.1.step ht.2 hu
  exact {
    counted := hinv.1.counted
    lowered := loweredSince_of_reaches (target_start initial ceilings) h
    awake := hinv.2
    ordered := hinv.1.ordered
    once := hinv.1.nodup }

/-- Of three calls with one slot the second gives up when the slot has just been passed to it. -/
def racing : List Action :=
  [.acquire, .acquire, .acquire, .cancel 1, .release 0, .leave 1, .receive 2]

theorem limiter_sound_racing : ∃ s, Sound (start 1 []) s ∧ s.granted = [1, 2] ∧
    s.calls = [.finished, .finished, .holding] ∧ s.current = 1 := by
  have hrun : runUnder step (fun _ _ => True) (start 1 []) racing = some _ := rfl
  exact ⟨_, limiter_sound 1 [] (reachesUnder_of_run hrun), rfl, rfl, rfl⟩

end Swazz.Limiter
