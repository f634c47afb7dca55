import Swazz.EventQueue

/-! The queue returns every event once, in the order of the pushes, and wakes the consumer. -/
namespace Swazz.EventQueue

open StepSystem

variable {α P : Type}

/-! ### Lists in the memory -/

/-- A list of nodes in the memory. -/
def IsList (next : ℕ → Option (EventNode α)) : Option (EventNode α) → List (EventNode α) → Prop
  | start, [] => start = none
  | start, n :: ns => start = some n ∧ IsList next (next n.address) ns

theorem IsList.follow_eq {next : ℕ → Option (EventNode α)} {start : Option (EventNode α)}
    {ns : List (EventNode α)} (h : IsList next start ns) {fuel : ℕ} (hf : ns.length ≤ fuel) :
    follow next fuel start = ns := by
  induction ns generalizing start fuel with
  | nil =>
    rw [show start = none from h]
    cases fuel <;> rfl
  | cons n ns ih =>
    obtain ⟨rfl, h⟩ := h
    cases fuel with
    | zero => exact absurd hf (Nat.not_succ_le_zero _)
    | succ fuel => rw [follow, ih h (Nat.le_of_succ_le_succ hf)]

theorem IsList.update {next : ℕ → Option (EventNode α)} {start : Option (EventNode α)}
    {ns : List (EventNode α)} (h : IsList next start ns) {address : ℕ}
    (hne : address ∉ ns.map (·.address)) (target : Option (EventNode α)) :
    IsList (Function.update next address target) start ns := by
  induction ns generalizing start with
  | nil => exact h
  | cons n ns ih =>
    rw [List.map_cons, List.mem_cons, not_or] at hne
    obtain ⟨rfl, h⟩ := h
    refine ⟨rfl, ?_⟩
    rw [Function.update_of_ne (Ne.symm hne.1)]
    exact ih h hne.2

theorem IsList.nil_of_none {next : ℕ → Option (EventNode α)} {ns : List (EventNode α)}
    (h : IsList next none ns) : ns = [] := by
  cases ns with
  | nil => rfl
  | cons n ns => exact absurd h.1 (by simp)

theorem length_le_of_addresses {ns : List (EventNode α)} {bound : ℕ}
    (hnodup : (ns.map (·.address)).Nodup) (hlt : ∀ n ∈ ns, n.address < bound) :
    ns.length ≤ bound := by
  have hsub : ns.map (·.address) ⊆ List.range bound := by
    intro a ha
    obtain ⟨n, hn, rfl⟩ := List.mem_map.mp ha
    exact List.mem_range.mpr (hlt n hn)
  have := (List.subperm_of_subset hnodup hsub).length_le
  rwa [List.length_map, List.length_range] at this

/-! ### The invariant -/

/-- What the consumer holds: `rest` is still to be turned round, `turned` is. -/
def Holds (next : ℕ → Option (EventNode α)) :
    Consumer α → List (EventNode α) → List (EventNode α) → Prop
  | .reversing prev curr, rest, turned => IsList next curr rest ∧ IsList next prev turned
  | _, rest, turned => rest = [] ∧ turned = []

/-- The head that a producer has loaded. -/
def Producer.loaded? : Producer α → Option (EventNode α)
  | linking _ head => head
  | swapping _ head => head
  | _ => none

structure Inv (s : State α P) (stack rest turned : List (EventNode α)) : Prop where
  stack_list : IsList s.next s.head stack
  held : Holds s.next s.consumer rest turned
  order : s.pushed = s.returned.flatten ++ (rest.reverse ++ turned) ++ stack.reverse
  nodup : (s.pushed.map (·.address)).Nodup
  allocated : ∀ n ∈ s.pushed, n.address < s.allocated
  /-- A node that a producer has not pushed yet is its own. -/
  fresh : ∀ p n, (s.producers p).node? = some n →
    n.address < s.allocated ∧ n.address ∉ s.pushed.map (·.address)
  owned : ∀ p q n m, (s.producers p).node? = some n → (s.producers q).node? = some m →
    n.address = m.address → p = q
  linked : ∀ p n head, s.producers p = .swapping n head → s.next n.address = head
  loaded : ∀ p n, (s.producers p).loaded? = some n → n ∈ s.pushed
  signal : s.head ≠ none → s.notify ∨ (∃ p, s.producers p = .notifying) ∨ s.consumer = .popping

theorem inv_new : Inv (State.new : State α P) [] [] [] where
  stack_list := rfl
  held := ⟨rfl, rfl⟩
  order := rfl
  nodup := List.nodup_nil
  allocated _ h := absurd h List.not_mem_nil
  fresh _ _ h := by simp [State.new, Producer.node?] at h
  owned _ _ _ _ h := by simp [State.new, Producer.node?] at h
  linked _ _ _ h := by simp [State.new] at h
  loaded _ _ h := by simp [State.new, Producer.loaded?] at h
  signal h := absurd rfl h

namespace Inv

variable {s : State α P} {stack rest turned : List (EventNode α)}

theorem mem_pushed (h : Inv s stack rest turned) {n : EventNode α}
    (hn : n ∈ stack ∨ n ∈ rest ∨ n ∈ turned) : n ∈ s.pushed := by
  rw [h.order]
  rcases hn with hn | hn | hn <;> simp [hn]

/-- A node that is not pushed is in no list. -/
theorem not_mem_lists (h : Inv s stack rest turned) {address : ℕ}
    (hne : address ∉ s.pushed.map (·.address)) : address ∉ stack.map (·.address) ∧
      address ∉ rest.map (·.address) ∧ address ∉ turned.map (·.address) := by
  have hlist {ns : List (EventNode α)} (hns : ∀ n ∈ ns, n ∈ s.pushed) :
      address ∉ ns.map (·.address) := by
    intro hmem
    obtain ⟨n, hn, rfl⟩ := List.mem_map.mp hmem
    exact hne (List.mem_map_of_mem (hns n hn))
  exact ⟨hlist fun n hn => h.mem_pushed (Or.inl hn),
    hlist fun n hn => h.mem_pushed (Or.inr (Or.inl hn)),
    hlist fun n hn => h.mem_pushed (Or.inr (Or.inr hn))⟩

theorem held_update (h : Inv s stack rest turned) {address : ℕ}
    (hne : address ∉ s.pushed.map (·.address)) (target : Option (EventNode α)) :
    Holds (Function.update s.next address target) s.consumer rest turned := by
  obtain ⟨-, hrest, hturned⟩ := h.not_mem_lists hne
  have hheld := h.held
  cases hc : s.consumer with
  | waiting => rwa [hc] at hheld
  | popping => rwa [hc] at hheld
  | served => rwa [hc] at hheld
  | reversing prev curr =>
    rw [hc] at hheld
    exact ⟨hheld.1.update hrest target, hheld.2.update hturned target⟩

theorem head_mem (h : Inv s stack rest turned) {n : EventNode α} (hn : s.head = some n) :
    n ∈ s.pushed := by
  refine h.mem_pushed (Or.inl ?_)
  have hlist := h.stack_list
  cases stack with
  | nil => exact absurd (hn.symm.trans hlist) (by simp)
  | cons m stack =>
    obtain rfl := Option.some.inj (hn.symm.trans hlist.1)
    exact List.mem_cons_self

/-- Two pushed nodes of one address are one. -/
theorem eq_of_address (h : Inv s stack rest turned) {m n : EventNode α} (hm : m ∈ s.pushed)
    (hn : n ∈ s.pushed) (he : m.address = n.address) : m = n :=
  List.inj_on_of_nodup_map h.nodup hm hn he

/-- The head is that which was loaded: its node cannot have been pushed twice. -/
theorem head_eq {p : P} (h : Inv s stack rest turned) {node : EventNode α}
    {head : Option (EventNode α)} (hp : s.producers p = .swapping node head)
    (he : s.head.map (·.address) = head.map (·.address)) : s.head = head := by
  cases hhead : s.head with
  | none =>
    rw [hhead] at he
    exact (Option.map_eq_none_iff.mp he.symm).symm
  | some n =>
    rw [hhead] at he
    obtain ⟨m, hm, hmn⟩ := Option.map_eq_some_iff.mp he.symm
    rw [hm, h.eq_of_address (h.head_mem hhead) (h.loaded p m (by rw [hp]; exact hm)) hmn.symm]

end Inv

/-! ### Steps of a producer -/

section

variable [DecidableEq P] {s : State α P} {stack rest turned : List (EventNode α)} {p : P}

theorem update_node {x : Producer α} (hx : x.node? = (s.producers p).node?) (q : P) :
    (Function.update s.producers p x q).node? = (s.producers q).node? := by
  by_cases hq : q = p
  · rw [hq, Function.update_self, hx]
  · rw [Function.update_of_ne hq]

theorem update_notifying (x : Producer α) (hp : s.producers p ≠ .notifying)
    (h : ∃ q, s.producers q = .notifying) :
    ∃ q, Function.update s.producers p x q = .notifying := by
  obtain ⟨q, hq⟩ := h
  refine ⟨q, ?_⟩
  rwa [Function.update_of_ne]
  rintro rfl
  exact hp hq

theorem Inv.push (h : Inv s stack rest turned) (hp : s.producers p = .idle) (value : α) :
    Inv { s with
      producers := Function.update s.producers p (.loading ⟨s.allocated, value⟩)
      next := Function.update s.next s.allocated none
      allocated := s.allocated + 1 } stack rest turned := by
  have hnew : s.allocated ∉ s.pushed.map (·.address) := by
    intro hmem
    obtain ⟨n, hn, he⟩ := List.mem_map.mp hmem
    exact absurd he (Nat.ne_of_lt (h.allocated n hn))
  have hnode (q : P) (n : EventNode α) (hn : (Function.update s.producers p
      (.loading ⟨s.allocated, value⟩) q).node? = some n) :
      (q = p ∧ n = ⟨s.allocated, value⟩) ∨ (q ≠ p ∧ (s.producers q).node? = some n) := by
    by_cases hq : q = p
    · rw [hq, Function.update_self] at hn
      exact Or.inl ⟨hq, (Option.some.inj hn).symm⟩
    · rw [Function.update_of_ne hq] at hn
      exact Or.inr ⟨hq, hn⟩
  constructor
  · exact h.stack_list.update (h.not_mem_lists hnew).1 none
  · exact h.held_update hnew none
  · exact h.order
  · exact h.nodup
  · exact fun n hn => Nat.lt_succ_of_lt (h.allocated n hn)
  · intro q n hn
    rcases hnode q n hn with ⟨-, rfl⟩ | ⟨-, hn⟩
    · exact ⟨Nat.lt_succ_self _, hnew⟩
    · exact ⟨Nat.lt_succ_of_lt (h.fresh q n hn).1, (h.fresh q n hn).2⟩
  · intro q q' n m hn hm he
    rcases hnode q n hn with ⟨hq, rfl⟩ | ⟨-, hn⟩
    · rcases hnode q' m hm with ⟨hq', -⟩ | ⟨-, hm⟩
      · rw [hq, hq']
      · exact absurd he.symm (Nat.ne_of_lt (h.fresh q' m hm).1)
    · rcases hnode q' m hm with ⟨-, rfl⟩ | ⟨-, hm⟩
      · exact absurd he (Nat.ne_of_lt (h.fresh q n hn).1)
      · exact h.owned q q' n m hn hm he
  · intro q n head hq
    dsimp only at hq ⊢
    by_cases hqp : q = p
    · rw [hqp, Function.update_self] at hq
      simp at hq
    · rw [Function.update_of_ne hqp] at hq
      have hlt := (h.fresh q n (by rw [hq]; rfl)).1
      rw [Function.update_of_ne (Nat.ne_of_lt hlt)]
      exact h.linked q n head hq
  · intro q n hn
    dsimp only at hn ⊢
    by_cases hqp : q = p
    · rw [hqp, Function.update_self] at hn
      simp [Producer.loaded?] at hn
    · rw [Function.update_of_ne hqp] at hn
      exact h.loaded q n hn
  · intro hhead
    refine (h.signal hhead).imp_right (Or.imp_left (update_notifying _ ?_))
    simp [hp]

/-- A producer that goes on with its node, or without one as before, and writes nothing. -/
theorem Inv.producer (h : Inv s stack rest turned) {x : Producer α}
    (hx : x.node? = (s.producers p).node?)
    (hswap : ∀ n head, x = .swapping n head → s.next n.address = head)
    (hload : ∀ n, x.loaded? = some n → n ∈ s.pushed) (hp : s.producers p ≠ .notifying) :
    Inv { s with producers := Function.update s.producers p x } stack rest turned := by
  constructor
  · exact h.stack_list
  · exact h.held
  · exact h.order
  · exact h.nodup
  · exact h.allocated
  · intro q n hn
    rw [update_node hx] at hn
    exact h.fresh q n hn
  · intro q q' n m hn hm
    rw [update_node hx] at hn hm
    exact h.owned q q' n m hn hm
  · intro q n head hq
    dsimp only at hq ⊢
    by_cases hqp : q = p
    · rw [hqp, Function.update_self] at hq
      exact hswap n head hq
    · rw [Function.update_of_ne hqp] at hq
      exact h.linked q n head hq
  · intro q n hn
    dsimp only at hn ⊢
    by_cases hqp : q = p
    · rw [hqp, Function.update_self] at hn
      exact hload n hn
    · rw [Function.update_of_ne hqp] at hn
      exact h.loaded q n hn
  · exact fun hhead => (h.signal hhead).imp_right (Or.imp_left (update_notifying _ hp))

theorem Inv.load (h : Inv s stack rest turned) {node : EventNode α}
    (hp : s.producers p = .loading node) :
    Inv { s with producers := Function.update s.producers p (.linking node s.head) }
      stack rest turned := by
  refine h.producer (by rw [hp]; rfl) (by simp) ?_ (by simp [hp])
  intro n hn
  exact h.head_mem hn

theorem Inv.link (h : Inv s stack rest turned) {node : EventNode α}
    {head : Option (EventNode α)} (hp : s.producers p = .linking node head) :
    Inv { s with
      next := Function.update s.next node.address head
      producers := Function.update s.producers p (.swapping node head) } stack rest turned := by
  have hfresh := (h.fresh p node (by rw [hp]; rfl)).2
  have hnext : Inv { s with next := Function.update s.next node.address head }
      stack rest turned := by
    refine ⟨h.stack_list.update (h.not_mem_lists hfresh).1 head, h.held_update hfresh head,
      h.order, h.nodup, h.allocated, h.fresh, h.owned, ?_, h.loaded, h.signal⟩
    intro q n head' hq
    -- another producer's node is another node
    have hne : n.address ≠ node.address := by
      intro he
      obtain rfl := h.owned q p n node (by rw [hq]; rfl) (by rw [hp]; rfl) he
      rw [hp] at hq
      cases hq
    change Function.update s.next node.address head n.address = head'
    rw [Function.update_of_ne hne]
    exact h.linked q n head' hq
  refine hnext.producer (by rw [hp]; rfl) ?_ ?_ (by simp [hp])
  · intro n head' hx
    obtain ⟨rfl, rfl⟩ := Producer.swapping.inj hx
    exact Function.update_self _ _ _
  · intro n hn
    exact h.loaded p n (by rw [hp]; exact hn)

theorem Inv.swapped (h : Inv s stack rest turned) {node : EventNode α}
    {head : Option (EventNode α)} (hp : s.producers p = .swapping node head)
    (he : s.head.map (·.address) = head.map (·.address)) :
    Inv { s with
      head := some node
      producers := Function.update s.producers p (if head.isNone then .notifying else .idle)
      pushed := s.pushed ++ [node] } (node :: stack) rest turned := by
  have hhead := h.head_eq hp he
  have hfresh := h.fresh p node (by rw [hp]; rfl)
  have hnone : (if head.isNone then Producer.notifying else Producer.idle : Producer α).node? =
      none := by
    split <;> rfl
  have hother (q : P) (n : EventNode α) (hn : (Function.update s.producers p
      (if head.isNone then .notifying else .idle) q).node? = some n) :
      q ≠ p ∧ (s.producers q).node? = some n := by
    by_cases hq : q = p
    · rw [hq, Function.update_self, hnone] at hn
      cases hn
    · rw [Function.update_of_ne hq] at hn
      exact ⟨hq, hn⟩
  constructor
  · refine ⟨rfl, ?_⟩
    rw [h.linked p node head hp, ← hhead]
    exact h.stack_list
  · exact h.held
  · rw [h.order]
    simp
  · rw [List.map_append, List.nodup_append]
    refine ⟨h.nodup, List.nodup_singleton _, ?_⟩
    intro a ha b hb
    rw [List.map_singleton, List.mem_singleton] at hb
    rintro rfl
    exact hfresh.2 (hb ▸ ha)
  · intro n hn
    rcases List.mem_append.mp hn with hn | hn
    · exact h.allocated n hn
    · rw [List.mem_singleton.mp hn]
      exact hfresh.1
  · intro q n hn
    obtain ⟨hq, hn⟩ := hother q n hn
    refine ⟨(h.fresh q n hn).1, ?_⟩
    rw [List.map_append, List.mem_append, not_or]
    refine ⟨(h.fresh q n hn).2, ?_⟩
    rw [List.map_singleton, List.mem_singleton]
    exact fun he => hq (h.owned q p n node hn (by rw [hp]; rfl) he)
  · intro q q' n m hn hm he
    exact h.owned q q' n m (hother q n hn).2 (hother q' m hm).2 he
  · intro q n head' hq
    dsimp only at hq ⊢
    have hq' := hother q n (by rw [hq]; rfl)
    rw [Function.update_of_ne hq'.1] at hq
    exact h.linked q n head' hq
  · intro q n hn
    dsimp only at hn ⊢
    by_cases hq : q = p
    · rw [hq, Function.update_self] at hn
      split at hn <;> cases hn
    · rw [Function.update_of_ne hq] at hn
      exact List.mem_append_left _ (h.loaded q n hn)
  · intro _
    by_cases hempty : head.isNone
    · exact Or.inr (Or.inl ⟨p, by simp [hempty]⟩)
    · have hne : s.head ≠ none := by
        rw [hhead]
        simpa using hempty
      refine (h.signal hne).imp_right (Or.imp_left (update_notifying _ ?_))
      simp [hp]

theorem Inv.send (h : Inv s stack rest turned) (hp : s.producers p = .notifying) :
    Inv { s with notify := true, producers := Function.update s.producers p .idle }
      stack rest turned := by
  have hx : (Producer.idle : Producer α).node? = (s.producers p).node? := by
    rw [hp]
    rfl
  constructor
  · exact h.stack_list
  · exact h.held
  · exact h.order
  · exact h.nodup
  · exact h.allocated
  · intro q n hn
    rw [update_node hx] at hn
    exact h.fresh q n hn
  · intro q q' n m hn hm
    rw [update_node hx] at hn hm
    exact h.owned q q' n m hn hm
  · intro q n head hq
    dsimp only at hq ⊢
    by_cases hqp : q = p
    · rw [hqp, Function.update_self] at hq
      cases hq
    · rw [Function.update_of_ne hqp] at hq
      exact h.linked q n head hq
  · intro q n hn
    dsimp only at hn ⊢
    by_cases hqp : q = p
    · rw [hqp, Function.update_self] at hn
      cases hn
    · rw [Function.update_of_ne hqp] at hn
      exact h.loaded q n hn
  · exact fun _ => Or.inl rfl

end

/-! ### Steps of the consumer -/

section

variable {s : State α P} {stack rest turned : List (EventNode α)}

theorem Holds.empty {next : ℕ → Option (EventNode α)} {consumer : Consumer α}
    (h : Holds next consumer rest turned) (hc : ∀ prev curr, consumer ≠ .reversing prev curr) :
    rest = [] ∧ turned = [] := by
  cases consumer with
  | waiting => exact h
  | popping => exact h
  | served => exact h
  | reversing prev curr => exact absurd rfl (hc prev curr)

/-- The consumer goes on with nothing in its hands. -/
theorem Inv.consumer (h : Inv s stack rest turned) {x : Consumer α} {notify : Bool}
    (hs : ∀ prev curr, s.consumer ≠ .reversing prev curr)
    (hx : ∀ prev curr, x ≠ .reversing prev curr)
    (hsignal : s.head ≠ none →
      notify ∨ (∃ p, s.producers p = .notifying) ∨ x = .popping) :
    Inv { s with notify := notify, consumer := x } stack [] [] := by
  obtain ⟨rfl, rfl⟩ := h.held.empty hs
  refine ⟨h.stack_list, ?_, h.order, h.nodup, h.allocated, h.fresh, h.owned, h.linked, h.loaded,
    hsignal⟩
  cases x with
  | waiting => exact ⟨rfl, rfl⟩
  | popping => exact ⟨rfl, rfl⟩
  | served => exact ⟨rfl, rfl⟩
  | reversing prev curr => exact absurd rfl (hx prev curr)

theorem Inv.swap (h : Inv s stack rest turned) (hc : s.consumer = .popping) :
    ∃ rest', Inv { s with
      head := none
      consumer := if s.head.isNone then .waiting else .reversing none s.head } [] rest' [] := by
  obtain ⟨rfl, rfl⟩ := h.held.empty (by simp [hc])
  refine ⟨stack, rfl, ?_, by simp [h.order], h.nodup, h.allocated, h.fresh, h.owned, h.linked,
    h.loaded, fun hne => absurd rfl hne⟩
  have hlist := h.stack_list
  cases hhead : s.head with
  | none =>
    rw [hhead] at hlist
    exact ⟨hlist.nil_of_none, rfl⟩
  | some n =>
    rw [hhead] at hlist
    exact ⟨hlist, rfl⟩

theorem Inv.turn (h : Inv s stack rest turned) {prev : Option (EventNode α)} {curr : EventNode α}
    (hc : s.consumer = .reversing prev (some curr)) :
    ∃ rest', Inv { s with
      next := Function.update s.next curr.address prev
      consumer := .reversing (some curr) (s.next curr.address) } stack rest' (curr :: turned) ∧
        rest = curr :: rest' := by
  have hheld := h.held
  rw [hc] at hheld
  obtain ⟨hrest, hturned⟩ := hheld
  cases rest with
  | nil => cases hrest
  | cons n rest =>
    obtain ⟨hn, hrest⟩ := hrest
    obtain rfl := Option.some.inj hn
    have hmem : curr ∈ s.pushed := h.mem_pushed (Or.inr (Or.inl List.mem_cons_self))
    -- no node is in two of the lists, or twice in one
    have hnodup := h.nodup
    rw [h.order] at hnodup
    have hcurr : curr.address ∉ stack.map (·.address) ∧ curr.address ∉ rest.map (·.address) ∧
        curr.address ∉ turned.map (·.address) := by
      rw [List.map_append, List.map_append, List.map_append, List.map_reverse, List.map_cons,
        List.map_reverse, List.append_assoc] at hnodup
      have hheld := (List.nodup_append.mp hnodup).2.1
      have happ := List.nodup_append.mp hheld
      refine ⟨fun hm => ?_, fun hm => ?_, fun hm => ?_⟩
      · exact happ.2.2 _ (by simp) _ (List.mem_reverse.mpr hm) rfl
      · have hrev := (List.nodup_append.mp happ.1).1
        rw [List.nodup_reverse, List.nodup_cons] at hrev
        exact hrev.1 hm
      · exact (List.nodup_append.mp happ.1).2.2 _ (by simp) _ hm rfl
    refine ⟨rest, ⟨h.stack_list.update hcurr.1 prev, ⟨hrest.update hcurr.2.1 prev, rfl, ?_⟩,
      by simp [h.order], h.nodup, h.allocated, h.fresh, h.owned, ?_, h.loaded, ?_⟩, rfl⟩
    · dsimp only
      rw [Function.update_self]
      exact hturned.update hcurr.2.2 prev
    · intro p n head hp
      have hne : n.address ≠ curr.address := by
        intro he
        exact (h.fresh p n (by rw [hp]; rfl)).2 (he ▸ List.mem_map_of_mem hmem)
      dsimp only
      rw [Function.update_of_ne hne]
      exact h.linked p n head hp
    · exact fun hhead => (h.signal hhead).imp_right (Or.imp_right fun hx => by simp [hc] at hx)

/-- A list that a part of the pushed nodes makes is found by following it. -/
theorem Inv.follow_part (h : Inv s stack rest turned) {start : Option (EventNode α)}
    {ns a b : List (EventNode α)} (hlist : IsList s.next start ns) (hpart : s.pushed = a ++ ns ++ b) :
    follow s.next s.allocated start = ns := by
  refine hlist.follow_eq (length_le_of_addresses ?_ ?_)
  · have hnodup := h.nodup
    rw [hpart, List.map_append, List.map_append] at hnodup
    exact (List.nodup_append.mp (List.nodup_append.mp hnodup).1).2.1
  · intro n hn
    refine h.allocated n ?_
    rw [hpart]
    simp [hn]

theorem Inv.follow_reversed (h : Inv s stack rest turned) {start : Option (EventNode α)}
    {ns a b : List (EventNode α)} (hlist : IsList s.next start ns)
    (hpart : s.pushed = a ++ ns.reverse ++ b) : follow s.next s.allocated start = ns := by
  refine hlist.follow_eq (length_le_of_addresses ?_ ?_)
  · have hnodup := h.nodup
    rw [hpart, List.map_append, List.map_append, List.map_reverse] at hnodup
    exact List.nodup_reverse.mp (List.nodup_append.mp (List.nodup_append.mp hnodup).1).2.1
  · intro n hn
    refine h.allocated n ?_
    rw [hpart]
    simp [hn]

theorem Inv.follow_turned (h : Inv s stack rest turned) {prev curr : Option (EventNode α)}
    (hc : s.consumer = .reversing prev curr) :
    follow s.next s.allocated prev = turned ∧ follow s.next s.allocated curr = rest := by
  have hheld := h.held
  rw [hc] at hheld
  constructor
  · refine h.follow_part (a := s.returned.flatten ++ rest.reverse) (b := stack.reverse) hheld.2 ?_
    rw [h.order]
    simp
  · refine h.follow_reversed (a := s.returned.flatten) (b := turned ++ stack.reverse) hheld.1 ?_
    rw [h.order]
    simp

theorem Inv.follow_stack (h : Inv s stack rest turned) :
    follow s.next s.allocated s.head = stack := by
  refine h.follow_reversed (a := s.returned.flatten ++ (rest.reverse ++ turned)) (b := [])
    h.stack_list ?_
  rw [h.order]
  simp

theorem Inv.turn_end (h : Inv s stack rest turned) {prev : Option (EventNode α)}
    (hc : s.consumer = .reversing prev none) :
    Inv { s with
      consumer := .served
      returned := s.returned ++ [follow s.next s.allocated prev] } stack [] [] := by
  have hfollow := (h.follow_turned hc).1
  have hheld := h.held
  rw [hc] at hheld
  obtain rfl := hheld.1.nil_of_none
  refine ⟨h.stack_list, ⟨rfl, rfl⟩, ?_, h.nodup, h.allocated, h.fresh, h.owned, h.linked, h.loaded,
    ?_⟩
  · rw [h.order, hfollow]
    simp
  · exact fun hhead => (h.signal hhead).imp_right (Or.imp_right fun hx => by simp [hc] at hx)

end

/-! ### Runs -/

section

variable [DecidableEq P] {s t : State α P} {stack rest turned : List (EventNode α)}

theorem Inv.step (h : Inv s stack rest turned) {a : Action α P} (ht : step s a = some t) :
    ∃ stack rest turned, Inv t stack rest turned := by
  cases a with
  | push p value =>
    cases hp : s.producers p with
    | idle =>
      simp only [EventQueue.step, hp, Option.some.injEq] at ht
      exact ⟨stack, rest, turned, ht ▸ h.push hp value⟩
    | _ => simp [EventQueue.step, hp] at ht
  | load p =>
    cases hp : s.producers p with
    | loading node =>
      simp only [EventQueue.step, hp, Option.some.injEq] at ht
      exact ⟨stack, rest, turned, ht ▸ h.load hp⟩
    | _ => simp [EventQueue.step, hp] at ht
  | link p =>
    cases hp : s.producers p with
    | linking node head =>
      simp only [EventQueue.step, hp, Option.some.injEq] at ht
      exact ⟨stack, rest, turned, ht ▸ h.link hp⟩
    | _ => simp [EventQueue.step, hp] at ht
  | compareAndSwap p =>
    cases hp : s.producers p with
    | swapping node head =>
      simp only [EventQueue.step, hp] at ht
      by_cases he : s.head.map (·.address) = head.map (·.address)
      · rw [if_pos he, Option.some.injEq] at ht
        exact ⟨node :: stack, rest, turned, ht ▸ h.swapped hp he⟩
      · rw [if_neg he, Option.some.injEq] at ht
        refine ⟨stack, rest, turned, ht ▸ h.producer (by rw [hp]; rfl) ?_ ?_ (by simp [hp])⟩
        · intro n head' hx
          cases hx
        · intro n hn
          cases hn
    | _ => simp [EventQueue.step, hp] at ht
  | send p =>
    cases hp : s.producers p with
    | notifying =>
      simp only [EventQueue.step, hp, Option.some.injEq] at ht
      exact ⟨stack, rest, turned, ht ▸ h.send hp⟩
    | _ => simp [EventQueue.step, hp] at ht
  | receive =>
    cases hc : s.consumer with
    | waiting =>
      simp only [EventQueue.step, hc] at ht
      by_cases hn : s.notify
      · rw [if_pos hn, Option.some.injEq] at ht
        refine ⟨stack, [], [], ht ▸ h.consumer (by simp [hc]) (by simp) ?_⟩
        exact fun _ => Or.inr (Or.inr rfl)
      · rw [if_neg hn] at ht
        cases ht
    | _ => simp [EventQueue.step, hc] at ht
  | swap =>
    cases hc : s.consumer with
    | popping =>
      simp only [EventQueue.step, hc, Option.some.injEq] at ht
      obtain ⟨rest', h'⟩ := h.swap hc
      exact ⟨[], rest', [], ht ▸ h'⟩
    | _ => simp [EventQueue.step, hc] at ht
  | turn =>
    cases hc : s.consumer with
    | reversing prev curr =>
      cases curr with
      | none =>
        simp only [EventQueue.step, hc, Option.some.injEq] at ht
        exact ⟨stack, [], [], ht ▸ h.turn_end hc⟩
      | some curr =>
        simp only [EventQueue.step, hc, Option.some.injEq] at ht
        obtain ⟨rest', h', -⟩ := h.turn hc
        exact ⟨stack, rest', curr :: turned, ht ▸ h'⟩
    | _ => simp [EventQueue.step, hc] at ht
  | again =>
    cases hc : s.consumer with
    | served =>
      simp only [EventQueue.step, hc, Option.some.injEq] at ht
      refine ⟨stack, [], [], ht ▸ h.consumer (by simp [hc]) (by simp) ?_⟩
      exact fun _ => Or.inr (Or.inr rfl)
    | _ => simp [EventQueue.step, hc] at ht
  | wait =>
    cases hc : s.consumer with
    | served =>
      simp only [EventQueue.step, hc, Option.some.injEq] at ht
      refine ⟨stack, [], [], ht ▸ h.consumer (by simp [hc]) (by simp) ?_⟩
      exact fun hhead => (h.signal hhead).imp_right (Or.imp_right fun hx => by simp [hc] at hx)
    | _ => simp [EventQueue.step, hc] at ht

theorem inv_of_reaches (h : Reaches step (State.new : State α P) s) :
    ∃ stack rest turned, Inv s stack rest turned := by
  refine ReachesUnder.invariant (I := fun s => ∃ stack rest turned, Inv s stack rest turned)
    ⟨[], [], [], inv_new⟩ ?_ h
  rintro s a t ⟨stack, rest, turned, hs⟩ - ht
  exact hs.step ht

end

section

variable {s : State α P} {stack rest turned : List (EventNode α)}

theorem Inv.inOrder (h : Inv s stack rest turned) :
    s.pushed = s.returned.flatten ++ inHands s ++ queued s := by
  rw [queued, h.follow_stack, h.order, inHands]
  cases hc : s.consumer with
  | reversing prev curr =>
    obtain ⟨hturned, hrest⟩ := h.follow_turned hc
    simp only [hturned, hrest]
  | _ =>
    obtain ⟨rfl, rfl⟩ := h.held.empty (by simp [hc])
    rfl

theorem Inv.awake (h : Inv s stack rest turned) (hhead : s.head ≠ none)
    (hc : s.consumer = .waiting) : s.notify ∨ ∃ p, s.producers p = .notifying := by
  rcases h.signal hhead with hn | hn | hn
  · exact Or.inl hn
  · exact Or.inr hn
  · rw [hc] at hn
    cases hn

end

/-! ### What is left to the consumer -/

section

variable [DecidableEq P] {s t : State α P} {stack rest turned : List (EventNode α)}

/-- The consumer comes to return all events. -/
def Drains (s : State α P) : Prop :=
  ∃ t, ReachesUnder step Consumes s t ∧ t.pushed = s.pushed ∧ t.pushed = t.returned.flatten

theorem Drains.head {a : Action α P} (h : Drains t) (ht : step s a = some t) (ha : Consumes s a)
    (hpushed : t.pushed = s.pushed) : Drains s := by
  obtain ⟨u, hu, hup, hall⟩ := h
  exact ⟨u, Relation.ReflTransGen.head ⟨a, ha, ht⟩ hu, hup.trans hpushed, hall⟩

theorem Inv.drains_empty (h : Inv s [] [] []) : Drains s := by
  refine ⟨s, Relation.ReflTransGen.refl, rfl, ?_⟩
  rw [h.order]
  simp

theorem Inv.drains_reversing (h : Inv s stack rest turned) {prev curr : Option (EventNode α)}
    (hc : s.consumer = .reversing prev curr)
    (hserved : ∀ {t : State α P}, Inv t stack [] [] → t.consumer = .served → Drains t) :
    Drains s := by
  induction rest generalizing s prev curr turned with
  | nil =>
    have hheld := h.held
    rw [hc] at hheld
    obtain rfl : curr = none := hheld.1
    have ht := hserved (h.turn_end hc) rfl
    exact ht.head (a := .turn) (by simp only [EventQueue.step, hc]) trivial rfl
  | cons n rest ih =>
    have hheld := h.held
    rw [hc] at hheld
    obtain rfl := hheld.1.1
    obtain ⟨rest', h', he⟩ := h.turn hc
    obtain rfl := (List.cons.inj he).2
    have ht := ih h' rfl
    exact ht.head (a := .turn) (by simp only [EventQueue.step, hc]) trivial rfl

theorem Inv.drains_popping (h : Inv s stack rest turned) (hc : s.consumer = .popping) :
    Drains s := by
  obtain ⟨rest', h'⟩ := h.swap hc
  have ht : Drains { s with
      head := none
      consumer := if s.head.isNone then .waiting else .reversing none s.head } := by
    cases hhead : s.head with
    | none =>
      rw [hhead] at h'
      obtain ⟨rfl, -⟩ := h'.held
      exact h'.drains_empty
    | some n =>
      rw [hhead] at h'
      exact h'.drains_reversing rfl fun hu _ => hu.drains_empty
  exact ht.head (a := .swap) (by simp only [EventQueue.step, hc]) trivial rfl

theorem Inv.drains (h : Inv s stack rest turned) : Drains s := by
  have hserved {t : State α P} {stack : List (EventNode α)} (ht : Inv t stack [] [])
      (hc : t.consumer = .served) : Drains t := by
    have hu : Inv { t with consumer := .popping } stack [] [] :=
      ht.consumer (by simp [hc]) (by simp) fun _ => Or.inr (Or.inr rfl)
    exact (hu.drains_popping rfl).head (a := .again) (by simp only [EventQueue.step, hc]) trivial rfl
  have hnotified {t : State α P} {stack rest turned : List (EventNode α)}
      (ht : Inv t stack rest turned) (hc : t.consumer = .waiting) (hn : t.notify) : Drains t := by
    have hu : Inv { t with notify := false, consumer := .popping } stack [] [] :=
      ht.consumer (by simp [hc]) (by simp) fun _ => Or.inr (Or.inr rfl)
    exact (hu.drains_popping rfl).head (a := .receive)
      (by simp only [EventQueue.step, hc, hn, if_true]) trivial rfl
  cases hc : s.consumer with
  | popping => exact h.drains_popping hc
  | reversing prev curr => exact h.drains_reversing hc fun ht => hserved ht
  | served =>
    obtain ⟨rfl, rfl⟩ := h.held.empty (by simp [hc])
    exact hserved h hc
  | waiting =>
    by_cases hhead : s.head = none
    · obtain ⟨rfl, rfl⟩ := h.held.empty (by simp [hc])
      have hlist := h.stack_list
      rw [hhead] at hlist
      obtain rfl := hlist.nil_of_none
      exact h.drains_empty
    · rcases h.awake hhead hc with hn | ⟨p, hp⟩
      · exact hnotified h hc hn
      · have ht := hnotified (h.send hp) hc rfl
        exact ht.head (a := .send p) (by simp only [EventQueue.step, hp]) trivial rfl

/-- In every state that any number of producers and the consumer reach, in any order of their
steps, the queue delivers. -/
theorem queue_delivers (h : Reaches step (State.new : State α P) s) : Delivers s := by
  obtain ⟨stack, rest, turned, hs⟩ := inv_of_reaches h
  refine ⟨hs.inOrder, hs.nodup, hs.awake, ?_, hs.drains⟩
  intro hc hn hidle
  -- nobody is left to notify a consumer of a node on the stack
  have hhead : s.head = none := by
    by_contra hhead
    rcases hs.awake hhead hc with hn' | ⟨p, hp⟩
    · rw [hn] at hn'
      cases hn'
    · rw [hidle p] at hp
      cases hp
  obtain ⟨rfl, rfl⟩ := hs.held.empty (by simp [hc])
  have hlist := hs.stack_list
  rw [hhead] at hlist
  rw [hs.order, hlist.nil_of_none]
  simp

end

/-- Two producers race for the head and one has to load it again; the consumer turns both nodes
round and waits. -/
def race : List (Action ℕ Bool) :=
  [.push false 7, .push true 8, .load false, .load true, .link false, .link true,
    .compareAndSwap true, .compareAndSwap false, .load false, .link false, .compareAndSwap false,
    .send true, .receive, .swap, .turn, .turn, .turn, .wait]

theorem race_delivers : ∃ s : State ℕ Bool, Delivers s ∧
    s.returned.map (·.map (·.value)) = [[8, 7]] := by
  have hrun : (runUnder step (fun _ _ => True) (State.new : State ℕ Bool) race).any
      (fun s => s.returned.map (·.map (·.value)) = [[8, 7]]) = true := by decide
  obtain ⟨s, hs, hreturned⟩ := reachesUnder_of_test step _ _ _ _ hrun
  exact ⟨s, queue_delivers hs, by simpa using hreturned⟩

end Swazz.EventQueue
