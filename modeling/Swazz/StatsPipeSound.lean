import Mathlib.Data.List.Nodup
import Swazz.StatsPipe

/-! Every message that was taken is handled once, none is taken after the pipe was closed, and no
call of `send` is stuck then. -/
namespace Swazz.StatsPipe

open StepSystem

variable {α : Type} {s t : State α} {i j : ℕ} {p q : SendAt} {b : Body}

/-! ## Calls that move -/

theorem place_move (hi : s.place i = some p) :
    (s.move i q).place j = if j = i then some q else s.place j := by
  obtain ⟨c, hc, -⟩ := Option.map_eq_some_iff.mp hi
  unfold State.place State.move
  dsimp only
  split_ifs with hj
  · subst hj
    rw [List.getElem?_modify_eq, hc]
    rfl
  · rw [List.getElem?_modify_ne _ _ (Ne.symm hj)]

theorem msg_move : (s.move i q).calls[j]?.map (·.msg) = s.calls[j]?.map (·.msg) := by
  unfold State.move
  rw [List.getElem?_modify]
  cases s.calls[j]? with
  | none => rfl
  | some c =>
    by_cases hij : i = j
    · simp [hij]
    · simp [hij]

theorem active_none_iff (s : State α) : (s.calls.all fun c => !c.place.active) = true ↔
    ∀ i p, s.place i = some p → p.active = false := by
  rw [List.all_eq_true]
  constructor
  · intro h i p hp
    obtain ⟨c, hc, rfl⟩ := Option.map_eq_some_iff.mp hp
    simpa using h c (List.mem_of_getElem? hc)
  · intro h c hc
    obtain ⟨i, hi⟩ := List.mem_iff_getElem?.mp hc
    have hplace := h i c.place (by simp [State.place, hi])
    simp [hplace]

/-! ## What holds in every state -/

structure Inv (s : State α) : Prop where
  stop : s.stop = decide (s.once.rank ≤ 5)
  stopped : s.stopped = decide (s.once.rank ≤ 2)
  sealed : s.sealed = decide (s.once.rank = 0)
  /-- While the writer has the lock no reader has it. -/
  excluded : s.once.rank = 3 ∨ s.once.rank = 2 → ∀ i p, s.place i = some p → p.active = false
  /-- Once `stopped` is set nobody sends. -/
  refused : s.once.rank ≤ 2 → ∀ i p, s.place i = some p → p ≠ .selecting ∧ p ≠ .leaving true
  closing : s.once.rank = 7 → ∀ c ∈ s.closers, c = .entering
  inside : ∀ j b, s.once = .running j b → s.closers[j]? = some .inside
  drain : s.aggregator ≠ .running → s.once.rank = 0
  drained : s.aggregator = .exiting ∨ s.aggregator = .finished → s.ch = []
  done : s.done = decide (s.aggregator = .finished)
  closed : .returned ∈ s.closers → s.done = true
  queue : s.handled ++ s.ch = s.delivered
  once : (s.delivered.map Prod.fst).Nodup
  accepted : ∀ i, i ∈ s.delivered.map Prod.fst ↔ ∃ p, s.place i = some p ∧ p.accepted = true
  msgs : ∀ e ∈ s.delivered, s.calls[e.1]?.map (·.msg) = some e.2

theorem inv_new : Inv (newStatsPipe : State α) where
  stop := rfl
  stopped := rfl
  sealed := rfl
  excluded _ _ _ hp := by cases hp
  refused _ _ _ hp := by cases hp
  closing _ _ hc := absurd hc List.not_mem_nil
  inside _ _ ho := by cases ho
  drain hne := absurd rfl hne
  drained h := by rcases h with h | h <;> cases h
  done := rfl
  closed hr := absurd hr List.not_mem_nil
  queue := rfl
  once := List.nodup_nil
  accepted i := by
    constructor
    · intro hi
      exact absurd hi List.not_mem_nil
    · rintro ⟨p, hp, -⟩
      cases hp
  msgs _ he := absurd he List.not_mem_nil

/-- A call that goes on without sending. -/
theorem Inv.move (h : Inv s) (hi : s.place i = some p) (haccepted : q.accepted = p.accepted)
    (hactive : s.once.rank = 3 ∨ s.once.rank = 2 → p.active = false → q.active = false)
    (hrefused : s.once.rank ≤ 2 → q ≠ .selecting ∧ q ≠ .leaving true) : Inv (s.move i q) where
  stop := h.stop
  stopped := h.stopped
  sealed := h.sealed
  excluded hr k p' hp := by
    rw [place_move hi] at hp
    split_ifs at hp with hk
    · obtain rfl := Option.some.inj hp
      exact hactive hr (h.excluded hr i p hi)
    · exact h.excluded hr k p' hp
  refused hr k p' hp := by
    rw [place_move hi] at hp
    split_ifs at hp with hk
    · obtain rfl := Option.some.inj hp
      exact hrefused hr
    · exact h.refused hr k p' hp
  closing := h.closing
  inside := h.inside
  drain := h.drain
  drained := h.drained
  done := h.done
  closed := h.closed
  queue := h.queue
  once := h.once
  accepted k := by
    refine (h.accepted k).trans ?_
    rw [place_move hi]
    split_ifs with hk
    · subst hk
      rw [hi]
      simp [haccepted]
    · rfl
  msgs e he := msg_move.trans (h.msgs e he)

/-- A change to the closing calls alone. -/
theorem Inv.closers (h : Inv s) {closers : List CloseAt}
    (hclosing : s.once.rank = 7 → ∀ c ∈ closers, c = .entering)
    (hinside : ∀ j b, s.once = .running j b → closers[j]? = some .inside)
    (hclosed : .returned ∈ closers → s.done = true) : Inv { s with closers := closers } :=
  { h with closing := hclosing, inside := hinside, closed := hclosed }

theorem place_append (c : Call α) (k : ℕ) : ({ s with calls := s.calls ++ [c] } : State α).place k =
    if k = s.calls.length then some c.place else s.place k := by
  unfold State.place
  dsimp only
  split_ifs with hk
  · subst hk
    rw [List.getElem?_concat_length]
    rfl
  · rcases Nat.lt_or_ge k s.calls.length with hlt | hge
    · rw [List.getElem?_append_left hlt]
    · rw [List.getElem?_eq_none hge, List.getElem?_eq_none]
      rw [List.length_append, List.length_singleton]
      omega

theorem place_length (s : State α) : s.place s.calls.length = none := by
  unfold State.place
  rw [List.getElem?_eq_none (Nat.le_refl _)]
  rfl

theorem Inv.newCall (h : Inv s) (msg : α) (cancel : Option ℕ) :
    Inv { s with calls := s.calls ++ [⟨msg, cancel, .entering⟩] } where
  stop := h.stop
  stopped := h.stopped
  sealed := h.sealed
  excluded hr k p hp := by
    rw [place_append] at hp
    split_ifs at hp with hk
    · obtain rfl := Option.some.inj hp
      rfl
    · exact h.excluded hr k p hp
  refused hr k p hp := by
    rw [place_append] at hp
    split_ifs at hp with hk
    · obtain rfl := Option.some.inj hp
      exact ⟨SendAt.noConfusion, SendAt.noConfusion⟩
    · exact h.refused hr k p hp
  closing := h.closing
  inside := h.inside
  drain := h.drain
  drained := h.drained
  done := h.done
  closed := h.closed
  queue := h.queue
  once := h.once
  accepted k := by
    refine (h.accepted k).trans ?_
    rw [place_append]
    split_ifs with hk
    · subst hk
      rw [place_length]
      simp [SendAt.accepted]
    · rfl
  msgs e he := by
    have hmsg := h.msgs e he
    obtain ⟨c, hc, hce⟩ := Option.map_eq_some_iff.mp hmsg
    dsimp only
    rw [List.getElem?_append_left (List.getElem?_eq_some_iff.mp hc).1]
    exact hmsg

/-- A message that is put into the channel. -/
theorem Inv.push {c : Call α} (h : Inv s) (hi : s.place i = some .selecting)
    (hc : s.calls[i]? = some c) : Inv { s.move i (.leaving true) with
      ch := s.ch ++ [(i, c.msg)]
      delivered := s.delivered ++ [(i, c.msg)] } := by
  -- somebody is in the `select`, so that the writer was not there yet
  have hearly : ¬s.once.rank ≤ 2 := fun hr => (h.refused hr i _ hi).1 rfl
  have hout : ¬(s.once.rank = 3 ∨ s.once.rank = 2) := by
    intro hr
    cases h.excluded hr i _ hi
  have hnew : i ∉ s.delivered.map Prod.fst := by
    intro hmem
    obtain ⟨p, hp, haccepted⟩ := (h.accepted i).mp hmem
    rw [hi] at hp
    obtain rfl := Option.some.inj hp
    cases haccepted
  have hrunning : s.aggregator = .running := by
    by_contra hne
    have hzero := h.drain hne
    omega
  refine ⟨h.stop, h.stopped, h.sealed, fun hr => absurd hr hout, fun hr => absurd hr hearly,
    h.closing, h.inside, h.drain, fun hdrained => ?_, h.done, h.closed, ?_, ?_, fun k => ?_, ?_⟩
  · change s.aggregator = .exiting ∨ s.aggregator = .finished at hdrained
    rw [hrunning] at hdrained
    rcases hdrained with hd | hd <;> cases hd
  · change s.handled ++ (s.ch ++ _) = s.delivered ++ _
    rw [← List.append_assoc, h.queue]
  · dsimp only
    rw [List.map_append, List.nodup_append]
    refine ⟨h.once, List.nodup_singleton _, fun a ha b hb hab => hnew ?_⟩
    have hbi : b = i := List.mem_singleton.mp hb
    rwa [← hbi, ← hab]
  · change k ∈ (s.delivered ++ [(i, c.msg)]).map Prod.fst ↔
      ∃ p, (s.move i (.leaving true)).place k = some p ∧ p.accepted = true
    rw [List.map_append, List.mem_append, h.accepted k, place_move hi]
    split_ifs with hk
    · subst hk
      simp [SendAt.accepted]
    · simp [hk]
  · intro e he
    refine msg_move.trans ?_
    rcases List.mem_append.mp he with he | he
    · exact h.msgs e he
    · rw [List.mem_singleton.mp he, hc]
      rfl

theorem Inv.body (h : Inv s) (honce : s.once = .running j b) (ht : s.body j b = some t) :
    Inv t := by
  have hstop := h.stop
  have hstopped := h.stopped
  have hsealed := h.sealed
  have hinside := h.inside j b honce
  have hsame : ∀ b', ∀ k c, Once.running j b' = .running k c → s.closers[k]? = some .inside := by
    intro b' k c heq
    obtain ⟨rfl, -⟩ := Once.running.inj heq
    exact hinside
  have hopen : s.aggregator = .running := by
    by_contra hne
    have hzero := h.drain hne
    rw [honce] at hzero
    cases b <;> cases hzero
  have hundrained : ¬s.aggregator ≠ .running := fun hne => hne hopen
  rw [honce] at hstop hstopped hsealed
  cases b with
  | stopping =>
    obtain rfl := Option.some.inj ht
    exact { h with
      stop := rfl, stopped := hstopped, sealed := hsealed
      excluded := fun hr => by rcases hr with hr | hr <;> cases hr
      refused := fun hr => absurd (show 5 ≤ 2 from hr) (by decide)
      closing := fun hr => by cases hr
      inside := hsame _, drain := fun hne => absurd hne hundrained }
  | locking =>
    obtain rfl := Option.some.inj ht
    exact { h with
      stop := hstop, stopped := hstopped, sealed := hsealed
      excluded := fun hr => by rcases hr with hr | hr <;> cases hr
      refused := fun hr => absurd (show 4 ≤ 2 from hr) (by decide)
      closing := fun hr => by cases hr
      inside := hsame _, drain := fun hne => absurd hne hundrained }
  | announced =>
    obtain ⟨hnone, ht⟩ := Option.ite_none_right_eq_some.mp ht
    obtain rfl := Option.some.inj ht
    exact { h with
      stop := hstop, stopped := hstopped, sealed := hsealed
      excluded := fun _ => (active_none_iff s).mp hnone
      refused := fun hr => absurd (show 3 ≤ 2 from hr) (by decide)
      closing := fun hr => by cases hr
      inside := hsame _, drain := fun hne => absurd hne hundrained }
  | holding =>
    obtain rfl := Option.some.inj ht
    have hnone : ∀ i p, s.place i = some p → p.active = false :=
      h.excluded (Or.inl (by rw [honce]; rfl))
    exact { h with
      stop := hstop, stopped := rfl, sealed := hsealed
      excluded := fun _ => hnone
      refused := fun _ i p hp => by
        have hinactive := hnone i p hp
        constructor
        · intro hsel
          rw [hsel] at hinactive
          cases hinactive
        · intro hleave
          rw [hleave] at hinactive
          cases hinactive
      closing := fun hr => by cases hr
      inside := hsame _, drain := fun hne => absurd hne hundrained }
  | unlocking =>
    obtain rfl := Option.some.inj ht
    exact { h with
      stop := hstop, stopped := hstopped, sealed := hsealed
      excluded := fun hr => by rcases hr with hr | hr <;> cases hr
      refused := fun _ => h.refused (by rw [honce]; exact Nat.le_refl 2)
      closing := fun hr => by cases hr
      inside := hsame _, drain := fun hne => absurd hne hundrained }
  | sealing =>
    obtain rfl := Option.some.inj ht
    exact { h with
      stop := hstop, stopped := hstopped, sealed := rfl
      excluded := fun hr => by rcases hr with hr | hr <;> cases hr
      refused := fun _ => h.refused (by rw [honce]; exact Nat.le_succ 1)
      closing := fun hr => by cases hr
      inside := fun _ _ heq => by cases heq
      drain := fun _ => rfl
      closed := fun hr => by
        rcases List.mem_or_eq_of_mem_set hr with hr | hr
        · exact h.closed hr
        · cases hr }

theorem Inv.step {a : Action α} (h : Inv s) (ht : step s a = some t) : Inv t := by
  cases a with
  | send msg cancel =>
    obtain rfl := Option.some.inj ht
    exact h.newCall msg cancel
  | cancel c =>
    obtain rfl := Option.some.inj ht
    exact { h with }
  | close =>
    obtain rfl := Option.some.inj ht
    refine h.closers (fun hr c hc => ?_) (fun j b hb => ?_) (fun hr => ?_)
    · rcases List.mem_append.mp hc with hc | hc
      · exact h.closing hr c hc
      · exact List.mem_singleton.mp hc
    · have hin := h.inside j b hb
      rw [List.getElem?_append_left (List.getElem?_eq_some_iff.mp hin).1]
      exact hin
    · rcases List.mem_append.mp hr with hr | hr
      · exact h.closed hr
      · cases List.mem_singleton.mp hr
  | rLock i =>
    obtain ⟨⟨hi, hfree⟩, ht⟩ := Option.ite_none_right_eq_some.mp ht
    obtain rfl := Option.some.inj ht
    refine h.move hi rfl (fun hr _ => ?_) fun _ => ⟨SendAt.noConfusion, SendAt.noConfusion⟩
    unfold Once.blocks at hfree
    rcases hr with hr | hr <;> rw [hr] at hfree <;> cases hfree
  | check i =>
    obtain ⟨hi, ht⟩ := Option.ite_none_right_eq_some.mp ht
    obtain rfl := Option.some.inj ht
    refine h.move hi (by split_ifs <;> rfl) (fun _ hp => by cases hp) fun hr => ?_
    rw [h.stopped, if_pos (decide_eq_true hr)]
    exact ⟨SendAt.noConfusion, by decide⟩
  | push i =>
    obtain ⟨⟨hi, -⟩, ht⟩ := Option.ite_none_right_eq_some.mp ht
    obtain ⟨c, hc, ht⟩ := Option.bind_eq_some_iff.mp ht
    obtain rfl := Option.some.inj ht
    exact h.push hi hc
  | onStop i =>
    obtain ⟨⟨hi, -⟩, ht⟩ := Option.ite_none_right_eq_some.mp ht
    obtain rfl := Option.some.inj ht
    exact h.move hi rfl (fun _ hp => by cases hp) fun _ => ⟨SendAt.noConfusion, by decide⟩
  | onCancel i =>
    obtain ⟨⟨hi, -⟩, ht⟩ := Option.ite_none_right_eq_some.mp ht
    obtain rfl := Option.some.inj ht
    exact h.move hi rfl (fun _ hp => by cases hp) fun _ => ⟨SendAt.noConfusion, by decide⟩
  | rUnlock i =>
    rw [StatsPipe.step] at ht
    split at ht
    · rename_i ok hi
      obtain rfl := Option.some.inj ht
      exact h.move hi rfl (fun _ hp => by cases hp)
        fun _ => ⟨SendAt.noConfusion, SendAt.noConfusion⟩
    · cases ht
  | once j =>
    obtain ⟨hj, ht⟩ := Option.ite_none_right_eq_some.mp ht
    have hlt := (List.getElem?_eq_some_iff.mp hj).1
    split at ht
    · rename_i honce
      obtain rfl := Option.some.inj ht
      have hstop := h.stop
      have hstopped := h.stopped
      have hsealed := h.sealed
      rw [honce] at hstop hstopped hsealed
      exact { h with
        stop := hstop, stopped := hstopped, sealed := hsealed
        excluded := fun hr => by rcases hr with hr | hr <;> cases hr
        refused := fun hr => absurd (show 6 ≤ 2 from hr) (by decide)
        closing := fun hr => by cases hr
        inside := fun k b heq => by
          obtain ⟨rfl, -⟩ := Once.running.inj heq
          exact List.getElem?_set_self hlt
        drain := fun hne => by
          have hzero := h.drain hne
          rw [honce] at hzero
          cases hzero
        closed := fun hr => by
          rcases List.mem_or_eq_of_mem_set hr with hr | hr
          · exact h.closed hr
          · cases hr }
    · cases ht
    · rename_i honce
      obtain rfl := Option.some.inj ht
      refine h.closers (fun hr => ?_) (fun k b heq => ?_) (fun hr => ?_)
      · rw [honce] at hr
        cases hr
      · rw [honce] at heq
        cases heq
      · rcases List.mem_or_eq_of_mem_set hr with hr | hr
        · exact h.closed hr
        · cases hr
  | body j =>
    rw [StatsPipe.step] at ht
    split at ht
    · rename_i j' b honce
      obtain ⟨rfl, ht⟩ := Option.ite_none_right_eq_some.mp ht
      exact h.body honce ht
    · cases ht
  | wait j =>
    obtain ⟨⟨hj, hdone⟩, ht⟩ := Option.ite_none_right_eq_some.mp ht
    obtain rfl := Option.some.inj ht
    have hover : s.once.rank = 0 := by
      apply h.drain
      intro hrunning
      rw [h.done, hrunning] at hdone
      cases hdone
    refine h.closers (fun hr => ?_) (fun k b heq => ?_) (fun _ => hdone)
    · omega
    · rw [heq] at hover
      cases b <;> cases hover
  | receive =>
    rw [StatsPipe.step] at ht
    split at ht
    · rename_i m ch hch
      obtain ⟨hat, ht⟩ := Option.ite_none_right_eq_some.mp ht
      obtain rfl := Option.some.inj ht
      have hqueue := h.queue
      rw [hch] at hqueue
      exact { h with
        drained := fun hd => by
          rcases hat with hat | hat <;> rw [hat] at hd <;> rcases hd with hd | hd <;> cases hd
        queue := by
          dsimp only
          rw [List.append_assoc]
          exact hqueue }
    · cases ht
  | onSealed =>
    obtain ⟨⟨hrun, hsealed⟩, ht⟩ := Option.ite_none_right_eq_some.mp ht
    obtain rfl := Option.some.inj ht
    rw [h.sealed] at hsealed
    exact { h with
      drain := fun _ => of_decide_eq_true hsealed
      drained := fun hd => by rcases hd with hd | hd <;> cases hd
      done := by
        rw [h.done, hrun]
        rfl }
  | tick =>
    obtain ⟨-, ht⟩ := Option.ite_none_right_eq_some.mp ht
    obtain rfl := Option.some.inj ht
    exact h
  | drained =>
    obtain ⟨⟨hdraining, hempty⟩, ht⟩ := Option.ite_none_right_eq_some.mp ht
    obtain rfl := Option.some.inj ht
    exact { h with
      drain := fun _ => h.drain (by rw [hdraining]; decide)
      drained := fun _ => hempty
      done := by
        rw [h.done, hdraining]
        rfl }
  | closeDone =>
    obtain ⟨hexiting, ht⟩ := Option.ite_none_right_eq_some.mp ht
    obtain rfl := Option.some.inj ht
    exact { h with
      drain := fun _ => h.drain (by rw [hexiting]; decide)
      drained := fun _ => h.drained (Or.inl hexiting)
      done := rfl
      closed := fun _ => rfl }

theorem inv_of_reaches (h : Reaches step newStatsPipe s) : Inv s :=
  ReachesUnder.invariant inv_new (fun _ _ _ hs _ ht => hs.step ht) h

end Swazz.StatsPipe
