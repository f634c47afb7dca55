import Mathlib.Algebra.BigOperators.Group.List.Basic
import Swazz.StatsPipeSound

/-! Once the pipe is being closed every call of `send` returns, and what the calls reported is what
the aggregator handled. -/
namespace Swazz.StatsPipe

open StepSystem

variable {α : Type} {s t : State α} {a : Action α} {i : ℕ}

/-! ## What a step brings nearer -/

/-- How many steps of a call are left. -/
def SendAt.left : SendAt → ℕ
  | .entering => 4
  | .locked => 3
  | .selecting => 2
  | .leaving _ => 1
  | .returned _ => 0

/-- A step lets a call of `send` go on, or the function that is run once, or neither. -/
inductive Effect (s : State α) (a : Action α) (t : State α) : Prop where
  | call (i : ℕ) (p q : SendAt) (own : a.own = some (.send i)) (once : t.once = s.once)
      (calls : t.calls = (s.move i q).calls) (place : s.place i = some p) (left : q.left < p.left)
      (free : p = .entering → s.once.blocks = false)
  | body (calls : t.calls = s.calls) (rank : t.once.rank < s.once.rank)
      (other : ∀ i, a.own ≠ some (.send i))
  | same (once : t.once = s.once) (other : ∀ i, a.own ≠ some (.send i))
      (calls : t.calls = s.calls ∨ ∃ c, c.place = .entering ∧ t.calls = s.calls ++ [c])
      (idle : s.once = .idle → ∀ j, a.own ≠ some (.close j))
      (running : ∀ j b, s.once = .running j b → a.own ≠ some (.close j))

theorem rank_body {j : ℕ} {b : Body} (ht : s.body j b = some t) :
    t.calls = s.calls ∧ t.once.rank < (Once.running j b).rank := by
  cases b with
  | announced =>
    obtain ⟨-, ht⟩ := Option.ite_none_right_eq_some.mp ht
    obtain rfl := Option.some.inj ht
    exact ⟨rfl, Nat.lt_succ_self _⟩
  | _ =>
    obtain rfl := Option.some.inj ht
    exact ⟨rfl, Nat.lt_succ_self _⟩

theorem Inv.effect (h : Inv s) (ht : StatsPipe.step s a = some t) : Effect s a t := by
  have hnobody {a : Action α} (ha : a.own = none ∨ a.own = some .aggregator) (honce : t.once = s.once)
      (hcalls : t.calls = s.calls ∨ ∃ c, c.place = .entering ∧ t.calls = s.calls ++ [c]) :
      Effect s a t := by
    have hne : ∀ g, g ≠ .aggregator → a.own ≠ some g := by
      intro g hg heq
      rcases ha with ha | ha <;> rw [ha] at heq
      · cases heq
      · exact hg (Option.some.inj heq).symm
    exact .same honce (fun i => hne _ Goroutine.noConfusion) hcalls
      (fun _ j => hne _ Goroutine.noConfusion) fun j _ _ => hne _ Goroutine.noConfusion
  cases a with
  | send msg cancel =>
    obtain rfl := Option.some.inj ht
    exact hnobody (Or.inl rfl) rfl (Or.inr ⟨_, rfl, rfl⟩)
  | cancel c =>
    obtain rfl := Option.some.inj ht
    exact hnobody (Or.inl rfl) rfl (Or.inl rfl)
  | close =>
    obtain rfl := Option.some.inj ht
    exact hnobody (Or.inl rfl) rfl (Or.inl rfl)
  | rLock i =>
    obtain ⟨⟨hi, hfree⟩, ht⟩ := Option.ite_none_right_eq_some.mp ht
    obtain rfl := Option.some.inj ht
    exact .call i _ _ rfl rfl rfl hi (by decide) fun _ => hfree
  | check i =>
    obtain ⟨hi, ht⟩ := Option.ite_none_right_eq_some.mp ht
    obtain rfl := Option.some.inj ht
    exact .call i _ _ rfl rfl rfl hi (by split_ifs <;> decide) fun hp => by cases hp
  | push i =>
    obtain ⟨⟨hi, -⟩, ht⟩ := Option.ite_none_right_eq_some.mp ht
    obtain ⟨c, hc, ht⟩ := Option.bind_eq_some_iff.mp ht
    obtain rfl := Option.some.inj ht
    exact .call i _ _ rfl rfl rfl hi (by decide) fun hp => by cases hp
  | onStop i =>
    obtain ⟨⟨hi, -⟩, ht⟩ := Option.ite_none_right_eq_some.mp ht
    obtain rfl := Option.some.inj ht
    exact .call i _ _ rfl rfl rfl hi (by decide) fun hp => by cases hp
  | onCancel i =>
    obtain ⟨⟨hi, -⟩, ht⟩ := Option.ite_none_right_eq_some.mp ht
    obtain rfl := Option.some.inj ht
    exact .call i _ _ rfl rfl rfl hi (by decide) fun hp => by cases hp
  | rUnlock i =>
    rw [StatsPipe.step] at ht
    split at ht
    · rename_i ok hi
      obtain rfl := Option.some.inj ht
      exact .call i _ _ rfl rfl rfl hi (Nat.zero_lt_one) fun hp => by cases hp
    · cases ht
  | once j =>
    obtain ⟨hj, ht⟩ := Option.ite_none_right_eq_some.mp ht
    split at ht
    · rename_i honce
      obtain rfl := Option.some.inj ht
      exact .body rfl (by rw [honce]; exact Nat.lt_succ_self _) fun i heq => by cases heq
    · cases ht
    · rename_i honce
      obtain rfl := Option.some.inj ht
      refine .same rfl (fun i heq => by cases heq) (Or.inl rfl) (fun hidle => ?_)
        fun j b hrunning => ?_
      · rw [honce] at hidle
        cases hidle
      · rw [honce] at hrunning
        cases hrunning
  | body j =>
    rw [StatsPipe.step] at ht
    split at ht
    · rename_i j' b honce
      obtain ⟨rfl, ht⟩ := Option.ite_none_right_eq_some.mp ht
      obtain ⟨hcalls, hrank⟩ := rank_body ht
      exact .body hcalls (honce ▸ hrank) fun i heq => by cases heq
    · cases ht
  | wait j =>
    obtain ⟨⟨hj, -⟩, ht⟩ := Option.ite_none_right_eq_some.mp ht
    obtain rfl := Option.some.inj ht
    refine .same rfl (fun i heq => by cases heq) (Or.inl rfl) (fun hidle k _ => ?_)
      fun k b hrunning heq => ?_
    · have hentering := h.closing (by rw [hidle]; rfl) _ (List.mem_of_getElem? hj)
      cases hentering
    · obtain rfl := Goroutine.close.inj (Option.some.inj heq)
      have hinside := h.inside j b hrunning
      rw [hj] at hinside
      cases hinside
  | receive =>
    rw [StatsPipe.step] at ht
    split at ht
    · obtain ⟨-, ht⟩ := Option.ite_none_right_eq_some.mp ht
      obtain rfl := Option.some.inj ht
      exact hnobody (Or.inr rfl) rfl (Or.inl rfl)
    · cases ht
  | onSealed =>
    obtain ⟨-, ht⟩ := Option.ite_none_right_eq_some.mp ht
    obtain rfl := Option.some.inj ht
    exact hnobody (Or.inr rfl) rfl (Or.inl rfl)
  | tick =>
    obtain ⟨-, ht⟩ := Option.ite_none_right_eq_some.mp ht
    obtain rfl := Option.some.inj ht
    exact hnobody (Or.inr rfl) rfl (Or.inl rfl)
  | drained =>
    obtain ⟨-, ht⟩ := Option.ite_none_right_eq_some.mp ht
    obtain rfl := Option.some.inj ht
    exact hnobody (Or.inr rfl) rfl (Or.inl rfl)
  | closeDone =>
    obtain ⟨-, ht⟩ := Option.ite_none_right_eq_some.mp ht
    obtain rfl := Option.some.inj ht
    exact hnobody (Or.inr rfl) rfl (Or.inl rfl)

theorem Effect.rank_le (h : Effect s a t) : t.once.rank ≤ s.once.rank := by
  cases h with
  | call i p q own once => rw [once]
  | body calls rank => exact Nat.le_of_lt rank
  | same once => rw [once]

/-- How much of the readers' work is left. -/
def State.readers (s : State α) : ℕ :=
  (s.calls.map fun c => if c.place.active then c.place.left else 0).sum

theorem sum_modify {β : Type} (f : β → ℕ) (g : β → β) {l : List β} {b : β} (hi : l[i]? = some b) :
    ((l.modify i g).map f).sum + f b = (l.map f).sum + f (g b) := by
  induction l generalizing i with
  | nil => cases hi
  | cons c l ih =>
    cases i with
    | zero =>
      obtain rfl := Option.some.inj hi
      simp only [List.modify_zero_cons, List.map_cons, List.sum_cons]
      omega
    | succ i =>
      have hrest := ih (by simpa using hi)
      simp only [List.modify_succ_cons, List.map_cons, List.sum_cons]
      omega

/-- Behind the writer the readers come to an end. -/
theorem Effect.readers (h : Effect s a t) (hblocks : s.once.blocks = true) :
    t.readers < s.readers ∧ t.once = s.once ∨
      t.readers = s.readers ∧ t.once.rank < s.once.rank ∨
      t.readers = s.readers ∧ t.once = s.once ∧ (∀ i, a.own ≠ some (.send i)) ∧
        (∀ j b, s.once = .running j b → a.own ≠ some (.close j)) ∧
        (t.calls = s.calls ∨ ∃ c, c.place = .entering ∧ t.calls = s.calls ++ [c]) := by
  cases h with
  | call i p q own once calls place left free =>
    refine Or.inl ⟨?_, once⟩
    obtain ⟨c, hc, rfl⟩ := Option.map_eq_some_iff.mp place
    have hactive : c.place.active = true := by
      cases hp : c.place with
      | entering =>
        rw [free hp] at hblocks
        cases hblocks
      | returned ok =>
        rw [hp] at left
        cases left
      | _ => rfl
    have hsum := sum_modify (fun c : Call α => if c.place.active then c.place.left else 0)
      (fun c => { c with place := q }) hc
    have hq : (if q.active = true then q.left else 0) ≤ q.left := by
      split_ifs <;> omega
    unfold State.readers
    rw [calls]
    rw [if_pos hactive] at hsum
    change _ = _ + if q.active = true then q.left else 0 at hsum
    dsimp only [State.move]
    omega
  | body calls rank =>
    refine Or.inr (Or.inl ⟨?_, rank⟩)
    unfold State.readers
    rw [calls]
  | same once other calls _ running =>
    refine Or.inr (Or.inr ⟨?_, once, other, running, calls⟩)
    unfold State.readers
    rcases calls with calls | ⟨c, hc, calls⟩
    · rw [calls]
    · rw [calls, List.map_append, List.sum_append]
      simp [hc, SendAt.active]

/-! ## Fair runs -/

/-- Every goroutine gets its turn. -/
def Fair (run : InfiniteRun step (newStatsPipe : State α)) : Prop :=
  ∀ g, run.WeaklyFair fun _ a => a.own = some g

variable {run : InfiniteRun StatsPipe.step (newStatsPipe : State α)} {n k : ℕ}

theorem effect_at (ht : step (run.state k) a = some (run.state (k + 1))) :
    Effect (run.state k) a (run.state (k + 1)) :=
  (inv_of_reaches (run.reaches k)).effect ht

theorem rank_kept {r : ℕ} (hn : (run.state n).once.rank ≤ r) (hk : n ≤ k) :
    (run.state k).once.rank ≤ r := by
  refine run.kept (I := fun s => s.once.rank ≤ r) hn (fun k a _ hI ht => ?_) hk
  exact Nat.le_trans (effect_at ht).rank_le hI

theorem step_length {a : Action α} (ht : step s a = some t) :
    s.closers.length ≤ t.closers.length := by
  cases a with
  | close =>
    obtain rfl := Option.some.inj ht
    simp
  | once j =>
    obtain ⟨-, ht⟩ := Option.ite_none_right_eq_some.mp ht
    split at ht
    · obtain rfl := Option.some.inj ht
      simp
    · cases ht
    · obtain rfl := Option.some.inj ht
      simp
  | body j =>
    rw [step] at ht
    split at ht
    · rename_i j' b honce
      obtain ⟨-, ht⟩ := Option.ite_none_right_eq_some.mp ht
      cases b with
      | announced =>
        obtain ⟨-, ht⟩ := Option.ite_none_right_eq_some.mp ht
        obtain rfl := Option.some.inj ht
        exact Nat.le_refl _
      | sealing =>
        obtain rfl := Option.some.inj ht
        simp
      | _ =>
        obtain rfl := Option.some.inj ht
        exact Nat.le_refl _
    · cases ht
  | wait j =>
    obtain ⟨-, ht⟩ := Option.ite_none_right_eq_some.mp ht
    obtain rfl := Option.some.inj ht
    simp
  | push i =>
    obtain ⟨-, ht⟩ := Option.ite_none_right_eq_some.mp ht
    obtain ⟨c, -, ht⟩ := Option.bind_eq_some_iff.mp ht
    obtain rfl := Option.some.inj ht
    exact Nat.le_refl _
  | rUnlock i | receive =>
    rw [step] at ht
    split at ht
    · first
      | obtain ⟨-, ht⟩ := Option.ite_none_right_eq_some.mp ht
        obtain rfl := Option.some.inj ht
        exact Nat.le_refl _
      | obtain rfl := Option.some.inj ht
        exact Nat.le_refl _
    · cases ht
  | send msg cancel =>
    obtain rfl := Option.some.inj ht
    exact Nat.le_refl _
  | cancel c =>
    obtain rfl := Option.some.inj ht
    exact Nat.le_refl _
  | _ =>
    obtain ⟨-, ht⟩ := Option.ite_none_right_eq_some.mp ht
    obtain rfl := Option.some.inj ht
    exact Nat.le_refl _

/-- Whose turn it is to bring the closing on, before anybody holds the lock for writing. -/
def State.closer (s : State α) : Goroutine :=
  match s.once with
  | .running j _ => .close j
  | _ => .close 0

theorem eventually_announced (hfair : Fair run) (hclose : (run.state n).closers ≠ []) :
    ∃ k, n ≤ k ∧ (run.state k).once.rank ≤ 4 := by
  have hlength {k : ℕ} (hk : n ≤ k) : 0 < (run.state k).closers.length := by
    refine run.kept (I := fun s => 0 < s.closers.length) (List.length_pos_iff.mpr hclose) ?_ hk
    intro k a _ hI ht
    exact Nat.lt_of_lt_of_le hI (step_length ht)
  refine InfiniteRun.reaches_by_turns (V := fun s => s.once.rank) (h := State.closer)
    (P := fun s => s.once.rank ≤ 4) hfair (fun k a hk hnot ht => ?_) fun k hk hnot => ?_
  · refine Or.inr ?_
    cases effect_at ht with
    | call i p q own once =>
      refine Or.inr ⟨congrArg Once.rank once, ?_, ?_⟩
      · unfold State.closer
        rw [once]
      · rw [own]
        unfold State.closer
        split <;> exact fun heq => Goroutine.noConfusion (Option.some.inj heq)
    | body calls rank => exact Or.inl rank
    | same once other calls idle running =>
      refine Or.inr ⟨congrArg Once.rank once, ?_, ?_⟩
      · unfold State.closer
        rw [once]
      · cases honce : (run.state k).once with
        | idle =>
          unfold State.closer
          rw [honce]
          exact idle honce 0
        | running j b =>
          unfold State.closer
          rw [honce]
          exact running j b honce
        | ended =>
          rw [honce] at hnot
          exact absurd (Nat.zero_le 4) hnot
  · have hinv := inv_of_reaches (run.reaches k)
    unfold State.closer
    cases honce : (run.state k).once with
    | idle =>
      refine ⟨.once 0, rfl, ?_⟩
      have hfirst : (run.state k).closers[0]? = some .entering := by
        rw [List.getElem?_eq_getElem (hlength hk)]
        exact congrArg some (hinv.closing (by rw [honce]; rfl) _ (List.getElem_mem _))
      simp [step, hfirst, honce]
    | running j b =>
      refine ⟨.body j, rfl, ?_⟩
      rw [honce] at hnot
      cases b with
      | stopping => simp [step, honce, State.body]
      | locking => simp [step, honce, State.body]
      | _ => exact absurd (Nat.le_of_ble_eq_true rfl) hnot
    | ended =>
      rw [honce] at hnot
      exact absurd (Nat.zero_le 4) hnot

/-- The first reader, or the writer behind the last one. -/
def State.turn (s : State α) : Goroutine :=
  match s.calls.findIdx? (·.place.active) with
  | some i => .send i
  | none => s.closer

theorem turn_append {c : Call α} (hc : c.place = .entering) (hcalls : t.calls = s.calls ++ [c])
    (honce : t.once = s.once) : t.turn = s.turn := by
  have hlast : [c].findIdx? (·.place.active) = none := by simp [hc, SendAt.active]
  unfold State.turn State.closer
  rw [hcalls, honce, List.findIdx?_append, hlast]
  cases s.calls.findIdx? (·.place.active) <;> rfl

/-- A reader can go on once `stop` is closed. -/
theorem reader_goes_on {p : SendAt} (hstop : s.stop = true) (hi : s.place i = some p)
    (hactive : p.active = true) : ∃ a : Action α, a.own = some (.send i) ∧ (step s a).isSome := by
  cases p with
  | locked => exact ⟨.check i, rfl, by simp [step, hi]⟩
  | selecting => exact ⟨.onStop i, rfl, by simp [step, hi, hstop]⟩
  | leaving ok => exact ⟨.rUnlock i, rfl, by simp [step, hi]⟩
  | _ => cases hactive

/-- What the function that is run once is about to do while it blocks new readers. -/
theorem running_of_blocks (hblocks : s.once.blocks = true) : ∃ j b, s.once = .running j b ∧
    (b = .announced ∨ b = .holding ∨ b = .unlocking) := by
  cases honce : s.once with
  | running j b =>
    rw [honce] at hblocks
    refine ⟨j, b, rfl, ?_⟩
    cases b with
    | announced => exact Or.inl rfl
    | holding => exact Or.inr (Or.inl rfl)
    | unlocking => exact Or.inr (Or.inr rfl)
    | _ => cases hblocks
  | _ =>
    rw [honce] at hblocks
    cases hblocks

theorem eventually_released (hfair : Fair run) (hn : (run.state n).once.rank ≤ 4) :
    ∃ k, n ≤ k ∧ (run.state k).once.rank ≤ 1 := by
  have hblocks {k : ℕ} (hk : n ≤ k) (hnot : ¬(run.state k).once.rank ≤ 1) :
      (run.state k).once.blocks = true := by
    have hle := rank_kept hn hk
    have hge : 2 ≤ (run.state k).once.rank := by omega
    simp [Once.blocks, hle, hge]
  refine InfiniteRun.reaches_by_turns (V := fun s => s.once.rank + s.readers) (h := State.turn)
    (P := fun s => s.once.rank ≤ 1) hfair (fun k a hk hnot ht => ?_) fun k hk hnot => ?_
  · refine Or.inr ?_
    rcases (effect_at ht).readers (hblocks hk hnot) with ⟨hlt, honce⟩ | ⟨heq, hlt⟩ |
      ⟨heq, honce, hother, hrunning, hcalls⟩
    · exact Or.inl (by rw [honce]; omega)
    · exact Or.inl (by omega)
    · refine Or.inr ⟨by rw [heq, honce], ?_, ?_⟩
      · rcases hcalls with hcalls | ⟨c, hc, hcalls⟩
        · unfold State.turn State.closer
          rw [hcalls, honce]
        · exact turn_append hc hcalls honce
      · obtain ⟨j, b, hb, -⟩ := running_of_blocks (hblocks hk hnot)
        unfold State.turn
        cases (run.state k).calls.findIdx? (·.place.active) with
        | some i => exact hother i
        | none =>
          unfold State.closer
          rw [hb]
          exact hrunning j b hb
  · have hinv := inv_of_reaches (run.reaches k)
    unfold State.turn
    cases hfind : (run.state k).calls.findIdx? (·.place.active) with
    | some i =>
      obtain ⟨hlt, hactive, -⟩ := List.findIdx?_eq_some_iff_getElem.mp hfind
      have hplace : (run.state k).place i = some (run.state k).calls[i].place := by
        simp [State.place, List.getElem?_eq_getElem hlt]
      have hle := rank_kept hn hk
      exact reader_goes_on (hinv.stop.trans (decide_eq_true (by omega))) hplace hactive
    | none =>
      obtain ⟨j, b, hb, hwhich⟩ := running_of_blocks (hblocks hk hnot)
      refine ⟨.body j, ?_, ?_⟩
      · unfold State.closer
        rw [hb]
        rfl
      · rcases hwhich with rfl | rfl | rfl
        · have hnone : ((run.state k).calls.all fun c => !c.place.active) = true := by
            rw [List.all_eq_true]
            intro c hc
            simpa using List.findIdx?_eq_none_iff.mp hfind c hc
          simp only [step, hb, State.body, hnone]
          rfl
        · simp [step, hb, State.body]
        · simp [step, hb, State.body]

def State.HasReturned (s : State α) (i : ℕ) : Prop := ∃ ok, s.place i = some (.returned ok)

theorem place_kept (hi : (run.state n).place i ≠ none) (hk : n ≤ k) :
    (run.state k).place i ≠ none := by
  refine run.kept (I := fun s => s.place i ≠ none) hi (fun k a _ hI ht => ?_) hk
  cases effect_at ht with
  | call i' p q own once calls place =>
    change (run.state (k + 1)).calls[i]?.map (·.place) ≠ none
    rw [calls]
    change ((run.state k).move i' q).place i ≠ none
    rw [place_move place]
    split_ifs
    · exact Option.some_ne_none _
    · exact hI
  | body calls =>
    unfold State.place
    rwa [calls]
  | same once other calls =>
    rcases calls with calls | ⟨c, hc, calls⟩
    · unfold State.place
      rwa [calls]
    · change (run.state (k + 1)).calls[i]?.map (·.place) ≠ none
      rw [calls]
      change ({ run.state k with calls := (run.state k).calls ++ [c] } : State α).place i ≠ none
      rw [place_append]
      split_ifs
      · exact Option.some_ne_none _
      · exact hI

theorem eventually_returned (hfair : Fair run) (hn : (run.state n).once.rank ≤ 1)
    (hi : (run.state n).place i ≠ none) : ∃ k, n ≤ k ∧ (run.state k).HasReturned i := by
  refine InfiniteRun.reaches_by_turns (V := fun s => (s.place i).elim 0 SendAt.left)
    (h := fun _ => .send i) (P := fun s => s.HasReturned i) hfair (fun k a hk hnot ht => ?_)
    fun k hk hnot => ?_
  · refine Or.inr ?_
    have hhere := place_kept hi hk
    cases effect_at ht with
    | call i' p q own once calls place left =>
      have hplace : (run.state (k + 1)).place i = ((run.state k).move i' q).place i := by
        unfold State.place
        rw [calls]
      rw [hplace, place_move place]
      by_cases hii : i = i'
      · subst hii
        rw [if_pos rfl, place]
        exact Or.inl left
      · rw [if_neg hii, own]
        exact Or.inr ⟨rfl, rfl, fun heq => hii (Goroutine.send.inj (Option.some.inj heq)).symm⟩
    | body calls rank other =>
      refine Or.inr ⟨?_, rfl, other i⟩
      unfold State.place
      rw [calls]
    | same once other calls =>
      refine Or.inr ⟨?_, rfl, other i⟩
      rcases calls with calls | ⟨c, hc, calls⟩
      · unfold State.place
        rw [calls]
      · have hplace : (run.state (k + 1)).place i =
            ({ run.state k with calls := (run.state k).calls ++ [c] } : State α).place i := by
          unfold State.place
          rw [calls]
        rw [hplace, place_append, if_neg]
        intro heq
        exact hhere (heq ▸ place_length _)
  · have hle := rank_kept hn hk
    cases hp : (run.state k).place i with
    | none => exact absurd hp (place_kept hi hk)
    | some p =>
      have hinv := inv_of_reaches (run.reaches k)
      have hstop : (run.state k).stop = true := hinv.stop.trans (decide_eq_true (by omega))
      cases p with
      | returned ok => exact absurd ⟨ok, hp⟩ hnot
      | entering =>
        have hfree : (run.state k).once.blocks = false := by
          have hlt : ¬2 ≤ (run.state k).once.rank := by omega
          simp [Once.blocks, hlt]
        exact ⟨.rLock i, rfl, by simp [step, hp, hfree]⟩
      | _ => exact reader_goes_on hstop hp rfl

/-! ## The whole -/

/-- The call `i` of `send` returned true, or is about to. -/
def State.Succeeds (s : State α) (i : ℕ) : Prop := ∃ p, s.place i = some p ∧ p.accepted = true

/-- When `done` is closed, the message of each call that succeeded was handled, and once. -/
theorem Inv.counted (h : Inv s) (hdone : s.done = true) {c : Call α} (hc : s.calls[i]? = some c)
    (hok : s.Succeeds i) : s.handled.filter (·.1 = i) = [(i, c.msg)] := by
  have hempty : s.ch = [] := by
    apply h.drained
    right
    rw [h.done] at hdone
    exact of_decide_eq_true hdone
  have hall : s.handled = s.delivered := by
    rw [← h.queue, hempty, List.append_nil]
  have hin : (i, c.msg) ∈ s.delivered := by
    obtain ⟨e, he, rfl⟩ := List.mem_map.mp ((h.accepted i).mpr hok)
    have hmsg := h.msgs e he
    rw [hc] at hmsg
    have hsame : c.msg = e.2 := Option.some.inj hmsg
    rwa [hsame]
  have honce := h.once
  rw [hall]
  obtain ⟨front, back, hsplit⟩ := List.append_of_mem hin
  rw [hsplit, List.map_append, List.map_cons, List.nodup_append, List.nodup_cons] at honce
  obtain ⟨-, ⟨hback, -⟩, hfront⟩ := honce
  rw [hsplit, List.filter_append, List.filter_cons_of_pos (by simp)]
  have hnone_front : front.filter (·.1 = i) = [] := by
    refine List.filter_eq_nil_iff.mpr fun e he heq => ?_
    exact hfront e.1 (List.mem_map_of_mem he) i List.mem_cons_self (of_decide_eq_true heq)
  have hnone_back : back.filter (·.1 = i) = [] := by
    refine List.filter_eq_nil_iff.mpr fun e he heq => ?_
    have hmem : e.1 ∈ back.map Prod.fst := List.mem_map_of_mem he
    have hsame : e.1 = i := of_decide_eq_true heq
    exact hback (hsame ▸ hmem)
  rw [hnone_front, hnone_back, List.nil_append]

theorem delivered_step (ht : step s a = some t) :
    t.delivered = s.delivered ∨ ∃ i, s.place i = some .selecting := by
  cases a with
  | push i =>
    obtain ⟨⟨hi, -⟩, -⟩ := Option.ite_none_right_eq_some.mp ht
    exact Or.inr ⟨i, hi⟩
  | send msg cancel =>
    obtain rfl := Option.some.inj ht
    exact Or.inl rfl
  | cancel c =>
    obtain rfl := Option.some.inj ht
    exact Or.inl rfl
  | close =>
    obtain rfl := Option.some.inj ht
    exact Or.inl rfl
  | once j =>
    obtain ⟨-, ht⟩ := Option.ite_none_right_eq_some.mp ht
    split at ht
    · obtain rfl := Option.some.inj ht
      exact Or.inl rfl
    · cases ht
    · obtain rfl := Option.some.inj ht
      exact Or.inl rfl
  | body j =>
    rw [step] at ht
    split at ht
    · rename_i j' b honce
      obtain ⟨-, ht⟩ := Option.ite_none_right_eq_some.mp ht
      cases b with
      | announced =>
        obtain ⟨-, ht⟩ := Option.ite_none_right_eq_some.mp ht
        obtain rfl := Option.some.inj ht
        exact Or.inl rfl
      | _ =>
        obtain rfl := Option.some.inj ht
        exact Or.inl rfl
    · cases ht
  | rUnlock i =>
    rw [step] at ht
    split at ht
    · obtain rfl := Option.some.inj ht
      exact Or.inl rfl
    · cases ht
  | receive =>
    rw [step] at ht
    split at ht
    · obtain ⟨-, ht⟩ := Option.ite_none_right_eq_some.mp ht
      obtain rfl := Option.some.inj ht
      exact Or.inl rfl
    · cases ht
  | _ =>
    obtain ⟨-, ht⟩ := Option.ite_none_right_eq_some.mp ht
    obtain rfl := Option.some.inj ht
    exact Or.inl rfl

/-- Once a call of `close` returned, the calls of `send` that succeed have returned too. -/
theorem returned_of_closed (hs : Reaches step newStatsPipe s) (hclosed : .returned ∈ s.closers)
    (ht : Reaches step s t) (hok : t.Succeeds i) : s.place i = some (.returned true) := by
  have hinv := inv_of_reaches hs
  have hrank : s.once.rank = 0 := by
    apply hinv.drain
    intro hrunning
    have hdone := hinv.closed hclosed
    rw [hinv.done, hrunning] at hdone
    cases hdone
  have hkept : Inv t ∧ t.once.rank = 0 ∧ t.delivered = s.delivered := by
    refine ReachesUnder.invariant (I := fun t => Inv t ∧ t.once.rank = 0 ∧
      t.delivered = s.delivered) ⟨hinv, hrank, rfl⟩ ?_ ht
    intro u a v hI _ hv
    obtain ⟨hu, hzero, hsame⟩ := hI
    refine ⟨hu.step hv, Nat.le_zero.mp (hzero ▸ (hu.effect hv).rank_le), ?_⟩
    rcases delivered_step hv with heq | ⟨k, hk⟩
    · exact heq.trans hsame
    · exact absurd rfl (hu.refused (by omega) k _ hk).1
  have hin : i ∈ s.delivered.map Prod.fst := by
    rw [← hkept.2.2]
    exact (hkept.1.accepted i).mpr hok
  obtain ⟨p, hp, haccepted⟩ := (hinv.accepted i).mp hin
  cases p with
  | leaving ok =>
    have hne := (hinv.refused (by omega) i _ hp).2
    exact absurd (congrArg SendAt.leaving haccepted) hne
  | returned ok => rwa [show ok = true from haccepted] at hp
  | _ => cases haccepted

theorem results_are_counted :
    (∀ s : State α, Reaches step newStatsPipe s → s.done = true → ∀ i c, s.calls[i]? = some c →
      s.Succeeds i → s.handled.filter (·.1 = i) = [(i, c.msg)]) ∧
    (∀ s t : State α, Reaches step newStatsPipe s → .returned ∈ s.closers → Reaches step s t →
      ∀ i, t.Succeeds i → s.place i = some (.returned true)) ∧
    ∀ run : InfiniteRun step (newStatsPipe : State α), Fair run →
      ∀ n i, (run.state n).closers ≠ [] → (run.state n).place i ≠ none →
        ∃ k, n ≤ k ∧ (run.state k).HasReturned i := by
  refine ⟨fun s hs hdone i c hc hok => (inv_of_reaches hs).counted hdone hc hok,
    fun s t hs hclosed ht i hok => returned_of_closed hs hclosed ht hok,
    fun run hfair n i hclose hi => ?_⟩
  obtain ⟨k, hk, hannounced⟩ := eventually_announced hfair hclose
  obtain ⟨l, hl, hreleased⟩ := eventually_released hfair hannounced
  obtain ⟨m, hm, hreturned⟩ := eventually_returned hfair hreleased
    (place_kept (place_kept hi hk) hl)
  exact ⟨m, by omega, hreturned⟩

/-- A message is in the channel when the pipe is closed. -/
def closing : List (Action ℕ) :=
  [.send 7 none, .rLock 0, .check 0, .push 0, .close, .once 0, .body 0, .body 0, .rUnlock 0,
    .body 0, .body 0, .body 0, .body 0, .onSealed, .receive, .drained, .closeDone, .wait 0]

def closedPipe : State ℕ :=
  ⟨[], [⟨7, none, .returned true⟩], [.returned], .ended, true, true, true, true, .finished, [],
    [(0, 7)], [(0, 7)]⟩

theorem closing_ends : runUnder step (fun _ _ => True) newStatsPipe closing = some closedPipe := rfl

theorem place_closedPipe {p : SendAt} (hp : closedPipe.place i = some p) : p = .returned true := by
  cases i with
  | zero => exact (Option.some.inj hp).symm
  | succ i => cases hp

theorem closedPipe_rests {a : Action ℕ} (hown : a.own ≠ none) : step closedPipe a = none := by
  have hcloser {j : ℕ} {c : CloseAt} (hc : closedPipe.closers[j]? = some c) : c = .returned := by
    cases j with
    | zero => exact (Option.some.inj hc).symm
    | succ j => cases hc
  cases a with
  | rUnlock i =>
    rw [step]
    split
    · rename_i ok hi
      cases place_closedPipe hi
    · rfl
  | once j =>
    refine if_neg fun hj => ?_
    cases hcloser hj
  | wait j =>
    refine if_neg fun hj => ?_
    cases hcloser hj.1
  | rLock i | push i | onStop i | onCancel i =>
    refine if_neg fun hi => ?_
    cases place_closedPipe hi.1
  | check i =>
    refine if_neg fun hi => ?_
    cases place_closedPipe hi
  | send msg cancel => exact absurd rfl hown
  | cancel c => exact absurd rfl hown
  | close => exact absurd rfl hown
  | _ => rfl

theorem results_are_counted_closing :
    closedPipe.handled.filter (·.1 = 0) = [(0, 7)] ∧
      ∃ run : InfiniteRun step (newStatsPipe : State ℕ), Fair run ∧
        ∃ k, 5 ≤ k ∧ (run.state k).HasReturned 0 := by
  obtain ⟨hcounted, -, hreturns⟩ := results_are_counted (α := ℕ)
  have hfair : Fair (InfiniteRun.stopped step newStatsPipe closedPipe closing closing_ends) := by
    intro g
    refine InfiniteRun.weaklyFair_stopped closing_ends fun a ha => closedPipe_rests ?_
    rw [ha]
    exact Option.some_ne_none g
  refine ⟨hcounted closedPipe (reachesUnder_of_run closing_ends) rfl 0 _ rfl ⟨_, rfl, rfl⟩,
    _, hfair, hreturns _ hfair 5 0 ?_ ?_⟩
  · exact List.cons_ne_nil _ _
  · exact Option.some_ne_none _

end Swazz.StatsPipe
