import Swazz.StepSystem
import Mathlib.Order.Monotone.Basic

/-! Infinite runs, weak fairness, and the rule by which a measure brings a run to its goal. -/
namespace StepSystem

variable {σ α : Type*}

/-- At each moment a step is taken, or nothing happens. -/
structure InfiniteRun (step : σ → α → Option σ) (start : σ) where
  state : ℕ → σ
  move : ℕ → Option α
  state_zero : state 0 = start
  none_succ : ∀ k, move k = none → state (k + 1) = state k
  some_succ : ∀ k a, move k = some a → step (state k) a = some (state (k + 1))

namespace InfiniteRun

variable {step : σ → α → Option σ} {start : σ} (run : InfiniteRun step start)

/-- Steps that are possible from some moment on are taken again and again. -/
def WeaklyFair (fair : σ → α → Prop) : Prop :=
  ∀ n, (∀ k, n ≤ k → ∃ a, fair (run.state k) a ∧ (step (run.state k) a).isSome) →
    ∃ k, n ≤ k ∧ ∃ a, run.move k = some a ∧ fair (run.state k) a

theorem reaches (n : ℕ) : Reaches step start (run.state n) := by
  induction n with
  | zero =>
    rw [run.state_zero]
  | succ n ih =>
    cases hmove : run.move n with
    | none => rwa [run.none_succ n hmove]
    | some a => exact ih.tail trivial (run.some_succ n a hmove)

/-- What holds at one moment and is kept by the steps from there on. -/
theorem kept {I : σ → Prop} {n : ℕ} (hn : I (run.state n))
    (hstep : ∀ k a, n ≤ k → I (run.state k) → step (run.state k) a = some (run.state (k + 1)) →
      I (run.state (k + 1))) {k : ℕ} (hk : n ≤ k) : I (run.state k) := by
  induction k, hk using Nat.le_induction with
  | base => exact hn
  | succ k hk ih =>
    cases hmove : run.move k with
    | none => rwa [run.none_succ k hmove]
    | some a => exact hstep k a hk ih (run.some_succ k a hmove)

/-- A measure that no step increases and that fair steps decrease. Where none of these is
possible the run is done or waits, and it starts to wait only with a decrease. -/
structure Measure (n : ℕ) (V : σ → ℕ) (fair : σ → α → Prop) (Done Waits : σ → Prop) : Prop where
  antitone : ∀ k, n ≤ k → V (run.state (k + 1)) ≤ V (run.state k)
  decreases : ∀ k a, n ≤ k → run.move k = some a → fair (run.state k) a →
    V (run.state (k + 1)) < V (run.state k)
  waits : ∀ k, n ≤ k → Waits (run.state (k + 1)) →
    Waits (run.state k) ∨ V (run.state (k + 1)) < V (run.state k)
  possible : ∀ k, n ≤ k → Done (run.state k) ∨ Waits (run.state k) ∨
    ∃ a, fair (run.state k) a ∧ (step (run.state k) a).isSome

variable {run} {V : σ → ℕ} {fair : σ → α → Prop} {Done Waits : σ → Prop} {n m k : ℕ}

theorem Measure.from (h : run.Measure n V fair Done Waits) (hm : n ≤ m) :
    run.Measure m V fair Done Waits :=
  ⟨fun k hk => h.antitone k (hm.trans hk), fun k a hk => h.decreases k a (hm.trans hk),
    fun k hk => h.waits k (hm.trans hk), fun k hk => h.possible k (hm.trans hk)⟩

theorem Measure.le (h : run.Measure n V fair Done Waits) (hm : n ≤ m) :
    V (run.state m) ≤ V (run.state n) := by
  induction m, hm using Nat.le_induction with
  | base => exact le_rfl
  | succ m hm ih => exact (h.antitone m hm).trans ih

/-- A run that does not wait at one moment and waits at a later one has come nearer. -/
theorem Measure.lt_of_waits (h : run.Measure n V fair Done Waits) (hnot : ¬Waits (run.state n))
    (hk : n ≤ k) (hwaits : Waits (run.state k)) :
    ∃ m, n ≤ m ∧ V (run.state m) < V (run.state n) := by
  induction k, hk using Nat.le_induction with
  | base => exact absurd hwaits hnot
  | succ k hk ih =>
    rcases h.waits k hk hwaits with hbefore | hlt
    · exact ih hbefore
    · exact ⟨k + 1, by omega, hlt.trans_le (h.le hk)⟩

/-- A fair run gets done, or from some moment on it only waits. -/
theorem Measure.done_or_waits (h : run.Measure n V fair Done Waits)
    (hfair : run.WeaklyFair fair) :
    ∃ k, n ≤ k ∧ (Done (run.state k) ∨ ∀ l, k ≤ l → Waits (run.state l)) := by
  -- On the measure: as long as it can go on, the run decreases it at some later moment.
  induction hv : V (run.state n) using Nat.strong_induction_on generalizing n with
  | _ v ih =>
    have hnearer : (∃ m, n ≤ m ∧ V (run.state m) < V (run.state n)) →
        ∃ k, n ≤ k ∧ (Done (run.state k) ∨ ∀ l, k ≤ l → Waits (run.state l)) := by
      rintro ⟨m, hm, hlt⟩
      obtain ⟨k, hk, hgoal⟩ := ih _ (hv ▸ hlt) (h.from hm) rfl
      exact ⟨k, hm.trans hk, hgoal⟩
    by_cases hwaits : ∀ l, n ≤ l → Waits (run.state l)
    · exact ⟨n, le_rfl, Or.inr hwaits⟩
    · push Not at hwaits
      obtain ⟨m, hm, hnot⟩ := hwaits
      by_cases hdone : ∃ k, m ≤ k ∧ Done (run.state k)
      · obtain ⟨k, hk, hdone⟩ := hdone
        exact ⟨k, hm.trans hk, Or.inl hdone⟩
      · by_cases hlater : ∃ k, m ≤ k ∧ Waits (run.state k)
        · obtain ⟨k, hk, hlater⟩ := hlater
          obtain ⟨l, hl, hlt⟩ := (h.from hm).lt_of_waits hnot hk hlater
          exact hnearer ⟨l, hm.trans hl, hlt.trans_le (h.le hm)⟩
        · -- From `m` on it neither is done nor waits, so that a fair step is taken.
          have hon : ∀ k, m ≤ k → ∃ a, fair (run.state k) a ∧ (step (run.state k) a).isSome := by
            intro k hk
            rcases h.possible k (hm.trans hk) with hd | hw | hgo
            · exact absurd ⟨k, hk, hd⟩ hdone
            · exact absurd ⟨k, hk, hw⟩ hlater
            · exact hgo
          obtain ⟨k, hk, a, hmove, ha⟩ := hfair m hon
          have hlt := h.decreases k a (hm.trans hk) hmove ha
          exact hnearer ⟨k + 1, by omega, hlt.trans_le (h.le (hm.trans hk))⟩

/-- A run reaches its goal if in each state before it one of the actors, all of them treated fairly,
can bring it nearer, and stays the one until it is nearer. -/
theorem reaches_by_turns {γ : Type*} {own : α → Option γ} {V : σ → ℕ} {h : σ → γ}
    {P : σ → Prop} (hfair : ∀ g, run.WeaklyFair fun _ a => own a = some g)
    (hstep : ∀ k a, n ≤ k → ¬P (run.state k) →
      step (run.state k) a = some (run.state (k + 1)) → P (run.state (k + 1)) ∨
        V (run.state (k + 1)) < V (run.state k) ∨ V (run.state (k + 1)) = V (run.state k) ∧
          h (run.state (k + 1)) = h (run.state k) ∧
          own a ≠ some (h (run.state k)))
    (hhelps : ∀ k, n ≤ k → ¬P (run.state k) →
      ∃ a, own a = some (h (run.state k)) ∧ (step (run.state k) a).isSome) :
    ∃ k, n ≤ k ∧ P (run.state k) := by
  by_contra hnever
  have hnot : ∀ k, n ≤ k → ¬P (run.state k) := fun k hk hgoal => hnever ⟨k, hk, hgoal⟩
  -- On the measure: from some moment on it stays the same, and the turn of its actor comes.
  induction hv : V (run.state n) using Nat.strong_induction_on generalizing n with
  | _ v ih =>
    by_cases hless : ∃ m, n ≤ m ∧ V (run.state m) < v
    · obtain ⟨m, hm, hlt⟩ := hless
      refine ih _ hlt (fun k a hk => hstep k a (hm.trans hk)) (fun k hk => hhelps k (hm.trans hk))
        ?_ (fun k hk => hnot k (hm.trans hk)) rfl
      rintro ⟨k, hk, hgoal⟩
      exact hnot k (hm.trans hk) hgoal
    · have hsame : ∀ k, n ≤ k → V (run.state k) = v ∧
          h (run.state k) = h (run.state n) := by
        intro k hk
        refine run.kept (I := fun s => V s = v ∧ h s = h (run.state n)) ⟨hv, rfl⟩ ?_ hk
        intro k a hk hI hmove
        rcases hstep k a hk (hnot k hk) hmove with hgoal | hlt | ⟨heq, hhelper, -⟩
        · exact absurd hgoal (hnot (k + 1) (by omega))
        · exact absurd ⟨k + 1, by omega, hI.1 ▸ hlt⟩ hless
        · exact ⟨heq.trans hI.1, hhelper.trans hI.2⟩
      have hpossible : ∀ k, n ≤ k → ∃ a, own a = some (h (run.state n)) ∧
          (step (run.state k) a).isSome := by
        intro k hk
        rw [← (hsame k hk).2]
        exact hhelps k hk (hnot k hk)
      obtain ⟨k, hk, a, hmove, hown⟩ := hfair (h (run.state n)) n hpossible
      rcases hstep k a hk (hnot k hk) (run.some_succ k a hmove) with hgoal | hlt | ⟨-, -, hother⟩
      · exact hnot (k + 1) (by omega) hgoal
      · exact hless ⟨k + 1, by omega, (hsame k hk).1 ▸ hlt⟩
      · exact hother ((hsame k hk).2 ▸ hown)

/-- The run that takes the steps of a list and stops. -/
def stopped (step : σ → α → Option σ) (start last : σ) (as : List α)
    (h : runUnder step (fun _ _ => True) start as = some last) : InfiniteRun step start where
  state k := (runUnder step (fun _ _ => True) start (as.take k)).getD last
  move k := as[k]?
  state_zero := by simp [runUnder]
  none_succ k hk := by
    have hlength := List.getElem?_eq_none_iff.mp hk
    rw [List.take_of_length_le hlength, List.take_of_length_le (hlength.trans (Nat.le_succ k))]
  some_succ k a hk := by
    have hall : as = as.take (k + 1) ++ as.drop (k + 1) := (List.take_append_drop ..).symm
    rw [hall, runUnder_append] at h
    obtain ⟨t, ht, -⟩ := Option.bind_eq_some_iff.mp h
    rw [List.take_add_one, hk, runUnder_append] at ht
    obtain ⟨s, hs, hstep⟩ := Option.bind_eq_some_iff.mp ht
    have hstep : step s a = some t := by simpa [runUnder] using hstep
    rw [List.take_add_one, hk, runUnder_append, hs]
    simp [runUnder, hstep]

theorem stopped_state {last : σ} {as : List α}
    (h : runUnder step (fun _ _ => True) start as = some last) (hk : as.length ≤ k) :
    (stopped step start last as h).state k = last := by
  simp [stopped, List.take_of_length_le hk, h]

/-- Where it stopped, no fair step is possible. -/
theorem weaklyFair_stopped {last : σ} {as : List α}
    (h : runUnder step (fun _ _ => True) start as = some last)
    (hnone : ∀ a, fair last a → step last a = none) :
    (stopped step start last as h).WeaklyFair fair := by
  intro n hpossible
  obtain ⟨a, ha, hsome⟩ := hpossible (max n as.length) (le_max_left ..)
  rw [stopped_state h (le_max_right ..)] at ha hsome
  simp [hnone a ha] at hsome

end InfiniteRun

end StepSystem
