import Mathlib.Logic.Relation
import Mathlib.Data.List.Basic

/-! Labelled transition systems with an executable, partial step function. A
guard on the steps of a run is a condition on the state before each step. -/
namespace StepSystem

variable {σ α : Type*}

/-- One step that the guard `G` admits in the state it is taken in. -/
def GuardedStep (step : σ → α → Option σ) (G : σ → α → Prop) (s t : σ) : Prop :=
  ∃ a, G s a ∧ step s a = some t

/-- The states of the runs from `s` whose every step meets the guard. -/
abbrev ReachesUnder (step : σ → α → Option σ) (G : σ → α → Prop) : σ → σ → Prop :=
  Relation.ReflTransGen (GuardedStep step G)

abbrev Reaches (step : σ → α → Option σ) : σ → σ → Prop :=
  ReachesUnder step fun _ _ => True

/-- Run the steps of a list in order, as long as they meet the guard. -/
def runUnder (step : σ → α → Option σ) (G : σ → α → Prop) [∀ s a, Decidable (G s a)] :
    σ → List α → Option σ
  | s, [] => some s
  | s, a :: as => if G s a then (step s a).bind fun t => runUnder step G t as else none

variable {step : σ → α → Option σ} {G : σ → α → Prop} {s t u : σ}

theorem ReachesUnder.tail {a : α} (h : ReachesUnder step G s t) (hG : G t a)
    (ht : step t a = some u) : ReachesUnder step G s u :=
  Relation.ReflTransGen.tail h ⟨a, hG, ht⟩

theorem ReachesUnder.reaches (h : ReachesUnder step G s t) : Reaches step s t := by
  induction h with
  | refl => exact Relation.ReflTransGen.refl
  | tail _ hlast ih =>
    obtain ⟨a, -, ha⟩ := hlast
    exact Relation.ReflTransGen.tail ih ⟨a, trivial, ha⟩

theorem ReachesUnder.mono {G' : σ → α → Prop} (h : ReachesUnder step G s t)
    (himp : ∀ s a, G s a → G' s a) : ReachesUnder step G' s t := by
  induction h with
  | refl => exact Relation.ReflTransGen.refl
  | tail _ hlast ih =>
    obtain ⟨a, hG, ha⟩ := hlast
    exact ih.tail (himp _ a hG) ha

/-- What holds at the start and is kept by every admitted step holds along the run. -/
theorem ReachesUnder.invariant {I : σ → Prop} (hs : I s)
    (hstep : ∀ t a u, I t → G t a → step t a = some u → I u)
    (h : ReachesUnder step G s t) : I t := by
  induction h with
  | refl => exact hs
  | tail _ hu ih =>
    obtain ⟨a, hG, hu⟩ := hu
    exact hstep _ a _ ih hG hu

theorem reachesUnder_of_run [∀ s a, Decidable (G s a)] {as : List α}
    (h : runUnder step G s as = some t) : ReachesUnder step G s t := by
  induction as generalizing s with
  | nil =>
    have heq : s = t := by simpa [runUnder] using h
    rw [heq]
  | cons a as ih =>
    obtain ⟨hG, h⟩ := Option.ite_none_right_eq_some.mp h
    obtain ⟨v, hv, hrest⟩ := Option.bind_eq_some_iff.mp h
    exact Relation.ReflTransGen.head ⟨a, hG, hv⟩ (ih hrest)

theorem runUnder_append [∀ s a, Decidable (G s a)] (as bs : List α) :
    runUnder step G s (as ++ bs) = (runUnder step G s as).bind fun t => runUnder step G t bs := by
  induction as generalizing s with
  | nil => rfl
  | cons a as ih =>
    simp only [List.cons_append, runUnder]
    split
    · rw [Option.bind_assoc]
      exact congrArg _ (funext fun t => ih)
    · rfl

/-- A run of a list of steps ends in a state that `p` accepts. -/
theorem reachesUnder_of_test (step : σ → α → Option σ) (G : σ → α → Prop)
    [∀ s a, Decidable (G s a)] (s : σ) (as : List α) (p : σ → Bool)
    (h : (runUnder step G s as).any p = true) : ∃ t, ReachesUnder step G s t ∧ p t = true := by
  cases hr : runUnder step G s as with
  | none => simp [hr] at h
  | some t => exact ⟨t, reachesUnder_of_run hr, by simpa [hr] using h⟩

end StepSystem
