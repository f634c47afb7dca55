import Swazz.RunnerAgreement

/-! One connection at most may report for a run. -/
namespace Swazz.Runners

open StepSystem

variable (T : Findings.TextFns) {s t : State}

theorem Good.isRunner_of_listed {strict : Bool} (h : Good strict nothing s) {ws : ℕ}
    {runId : String} (hconnected : s.isConnected ws = true)
    (hlist : runId ∈ s.activeJobs ws) : s.isRunner ws = true := by
  have hknown : s.roster.known ws := by
    by_contra hno
    exact h.agreement.unlisted ws runId hno hlist
  exact Bool.and_eq_true_iff.mpr ⟨hconnected, hknown⟩

/-- A runner connects, is handed `r2`, and the pass it asked for finds nothing else. -/
def handR2 : List Label :=
  [.connect sharedRunner true [] [], .act 0 .plain, .act 0 .plain, .dispatch "r2",
    .act 0 .plain, .act 0 { Choice.plain with runner := some 0 }, .act 0 .plain, .act 0 .plain]

/-- A new connection takes `r2` over. -/
def resumeR2 : List Label :=
  [.connect sharedRunner true ["r2"] [], .act 0 .plain, .act 0 .plain, .act 0 .plain,
    .act 0 .plain, .act 0 .plain]

/-- Both connections list `r2`, and a rebuild that reads the later one first assigns it to the
earlier one. -/
def State.givenBack (s : State) : Bool :=
  s.isConnected 0 && s.isConnected 1 && decide ("r2" ∈ s.activeJobs 0) &&
    decide ("r2" ∈ s.activeJobs 1) && decide (s.lastOwner "r2" = some 1) &&
    (step Findings.plainText s (.rebuild [1, 0])).any (fun t : State =>
      decide (t.jobs "r2" = some 0))

end Swazz.Runners
