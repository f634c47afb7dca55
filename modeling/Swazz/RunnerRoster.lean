import Swazz.Roster
import Swazz.RunnerHandlers

/-! What the coordinator's operations do to the two records of who runs a scan. -/
namespace Swazz.Runners

/-- The two records of who runs a scan: the map in memory and the attachments. -/
def State.roster (s : State) : Roster ℕ String where
  known := fun ws => (s.attachment ws).authenticated = true
  live := fun ws => ws ∈ s.runners
  seen := fun ws => s.isRunner ws = true
  owner := s.jobs
  last := s.lastOwner
  lists := fun ws runId => runId ∈ s.activeJobs ws

variable {s : State} {ws : ℕ} {runId : String}

theorem roster_congr {t : State} (haccepted : t.accepted = s.accepted)
    (hsocket : t.socket = s.socket) (hrunners : t.runners = s.runners) (hjobs : t.jobs = s.jobs)
    (hlast : t.lastOwner = s.lastOwner) : t.roster = s.roster := by
  simp only [State.roster, State.attachment, State.isRunner, State.isConnected,
    State.activeJobs, haccepted, hsocket, hrunners, hjobs, hlast]

theorem activeJobs_serialize (s : State) (ws v : ℕ) (a : Attachment) :
    (s.serializeAttachment ws a).activeJobs v = if v = ws then a.activeJobs else s.activeJobs v := by
  by_cases hv : v = ws
  · subst hv
    simp [State.activeJobs, State.attachment, State.serializeAttachment]
  · simp [State.activeJobs, State.attachment, State.serializeAttachment, hv]

theorem authenticated_serialize (s : State) (ws v : ℕ) (a : Attachment) :
    ((s.serializeAttachment ws a).attachment v).authenticated =
      if v = ws then a.authenticated else (s.attachment v).authenticated := by
  by_cases hv : v = ws
  · subst hv
    simp [State.attachment, State.serializeAttachment]
  · simp [State.attachment, State.serializeAttachment, hv]

theorem isConnected_serialize (s : State) (ws v : ℕ) (a : Attachment) :
    (s.serializeAttachment ws a).isConnected v = s.isConnected v := by
  unfold State.isConnected State.serializeAttachment
  by_cases hv : v = ws
  · simp only [hv, Function.update_self]
  · simp only [Function.update_of_ne hv]

/-- Writing an attachment that is authenticated as before rewrites the list. -/
theorem roster_serialize (s : State) (ws : ℕ) {a : Attachment}
    (ha : a.authenticated = (s.attachment ws).authenticated) :
    (s.serializeAttachment ws a).roster = s.roster.rewrite ws fun q => q ∈ a.activeJobs := by
  have hauth (v : ℕ) : ((s.serializeAttachment ws a).attachment v).authenticated =
      (s.attachment v).authenticated := by
    rw [authenticated_serialize]
    split_ifs with hv
    · rw [hv, ha]
    · rfl
  apply Roster.eq_of_lists
  · simp only [State.roster, State.isRunner, isConnected_serialize, hauth, Roster.rewrite]
    rfl
  · intro v q
    simp only [State.roster, activeJobs_serialize, Roster.rewrite]
    by_cases hv : v = ws
    · subst hv
      simp
    · simp [hv]

theorem roster_pushJob (s : State) (runId : String) (ws : ℕ) :
    ((s.jobsSet runId ws).pushJob runId ws).roster = s.roster.hand ws runId := by
  have hlist (v : ℕ) : (s.jobsSet runId ws).activeJobs v = s.activeJobs v := rfl
  unfold State.pushJob
  split_ifs with hmem
  · apply Roster.eq_of_lists rfl
    intro v q
    constructor
    · exact Or.inl
    · rintro (h | ⟨rfl, rfl⟩)
      · exact h
      · exact hmem
  · rw [roster_serialize]
    · apply Roster.eq_of_lists rfl
      intro v q
      by_cases hv : v = ws
      · subst hv
        simp [State.roster, Roster.rewrite, Roster.hand, hlist]
      · simp [State.roster, Roster.rewrite, Roster.hand, hv, hlist]
    · rfl

theorem roster_releaseJob (s : State) (ws : ℕ) (runId : String) :
    (s.releaseJob ws runId).roster = { s.roster with
      lists := fun v q => s.roster.lists v q ∧ ¬ (v = ws ∧ q = runId) } := by
  unfold State.releaseJob
  split_ifs with hmem
  · rw [roster_serialize]
    · apply Roster.eq_of_lists rfl
      intro v q
      by_cases hv : v = ws
      · subst hv
        simp [State.roster, Roster.rewrite]
      · simp [State.roster, Roster.rewrite, hv]
    · rfl
  · apply Roster.eq_of_lists rfl
    intro v q
    constructor
    · intro h
      refine ⟨h, ?_⟩
      rintro ⟨rfl, rfl⟩
      exact hmem h
    · exact And.left

theorem roster_clear (s : State) (runId : String) (ws : ℕ) :
    ((s.jobsDelete runId).releaseJob ws runId).roster = s.roster.clear ws runId := by
  rw [roster_releaseJob]
  rfl

/-- `resumeRuns` takes a run over. -/
theorem roster_takeOver (s : State) (runId : String) (ws : ℕ) :
    (s.takeOver runId ws).roster = s.roster.takeOver ws runId := by
  have hset (u : State) : (u.jobsSet runId ws).roster =
      { u.roster with
        owner := Function.update u.roster.owner runId (some ws)
        last := Function.update u.roster.last runId (some ws) } := rfl
  unfold State.takeOver
  cases hjob : s.jobs runId with
  | none =>
    apply Roster.eq_of_lists rfl
    intro v q
    have howner : s.roster.owner runId = none := hjob
    simp [hset, Roster.takeOver, howner]
  | some previous =>
    have howner : s.roster.owner runId = some previous := hjob
    by_cases hprev : previous = ws
    · subst hprev
      simp only [ne_eq, not_true_eq_false, if_false]
      apply Roster.eq_of_lists rfl
      intro v q
      simp only [hset, Roster.takeOver, howner, Option.some.injEq]
      constructor
      · intro h
        refine ⟨h, ?_⟩
        rintro ⟨-, hne, heq⟩
        exact hne heq.symm
      · exact And.left
    · simp only [ne_eq, hprev, not_false_eq_true, if_true]
      rw [hset, roster_releaseJob]
      apply Roster.eq_of_lists rfl
      intro v q
      simp only [Roster.takeOver, howner, Option.some.injEq]
      constructor
      · rintro ⟨h, hnot⟩
        exact ⟨h, fun heq => hnot ⟨heq.2.2.symm, heq.1⟩⟩
      · rintro ⟨h, hnot⟩
        refine ⟨h, ?_⟩
        rintro ⟨rfl, hq⟩
        exact hnot ⟨hq, hprev, rfl⟩

theorem roster_dropRunner (s : State) (ws : ℕ) :
    (s.dropRunner ws).roster = s.roster.drop ws := by
  have hlive (v : ℕ) : v ∈ (s.dropRunner ws).runners ↔ v ∈ s.runners ∧ v ≠ ws := by
    simp [State.dropRunner, State.runnersDelete]
  have heq : (s.dropRunner ws).roster =
      { s.roster.drop ws with live := fun v => v ∈ (s.dropRunner ws).runners } := rfl
  rw [heq]
  simp only [hlive]
  rfl

/-- The socket's own flags are in neither record, but for `connected`. -/
theorem roster_close (s : State) (ws : ℕ) : (s.close ws).roster = s.roster := by
  have hatt (v : ℕ) : (s.close ws).attachment v = s.attachment v := by
    unfold State.close State.attachment
    by_cases hv : v = ws
    · simp only [hv, Function.update_self]
    · simp only [Function.update_of_ne hv]
  have hconnected (v : ℕ) : (s.close ws).isConnected v = s.isConnected v := by
    unfold State.close State.isConnected
    by_cases hv : v = ws
    · simp only [hv, Function.update_self]
    · simp only [Function.update_of_ne hv]
  simp only [State.roster, State.isRunner, State.activeJobs, hatt, hconnected]
  rfl

theorem roster_closed (s : State) (ws : ℕ) :
    (s.closed ws).roster = (s.roster.drop ws).vanish ws := by
  have hatt (v : ℕ) : (s.closed ws).attachment v = s.attachment v := by
    unfold State.closed State.attachment
    by_cases hv : v = ws
    · simp only [hv, Function.update_self]
    · simp only [Function.update_of_ne hv]
  have hseen (v : ℕ) : (s.closed ws).isRunner v = true ↔ s.isRunner v = true ∧ v ≠ ws := by
    unfold State.isRunner State.isConnected
    rw [hatt]
    by_cases hv : v = ws
    · simp [hv, State.closed]
    · simp [hv, State.closed, State.dropRunner, State.runnersDelete]
  have hdrop := roster_dropRunner s ws
  have heq : (s.closed ws).roster = { (s.dropRunner ws).roster with
      known := fun v => ((s.closed ws).attachment v).authenticated = true
      seen := fun v => (s.closed ws).isRunner v = true
      lists := fun v q => q ∈ ((s.closed ws).attachment v).activeJobs } := rfl
  rw [heq, hdrop]
  simp only [hatt, hseen]
  rfl

theorem roster_addRunner (s : State) (ws : ℕ) :
    (s.addRunner ws).roster = { s.roster with live := fun v => s.roster.live v ∨ v = ws } := by
  have hlive (v : ℕ) : v ∈ (s.addRunner ws).runners ↔ v ∈ s.runners ∨ v = ws := by
    unfold State.addRunner
    simp only
    split_ifs with hmem
    · constructor
      · exact Or.inl
      · rintro (h | rfl)
        · exact h
        · exact hmem
    · simp
  have heq : (s.addRunner ws).roster =
      { s.roster with live := fun v => v ∈ (s.addRunner ws).runners } := rfl
  rw [heq]
  simp only [hlive]
  rfl

theorem roster_runnersDelete (s : State) (ws : ℕ) :
    (s.runnersDelete ws).roster = s.roster.leave ws := by
  have hlive (v : ℕ) : v ∈ (s.runnersDelete ws).runners ↔ v ∈ s.runners ∧ v ≠ ws := by
    simp [State.runnersDelete]
  have heq : (s.runnersDelete ws).roster =
      { s.roster with live := fun v => v ∈ (s.runnersDelete ws).runners } := rfl
  rw [heq]
  simp only [hlive]
  rfl

theorem roster_authenticate (s : State) (ws : ℕ) :
    (s.authenticate ws).roster = s.roster.join ws (s.isConnected ws = true) := by
  set u : State := { s with pendingChallenges := s.pendingChallenges.filter (· ≠ ws) }
  set a : Attachment := { u.attachment ws with authenticated := true, resume := [] }
  have hroster := roster_addRunner u ws
  have hknown (v : ℕ) : ((s.authenticate ws).attachment v).authenticated = true ↔
      (s.attachment v).authenticated = true ∨ v = ws := by
    have hserialize := authenticated_serialize (u.addRunner ws) ws v a
    by_cases hv : v = ws
    · rw [if_pos hv] at hserialize
      exact iff_of_true hserialize (Or.inr hv)
    · rw [if_neg hv] at hserialize
      rw [or_iff_left hv]
      exact iff_of_eq (congrArg (· = true) hserialize)
  have hconnected (v : ℕ) : (s.authenticate ws).isConnected v = s.isConnected v :=
    isConnected_serialize (u.addRunner ws) ws v a
  have hseen (v : ℕ) : (s.authenticate ws).isRunner v = true ↔
      s.isRunner v = true ∨ v = ws ∧ s.isConnected ws = true := by
    simp only [State.isRunner, Bool.and_eq_true, hknown, hconnected]
    constructor
    · rintro ⟨hc, hauth | rfl⟩
      · exact Or.inl ⟨hc, hauth⟩
      · exact Or.inr ⟨rfl, hc⟩
    · rintro (⟨hc, hauth⟩ | ⟨rfl, hc⟩)
      · exact ⟨hc, Or.inl hauth⟩
      · exact ⟨hc, Or.inr rfl⟩
  have hlists (v : ℕ) : (s.authenticate ws).activeJobs v = s.activeJobs v := by
    have hserialize := activeJobs_serialize (u.addRunner ws) ws v a
    by_cases hv : v = ws
    · rw [if_pos hv] at hserialize
      rw [hv] at hserialize ⊢
      exact hserialize
    · rw [if_neg hv] at hserialize
      exact hserialize
  have heq : (s.authenticate ws).roster = { (u.addRunner ws).roster with
      known := fun v => ((s.authenticate ws).attachment v).authenticated = true
      seen := fun v => (s.authenticate ws).isRunner v = true
      lists := fun v q => q ∈ (s.authenticate ws).activeJobs v } := rfl
  rw [heq, hroster]
  simp only [hknown, hseen, hlists]
  rfl

/-- A new connection lists nothing, and is a runner unless it has to prove its key. -/
theorem roster_accept (tags : Tags) (heartbeat : Bool) (resume : List String)
    (hknown : ¬ s.roster.known s.accepted) (hlists : ∀ q, ¬ s.roster.lists s.accepted q) :
    (s.accept tags heartbeat resume).roster = { s.roster with
      known := fun v => s.roster.known v ∨ v = s.accepted ∧ tags.pending = false
      seen := fun v => s.roster.seen v ∨ v = s.accepted ∧ tags.pending = false } := by
  have hold {v : ℕ} (hv : v ≠ s.accepted) :
      (s.accept tags heartbeat resume).socket v = s.socket v :=
    Function.update_of_ne hv _ _
  have hknown' (v : ℕ) : (s.accept tags heartbeat resume).roster.known v ↔
      s.roster.known v ∨ v = s.accepted ∧ tags.pending = false := by
    by_cases hv : v = s.accepted
    · subst hv
      simp [State.roster, State.attachment, State.accept] at hknown ⊢
      simp [hknown]
    · simp [State.roster, State.attachment, hold hv, hv]
  have hseen (v : ℕ) : (s.accept tags heartbeat resume).roster.seen v ↔
      s.roster.seen v ∨ v = s.accepted ∧ tags.pending = false := by
    by_cases hv : v = s.accepted
    · subst hv
      simp [State.roster, State.isRunner, State.isConnected, State.attachment, State.accept]
    · have hle : v ≤ s.accepted ↔ v < s.accepted := by omega
      have haccepted : (s.accept tags heartbeat resume).accepted = s.accepted+1 := rfl
      simp [State.roster, State.isRunner, State.isConnected, State.attachment, hold hv, hv,
        haccepted, Nat.lt_add_one_iff, hle]
  have hlists' (v : ℕ) (q : String) : (s.accept tags heartbeat resume).roster.lists v q ↔
      s.roster.lists v q := by
    by_cases hv : v = s.accepted
    · subst hv
      apply iff_of_false _ (hlists q)
      simp [State.roster, State.activeJobs, State.attachment, State.accept]
    · simp [State.roster, State.activeJobs, State.attachment, hold hv]
  ext v q
  · exact hknown' v
  · rfl
  · exact hseen v
  · rfl
  · rfl
  · exact hlists' _ _

end Swazz.Runners
