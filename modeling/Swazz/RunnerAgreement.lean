import Swazz.FindingsQueueOrder
import Swazz.RunnerRoster
import Swazz.StepSystem

/-! The runs the coordinator's memory names a runner for, and those on the runner's
attachment. -/
namespace Swazz.Runners

open StepSystem

variable (T : Findings.TextFns)

def Handler.loop : Handler → Option Resume
  | .resumeStatus loop | .resumeTake loop _ | .resumeForget loop | .resumeWrite loop => some loop
  | _ => none

/-- The connection a handler may hand runs to. -/
def Handler.worksFor : Handler → Option ℕ
  | .resumeOwners ws _ | .resumeFinished ws _ _ | .afterResume ws | .eventCleanup ws _
  | .eventFinished ws _ => some ws
  | h => (h.loop.map Resume.ws).or h.passOf

/-- The runs a handler entered into the map and has yet to write into the attachment. -/
def Handler.accepts (h : Handler) (ws : ℕ) (runId : String) : Prop :=
  ∃ loop, h.loop = some loop ∧ loop.ws = ws ∧ runId ∈ loop.accepted

/-- `resumeRuns` is between the map and the attachment. -/
def Handler.midUpdate (h : Handler) : Bool := h.loop.any fun loop => !loop.accepted.isEmpty

/-- No handler is between its own paired updates. -/
def State.settled (s : State) : Bool := s.handlers.all fun h => !h.midUpdate

def Resume.Sound (loop : Resume) : Prop :=
  loop.attachment.authenticated = true ∧ ∀ runId ∈ loop.accepted, runId ∈ loop.activeJobs

structure Handler.Sound (s : State) (h : Handler) : Prop where
  known : ∀ ws, h.worksFor = some ws → s.roster.known ws
  verifies : ∀ ws, h = .verify ws → ws < s.accepted
  loop : ∀ loop, h.loop = some loop → loop.Sound

/-- No other runner has the run. -/
def State.Unheld (s : State) (ws : ℕ) (runId : String) : Prop :=
  ∀ v ∈ s.runners, v ≠ ws → s.jobs runId ≠ some v

/-- No connection that left the runners still has the run on its attachment. -/
def State.Unlisted (s : State) (ws : ℕ) (runId : String) (except : Option ℕ) : Prop :=
  ∀ v ∈ List.range s.accepted, v ∉ s.runners → v ≠ ws → except ≠ some v →
    s.isRunner v = true → runId ∉ s.activeJobs v

def State.MayHand (s : State) (strict : Bool) (ws : ℕ) (runId : String) : Prop :=
  s.Unheld ws runId ∧ (strict = true → s.Unlisted ws runId none)

def State.pending (s : State) (ws : ℕ) (runId : String) : Prop :=
  ∃ h ∈ s.handlers, h.accepts ws runId

/-- The invariant, where `P` says what is still to be listed besides what the handlers
have accepted. -/
structure Good (strict : Bool) (P : ℕ → String → Prop) (s : State) : Prop where
  agreement : s.roster.Agreement fun ws runId => P ws runId ∨ s.pending ws runId
  traced : strict = true → s.roster.Traced
  fresh : ∀ ws, s.accepted ≤ ws → ¬ s.roster.known ws
  handlers : ∀ h ∈ s.handlers, h.Sound s

variable {strict : Bool} {P : ℕ → String → Prop} {s t : State} {ws : ℕ} {runId : String}

/-! ### What keeps the invariant -/

/-- Changes that leave the handlers and who is known. -/
theorem Good.change (h : Good strict P s)
    (hroster : t.roster.Agreement fun ws runId => P ws runId ∨ s.pending ws runId)
    (htraced : strict = true → t.roster.Traced)
    (hhandlers : t.handlers = s.handlers) (haccepted : t.accepted = s.accepted)
    (hknown : ∀ ws, t.roster.known ws ↔ s.roster.known ws) : Good strict P t where
  agreement := by
    unfold State.pending
    rw [hhandlers]
    exact hroster
  traced := htraced
  fresh := by
    intro ws hws
    rw [hknown]
    exact h.fresh ws (haccepted ▸ hws)
  handlers := by
    intro g hg
    rw [hhandlers] at hg
    have hsound := h.handlers g hg
    refine ⟨fun ws hws => (hknown ws).mpr (hsound.known ws hws), ?_, hsound.loop⟩
    rw [haccepted]
    exact hsound.verifies

/-- Changes outside the records. -/
theorem Good.same (h : Good strict P s) (hroster : t.roster = s.roster)
    (hhandlers : t.handlers = s.handlers) (haccepted : t.accepted = s.accepted) : Good strict P t := by
  apply h.change _ _ hhandlers haccepted
  · intro ws
    rw [hroster]
  · rw [hroster]
    exact h.agreement
  · rw [hroster]
    exact h.traced

/-- A handler at a new await. -/
theorem Good.spawn {Q : ℕ → String → Prop} {h : Handler} (hgood : Good strict P s) (hh : h.Sound s)
    (hPQ : ∀ ws runId, P ws runId → h.accepts ws runId ∨ Q ws runId) : Good strict Q (s.spawn h) where
  agreement := by
    apply hgood.agreement.mono
    rintro ws runId (hP | ⟨g, hg, hacc⟩)
    · rcases hPQ ws runId hP with hacc | hQ
      · exact Or.inr ⟨h, by simp [State.spawn], hacc⟩
      · exact Or.inl hQ
    · exact Or.inr ⟨g, by simp [State.spawn, hg], hacc⟩
  traced := hgood.traced
  fresh := hgood.fresh
  handlers := by
    intro g hg
    rcases List.mem_append.mp hg with hg | hg
    · have hsound := hgood.handlers g hg
      exact ⟨hsound.known, hsound.verifies, hsound.loop⟩
    · obtain rfl := List.mem_singleton.mp hg
      exact ⟨hh.known, hh.verifies, hh.loop⟩

theorem known_prune (s : State) (expired : List ℕ) (v : ℕ) :
    (s.pruneDeadRunners expired).roster.known v ↔ s.roster.known v := by
  unfold State.pruneDeadRunners
  generalize expired.filter _ = dead
  induction dead generalizing s with
  | nil => rfl
  | cons ws dead ih =>
    rw [List.foldl_cons, ih, roster_close, roster_dropRunner]
    rfl

theorem Good.prune (h : Good strict P s) (expired : List ℕ) : Good strict P (s.pruneDeadRunners expired) := by
  unfold State.pruneDeadRunners
  generalize expired.filter _ = dead
  induction dead generalizing s with
  | nil => exact h
  | cons ws dead ih =>
    apply ih
    have hroster : ((s.dropRunner ws).close ws).roster = s.roster.drop ws := by
      rw [roster_close, roster_dropRunner]
    refine h.change ?_ ?_ rfl rfl ?_
    · rw [hroster]
      exact h.agreement.drop ws
    · rw [hroster]
      exact fun hstrict => (h.traced hstrict).drop ws
    · intro v
      rw [hroster]
      rfl

/-- A handler that is no loop of `resumeRuns`. -/
theorem Good.spawn_plain {h : Handler} (hgood : Good strict P s) (hloop : h.loop = none)
    (hverify : ∀ ws, h = .verify ws → ws < s.accepted)
    (hknown : ∀ ws, h.worksFor = some ws → s.roster.known ws) : Good strict P (s.spawn h) := by
  apply hgood.spawn
  · exact ⟨hknown, hverify, fun loop hl => by rw [hloop] at hl; cases hl⟩
  · exact fun ws runId hP => Or.inr hP

theorem Good.startPass (h : Good strict P s) (hknown : s.roster.known ws) : Good strict P (s.startPass ws) := by
  unfold State.startPass
  have hsame : Good strict P { s with pendingRerun := s.pendingRerun.filter (· ≠ ws) } :=
    h.same rfl rfl rfl
  simp only
  split_ifs
  · apply hsame.spawn_plain rfl (by simp)
    intro v hv
    obtain rfl : ws = v := Option.some.inj hv
    exact hknown
  · exact hsame

theorem Good.endPass (h : Good strict P s) (hknown : s.roster.known ws) : Good strict P (s.endPass ws) := by
  unfold State.endPass
  split_ifs
  · exact h.startPass hknown
  · exact h

theorem Good.checkAndDispatch (h : Good strict P s) (hknown : s.roster.known ws) (expired : List ℕ) :
    Good strict P (s.checkAndDispatchQueuedScans ws expired) := by
  have hpruned := h.prune expired
  unfold State.checkAndDispatchQueuedScans
  simp only
  split_ifs
  · exact hpruned
  · exact hpruned.same rfl rfl rfl
  · exact hpruned.startPass ((known_prune s expired ws).mpr hknown)

theorem Good.nextScan (h : Good strict P s) {pass : Pass} (hknown : s.roster.known pass.ws) :
    Good strict P (s.nextScan pass) := by
  unfold State.nextScan
  split
  · apply h.spawn_plain rfl (by simp)
    intro v hv
    obtain rfl : pass.ws = v := Option.some.inj hv
    exact hknown
  · exact h.endPass hknown

theorem handOver_sent {sent : Bool} (hsent : (s.handOver runId ws sent).2 = true) :
    (s.handOver runId ws sent).1 = (s.jobsSet runId ws).pushJob runId ws := by
  unfold State.handOver at hsent ⊢
  simp only at hsent ⊢
  split_ifs at hsent ⊢
  rfl

theorem handOver_failed {sent : Bool} (hsent : (s.handOver runId ws sent).2 = false) :
    (s.handOver runId ws sent).1.roster =
      ((s.roster.hand ws runId).clear ws runId).leave ws := by
  unfold State.handOver at hsent ⊢
  simp only at hsent ⊢
  split_ifs at hsent ⊢
  rw [← roster_pushJob, ← roster_clear, ← roster_runnersDelete]

theorem known_handOver (s : State) (runId : String) (ws : ℕ) (sent : Bool) (v : ℕ) :
    (s.handOver runId ws sent).1.roster.known v ↔ s.roster.known v := by
  cases hsent : (s.handOver runId ws sent).2 with
  | true =>
    rw [handOver_sent hsent, roster_pushJob]
    rfl
  | false =>
    rw [handOver_failed hsent]
    rfl

theorem pushJob_handlers (s : State) (runId : String) (ws : ℕ) :
    (s.pushJob runId ws).handlers = s.handlers ∧ (s.pushJob runId ws).accepted = s.accepted := by
  unfold State.pushJob
  split_ifs <;> exact ⟨rfl, rfl⟩

theorem releaseJob_handlers (s : State) (ws : ℕ) (runId : String) :
    (s.releaseJob ws runId).handlers = s.handlers ∧
      (s.releaseJob ws runId).accepted = s.accepted := by
  unfold State.releaseJob
  split_ifs <;> exact ⟨rfl, rfl⟩

theorem handOver_handlers (s : State) (runId : String) (ws : ℕ) (sent : Bool) :
    (s.handOver runId ws sent).1.handlers = s.handlers ∧
      (s.handOver runId ws sent).1.accepted = s.accepted := by
  have hpush := pushJob_handlers (s.jobsSet runId ws) runId ws
  unfold State.handOver
  simp only
  split_ifs
  · exact hpush
  · have hrelease := releaseJob_handlers
      (((s.jobsSet runId ws).pushJob runId ws).jobsDelete runId) ws runId
    exact ⟨hrelease.1.trans hpush.1, hrelease.2.trans hpush.2⟩

/-- Only the attachments of connections that left the runners can have a run that the
map has for no other runner. -/
theorem Good.alone (h : Good strict P s) {except : Option ℕ}
    (hfree : ∀ v ∈ s.runners, v ≠ ws → except ≠ some v → s.jobs runId ≠ some v)
    (hlist : s.Unlisted ws runId except) (v : ℕ) (hne : v ≠ ws) (hseen : s.roster.seen v)
    (hexcept : except ≠ some v) : ¬ s.roster.lists v runId := by
  intro hv
  by_cases hlive : v ∈ s.runners
  · exact hfree v hlive hne hexcept (h.agreement.listed v runId hlive hv)
  · have hlt : v < s.accepted := by
      have hrunner : s.isRunner v = true := hseen
      simp only [State.isRunner, State.isConnected, Bool.and_eq_true, decide_eq_true_eq] at hrunner
      exact hrunner.1.1
    exact hlist v (List.mem_range.mpr hlt) hlive hne hexcept hseen hv

/-- Handing a run over keeps the invariant, if no other runner has it. -/
theorem Good.handOver (h : Good strict P s) (hknown : s.roster.known ws)
    (hfree : s.MayHand strict ws runId) (sent : Bool) :
    Good strict P (s.handOver runId ws sent).1 := by
  obtain ⟨hhandlers, haccepted⟩ := handOver_handlers s runId ws sent
  have hhanded := h.agreement.hand hknown hfree.1
  have htraced (hstrict : strict = true) : (s.roster.hand ws runId).Traced := by
    apply (h.traced hstrict).hand
    intro v hne hseen
    exact h.alone (fun v hv hne _ => hfree.1 v hv hne) (hfree.2 hstrict) v hne hseen (by simp)
  refine h.change ?_ ?_ hhandlers haccepted (known_handOver s runId ws sent)
  · cases hsent : (s.handOver runId ws sent).2 with
    | true =>
      rw [handOver_sent hsent, roster_pushJob]
      exact hhanded
    | false =>
      rw [handOver_failed hsent]
      apply Roster.Agreement.leave
      apply hhanded.clear
      intro v _ hne
      simp [Roster.hand, Ne.symm hne]
  · intro hstrict
    cases hsent : (s.handOver runId ws sent).2 with
    | true =>
      rw [handOver_sent hsent, roster_pushJob]
      exact htraced hstrict
    | false =>
      rw [handOver_failed hsent]
      exact ((htraced hstrict).clear ws runId).leave ws

theorem unheld_of_none (hnone : s.jobs runId = none) (ws : ℕ) : s.Unheld ws runId := by
  intro v _ _ howner
  have hsome : s.jobs runId = some v := howner
  rw [hnone] at hsome
  cases hsome

theorem Good.passHandOver (h : Good strict P s) {pass : Pass} (hknown : s.roster.known pass.ws)
    (hfree : s.MayHand strict pass.ws pass.scan.id) (sent : Bool) :
    Good strict P (s.passHandOver pass sent) := by
  have hgood := h.handOver hknown hfree sent
  have hkeep := (known_handOver s pass.scan.id pass.ws sent pass.ws).mpr hknown
  unfold State.passHandOver
  split_ifs
  · rcases hpair : s.handOver pass.scan.id pass.ws sent with ⟨u, b⟩
    rw [hpair] at hgood hkeep
    cases b with
    | true =>
      have hnoted : Good strict P (u.noteHandOut pass.scan.id pass.ws) := hgood.same rfl rfl rfl
      apply hnoted.spawn_plain rfl (by simp)
      intro v hv
      obtain rfl : pass.ws = v := Option.some.inj hv
      exact hkeep
    | false => exact hgood.endPass hkeep
  · exact h.endPass hknown

/-- The pass hands its scan out without another await. -/
def Choice.handsAtOnce (c : Choice) (pass : Pass) : Bool :=
  match c.lookup with
  | .found configRef => !configRef && pass.scan.projectId.isEmpty
  | _ => false

theorem Good.passConfig (h : Good strict P s) {pass : Pass} (hknown : s.roster.known pass.ws)
    {c : Choice} (hlist : strict = true → c.handsAtOnce pass = true →
      s.jobs pass.scan.id = none → s.Unlisted pass.ws pass.scan.id none) :
    Good strict P (s.passConfig pass c) := by
  have hspawn {g : Handler} (hloop : g.loop = none) (hverify : ∀ ws, g ≠ .verify ws)
      (hworks : g.worksFor = some pass.ws) : Good strict P (s.spawn g) := by
    apply h.spawn_plain hloop fun ws heq => absurd heq (hverify ws)
    intro v hv
    rw [hworks] at hv
    obtain rfl := Option.some.inj hv
    exact hknown
  unfold State.passConfig
  split
  · exact h.nextScan hknown
  · exact h.nextScan hknown
  · split_ifs
    · exact h.nextScan hknown
    · exact hspawn rfl (by simp) rfl
  · rename_i configRef hfound
    split_ifs with _ hskip hawait
    · exact h.endPass hknown
    · exact h.nextScan hknown
    · exact hspawn rfl (by simp) rfl
    · -- The map is checked in the same stretch of code.
      have hnone : s.jobs pass.scan.id = none := by
        simp only [Bool.or_eq_true, not_or] at hskip
        simpa using hskip.1
      have honce : c.handsAtOnce pass = true := by
        simp only [Bool.or_eq_true, not_or] at hawait
        simpa [Choice.handsAtOnce, hfound] using hawait
      exact h.passHandOver hknown
        ⟨unheld_of_none hnone pass.ws, fun hstrict => hlist hstrict honce hnone⟩ c.ok

theorem Good.passScan (h : Good strict P s) {pass : Pass} (hknown : s.roster.known pass.ws) :
    Good strict P (s.passScan pass) := by
  unfold State.passScan
  split_ifs
  · exact h.nextScan hknown
  · exact h.nextScan hknown
  · apply h.spawn_plain rfl (by simp)
    intro v hv
    obtain rfl : pass.ws = v := Option.some.inj hv
    exact hknown

theorem jobs_prune_none {expired : List ℕ} (hnone : s.jobs runId = none) :
    (s.pruneDeadRunners expired).jobs runId = none := by
  unfold State.pruneDeadRunners
  generalize expired.filter _ = dead
  induction dead generalizing s with
  | nil => exact hnone
  | cons ws dead ih =>
    apply ih
    simp [State.close, State.dropRunner, hnone]

theorem Good.dispatchHand (h : Good strict P s) {status : Option ScanStatus} {c : Choice}
    (hlist : strict = true → status = some .queued → s.jobs runId = none → ∀ ws ∈ c.runner,
      (s.pruneDeadRunners c.expired).Unlisted ws runId none) :
    Good strict P (s.dispatchHand runId status c) := by
  unfold State.dispatchHand
  split_ifs with hstatus hjob
  · exact h
  · apply h.spawn_plain rfl (by simp)
    intro v hv
    cases hv
  · have hpruned := h.prune c.expired
    have hnone : s.jobs runId = none := by simpa using hjob
    have hnone' : (s.pruneDeadRunners c.expired).jobs runId = none := jobs_prune_none hnone
    simp only
    split
    · exact hpruned
    · rename_i ws hws
      split_ifs with hrunner
      · have hknown := hpruned.agreement.known ws hrunner.1
        have hmay : (s.pruneDeadRunners c.expired).MayHand strict ws runId :=
          ⟨unheld_of_none hnone' ws,
            fun hstrict => hlist hstrict (by simpa using hstatus) hnone ws hws⟩
        have hgood := hpruned.handOver hknown hmay c.ok
        rcases hpair : (s.pruneDeadRunners c.expired).handOver runId ws c.ok with ⟨u, b⟩
        rw [hpair] at hgood
        cases b with
        | true =>
          have hnoted : Good strict P (u.noteHandOut runId ws) := hgood.same rfl rfl rfl
          apply hnoted.spawn_plain rfl (by simp)
          intro v hv
          cases hv
        | false => exact hgood
      · exact hpruned

theorem Good.startRun (h : Good strict P s) {sent : Bool} {expired : List ℕ}
    (hfree : (s.pruneDeadRunners expired).MayHand strict ws runId) :
    Good strict P (s.startRun runId ws sent expired) := by
  have hpruned := h.prune expired
  unfold State.startRun
  simp only
  split_ifs with hrunner
  · have hgood := hpruned.handOver (hpruned.agreement.known ws hrunner.1) hfree sent
    rcases hpair : (s.pruneDeadRunners expired).handOver runId ws sent with ⟨u, b⟩
    rw [hpair] at hgood
    cases b with
    | true =>
      apply hgood.spawn_plain rfl (by simp)
      intro v hv
      cases hv
    | false => exact hgood
  · exact hpruned

theorem settle_same (loop : Resume) (rest : List String) :
    (loop.settle rest).ws = loop.ws ∧ (loop.settle rest).attachment = loop.attachment ∧
      (loop.settle rest).activeJobs = loop.activeJobs ∧
      (loop.settle rest).accepted = loop.accepted := by
  induction rest generalizing loop with
  | nil => exact ⟨rfl, rfl, rfl, rfl⟩
  | cons runId rest ih =>
    unfold Resume.settle
    by_cases howned : runId ∉ loop.owned
    · rw [if_pos howned]
      exact ih loop
    · rw [if_neg howned]
      by_cases hfinished : runId ∈ loop.finished
      · rw [if_pos hfinished]
        exact ih _
      · rw [if_neg hfinished]
        exact ⟨rfl, rfl, rfl, rfl⟩

/-- The runs the loop has entered into the map. -/
def Resume.accepts (loop : Resume) (ws : ℕ) (runId : String) : Prop :=
  loop.ws = ws ∧ runId ∈ loop.accepted

def nothing : ℕ → String → Prop := fun _ _ => False

theorem Good.resumeNext (loop : Resume) (h : Good strict loop.accepts s) (hsound : loop.Sound)
    (hknown : s.roster.known loop.ws) : Good strict nothing (s.resumeNext loop) := by
  obtain ⟨hws, hattachment, hactive, haccepted⟩ := settle_same loop loop.rest
  have hsettled : (loop.settle loop.rest).Sound := by
    unfold Resume.Sound
    rw [hattachment, hactive, haccepted]
    exact hsound
  have hspawn {g : Handler} (hg : g.loop = some (loop.settle loop.rest))
      (hworks : g.worksFor = some (loop.settle loop.rest).ws) : Good strict nothing (s.spawn g) := by
    apply h.spawn
    · refine ⟨?_, ?_, ?_⟩
      · intro v hv
        rw [hworks, hws] at hv
        obtain rfl := Option.some.inj hv
        exact hknown
      · rintro v rfl
        cases hg
      · intro l hl
        rw [hg] at hl
        obtain rfl := Option.some.inj hl
        exact hsettled
    · rintro v q ⟨hv, hq⟩
      exact Or.inl ⟨_, hg, hws.trans hv, by rw [haccepted]; exact hq⟩
  unfold State.resumeNext
  simp only
  split_ifs
  · exact hspawn rfl rfl
  · exact hspawn rfl rfl

theorem takeOver_handlers (s : State) (runId : String) (ws : ℕ) :
    (s.takeOver runId ws).handlers = s.handlers ∧
      (s.takeOver runId ws).accepted = s.accepted := by
  unfold State.takeOver
  split
  · rename_i previous _
    split_ifs
    · exact releaseJob_handlers s previous runId
    · exact ⟨rfl, rfl⟩
  · exact ⟨rfl, rfl⟩

theorem Good.resumeTake {loop : Resume} (h : Good strict loop.accepts s) (hsound : loop.Sound)
    (hknown : s.roster.known loop.ws) {status : Option ScanStatus}
    (hlist : strict = true → status.any ScanStatus.active = true → ∀ runId ∈ loop.rest.head?,
      s.Unlisted loop.ws runId (s.jobs runId)) :
    Good strict nothing (s.resumeTake loop status) := by
  unfold State.resumeTake
  split
  · exact h.resumeNext loop hsound hknown
  · rename_i runId rest hrest
    by_cases hactive : (!status.any ScanStatus.active) = true
    · rw [if_pos hactive]
      apply h.spawn
      · refine ⟨?_, by simp, ?_⟩
        · intro v hv
          obtain rfl : loop.ws = v := Option.some.inj hv
          exact hknown
        · intro l hl
          obtain rfl : loop = l := Option.some.inj hl
          exact hsound
      · rintro v q ⟨hv, hq⟩
        exact Or.inl ⟨loop, rfl, hv, hq⟩
    · rw [if_neg hactive]
      by_cases hfull : runId ∉ loop.activeJobs ∧
          MAX_ACTIVE_JOBS_PER_RUNNER ≤ loop.activeJobs.length
      · rw [if_pos hfull]
        exact Good.resumeNext { loop with rest := rest } h hsound hknown
      · rw [if_neg hfull]
        obtain ⟨hhandlers, haccepted⟩ := takeOver_handlers s runId loop.ws
        have hkeep (v : ℕ) : (s.takeOver runId loop.ws).roster.known v ↔ s.roster.known v := by
          rw [roster_takeOver]
          rfl
        have htaken := h.agreement.takeOver (r := runId) hknown
        rw [← roster_takeOver] at htaken
        refine Good.resumeNext { loop with
          rest := rest
          activeJobs := if runId ∈ loop.activeJobs then loop.activeJobs
            else loop.activeJobs ++ [runId]
          accepted := loop.accepted ++ [runId] } ?_ ⟨hsound.1, ?_⟩ ((hkeep loop.ws).mpr hknown)
        · have hgood : Good strict (fun v q => loop.accepts v q ∨ v = loop.ws ∧ q = runId) s :=
            ⟨h.agreement.mono fun v q hor => hor.imp_left Or.inl, h.traced, h.fresh, h.handlers⟩
          have htraced (hstrict : strict = true) :
              (s.takeOver runId loop.ws).roster.Traced := by
            have hunlisted := hlist hstrict (by simpa using hactive) runId (by simp [hrest])
            rw [roster_takeOver]
            apply (h.traced hstrict).takeOver
            exact h.alone (fun v _ _ hne => hne) hunlisted
          have hchanged := hgood.change (t := s.takeOver runId loop.ws)
            (htaken.mono fun v q hor => by tauto) htraced hhandlers haccepted hkeep
          refine ⟨hchanged.agreement.mono ?_, hchanged.traced, hchanged.fresh, hchanged.handlers⟩
          intro v q hor
          refine hor.imp_left ?_
          rintro (⟨hv, hq⟩ | ⟨rfl, rfl⟩)
          · exact ⟨hv, List.mem_append_left _ hq⟩
          · exact ⟨rfl, by simp⟩
        · intro q hq
          simp only [List.mem_append, List.mem_singleton] at hq
          simp only
          split_ifs with hmem
          · rcases hq with hq | rfl
            · exact hsound.2 q hq
            · exact hmem
          · rcases hq with hq | rfl
            · exact List.mem_append_left _ (hsound.2 q hq)
            · simp

/-- What `resumeRuns` writes back is what the map has for the connection. -/
def State.MayWrite (s : State) (loop : Resume) : Prop :=
  loop.ws ∈ s.runners → (∀ runId ∈ loop.activeJobs, s.jobs runId = some loop.ws) ∧
    ∀ runId ∈ s.activeJobs loop.ws, runId ∈ loop.activeJobs

/-- The same of a connection that left the runners, but for what is on its attachment. -/
def State.MayRelist (s : State) (loop : Resume) : Prop :=
  s.isRunner loop.ws = true → ∀ runId ∈ loop.activeJobs,
    runId ∈ s.activeJobs loop.ws ∨ s.jobs runId = some loop.ws

theorem Good.resumeWrite {loop : Resume} (h : Good strict loop.accepts s) (hsound : loop.Sound)
    (hknown : s.roster.known loop.ws) (hwrite : s.MayWrite loop)
    (hrelist : strict = true → s.MayRelist loop) :
    Good strict nothing (s.resumeWrite loop) := by
  unfold State.resumeWrite
  set written : Attachment :=
    { loop.attachment with activeJobs := loop.activeJobs, recentJobs := loop.recentJobs }
  have hauth : written.authenticated = (s.attachment loop.ws).authenticated :=
    hsound.1.trans hknown.symm
  have hroster := roster_serialize s loop.ws hauth
  have hgood : Good strict nothing (s.serializeAttachment loop.ws written) := by
    have hrewrite : (s.roster.rewrite loop.ws fun q => q ∈ written.activeJobs).Agreement
        fun v q => nothing v q ∨ s.pending v q := by
      apply h.agreement.rewrite hknown
      · exact fun hlive => (hwrite hlive).1
      · intro hlive q _ hor
        rcases hor with hlist | (⟨-, hq⟩ | hpending)
        · exact Or.inl ((hwrite hlive).2 q hlist)
        · exact Or.inl (hsound.2 q hq)
        · exact Or.inr (Or.inr hpending)
      · rintro v q hne (⟨heq, -⟩ | hpending)
        · exact absurd heq.symm hne
        · exact Or.inr hpending
    refine ⟨?_, ?_, ?_, ?_⟩
    · rw [hroster]
      exact hrewrite
    · rw [hroster]
      exact fun hstrict => (h.traced hstrict).rewrite (hrelist hstrict)
    · rw [hroster]
      exact h.fresh
    · intro g hg
      have hg := h.handlers g hg
      refine ⟨?_, hg.verifies, hg.loop⟩
      rw [hroster]
      exact hg.known
  apply hgood.spawn_plain rfl (by simp)
  intro v hv
  obtain rfl : loop.ws = v := Option.some.inj hv
  rw [hroster]
  exact hknown

theorem Good.startResume (h : Good strict P s) (hknown : s.roster.known ws) (requested : List String) :
    Good strict P (s.startResume ws requested) := by
  have hworks {g : Handler} (hloop : g.loop = none) (hverify : ∀ v, g ≠ .verify v)
      (hws : g.worksFor = some ws) : Good strict P (s.spawn g) := by
    apply h.spawn_plain hloop fun v heq => absurd heq (hverify v)
    intro v hv
    rw [hws] at hv
    obtain rfl := Option.some.inj hv
    exact hknown
  unfold State.startResume
  split_ifs
  · exact hworks rfl (by simp) rfl
  · exact hworks rfl (by simp) rfl

/-- A runner that joins is new to both records, or already live. -/
theorem Good.join (h : Good strict P s) (hw : s.roster.live ws ∨ ¬ s.roster.known ws)
    {sees : Prop} (hsees : sees → s.roster.live ws → s.roster.seen ws)
    (hroster : t.roster = s.roster.join ws sees) (hhandlers : t.handlers = s.handlers)
    (haccepted : s.accepted ≤ t.accepted) (hws : ws < t.accepted) : Good strict P t where
  agreement := by
    unfold State.pending
    rw [hroster, hhandlers]
    exact h.agreement.join hw sees
  traced := by
    intro hstrict
    rw [hroster]
    apply (h.traced hstrict).join
    intro hs
    rcases hw with hlive | hknown
    · exact Or.inl (hsees hs hlive)
    · exact Or.inr fun q => h.agreement.unlisted ws q hknown
  fresh := by
    intro v hv
    rw [hroster]
    rintro (hknown | rfl)
    · exact h.fresh v (haccepted.trans hv) hknown
    · omega
  handlers := by
    intro g hg
    rw [hhandlers] at hg
    have hsound := h.handlers g hg
    refine ⟨?_, fun v hv => (hsound.verifies v hv).trans_le haccepted, hsound.loop⟩
    intro v hv
    rw [hroster]
    exact Or.inl (hsound.known v hv)

theorem Good.verify (h : Good strict P s) (hws : ws < s.accepted)
    (hw : ws ∈ s.runners ∨ (s.attachment ws).authenticated = false) (valid : Bool) :
    Good strict P (s.verify ws valid) := by
  unfold State.verify
  split_ifs
  · have hroster := roster_authenticate s ws
    have hw' : s.roster.live ws ∨ ¬ s.roster.known ws := by
      refine hw.imp_right ?_
      intro hfalse hknown
      have htrue : (s.attachment ws).authenticated = true := hknown
      rw [hfalse] at htrue
      cases htrue
    have hsees : s.isConnected ws = true → s.roster.live ws → s.roster.seen ws := by
      intro hconnected hlive
      have hknown : (s.attachment ws).authenticated = true := h.agreement.known ws hlive
      exact Bool.and_eq_true_iff.mpr ⟨hconnected, hknown⟩
    have hjoined : Good strict P (s.authenticate ws) := h.join hw' hsees hroster rfl le_rfl hws
    apply hjoined.startResume
    rw [hroster]
    exact Or.inr rfl
  · exact h.same (roster_close s ws) rfl rfl

theorem Good.connect (h : Good strict P s) (tags : Tags) (heartbeat : Bool)
    (resume : List String) (expired : List ℕ) :
    Good strict P (s.connect tags heartbeat resume expired) := by
  have hpruned := h.prune expired
  unfold State.connect
  set u := s.pruneDeadRunners expired
  have hnew : ¬ u.roster.known u.accepted := hpruned.fresh u.accepted le_rfl
  have hroster := roster_accept tags heartbeat resume hnew
    fun q => hpruned.agreement.unlisted u.accepted q hnew
  simp only
  split_ifs with hpending
  · have hsame : (u.accept tags heartbeat resume).roster = u.roster := by
      rw [hroster]
      simp [hpending]
    have haccepted : Good strict P (u.accept tags heartbeat resume) := by
      refine ⟨?_, ?_, ?_, ?_⟩
      · rw [hsame]
        exact hpruned.agreement
      · rw [hsame]
        exact hpruned.traced
      · intro w hw
        rw [hsame]
        exact hpruned.fresh w (Nat.le_of_succ_le hw)
      · intro g hg
        have hg := hpruned.handlers g hg
        refine ⟨?_, fun w hw => (hg.verifies w hw).trans (Nat.lt_succ_self _), hg.loop⟩
        rw [hsame]
        exact hg.known
    exact haccepted.same rfl rfl rfl
  · have hjoin : ((u.accept tags heartbeat resume).addRunner u.accepted).roster =
        u.roster.join u.accepted True := by
      rw [roster_addRunner, hroster]
      simp [Roster.join, hpending]
    have hjoined : Good strict P ((u.accept tags heartbeat resume).addRunner u.accepted) := by
      refine hpruned.join (Or.inr hnew) ?_ hjoin rfl (Nat.le_succ _) (Nat.lt_succ_self _)
      exact fun _ hlive => absurd (hpruned.agreement.known _ hlive) hnew
    apply hjoined.startResume
    rw [hjoin]
    exact Or.inr rfl

theorem Good.clear (h : Good strict P s) (hfree : s.Unheld ws runId)
    (hroster : t.roster = s.roster.clear ws runId) (hhandlers : t.handlers = s.handlers)
    (haccepted : t.accepted = s.accepted) : Good strict P t := by
  refine h.change ?_ ?_ hhandlers haccepted ?_
  · rw [hroster]
    exact h.agreement.clear hfree
  · rw [hroster]
    exact fun hstrict => (h.traced hstrict).clear ws runId
  · intro v
    rw [hroster]
    rfl

/-- No run is on the attachments of two of the connections. -/
def State.Single (s : State) (order : List ℕ) : Prop :=
  ∀ v ∈ order, ∀ w ∈ order, s.isRunner v → s.isRunner w →
    ∀ runId ∈ s.activeJobs v, runId ∈ s.activeJobs w → v = w

theorem Good.reconstruct (h : Good strict P s) {order : List ℕ}
    (hsingle : strict = false → s.Single order) : Good strict nothing (s.reconstruct order) := by
  have hauth {v : ℕ} (hv : s.isRunner v = true) : s.roster.known v :=
    (Bool.and_eq_true_iff.mp hv).2
  have hsingle : s.Single order := by
    cases hstrict : strict with
    | false => exact hsingle hstrict
    | true => exact fun v _ w _ hv hw q hvq hwq => (h.traced hstrict).unique hv hw hvq hwq
  have howner {v : ℕ} {q : String} (hv : (s.reconstruct order).roster.owner q = some v) :
      v ∈ order ∧ s.isRunner v = true ∧ q ∈ s.activeJobs v := by
    have hmem := List.mem_of_getLast? hv
    simp only [List.mem_filter, decide_eq_true_eq] at hmem
    exact ⟨hmem.1.1, hmem.1.2, hmem.2⟩
  refine ⟨⟨?_, ?_, h.agreement.unlisted, ?_, ?_⟩, ?_, h.fresh, by simp [State.reconstruct]⟩
  · intro v q hlive hlist
    obtain ⟨hv, hrunner⟩ := List.mem_filter.mp hlive
    have hmem : v ∈ (order.filter s.isRunner).filter fun ws => q ∈ s.activeJobs ws := by
      simp only [List.mem_filter, decide_eq_true_eq]
      exact ⟨⟨hv, hrunner⟩, hlist⟩
    have hne := List.ne_nil_of_mem hmem
    have hlast : (s.reconstruct order).roster.owner q = some _ :=
      List.getLast?_eq_some_getLast hne
    obtain ⟨hw, hwrunner, hwlist⟩ := howner hlast
    have hsame := hsingle v hv _ hw hrunner hwrunner q hlist hwlist
    rw [hlast, ← hsame]
  · intro v q _ hv
    exact Or.inl (howner hv).2.2
  · intro v q hv hq
    exact hv (hauth (howner hq).2.1)
  · intro v hv
    exact hauth (List.mem_filter.mp hv).2
  · intro hstrict
    refine ⟨(h.traced hstrict).listed, ?_⟩
    intro v q hq
    obtain ⟨-, hrunner, hlist⟩ := howner hq
    exact (h.traced hstrict).listed v q hrunner hlist

/-- The steps after which the two records can still agree: another runner's run is not
given away or ended, and `resumeRuns` writes back what the map has. If `strict`, no run is
given away either that a connection outside the runners has. -/
def Handler.inTurn (strict : Bool) (s : State) (c : Choice) : Handler → Prop
  | .verify ws => ws ∈ s.runners ∨ (s.attachment ws).authenticated = false
  | .resumeTake loop status => strict = true → status.any ScanStatus.active = true →
    ∀ runId ∈ loop.rest.head?, s.Unlisted loop.ws runId (s.jobs runId)
  | .resumeWrite loop => s.MayWrite loop ∧ (strict = true → s.MayRelist loop)
  | .passConfig pass => strict = true → c.handsAtOnce pass = true →
    s.jobs pass.scan.id = none → s.Unlisted pass.ws pass.scan.id none
  | .passHand pass latestFinished =>
    pass.scan.id ∉ latestFinished → s.MayHand strict pass.ws pass.scan.id
  | .dispatchHand runId status => strict = true → status = some .queued →
    s.jobs runId = none → ∀ ws ∈ c.runner,
      (s.pruneDeadRunners c.expired).Unlisted ws runId none
  | .eventCleanup ws runId => s.Unheld ws runId
  | .watchStop runner runId _ => ∀ ws ∈ runner, s.Unheld ws runId
  | _ => True

def Label.inTurn (strict : Bool) (s : State) : Label → Prop
  | .startRun runId ws _ expired => (s.pruneDeadRunners expired).MayHand strict ws runId
  | .rebuild order => strict = false → s.Single order
  | .act i c => ∀ h ∈ s.handlers[i]?, h.inTurn strict s c
  | _ => True

theorem prune_handlers (s : State) (handlers : List Handler) (expired : List ℕ) :
    { s with handlers := handlers }.pruneDeadRunners expired =
      { s.pruneDeadRunners expired with handlers := handlers } := by
  have hfold (dead : List ℕ) (u : State) :
      dead.foldl (fun s ws => (s.dropRunner ws).close ws) { u with handlers := handlers } =
        { dead.foldl (fun s ws => (s.dropRunner ws).close ws) u with handlers := handlers } := by
    induction dead generalizing u with
    | nil => rfl
    | cons ws dead ih => exact ih ((u.dropRunner ws).close ws)
  exact hfold _ s

/-- Whose turn it is does not depend on the other handlers. -/
theorem Handler.inTurn_handlers {h : Handler} {c : Choice} (handlers : List Handler)
    (hturn : h.inTurn strict s c) : h.inTurn strict { s with handlers := handlers } c := by
  cases h with
  | dispatchHand runId status =>
    unfold Handler.inTurn
    rw [prune_handlers]
    exact hturn
  | _ => exact hturn

theorem Good.plain {h : Handler} (hgood : Good strict h.accepts s) (hloop : h.loop = none) :
    Good strict nothing s where
  agreement := by
    apply hgood.agreement.mono
    rintro v q (⟨loop, hl, -⟩ | hpending)
    · rw [hloop] at hl
      cases hl
    · exact Or.inr hpending
  traced := hgood.traced
  fresh := hgood.fresh
  handlers := hgood.handlers

theorem Good.of_loop {h : Handler} (loop : Resume) (hgood : Good strict h.accepts s)
    (hloop : h.loop = some loop) : Good strict loop.accepts s where
  agreement := by
    apply hgood.agreement.mono
    rintro v q (⟨l, hl, hv, hq⟩ | hpending)
    · rw [hloop] at hl
      obtain rfl := Option.some.inj hl
      exact Or.inl ⟨hv, hq⟩
    · exact Or.inr hpending
  traced := hgood.traced
  fresh := hgood.fresh
  handlers := hgood.handlers

theorem Good.watchNext (h : Good strict P s) (rest : List ActiveScan) : Good strict P (s.watchNext rest) := by
  unfold State.watchNext
  split
  · exact h
  · exact h.spawn_plain rfl (by simp) (by intro v hv; cases hv)

theorem Good.watchScan (h : Good strict P s) (candidates : List ActiveScan) (overdue : Bool) :
    Good strict P (s.watchScan candidates overdue) := by
  unfold State.watchScan
  split
  · exact h
  · split
    · split_ifs
      · exact h.spawn_plain rfl (by simp) (by intro v hv; cases hv)
      · exact h.watchNext _
    · split_ifs
      · exact h.spawn_plain rfl (by simp) (by intro v hv; cases hv)
      · exact h.watchNext _

theorem Good.eventCleanup (h : Good strict P s) (hknown : s.roster.known ws)
    (hfree : s.Unheld ws runId) : Good strict P (s.eventCleanup ws runId) := by
  unfold State.eventCleanup
  set u := s.jobsDelete runId
  set a : Attachment := { u.attachment ws with
    activeJobs := (u.attachment ws).activeJobs.filter (· ≠ runId)
    recentJobs := pushBounded MAX_RECENT_JOBS
      ((u.attachment ws).recentJobs.filter (· ≠ runId)) runId } with ha
  have hroster : (u.serializeAttachment ws a).roster = s.roster.clear ws runId := by
    have hauth : a.authenticated = (u.attachment ws).authenticated := rfl
    rw [roster_serialize u ws hauth]
    apply Roster.eq_of_lists rfl
    intro v q
    have hlist : (u.attachment v).activeJobs = s.activeJobs v := rfl
    by_cases hv : v = ws
    · subst hv
      simp [Roster.rewrite, Roster.clear, ha, State.roster, hlist]
    · have hsame : u.roster.lists v q ↔ s.roster.lists v q := Iff.rfl
      simp [Roster.rewrite, Roster.clear, hv, hsame]
  have hcleared : Good strict P (u.serializeAttachment ws a) := h.clear hfree hroster rfl rfl
  apply hcleared.spawn_plain rfl (by simp)
  intro v hv
  obtain rfl : ws = v := Option.some.inj hv
  rw [hroster]
  exact hknown

theorem Good.recordJobRunner (h : Good strict P s) (runId : String) (ws : ℕ) :
    Good strict P (s.recordJobRunner runId ws) := by
  unfold State.recordJobRunner
  split
  · exact h.same rfl rfl rfl
  · exact h

theorem known_recordJobRunner (s : State) (runId : String) (ws v : ℕ) :
    (s.recordJobRunner runId ws).roster.known v ↔ s.roster.known v := by
  unfold State.recordJobRunner
  split <;> rfl

theorem Good.updateScanStatus (h : Good strict P s) (runId : String) (status : ScanStatus) :
    Good strict P (s.updateScanStatus runId status) := h.same rfl rfl rfl

theorem roster_markScanFinished (s : State) (runId : String) :
    (s.markScanFinished runId).roster = s.roster := by
  apply roster_congr
  · simp only [State.markScanFinished]
  · simp only [State.markScanFinished]
  · simp only [State.markScanFinished]
  · simp only [State.markScanFinished]
  · simp only [State.markScanFinished]

theorem Good.markScanFinished (h : Good strict P s) (runId : String) :
    Good strict P (s.markScanFinished runId) := by
  apply h.same (roster_markScanFinished s runId)
  · simp only [State.markScanFinished]
  · simp only [State.markScanFinished]

theorem Good.changeActiveStatus (h : Good strict P s) (runId : String) (allowed : List ScanStatus)
    (status : ScanStatus) : Good strict P (s.changeActiveStatus runId allowed status) := by
  unfold State.changeActiveStatus
  split_ifs
  · exact h.updateScanStatus runId status
  · exact h

theorem Good.closed (h : Good strict P s) (ws : ℕ) : Good strict P (s.closed ws) := by
  have hroster := roster_closed s ws
  refine h.change ?_ ?_ rfl rfl ?_
  · rw [hroster]
    exact (h.agreement.drop ws).vanish ws
  · rw [hroster]
    exact fun hstrict => ((h.traced hstrict).drop ws).vanish ws
  · intro v
    rw [hroster]
    rfl

/-- What a handler does next keeps the invariant, if it is its turn. -/
theorem Good.perform {h : Handler} (hgood : Good strict h.accepts s) (hsound : h.Sound s)
    {c : Choice} (hturn : h.inTurn strict s c) : Good strict nothing (h.perform T s c) := by
  cases h with
  | verify ws => exact (hgood.plain rfl).verify (hsound.verifies ws rfl) hturn c.ok
  | resumeOwners ws requested =>
    apply (hgood.plain rfl).spawn_plain rfl (by simp)
    intro v hv
    obtain rfl : ws = v := Option.some.inj hv
    exact hsound.known ws rfl
  | resumeFinished ws requested owned =>
    have hknown := hsound.known ws rfl
    have hplain := hgood.plain rfl
    apply Good.resumeNext
    · refine ⟨hplain.agreement.mono ?_, hplain.traced, hplain.fresh, hplain.handlers⟩
      exact fun v q hor => hor.imp_left False.elim
    · exact ⟨hknown, by simp⟩
    · exact hknown
  | resumeStatus loop =>
    have hloop := hgood.of_loop loop rfl
    have hknown := hsound.known loop.ws rfl
    have hsafe := hsound.loop loop rfl
    unfold Handler.perform
    simp only
    split
    · exact hloop.resumeNext loop hsafe hknown
    · rename_i runId rest _
      split_ifs
      · apply hloop.spawn
        · refine ⟨?_, by simp, ?_⟩
          · intro v hv
            obtain rfl : loop.ws = v := Option.some.inj hv
            exact hknown
          · intro l hl
            obtain rfl : loop = l := Option.some.inj hl
            exact hsafe
        · rintro v q ⟨hv, hq⟩
          exact Or.inl ⟨loop, rfl, hv, hq⟩
      · exact Good.resumeNext { loop with rest := rest } hloop hsafe hknown
  | resumeTake loop status =>
    exact (hgood.of_loop loop rfl).resumeTake (hsound.loop loop rfl) (hsound.known loop.ws rfl) hturn
  | resumeForget loop =>
    have hloop := hgood.of_loop loop rfl
    have hknown := hsound.known loop.ws rfl
    have hsafe := hsound.loop loop rfl
    unfold Handler.perform
    simp only
    split
    · exact hloop.resumeNext loop hsafe hknown
    · rename_i runId rest _
      have hforgot : Good strict loop.accepts (s.forgetJobRunner runId) := hloop.same rfl rfl rfl
      exact Good.resumeNext { loop with rest := rest } hforgot hsafe hknown
  | resumeWrite loop =>
    exact (hgood.of_loop loop rfl).resumeWrite (hsound.loop loop rfl) (hsound.known loop.ws rfl)
      hturn.1 hturn.2
  | afterResume ws => exact (hgood.plain rfl).checkAndDispatch (hsound.known ws rfl) c.expired
  | passActive ws =>
    have hknown := hsound.known ws rfl
    unfold Handler.perform
    simp only
    split_ifs
    · apply (hgood.plain rfl).spawn_plain rfl (by simp)
      intro v hv
      obtain rfl : ws = v := Option.some.inj hv
      exact hknown
    · exact (hgood.plain rfl).endPass hknown
  | passStored ws scans =>
    have hknown := hsound.known ws rfl
    unfold Handler.perform
    simp only
    split
    · exact (hgood.plain rfl).endPass hknown
    · apply (hgood.plain rfl).spawn_plain rfl (by simp)
      intro v hv
      obtain rfl : ws = v := Option.some.inj hv
      exact hknown
  | passScan pass => exact (hgood.plain rfl).passScan (hsound.known pass.ws rfl)
  | passConfig pass => exact (hgood.plain rfl).passConfig (hsound.known pass.ws rfl) hturn
  | passFail pass =>
    have hplain := hgood.plain rfl
    unfold Handler.perform
    simp only
    split_ifs
    · have hmarked : Good strict nothing (s.markFailedIfActive pass.scan.id SCAN_CONFIG_UNREADABLE).1 :=
        hplain.same rfl rfl rfl
      exact hmarked.nextScan (hsound.known pass.ws rfl)
    · exact hplain.nextScan (hsound.known pass.ws rfl)
  | passFinished pass =>
    apply (hgood.plain rfl).spawn_plain rfl (by simp)
    intro v hv
    obtain rfl : pass.ws = v := Option.some.inj hv
    exact hsound.known pass.ws rfl
  | passHand pass latestFinished =>
    have hknown := hsound.known pass.ws rfl
    unfold Handler.perform
    simp only
    split_ifs with hfinished
    · exact (hgood.plain rfl).nextScan hknown
    · exact (hgood.plain rfl).passHandOver hknown (hturn hfinished) c.ok
  | passRecord pass =>
    have hrecorded := (hgood.plain rfl).recordJobRunner pass.scan.id pass.ws
    apply hrecorded.spawn_plain rfl (by simp)
    intro v hv
    obtain rfl : pass.ws = v := Option.some.inj hv
    rw [known_recordJobRunner]
    exact hsound.known pass.ws rfl
  | passMark pass =>
    have hplain := hgood.plain rfl
    have hknown := hsound.known pass.ws rfl
    unfold Handler.perform
    simp only
    split_ifs
    · exact (hplain.updateScanStatus pass.scan.id .dispatched).nextScan hknown
    · exact hplain.nextScan hknown
  | dispatchStatus runId =>
    unfold Handler.perform
    simp only
    split_ifs
    · exact (hgood.plain rfl).spawn_plain rfl (by simp) (by intro v hv; cases hv)
    · exact hgood.plain rfl
  | dispatchHand runId status => exact (hgood.plain rfl).dispatchHand hturn
  | dispatchRecord runId ws =>
    have hrecorded := (hgood.plain rfl).recordJobRunner runId ws
    exact hrecorded.spawn_plain rfl (by simp) (by intro v hv; cases hv)
  | consumerMark runId =>
    unfold Handler.perform
    simp only
    split_ifs
    · exact (hgood.plain rfl).updateScanStatus runId .dispatched
    · exact hgood.plain rfl
  | startRecord runId ws => exact (hgood.plain rfl).recordJobRunner runId ws
  | eventCleanup ws runId => exact (hgood.plain rfl).eventCleanup (hsound.known ws rfl) hturn
  | eventFinished ws runId =>
    have hmarked := (hgood.plain rfl).markScanFinished runId
    have hkeep : s.roster.known ws := hsound.known ws rfl
    rw [← roster_markScanFinished s runId] at hkeep
    exact hmarked.checkAndDispatch hkeep c.expired
  | stopStatus runId =>
    unfold Handler.perform
    simp only
    split_ifs
    · exact (hgood.plain rfl).spawn_plain rfl (by simp) (by intro v hv; cases hv)
    · exact hgood.plain rfl
  | stopMark runId reason =>
    have hmarked : Good strict nothing (s.markFailedIfActive runId reason).1 :=
      (hgood.plain rfl).same rfl rfl rfl
    unfold Handler.perform
    simp only
    rcases hpair : s.markFailedIfActive runId reason with ⟨u, b⟩
    rw [hpair] at hmarked
    cases b with
    | true => exact hmarked.spawn_plain rfl (by simp) (by intro v hv; cases hv)
    | false => exact hmarked
  | stopForget runId => exact (hgood.plain rfl).same rfl rfl rfl
  | watchList owned => exact (hgood.plain rfl).watchNext _
  | watchScan candidates => exact (hgood.plain rfl).watchScan candidates c.ok
  | watchStatus runner runId rest =>
    unfold Handler.perform
    simp only
    split_ifs
    · exact (hgood.plain rfl).spawn_plain rfl (by simp) (by intro v hv; cases hv)
    · exact (hgood.plain rfl).watchNext rest
  | watchEnd runner runId rest =>
    unfold Handler.perform
    simp only
    split
    · rename_i done _
      have hdone : Good strict nothing { s with db := done.db } := (hgood.plain rfl).same rfl rfl rfl
      split_ifs
      · exact hdone.spawn_plain rfl (by simp) (by intro v hv; cases hv)
      · exact hdone.watchNext rest
    · exact (hgood.plain rfl).watchNext rest
  | watchForget runner runId rest =>
    have hforgot : Good strict nothing (s.forgetJobRunner runId) := (hgood.plain rfl).same rfl rfl rfl
    exact hforgot.spawn_plain rfl (by simp) (by intro v hv; cases hv)
  | watchStop runner runId rest =>
    apply Good.watchNext
    unfold State.watchStop
    split
    · rename_i ws
      obtain ⟨hhandlers, haccepted⟩ := releaseJob_handlers (s.jobsDelete runId) ws runId
      exact (hgood.plain rfl).clear (hturn ws rfl) (roster_clear s runId ws) hhandlers haccepted
    · exact hgood.plain rfl

theorem good_step {a : Label} (h : Good strict nothing s) (hturn : a.inTurn strict s)
    (hstep : step T s a = some t) : Good strict nothing t := by
  cases a with
  | connect tags heartbeat resume expired =>
    obtain rfl := Option.some.inj hstep
    exact h.connect tags heartbeat resume expired
  | challengeResponse ws =>
    obtain ⟨hcond, hstep⟩ := Option.ite_none_right_eq_some.mp hstep
    obtain rfl := Option.some.inj hstep
    have hws : ws < s.accepted := by
      simp only [State.isConnected, Bool.and_eq_true, decide_eq_true_eq] at hcond
      exact hcond.1.1.1.1
    apply h.spawn_plain rfl
    · intro v hv
      obtain rfl := Handler.verify.inj hv
      exact hws
    · intro v hv
      cases hv
  | dispatch runId =>
    simp only [step] at hstep
    split_ifs at hstep
    · obtain rfl := Option.some.inj hstep
      exact h.spawn_plain rfl (by simp) (by intro v hv; cases hv)
    · obtain rfl := Option.some.inj hstep
      exact h.spawn_plain rfl (by simp) (by intro v hv; cases hv)
  | startRun runId ws sent expired =>
    obtain rfl := Option.some.inj hstep
    exact h.startRun hturn
  | stop runId =>
    simp only [step] at hstep
    split_ifs at hstep
    · obtain rfl := Option.some.inj hstep
      exact h
    · obtain rfl := Option.some.inj hstep
      exact h.spawn_plain rfl (by simp) (by intro v hv; cases hv)
  | terminalEvent ws runId =>
    obtain ⟨hcond, hstep⟩ := Option.ite_none_right_eq_some.mp hstep
    obtain rfl := Option.some.inj hstep
    have hlist : s.roster.lists ws runId := by
      simp only [State.takesEvents, Bool.and_eq_true, decide_eq_true_eq] at hcond
      exact hcond.2
    apply h.spawn_plain rfl (by simp)
    intro v hv
    obtain rfl : ws = v := Option.some.inj hv
    by_contra hknown
    exact h.agreement.unlisted ws runId hknown hlist
  | watchdog expired =>
    obtain rfl := Option.some.inj hstep
    exact (h.prune expired).spawn_plain rfl (by simp) (by intro v hv; cases hv)
  | listRunners expired =>
    obtain rfl := Option.some.inj hstep
    exact h.prune expired
  | close ws =>
    obtain ⟨-, hstep⟩ := Option.ite_none_right_eq_some.mp hstep
    obtain rfl := Option.some.inj hstep
    exact h.closed ws
  | rebuild order =>
    obtain ⟨-, hstep⟩ := Option.ite_none_right_eq_some.mp hstep
    obtain rfl := Option.some.inj hstep
    exact h.reconstruct hturn
  | findings messages =>
    obtain ⟨done, -, rfl⟩ := Option.map_eq_some_iff.mp hstep
    exact h.same rfl rfl rfl
  | createScan runId scan =>
    obtain ⟨-, hstep⟩ := Option.ite_none_right_eq_some.mp hstep
    obtain rfl := Option.some.inj hstep
    exact h.same rfl rfl rfl
  | pause runId =>
    obtain rfl := Option.some.inj hstep
    exact h.changeActiveStatus runId _ _
  | unpause runId =>
    obtain rfl := Option.some.inj hstep
    exact h.changeActiveStatus runId _ _
  | notQueued runId =>
    obtain rfl := Option.some.inj hstep
    exact h.updateScanStatus runId .failed
  | act i choice =>
    obtain ⟨g, hg, rfl⟩ := Option.map_eq_some_iff.mp hstep
    have hmem := List.mem_of_getElem? hg
    have hrest {k : Handler} (hk : k ∈ s.handlers.eraseIdx i) : k ∈ s.handlers :=
      List.mem_of_mem_eraseIdx hk
    have hgood : Good strict g.accepts { s with handlers := s.handlers.eraseIdx i } := by
      refine ⟨h.agreement.mono ?_, h.traced, h.fresh, ?_⟩
      · rintro v q (hno | ⟨k, hk, hacc⟩)
        · exact hno.elim
        · by_cases hkg : k ∈ s.handlers.eraseIdx i
          · exact Or.inr ⟨k, hkg, hacc⟩
          · refine Or.inl ?_
            obtain ⟨j, hj⟩ := List.mem_iff_getElem?.mp hk
            have hji : j = i := by
              by_contra hne
              exact hkg (List.mem_eraseIdx_iff_getElem?.mpr ⟨j, hne, hj⟩)
            rw [hji, hg] at hj
            obtain rfl := Option.some.inj hj
            exact hacc
      · intro k hk
        have hsound := h.handlers k (hrest hk)
        exact ⟨hsound.known, hsound.verifies, hsound.loop⟩
    have hsound := h.handlers g hmem
    exact hgood.perform T ⟨hsound.known, hsound.verifies, hsound.loop⟩
      (Handler.inTurn_handlers _ (hturn g hg))

/-- A coordinator without connections. -/
def State.init (db : Findings.Db) (finishedRuns : List String)
    (jobRunner : String → Option Identity) : State where
  accepted := 0
  socket := fun _ => {
    tags := { pending := false, shared := false, userId := none }
    attachment := {
      authenticated := false, heartbeat := false, resume := [], activeJobs := [],
      recentJobs := [] }
    connected := false
    closed := false }
  runners := []
  pendingChallenges := []
  jobs := fun _ => none
  lastOwner := fun _ => none
  pendingRerun := []
  finishedRuns := finishedRuns
  jobRunner := jobRunner
  db := db
  handlers := []
  handedOut := []

theorem good_init (db : Findings.Db) (finishedRuns : List String)
    (jobRunner : String → Option Identity) :
    Good strict nothing (State.init db finishedRuns jobRunner) where
  agreement := {
    listed := by simp [State.roster, State.init]
    named := by simp [State.roster, State.init]
    unlisted := by simp [State.roster, State.init, State.activeJobs, State.attachment]
    unnamed := by simp [State.roster, State.init]
    known := by simp [State.roster, State.init] }
  traced := fun _ => ⟨by simp [State.roster, State.init, State.activeJobs, State.attachment],
    by simp [State.roster, State.init]⟩
  fresh := by simp [State.roster, State.init, State.attachment]
  handlers := by simp [State.init]

instance (s : State) (ws : ℕ) (runId : String) : Decidable (s.Unheld ws runId) :=
  inferInstanceAs (Decidable (∀ v ∈ s.runners, v ≠ ws → s.jobs runId ≠ some v))

instance (s : State) (loop : Resume) : Decidable (s.MayWrite loop) :=
  inferInstanceAs (Decidable (loop.ws ∈ s.runners →
    (∀ runId ∈ loop.activeJobs, s.jobs runId = some loop.ws) ∧
      ∀ runId ∈ s.activeJobs loop.ws, runId ∈ loop.activeJobs))

instance (s : State) (loop : Resume) : Decidable (s.MayRelist loop) :=
  inferInstanceAs (Decidable (s.isRunner loop.ws = true → ∀ runId ∈ loop.activeJobs,
    runId ∈ s.activeJobs loop.ws ∨ s.jobs runId = some loop.ws))

instance (s : State) (ws : ℕ) (runId : String) (except : Option ℕ) :
    Decidable (s.Unlisted ws runId except) :=
  inferInstanceAs (Decidable (∀ v ∈ List.range s.accepted, v ∉ s.runners → v ≠ ws →
    except ≠ some v → s.isRunner v = true → runId ∉ s.activeJobs v))

instance (s : State) (strict : Bool) (ws : ℕ) (runId : String) :
    Decidable (s.MayHand strict ws runId) :=
  inferInstanceAs (Decidable (s.Unheld ws runId ∧ (strict = true → s.Unlisted ws runId none)))

instance (s : State) (order : List ℕ) : Decidable (s.Single order) :=
  inferInstanceAs (Decidable (∀ v ∈ order, ∀ w ∈ order, s.isRunner v → s.isRunner w →
    ∀ runId ∈ s.activeJobs v, runId ∈ s.activeJobs w → v = w))

instance (strict : Bool) (s : State) (c : Choice) : DecidablePred (Handler.inTurn strict s c) :=
  fun h => by
    unfold Handler.inTurn
    cases h <;> infer_instance

instance (strict : Bool) (s : State) : DecidablePred (Label.inTurn strict s) := fun a => by
  unfold Label.inTurn
  cases a <;> infer_instance

/-- The map and the attachments of the connected runners agree. -/
def State.Agree (s : State) : Prop :=
  ∀ ws ∈ s.runners, ∀ runId, s.jobs runId = some ws ↔ runId ∈ s.activeJobs ws

theorem Good.agree (h : Good strict nothing s) (hsettled : s.settled = true) : s.Agree := by
  intro ws hlive runId
  constructor
  · intro howner
    rcases h.agreement.named ws runId hlive howner with hlist | hno | ⟨g, hg, hpending⟩
    · exact hlist
    · exact hno.elim
    · obtain ⟨loop, hloop, -, hmem⟩ := hpending
      have hnot := List.all_eq_true.mp hsettled g hg
      simp [Handler.midUpdate, hloop, List.ne_nil_of_mem hmem] at hnot
  · exact h.agreement.listed ws runId hlive

/-- Scans with the statuses, and nothing else stored. -/
def scansIn (statuses : List (String × ScanStatus)) : Findings.Db where
  scans := fun id => (statuses.lookup id).map fun status => {
    projectId := "p", targetUrl := "http://t", profile := "default", status := status,
    summaryStats := none, lastCheckpoint := none, failureReason := none }
  events := []
  progress := fun _ _ => none
  findings := []

/-- A coordinator that knows run `r1` as handed to a shared runner, and has `r2` queued. -/
def restarted : State :=
  State.init (scansIn [("r1", .dispatched), ("r2", .queued)]) []
    fun runId => if runId = "r1" then some .shared else none

def sharedRunner : Tags where
  pending := false
  shared := true
  userId := none

end Swazz.Runners
