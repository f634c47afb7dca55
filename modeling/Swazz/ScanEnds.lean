import Swazz.FindingsQueueSteps
import Swazz.RunnerAgreement

/-! A scan that has ended stays ended, whoever writes its row. -/
namespace Swazz.Findings

/-- The scan's row says that it has ended. -/
def Db.Ended (db : Db) (scanId : String) : Prop :=
  (db.scans scanId).map Scan.status = some .completed ∨
    (db.scans scanId).map Scan.status = some .failed

variable (T : TextFns) {db : Db} {scanId : String}

theorem Db.Ended.inactive (h : db.Ended scanId) {scan : Scan} (hscan : db.scans scanId = some scan) :
    scan.status.active = false := by
  have hstatus : scan.status = .completed ∨ scan.status = .failed := by
    simpa [Db.Ended, hscan] using h
  rcases hstatus with h | h <;> simp [h, ScanStatus.active]

theorem ended_congr {next : Db} (h : db.Ended scanId)
    (hscans : (next.scans scanId).map Scan.status = (db.scans scanId).map Scan.status) :
    next.Ended scanId := by
  unfold Db.Ended
  rw [hscans]
  exact h

/-- A terminal update changes no scan that has ended. -/
theorem ended_endScan (h : db.Ended scanId) (id : String) (f : Scan → Scan) :
    (db.endScan id f).1.Ended scanId := by
  unfold Db.endScan
  split
  · rename_i scan hscan
    split_ifs with hactive
    · have hne : scanId ≠ id := by
        rintro rfl
        rw [h.inactive hscan] at hactive
        cases hactive
      apply ended_congr h
      simp only [Function.update_of_ne hne]
    · exact h
  · exact h

theorem ended_exec (h : db.Ended scanId) (stmt : Statement) :
    (db.exec T stmt).1.Ended scanId := by
  cases stmt with
  | upsertProgress id kind row =>
    rw [Db.exec]
    split_ifs
    · exact h
    · exact h
  | insertEvent row =>
    rw [Db.exec]
    split_ifs
    · exact h
    · exact h
  | complete id stats => exact ended_endScan h id _
  | checkpoint id data =>
    rw [Db.exec]
    split
    · rename_i scan hscan
      apply ended_congr h
      by_cases hid : scanId = id
      · simp only [hid, Function.update_self, hscan, Option.map_some]
      · simp only [Function.update_of_ne hid]
    · exact h
  | fail id reason => exact ended_endScan h id _
  | insertFinding row =>
    rw [Db.exec]
    split_ifs
    · exact h
    · exact h

theorem ended_batch (h : db.Ended scanId) (stmts : List Statement) :
    (db.batch T stmts).1.Ended scanId := by
  induction stmts generalizing db with
  | nil => exact h
  | cons stmt rest ih => exact ih (ended_exec T h stmt)

/-- Whatever events a batch holds, the scans that had ended stay ended. -/
theorem ended_process (h : db.Ended scanId) {messages : List Body} {done : Processed}
    (hdone : processFindingsQueueMessages T db messages = some done) : done.db.Ended scanId := by
  obtain ⟨p, -, rfl⟩ := Option.map_eq_some_iff.mp hdone
  exact ended_batch T h p.statements

end Swazz.Findings

namespace Swazz.Runners

open StepSystem

variable (T : Findings.TextFns) {s t : State} {runId : String}

def State.Ended (s : State) (runId : String) : Prop := s.db.Ended runId

/-- The connections the scan was handed to. -/
def State.handOuts (s : State) (runId : String) : List (String × ℕ) :=
  s.handedOut.filter fun job => job.1 = runId

/-- Whether `handOver` sends a job to the connection, which has room for it. -/
def State.sends (s : State) (ws : ℕ) (ok : Bool) : Bool :=
  s.hasCapacity ws && ok && !(s.socket ws).closed

/-- What a handler hands to a runner, and what it marks dispatched, has not ended. -/
def Handler.stillActive (s : State) (c : Choice) : Handler → Prop
  | .passConfig pass =>
    c.lookup = .found false → pass.scan.projectId.isEmpty = true →
      (s.jobs pass.scan.id).isSome = false → pass.scan.id ∉ s.collectRecentJobIds pass.ws →
        s.sends pass.ws c.ok = true → ¬ s.Ended pass.scan.id
  | .passHand pass latestFinished =>
    pass.scan.id ∉ latestFinished → s.sends pass.ws c.ok = true → ¬ s.Ended pass.scan.id
  | .dispatchHand runId status =>
    status = some .queued → (s.jobs runId).isSome = false →
      ∀ ws ∈ c.runner, ws ∈ (s.pruneDeadRunners c.expired).runners →
        (s.pruneDeadRunners c.expired).sends ws c.ok = true → ¬ s.Ended runId
  | .passMark pass => c.ok = true → ¬ s.Ended pass.scan.id
  | .consumerMark runId => c.ok = true → ¬ s.Ended runId
  | _ => True

def Label.stillActive (s : State) : Label → Prop
  | .act i c => ∀ h ∈ s.handlers[i]?, h.stillActive s c
  | _ => True

/-- What the law is about: the scans' rows and the jobs sent. -/
def State.scanRecord (s : State) : Findings.Db × List (String × ℕ) := (s.db, s.handedOut)

@[simp] theorem scanRecord_spawn (s : State) (h : Handler) :
    (s.spawn h).scanRecord = s.scanRecord := rfl

@[simp] theorem scanRecord_close (s : State) (ws : ℕ) :
    (s.close ws).scanRecord = s.scanRecord := rfl

@[simp] theorem scanRecord_dropRunner (s : State) (ws : ℕ) :
    (s.dropRunner ws).scanRecord = s.scanRecord := rfl

@[simp] theorem scanRecord_prune (s : State) (expired : List ℕ) :
    (s.pruneDeadRunners expired).scanRecord = s.scanRecord := by
  unfold State.pruneDeadRunners
  generalize expired.filter _ = dead
  induction dead generalizing s with
  | nil => rfl
  | cons ws rest ih =>
    rw [List.foldl_cons, ih]
    rfl

@[simp] theorem scanRecord_pushJob (s : State) (runId : String) (ws : ℕ) :
    (s.pushJob runId ws).scanRecord = s.scanRecord := by
  unfold State.pushJob
  split_ifs <;> rfl

@[simp] theorem scanRecord_releaseJob (s : State) (ws : ℕ) (runId : String) :
    (s.releaseJob ws runId).scanRecord = s.scanRecord := by
  unfold State.releaseJob
  split_ifs <;> rfl

@[simp] theorem scanRecord_startPass (s : State) (ws : ℕ) :
    (s.startPass ws).scanRecord = s.scanRecord := by
  unfold State.startPass
  simp only
  split_ifs <;> rfl

@[simp] theorem scanRecord_endPass (s : State) (ws : ℕ) :
    (s.endPass ws).scanRecord = s.scanRecord := by
  unfold State.endPass
  split_ifs
  · exact scanRecord_startPass s ws
  · rfl

@[simp] theorem scanRecord_checkAndDispatch (s : State) (ws : ℕ) (expired : List ℕ) :
    (s.checkAndDispatchQueuedScans ws expired).scanRecord = s.scanRecord := by
  have hpruned := scanRecord_prune s expired
  unfold State.checkAndDispatchQueuedScans
  simp only
  split_ifs
  · exact hpruned
  · exact hpruned
  · rw [scanRecord_startPass, hpruned]

@[simp] theorem scanRecord_nextScan (s : State) (pass : Pass) :
    (s.nextScan pass).scanRecord = s.scanRecord := by
  unfold State.nextScan
  split
  · rfl
  · exact scanRecord_endPass s pass.ws

@[simp] theorem scanRecord_handOver (s : State) (runId : String) (ws : ℕ) (sent : Bool) :
    (s.handOver runId ws sent).1.scanRecord = s.scanRecord := by
  have hnamed : ((s.jobsSet runId ws).pushJob runId ws).scanRecord = s.scanRecord :=
    scanRecord_pushJob (s.jobsSet runId ws) runId ws
  unfold State.handOver
  simp only
  split_ifs
  · exact hnamed
  · exact (scanRecord_releaseJob _ ws runId).trans hnamed

@[simp] theorem scanRecord_recordJobRunner (s : State) (runId : String) (ws : ℕ) :
    (s.recordJobRunner runId ws).scanRecord = s.scanRecord := by
  unfold State.recordJobRunner
  split <;> rfl

@[simp] theorem scanRecord_forgetJobRunner (s : State) (runId : String) :
    (s.forgetJobRunner runId).scanRecord = s.scanRecord := rfl

@[simp] theorem scanRecord_markScanFinished (s : State) (runId : String) :
    (s.markScanFinished runId).scanRecord = s.scanRecord := by
  simp only [State.scanRecord, State.markScanFinished]

@[simp] theorem scanRecord_resumeNext (s : State) (loop : Resume) :
    (s.resumeNext loop).scanRecord = s.scanRecord := by
  unfold State.resumeNext
  simp only
  split_ifs <;> rfl

@[simp] theorem scanRecord_takeOver (s : State) (runId : String) (ws : ℕ) :
    (s.takeOver runId ws).scanRecord = s.scanRecord := by
  unfold State.takeOver
  split
  · rename_i previous _
    split_ifs
    · exact scanRecord_releaseJob s previous runId
    · rfl
  · rfl

@[simp] theorem scanRecord_resumeTake (s : State) (loop : Resume) (status : Option ScanStatus) :
    (s.resumeTake loop status).scanRecord = s.scanRecord := by
  unfold State.resumeTake
  split
  · exact scanRecord_resumeNext s loop
  · split_ifs
    · rfl
    · exact scanRecord_resumeNext s _
    · rw [scanRecord_resumeNext, scanRecord_takeOver]
    · rw [scanRecord_resumeNext, scanRecord_takeOver]

@[simp] theorem scanRecord_startResume (s : State) (ws : ℕ) (requested : List String) :
    (s.startResume ws requested).scanRecord = s.scanRecord := by
  unfold State.startResume
  split_ifs <;> rfl

@[simp] theorem scanRecord_connect (s : State) (tags : Tags) (heartbeat : Bool)
    (resume : List String) (expired : List ℕ) :
    (s.connect tags heartbeat resume expired).scanRecord = s.scanRecord := by
  have hpruned := scanRecord_prune s expired
  unfold State.connect
  simp only
  split_ifs
  · exact hpruned
  · rw [scanRecord_startResume]
    exact hpruned

@[simp] theorem scanRecord_verify (s : State) (ws : ℕ) (valid : Bool) :
    (s.verify ws valid).scanRecord = s.scanRecord := by
  unfold State.verify
  split_ifs
  · rw [scanRecord_startResume]
    rfl
  · rfl

@[simp] theorem scanRecord_watchNext (s : State) (rest : List ActiveScan) :
    (s.watchNext rest).scanRecord = s.scanRecord := by
  unfold State.watchNext
  split <;> rfl

@[simp] theorem scanRecord_watchScan (s : State) (candidates : List ActiveScan)
    (overdue : Bool) : (s.watchScan candidates overdue).scanRecord = s.scanRecord := by
  unfold State.watchScan
  split
  · rfl
  · split
    · split_ifs
      · rfl
      · exact scanRecord_watchNext s _
    · split_ifs
      · rfl
      · exact scanRecord_watchNext s _

@[simp] theorem scanRecord_watchStop (s : State) (runner : Option ℕ) (runId : String) :
    (s.watchStop runner runId).scanRecord = s.scanRecord := by
  unfold State.watchStop
  split
  · exact scanRecord_releaseJob _ _ runId
  · rfl

@[simp] theorem scanRecord_passScan (s : State) (pass : Pass) :
    (s.passScan pass).scanRecord = s.scanRecord := by
  unfold State.passScan
  split_ifs
  · exact scanRecord_nextScan s pass
  · exact scanRecord_nextScan s pass
  · rfl

@[simp] theorem scanRecord_startRun (s : State) (runId : String) (ws : ℕ) (sent : Bool)
    (expired : List ℕ) : (s.startRun runId ws sent expired).scanRecord = s.scanRecord := by
  have hpruned := scanRecord_prune s expired
  unfold State.startRun
  simp only
  split_ifs
  · have hover := scanRecord_handOver (s.pruneDeadRunners expired) runId ws sent
    split
    · rename_i u hu
      rw [hu] at hover
      exact hover.trans hpruned
    · rename_i u hu
      rw [hu] at hover
      exact hover.trans hpruned
  · exact hpruned

/-- The scans that had ended are ended still, and were handed to nobody. -/
structure Keeps (s t : State) : Prop where
  ended : ∀ runId, s.Ended runId → t.Ended runId
  handOuts : ∀ runId, s.Ended runId → t.handOuts runId = s.handOuts runId

theorem Keeps.of_record (h : t.scanRecord = s.scanRecord) : Keeps s t := by
  have hdb : t.db = s.db := congrArg Prod.fst h
  have hout : t.handedOut = s.handedOut := congrArg Prod.snd h
  refine ⟨fun runId hended => ?_, fun runId _ => ?_⟩
  · unfold State.Ended
    rw [hdb]
    exact hended
  · unfold State.handOuts
    rw [hout]

theorem Keeps.trans {u : State} (h : Keeps s t) (h' : Keeps t u) : Keeps s u where
  ended runId hended := h'.ended runId (h.ended runId hended)
  handOuts runId hended :=
    (h'.handOuts runId (h.ended runId hended)).trans (h.handOuts runId hended)

theorem Keeps.noteHandOut (hactive : ¬ s.Ended runId) (ws : ℕ) :
    Keeps s (s.noteHandOut runId ws) where
  ended _ hended := hended
  handOuts id hended := by
    have hne : ¬ runId = id := by
      rintro rfl
      exact hactive hended
    simp [State.handOuts, State.noteHandOut, hne]

theorem Keeps.updateScanStatus {status : ScanStatus}
    (hwrite : s.Ended runId → status = .completed ∨ status = .failed) :
    Keeps s (s.updateScanStatus runId status) where
  ended id hended := by
    by_cases hid : id = runId
    · subst hid
      have hrow : (s.db.scans id).map Findings.Scan.status ≠ none := by
        intro hnone
        simp [State.Ended, Findings.Db.Ended, hnone] at hended
      cases hscan : s.db.scans id with
      | none => simp [hscan] at hrow
      | some scan =>
        simpa [State.Ended, Findings.Db.Ended, State.updateScanStatus, hscan] using hwrite hended
    · have hscan : (s.updateScanStatus runId status).db.scans id = s.db.scans id :=
        Function.update_of_ne hid _ _
      unfold State.Ended Findings.Db.Ended
      rw [hscan]
      exact hended
  handOuts _ _ := rfl

/-- A write of the status that asks for another status first. -/
theorem Keeps.changeActiveStatus {allowed : List ScanStatus} (status : ScanStatus)
    (hallowed : ∀ now ∈ allowed, now.active = true) :
    Keeps s (s.changeActiveStatus runId allowed status) := by
  unfold State.changeActiveStatus
  split_ifs with hnow
  · apply Keeps.updateScanStatus
    intro hended
    obtain ⟨now, hstatus, hmem⟩ := (Option.any_eq_true _ _).mp hnow
    have hactive := hallowed now (of_decide_eq_true hmem)
    rcases hended with h | h
    · obtain rfl := Option.some.inj (hstatus.symm.trans h)
      cases hactive
    · obtain rfl := Option.some.inj (hstatus.symm.trans h)
      cases hactive
  · exact Keeps.of_record rfl

theorem Keeps.of_db {db : Findings.Db} (hdb : ∀ runId, s.Ended runId → db.Ended runId) :
    Keeps s { s with db := db } where
  ended := hdb
  handOuts _ _ := rfl

theorem Keeps.markFailedIfActive (s : State) (runId reason : String) :
    Keeps s (s.markFailedIfActive runId reason).1 := by
  apply Keeps.of_db
  exact fun id hended => Findings.ended_endScan hended runId _

theorem handOver_snd (s : State) (runId : String) (ws : ℕ) (sent : Bool) :
    (s.handOver runId ws sent).2 = (sent && !(s.socket ws).closed) := by
  unfold State.handOver
  simp only
  split_ifs with h
  · exact h.symm
  · exact (Bool.eq_false_iff.mpr h).symm

/-- A hand-over to a connection with room, which goes on with `next` once the job is sent. -/
theorem Keeps.handOver {ws : ℕ} {ok : Bool} (hroom : s.hasCapacity ws = true)
    (hactive : s.sends ws ok = true → ¬ s.Ended runId)
    (hsent : (s.handOver runId ws ok).2 = true) :
    Keeps s ((s.handOver runId ws ok).1.noteHandOut runId ws) := by
  have hsends : s.sends ws ok = true := by
    rw [handOver_snd] at hsent
    unfold State.sends
    rw [hroom, Bool.true_and]
    exact hsent
  have hover := scanRecord_handOver s runId ws ok
  apply (Keeps.of_record hover).trans
  apply Keeps.noteHandOut
  intro hended
  have hdb : (s.handOver runId ws ok).1.db = s.db := congrArg Prod.fst hover
  unfold State.Ended at hended
  rw [hdb] at hended
  exact hactive hsends hended

theorem Keeps.passHandOver {pass : Pass} {ok : Bool}
    (hactive : s.sends pass.ws ok = true → ¬ s.Ended pass.scan.id) :
    Keeps s (s.passHandOver pass ok) := by
  unfold State.passHandOver
  split_ifs with hroom
  · have hkeep := Keeps.handOver hroom hactive
    have hover := scanRecord_handOver s pass.scan.id pass.ws ok
    split
    · rename_i u hu
      rw [hu] at hkeep
      exact (hkeep rfl).trans (Keeps.of_record rfl)
    · rename_i u hu
      rw [hu] at hover
      apply Keeps.of_record
      rw [scanRecord_endPass]
      exact hover
  · exact Keeps.of_record (scanRecord_endPass s pass.ws)

theorem Keeps.passConfig {pass : Pass} {c : Choice}
    (hactive : (Handler.passConfig pass).stillActive s c) : Keeps s (s.passConfig pass c) := by
  unfold State.passConfig
  cases hlookup : c.lookup with
  | incompatible => exact Keeps.of_record (scanRecord_nextScan s pass)
  | unavailable => exact Keeps.of_record (scanRecord_nextScan s pass)
  | unreadable =>
    simp only
    split_ifs
    · exact Keeps.of_record (scanRecord_nextScan s pass)
    · exact Keeps.of_record rfl
  | found configRef =>
    simp only
    split_ifs with hfull htaken hmore
    · exact Keeps.of_record (scanRecord_endPass s pass.ws)
    · exact Keeps.of_record (scanRecord_nextScan s pass)
    · exact Keeps.of_record rfl
    · simp only [Bool.or_eq_true, Bool.not_eq_true', not_or, Bool.not_eq_true,
        Bool.not_eq_false] at hmore
      simp only [Bool.or_eq_true, decide_eq_true_eq, not_or, Bool.not_eq_true] at htaken
      apply Keeps.passHandOver
      apply hactive _ hmore.2 htaken.1 htaken.2
      rw [hlookup, hmore.1]

theorem Keeps.dispatchHand {status : Option ScanStatus} {c : Choice}
    (hactive : (Handler.dispatchHand runId status).stillActive s c) :
    Keeps s (s.dispatchHand runId status c) := by
  have hpruned := scanRecord_prune s c.expired
  unfold State.dispatchHand
  split_ifs with hstatus htaken
  · exact Keeps.of_record rfl
  · exact Keeps.of_record rfl
  · simp only
    split
    · exact Keeps.of_record hpruned
    · rename_i ws hrunner
      split_ifs with hroom
      · have hdb : (s.pruneDeadRunners c.expired).db = s.db := congrArg Prod.fst hpruned
        have hfree (hsends : (s.pruneDeadRunners c.expired).sends ws c.ok = true) :
            ¬ (s.pruneDeadRunners c.expired).Ended runId := by
          unfold State.Ended
          rw [hdb]
          exact hactive (not_not.mp hstatus) (by simpa using htaken) ws hrunner hroom.1 hsends
        have hkeep := Keeps.handOver hroom.2 hfree
        have hover := scanRecord_handOver (s.pruneDeadRunners c.expired) runId ws c.ok
        split
        · rename_i u hu
          rw [hu] at hkeep
          exact ((Keeps.of_record hpruned).trans (hkeep rfl)).trans (Keeps.of_record rfl)
        · rename_i u hu
          rw [hu] at hover
          exact Keeps.of_record (hover.trans hpruned)
      · exact Keeps.of_record hpruned

/-- What a handler does next keeps the scans that ended as they are, if what it hands out
and marks dispatched has not ended. -/
theorem keeps_perform {h : Handler} {c : Choice} (hactive : h.stillActive s c) :
    Keeps s (h.perform T s c) := by
  cases h with
  | passConfig pass => exact Keeps.passConfig hactive
  | passFail pass =>
    unfold Handler.perform
    simp only
    apply Keeps.trans ?_ (Keeps.of_record (scanRecord_nextScan _ pass))
    split_ifs
    · exact Keeps.markFailedIfActive s _ _
    · exact Keeps.of_record rfl
  | passHand pass latestFinished =>
    unfold Handler.perform
    simp only
    split_ifs with hfinished
    · exact Keeps.of_record (scanRecord_nextScan s pass)
    · exact Keeps.passHandOver (hactive hfinished)
  | passMark pass =>
    unfold Handler.perform
    simp only
    apply Keeps.trans ?_ (Keeps.of_record (scanRecord_nextScan _ pass))
    split_ifs with hok
    · exact Keeps.updateScanStatus fun hended => (hactive hok hended).elim
    · exact Keeps.of_record rfl
  | dispatchHand runId status => exact Keeps.dispatchHand hactive
  | consumerMark runId =>
    unfold Handler.perform
    simp only
    split_ifs with hok
    · exact Keeps.updateScanStatus fun hended => (hactive hok hended).elim
    · exact Keeps.of_record rfl
  | stopMark runId reason =>
    have hmarked := Keeps.markFailedIfActive s runId reason
    unfold Handler.perform
    simp only
    split
    · rename_i u hu
      rw [hu] at hmarked
      exact hmarked.trans (Keeps.of_record rfl)
    · rename_i u hu
      rw [hu] at hmarked
      exact hmarked
  | watchEnd runner runId rest =>
    unfold Handler.perform
    simp only
    split
    · rename_i done hdone
      have hkeep : Keeps s { s with db := done.db } :=
        Keeps.of_db fun id hended => Findings.ended_process T hended hdone
      split_ifs
      · exact hkeep.trans (Keeps.of_record rfl)
      · exact hkeep.trans (Keeps.of_record (scanRecord_watchNext _ rest))
    · exact Keeps.of_record (scanRecord_watchNext s rest)
  | _ =>
    apply Keeps.of_record
    unfold Handler.perform
    simp only
    repeat' split
    all_goals first | rfl | simp

theorem Handler.stillActive_handlers {h : Handler} {c : Choice} (handlers : List Handler)
    (hactive : h.stillActive s c) : h.stillActive { s with handlers := handlers } c := by
  cases h with
  | dispatchHand runId status =>
    unfold Handler.stillActive
    rw [prune_handlers]
    exact hactive
  | _ => exact hactive

theorem keeps_step {a : Label} (hactive : a.stillActive s) (hstep : step T s a = some t) :
    Keeps s t := by
  cases a with
  | act i c =>
    obtain ⟨h, hh, rfl⟩ := Option.map_eq_some_iff.mp hstep
    have hturn := Handler.stillActive_handlers (s.handlers.eraseIdx i) (hactive h hh)
    have hremoved : Keeps s { s with handlers := s.handlers.eraseIdx i } := Keeps.of_record rfl
    exact hremoved.trans (keeps_perform T hturn)
  | findings messages =>
    obtain ⟨done, hdone, rfl⟩ := Option.map_eq_some_iff.mp hstep
    exact Keeps.of_db fun id hended => Findings.ended_process T hended hdone
  | createScan runId scan =>
    obtain ⟨hnew, hstep⟩ := Option.ite_none_right_eq_some.mp hstep
    obtain rfl := Option.some.inj hstep
    simp only [Bool.and_eq_true, Option.isNone_iff_eq_none, decide_eq_true_eq] at hnew
    apply Keeps.of_db
    intro id hended
    have hne : id ≠ runId := by
      rintro rfl
      simp [State.Ended, Findings.Db.Ended, hnew.1] at hended
    apply Findings.ended_congr hended
    simp only [Function.update_of_ne hne]
  | pause runId =>
    obtain rfl := Option.some.inj hstep
    exact Keeps.changeActiveStatus .paused (by decide)
  | unpause runId =>
    obtain rfl := Option.some.inj hstep
    exact Keeps.changeActiveStatus .dispatched (by decide)
  | notQueued runId =>
    obtain rfl := Option.some.inj hstep
    exact Keeps.updateScanStatus fun _ => Or.inr rfl
  | _ =>
    apply Keeps.of_record
    unfold step at hstep
    simp only at hstep
    repeat' split at hstep
    all_goals
      first
      | (obtain rfl := Option.some.inj hstep
         first | rfl | simp)
      | cases hstep

instance (s : State) (runId : String) : Decidable (s.Ended runId) :=
  inferInstanceAs (Decidable (_ ∨ _))

instance (s : State) (c : Choice) : DecidablePred (Handler.stillActive s c)
  | .passConfig pass => inferInstanceAs (Decidable (c.lookup = .found false →
      pass.scan.projectId.isEmpty = true → (s.jobs pass.scan.id).isSome = false →
        pass.scan.id ∉ s.collectRecentJobIds pass.ws → s.sends pass.ws c.ok = true →
          ¬ s.Ended pass.scan.id))
  | .passHand pass latestFinished => inferInstanceAs (Decidable (pass.scan.id ∉ latestFinished →
      s.sends pass.ws c.ok = true → ¬ s.Ended pass.scan.id))
  | .dispatchHand runId status => inferInstanceAs (Decidable (status = some .queued →
      (s.jobs runId).isSome = false → ∀ ws ∈ c.runner, ws ∈ (s.pruneDeadRunners c.expired).runners →
        (s.pruneDeadRunners c.expired).sends ws c.ok = true → ¬ s.Ended runId))
  | .passMark pass => inferInstanceAs (Decidable (c.ok = true → ¬ s.Ended pass.scan.id))
  | .consumerMark runId => inferInstanceAs (Decidable (c.ok = true → ¬ s.Ended runId))
  | .verify .. | .resumeOwners .. | .resumeFinished .. | .resumeStatus .. | .resumeTake ..
  | .resumeForget .. | .resumeWrite .. | .afterResume .. | .passActive .. | .passStored ..
  | .passScan .. | .passFail .. | .passFinished .. | .passRecord .. | .dispatchStatus ..
  | .dispatchRecord .. | .startRecord .. | .eventCleanup .. | .eventFinished .. | .stopStatus ..
  | .stopMark .. | .stopForget .. | .watchList .. | .watchScan .. | .watchStatus ..
  | .watchEnd .. | .watchForget .. | .watchStop .. => isTrue trivial

instance (s : State) : DecidablePred (Label.stillActive s)
  | .act i c => inferInstanceAs (Decidable (∀ h ∈ s.handlers[i]?, h.stillActive s c))
  | .connect .. | .challengeResponse .. | .dispatch .. | .startRun .. | .stop ..
  | .terminalEvent .. | .watchdog .. | .listRunners .. | .close .. | .rebuild .. | .findings ..
  | .createScan .. | .pause .. | .unpause .. | .notQueued .. => isTrue trivial

/-- The runner completes `r2`. -/
def completeEvent : Findings.Body where
  scanId := "r2"
  type := some "event"
  payload := some (.obj [("type", .str "complete"), ("data", .obj [])])
  exec := none
  seq := none

/-- A completed run's terminal event is cleaned up, and its queue message delivered again. -/
def redeliverR2 : List Label :=
  [.terminalEvent 0 "r2", .act 1 .plain, .act 1 .plain, .dispatch "r2", .act 2 .plain,
    .act 2 .plain]

/-- A coordinator whose only scan `r2` is queued. -/
def oneQueued : State := State.init (scansIn [("r2", .queued)]) [] fun _ => none

/-- A pass has read `r2` as queued and gone through its last read, when `r2` is stopped. -/
def stopDuringPass : List Label :=
  [.connect sharedRunner false [] [], .act 0 .plain,
    .act 0 { Choice.plain with listed := ["r2"] }, .act 0 .plain, .act 0 .plain, .act 0 .plain,
    .act 0 .plain, .stop "r2", .act 1 .plain, .act 1 .plain]

/-- The rest of the pass: the job is sent, its runner recorded and the status written. -/
def endOfPass : List Label := [.act 0 .plain, .act 1 .plain, .act 1 .plain]

end Swazz.Runners
