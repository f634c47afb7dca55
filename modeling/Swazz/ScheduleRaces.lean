import Mathlib.Order.PropInstances
import Swazz.ProjectSchedule

/-! A project's schedule and last run are kept as long as nobody writes back what is no
longer so. -/
namespace Swazz.ProjectSchedule

open AtomicCalls
open StepSystem (Reaches ReachesUnder)

/-- What was set last, `original` before. -/
def latest (projectId : String) (original : Option String)
    (scheduled : List (String × Option String)) : Option String :=
  ((scheduled.filter fun e => e.1 == projectId).getLast?.map Prod.snd).getD original

/-- A save writes the schedule and the last run that the row has, a new row is inserted where
there is none, and a triggered scan is of the row that is there and not older than its last. -/
def CallInTurn (projectId : String) (s : Store) : Op → Prop
  | .replaceDefault row => row.projectId = projectId →
      s.db.schedule projectId = row.cronSchedule ∧ s.db.lastRun projectId = row.lastRunAt
  | .insertDefault row => row.projectId = projectId → s.db.defaultRows projectId = []
  | .triggerScheduledScan config scan =>
      (config.isDefault projectId = true →
        ∃ row ∈ s.db.defaultRows projectId, row.id = scan.configId) ∧
      ∀ row ∈ s.db.defaultRows projectId, row.id = scan.configId →
        ∀ t ∈ row.lastRunAt, t ≤ scan.time
  | _ => True

def InTurn (projectId : String) (w : Pool Answer Store Request Unit) :
    Move Request Event → Prop
  | .next i _ => ∀ c ∈ System.nextCall w i, CallInTurn projectId w.store c.2
  | _ => True

instance (projectId : String) (s : Store) (op : Op) : Decidable (CallInTurn projectId s op) := by
  cases op <;> dsimp only [CallInTurn] <;> infer_instance

instance (projectId : String) (w : Pool Answer Store Request Unit) (m : Move Request Event) :
    Decidable (InTurn projectId w m) := by
  cases m <;> dsimp only [InTurn] <;> infer_instance

/-- The project has at most one row, with the schedule that was set last and a last run that
is not before any triggered scan of it. -/
structure Kept (projectId : String) (original : Option String) (s : Store) : Prop where
  single : (s.db.defaultRows projectId).length ≤ 1
  schedule : s.db.schedule projectId = latest projectId original s.scheduled
  lastRun : ∀ e ∈ s.triggered, e.1.isDefault projectId = true →
    ∃ t, s.db.lastRun projectId = some t ∧ e.2 ≤ t

variable {projectId : String} {original : Option String}

theorem latest_same (scheduled : List (String × Option String)) (cronSchedule : Option String) :
    latest projectId original (scheduled ++ [(projectId, cronSchedule)]) = cronSchedule := by
  simp [latest, List.filter_append]

theorem latest_other {q : String} (h : q ≠ projectId) (scheduled : List (String × Option String))
    (cronSchedule : Option String) : latest projectId original (scheduled ++ [(q, cronSchedule)]) =
      latest projectId original scheduled := by
  simp [latest, List.filter_append, h]

theorem isDefault_iff {r : Row} : r.isDefault projectId = true ↔
    r.projectId = projectId ∧ r.name = "default" := by
  simp [Row.isDefault]

/-- At most one row is none or one. -/
theorem rows_cases {rows : List Row} (h : rows.length ≤ 1) : rows = [] ∨ ∃ r, rows = [r] := by
  match rows, h with
  | [], _ => exact Or.inl rfl
  | [r], _ => exact Or.inr ⟨r, rfl⟩

theorem filter_map_default (projectId : String) (rows : List Row) (f : Row → Row)
    (hf : ∀ r, (f r).isDefault projectId = r.isDefault projectId) :
    (rows.map f).filter (Row.isDefault projectId) =
      (rows.filter (Row.isDefault projectId)).map f := by
  rw [List.filter_map]
  congr 1
  refine List.filter_congr fun r _ => ?_
  exact hf r

/-- What depends on the rows of the project alone. -/
theorem Kept.of_rows {s s' : Store} (h : Kept projectId original s)
    (hrows : s'.db.defaultRows projectId = s.db.defaultRows projectId)
    (hscheduled : latest projectId original s'.scheduled = latest projectId original s.scheduled)
    (htriggered : ∀ e ∈ s'.triggered, e.1.isDefault projectId = true → e ∈ s.triggered) :
    Kept projectId original s' where
  single := by rw [hrows]; exact h.single
  schedule := by
    unfold Db.schedule
    rw [hrows, hscheduled]
    exact h.schedule
  lastRun e he hdefault := by
    unfold Db.lastRun
    rw [hrows]
    exact h.lastRun e (htriggered e he hdefault) hdefault

theorem insertRow_eq {db db' : Db} {r : Row} (h : db.insertRow r = some db') :
    db' = { db with rows := db.rows ++ [r] } := by
  unfold Db.insertRow at h
  split_ifs at h
  exact (Option.some.inj h).symm

theorem defaultRows_insert (projectId : String) (db : Db) {r : Row} (hname : r.name = "default") :
    Db.defaultRows { db with rows := db.rows ++ [r] } projectId =
      db.defaultRows projectId ++ if r.projectId = projectId then [r] else [] := by
  unfold Db.defaultRows
  rw [List.filter_append]
  congr 1
  split_ifs with hproject
  · exact List.filter_eq_self.mpr fun x hx => by
      rw [List.mem_singleton.mp hx]
      exact isDefault_iff.mpr ⟨hproject, hname⟩
  · refine List.filter_eq_nil_iff.mpr fun x hx hdefault => hproject ?_
    rw [List.mem_singleton.mp hx] at hdefault
    exact (isDefault_iff.mp hdefault).1

/-- A row that takes the place of the project's one, with its schedule and last run. -/
theorem Kept.of_row {s s' : Store} {row : Row} (h : Kept projectId original s)
    (hrows : s'.db.defaultRows projectId = [row])
    (hschedule : row.cronSchedule = latest projectId original s'.scheduled)
    (hlastRun : s.db.lastRun projectId = row.lastRunAt)
    (htriggered : s'.triggered = s.triggered) : Kept projectId original s' where
  single := by rw [hrows]; exact Nat.le_refl 1
  schedule := by
    unfold Db.schedule
    rw [hrows]
    exact hschedule
  lastRun e he hdefault := by
    obtain ⟨t, ht, hle⟩ := h.lastRun e (htriggered ▸ he) hdefault
    refine ⟨t, ?_, hle⟩
    unfold Db.lastRun
    rw [hrows]
    exact hlastRun.symm.trans ht

theorem defaultRows_replaceDefault (projectId : String) {db db' : Db} {row : Row}
    (hname : row.name = "default") (h : db.replaceDefault row = some db') :
    db'.defaultRows projectId =
      if row.projectId = projectId then [row] else db.defaultRows projectId := by
  rw [insertRow_eq h, defaultRows_insert projectId _ hname]
  unfold Db.defaultRows
  rw [List.filter_filter]
  split_ifs with hproject
  · have hnone : db.rows.filter (fun r => r.isDefault projectId && !r.isDefault row.projectId) =
        [] := by
      refine List.filter_eq_nil_iff.mpr fun r _ hboth => ?_
      obtain ⟨hdefault, hnot⟩ := Bool.and_eq_true_iff.mp hboth
      rw [hproject, hdefault] at hnot
      cases hnot
    rw [hnone, List.nil_append]
  · rw [List.append_nil]
    refine List.filter_congr fun r _ => ?_
    cases hdefault : r.isDefault projectId with
    | false => rfl
    | true =>
      have hother : r.isDefault row.projectId = false := by
        rw [Bool.eq_false_iff]
        intro hsame
        exact hproject ((isDefault_iff.mp hsame).1.symm.trans (isDefault_iff.mp hdefault).1)
      rw [hother]
      rfl

theorem defaultRows_updateSchedule (projectId : String) (db : Db) (q : String)
    (cronSchedule : Option String) : (db.updateSchedule q cronSchedule).defaultRows projectId =
      (db.defaultRows projectId).map fun r =>
        if r.isDefault q then { r with cronSchedule := cronSchedule } else r :=
  filter_map_default projectId db.rows _ fun r => by split_ifs <;> rfl

theorem defaultRows_trigger (projectId : String) {db db' : Db} {scan : Scheduler.Scan}
    (h : db.triggerScheduledScan scan = some db') : db'.defaultRows projectId =
      (db.defaultRows projectId).map fun r =>
        if r.id == scan.configId then { r with lastRunAt := some scan.time } else r := by
  unfold Db.triggerScheduledScan at h
  split_ifs at h
  rw [← Option.some.inj h]
  exact filter_map_default projectId db.rows _ fun r => by split_ifs <;> rfl

theorem kept_replaceDefault {s : Store} {row : Row} (h : Kept projectId original s)
    (hname : row.name = "default") (hturn : CallInTurn projectId s (.replaceDefault row)) :
    Kept projectId original (s.exec (.replaceDefault row)).2 := by
  simp only [Store.exec]
  cases hdb : s.db.replaceDefault row with
  | none => exact h
  | some db =>
    have hrows := defaultRows_replaceDefault projectId hname hdb
    by_cases hproject : row.projectId = projectId
    · rw [if_pos hproject] at hrows
      obtain ⟨hschedule, hlastRun⟩ := hturn hproject
      exact h.of_row hrows (hschedule.symm.trans h.schedule) hlastRun rfl
    · rw [if_neg hproject] at hrows
      exact h.of_rows hrows rfl fun e he _ => he

theorem kept_insertDefault {s : Store} {row : Row} (h : Kept projectId original s)
    (hname : row.name = "default") (hturn : CallInTurn projectId s (.insertDefault row)) :
    Kept projectId original (s.exec (.insertDefault row)).2 := by
  simp only [Store.exec]
  cases hdb : s.db.insertRow row with
  | none => exact h
  | some db =>
    have hrows := defaultRows_insert projectId s.db hname
    rw [← insertRow_eq hdb] at hrows
    by_cases hproject : row.projectId = projectId
    · have hnone := hturn hproject
      rw [hnone, if_pos hproject, List.nil_append] at hrows
      have hlast : s.db.lastRun projectId = none := by
        unfold Db.lastRun
        rw [hnone]
        rfl
      refine ⟨?_, ?_, fun e he hdefault => ?_⟩
      · exact (congrArg List.length hrows).le
      · change (db.defaultRows projectId).head?.bind Row.cronSchedule =
          latest projectId original (s.scheduled ++ [(row.projectId, row.cronSchedule)])
        rw [hrows, hproject, latest_same]
        rfl
      · obtain ⟨t, ht, -⟩ := h.lastRun e he hdefault
        rw [hlast] at ht
        cases ht
    · rw [if_neg hproject, List.append_nil] at hrows
      exact h.of_rows hrows (latest_other hproject _ _) fun e he _ => he

theorem kept_updateSchedule {s : Store} {q : String} {cronSchedule : Option String}
    (h : Kept projectId original s) (hsome : q = projectId → s.db.defaultRows projectId ≠ []) :
    Kept projectId original (s.exec (.updateSchedule q cronSchedule)).2 := by
  have hrows := defaultRows_updateSchedule projectId s.db q cronSchedule
  by_cases hproject : q = projectId
  · obtain ⟨r, hr⟩ := (rows_cases h.single).resolve_left (hsome hproject)
    have hdefault : r.isDefault q = true := by
      rw [hproject]
      exact (List.mem_filter.mp (hr ▸ List.mem_singleton_self r : r ∈ s.db.defaultRows projectId)).2
    rw [hr, List.map_singleton, if_pos hdefault] at hrows
    refine h.of_row hrows ?_ ?_ rfl
    · change cronSchedule = latest projectId original (s.scheduled ++ [(q, cronSchedule)])
      rw [hproject, latest_same]
    · unfold Db.lastRun
      rw [hr]
      rfl
  · have hsame : (s.db.defaultRows projectId).map (fun r =>
        if r.isDefault q then { r with cronSchedule := cronSchedule } else r) =
        s.db.defaultRows projectId := by
      refine (List.map_congr_left (g := id) fun r hr => ?_).trans (List.map_id _)
      refine if_neg fun hother => hproject ?_
      exact (isDefault_iff.mp hother).1.symm.trans (isDefault_iff.mp (List.mem_filter.mp hr).2).1
    rw [hsame] at hrows
    exact h.of_rows hrows (latest_other hproject _ _) fun e he _ => he

theorem kept_trigger {s : Store} {config : Config} {scan : Scheduler.Scan}
    (h : Kept projectId original s) (hturn : CallInTurn projectId s (.triggerScheduledScan config scan)) :
    Kept projectId original (s.exec (.triggerScheduledScan config scan)).2 := by
  simp only [Store.exec]
  cases hdb : s.db.triggerScheduledScan scan with
  | none => exact h
  | some db =>
    have hrows := defaultRows_trigger projectId hdb
    obtain ⟨hthere, hlater⟩ := hturn
    rcases rows_cases h.single with hnone | ⟨r, hr⟩
    · rw [hnone] at hrows hthere
      refine h.of_rows (hrows.trans hnone.symm) rfl fun e he hdefault => ?_
      rcases List.mem_append.mp he with hold | hnew
      · exact hold
      · rw [List.mem_singleton.mp hnew] at hdefault
        obtain ⟨row, hrow, -⟩ := hthere hdefault
        cases hrow
    · rw [hr] at hthere hlater
      rw [hr, List.map_singleton] at hrows
      have hlast : s.db.lastRun projectId = r.lastRunAt := by
        unfold Db.lastRun
        rw [hr]
        rfl
      have hcron : s.db.schedule projectId = r.cronSchedule := by
        unfold Db.schedule
        rw [hr]
        rfl
      by_cases hid : r.id = scan.configId
      · rw [if_pos (beq_iff_eq.mpr hid)] at hrows
        have hnow : db.lastRun projectId = some scan.time := by
          unfold Db.lastRun
          rw [hrows]
          rfl
        refine ⟨(congrArg List.length hrows).le, ?_, fun e he hdefault => ⟨scan.time, hnow, ?_⟩⟩
        · change (db.defaultRows projectId).head?.bind Row.cronSchedule = _
          rw [hrows]
          exact hcron.symm.trans h.schedule
        · rcases List.mem_append.mp he with hold | hnew
          · obtain ⟨t, ht, hle⟩ := h.lastRun e hold hdefault
            rw [hlast] at ht
            exact hle.trans (hlater r (List.mem_singleton_self r) hid t ht)
          · rw [List.mem_singleton.mp hnew]
      · rw [if_neg fun heq => hid (beq_iff_eq.mp heq)] at hrows
        refine h.of_rows (hrows.trans hr.symm) rfl fun e he hdefault => ?_
        rcases List.mem_append.mp he with hold | hnew
        · exact hold
        · rw [List.mem_singleton.mp hnew] at hdefault
          obtain ⟨row, hrow, hsame⟩ := hthere hdefault
          exact absurd (List.mem_singleton.mp hrow ▸ hsame) hid

/-- What a call may be: new rows are the project's, and a schedule is set where one was. -/
def Allowed (projectId : String) : Op → Prop → Prop
  | .replaceDefault row, _ => row.name = "default"
  | .insertDefault row, _ => row.name = "default"
  | .updateSchedule q _, k => q = projectId → k
  | _, _ => True

/-- A row that was found stays. -/
def Learns (projectId : String) : (op : Op) → Answer op → Prop → Prop
  | .selectDefault q, found, k => q = projectId → found ≠ none → k
  | _, _, _ => True

/-- The project has its row. -/
def hasRow (projectId : String) (s : Store) : Prop := s.db.defaultRows projectId ≠ []

theorem hasRow_exec {s : Store} {op : Op} (hallowed : Allowed projectId op (hasRow projectId s))
    (h : hasRow projectId s) : hasRow projectId (s.exec op).2 := by
  cases op with
  | replaceDefault row =>
    simp only [Store.exec]
    cases hdb : s.db.replaceDefault row with
    | none => exact h
    | some db =>
      change db.defaultRows projectId ≠ []
      rw [defaultRows_replaceDefault projectId hallowed hdb]
      split_ifs
      · exact List.cons_ne_nil row []
      · exact h
  | insertDefault row =>
    simp only [Store.exec]
    cases hdb : s.db.insertRow row with
    | none => exact h
    | some db =>
      change db.defaultRows projectId ≠ []
      rw [insertRow_eq hdb, defaultRows_insert projectId s.db hallowed]
      exact List.append_ne_nil_of_left_ne_nil h _
  | updateSchedule q cronSchedule =>
    change (s.db.updateSchedule q cronSchedule).defaultRows projectId ≠ []
    rw [defaultRows_updateSchedule]
    exact fun hnil => h (List.map_eq_nil_iff.mp hnil)
  | triggerScheduledScan config scan =>
    simp only [Store.exec]
    cases hdb : s.db.triggerScheduledScan scan with
    | none => exact h
    | some db =>
      change db.defaultRows projectId ≠ []
      rw [defaultRows_trigger projectId hdb]
      exact fun hnil => h (List.map_eq_nil_iff.mp hnil)
  | _ => exact h

theorem kept_exec {s : Store} {op : Op} (hturn : CallInTurn projectId s op)
    (h : Kept projectId original s) (hallowed : Allowed projectId op (hasRow projectId s)) :
    Kept projectId original (s.exec op).2 := by
  cases op with
  | replaceDefault row => exact kept_replaceDefault h hallowed hturn
  | insertDefault row => exact kept_insertDefault h hallowed hturn
  | updateSchedule q cronSchedule => exact kept_updateSchedule h hallowed
  | triggerScheduledScan config scan => exact kept_trigger h hturn
  | updateScanStatus runId status => exact h.of_rows rfl rfl fun e he _ => he
  | _ => exact h

theorem learns_exec (s : Store) (op : Op) :
    Learns projectId op (s.exec op).1 (hasRow projectId (s.exec op).2) := by
  cases op with
  | selectDefault q =>
    rintro rfl hfound hnone
    refine hfound ?_
    change (s.db.defaultRows q).head?.map _ = none
    rw [show s.db.defaultRows q = [] from hnone]
    rfl
  | _ => trivial

/-- Calls that set no row or schedule. -/
def Harmless : Op → Prop
  | .replaceDefault _ | .insertDefault _ | .updateSchedule _ _ => False
  | _ => True

theorem allowed_of_harmless (op : Op) (k : Prop) (h : Harmless op) : Allowed projectId op k := by
  cases op <;> first | exact trivial | exact False.elim h

theorem uses_attempt {P : Op → Prop} {op : Op} (h : P op) : (attempt op).Uses P := by
  intro ok
  cases ok with
  | false => exact trivial
  | true => exact ⟨h, fun _ => trivial⟩

theorem harmless_handleScheduledScans (env : Env) : (handleScheduledScans env).Uses Harmless := by
  have hqueue (runId : String) : (queueScan runId).Uses Harmless := by
    refine Calls.uses_bind (uses_attempt trivial) fun written => ?_
    refine Calls.uses_bind ?_ fun sent => ?_
    · split
      · exact uses_attempt trivial
      · exact trivial
    · split
      · exact trivial
      · exact Calls.uses_bind (uses_attempt trivial) fun _ => trivial
  have hconfig (now : ℤ) (config : Config) : (processConfig env now config).Uses Harmless := by
    refine Calls.uses_bind (uses_attempt trivial) fun activeOwner => ?_
    split
    · refine Calls.uses_bind (uses_attempt trivial) fun triggered => ?_
      split
      · exact hqueue _
      · exact trivial
    · exact trivial
  have hall (now : ℤ) (configs : List Config) :
      (processConfigs env now configs).Uses Harmless := by
    induction configs with
    | nil => exact trivial
    | cons config configs ih => exact Calls.uses_bind (hconfig now config) fun _ => ih
  exact ⟨trivial, fun now => ⟨trivial, fun configs => hall now _⟩⟩

theorem knows_serve (r : Request) (k : Prop) : Calls.Knows (Allowed projectId) (Learns projectId)
    (fun _ _ => True) (serve r) k := by
  cases r with
  | saveProjectConfig q id configJson =>
    exact ⟨trivial, fun existing k' _ _ => ⟨rfl, fun _ _ _ _ => trivial⟩⟩
  | updateProjectSchedule q id cronSchedule =>
    refine ⟨trivial, fun existing k' _ hlearns => ?_⟩
    cases existing with
    | none => exact ⟨rfl, fun _ _ _ _ => trivial⟩
    | some found => exact ⟨fun hproject => hlearns hproject nofun, fun _ _ _ _ => trivial⟩
  | handleScheduledScans env =>
    exact (Calls.knows_of_uses allowed_of_harmless (harmless_handleScheduledScans env) k).imp
      fun _ _ _ _ => trivial

theorem allowed_mono (op : Op) (k k' : Prop) (hle : k ≤ k') (h : Allowed projectId op k) :
    Allowed projectId op k' := by
  cases op with
  | updateSchedule q cronSchedule => exact fun hproject => hle (h hproject)
  | _ => exact h

/-- A project without a schedule, and its owner. -/
def plainProject : Db where
  rows := [⟨"1", "project", "default", "{}", none, none⟩]
  scans := []
  owners := fun _ => some ⟨"alice", none⟩
  now := 0

def plainEnv : Env where
  readConfig _ := some ("https://example.test", "default")
  randomUUID id := "run of " ++ id

/-- The schedule is set, the scheduler runs, and then the configuration is saved. -/
def oneAfterTheOther : List (Move Request Event) :=
  [.start (.updateProjectSchedule "project" "2" (some "* * * * *")), .next 0 true, .next 0 true,
    .start (.handleScheduledScans plainEnv), .next 1 true, .next 1 true, .next 1 true,
    .next 1 true, .next 1 true, .next 1 true,
    .start (.saveProjectConfig "project" "3" "config"), .next 2 true, .next 2 true]

/-- The schedule is set after the save has read that there is none. -/
def setMeanwhile : List (Move Request Event) :=
  [.start (.saveProjectConfig "project" "2" "config"), .next 0 true,
    .start (.updateProjectSchedule "project" "3" (some "* * * * *")), .next 1 true, .next 1 true,
    .next 0 true]

end Swazz.ProjectSchedule
