import Swazz.Debounce
import Swazz.Scheduler
import Mathlib.Data.Int.Order.Basic

/-! When a configuration is triggered exactly once in each minute that its expression
matches. -/
namespace Swazz.Scheduler

open Debounce

/-- The expression matches the minute. -/
def matchesMinute (cronExpr : String) (m : ℤ) : Bool := cronMatches cronExpr (m * msPerMinute)

/-- What an invocation needs to trigger a configuration. -/
structure Env.Succeeds (env : Env) (config : ScanConfig) : Prop where
  owner : ∃ o, env.getProjectOwnerForScan config.projectId = .ok (some o)
  reads : ∃ c, env.readConfig config.configJson = .ok c
  inserts : env.inserts config.id = true
  queues : env.queues config.id = true

/-- The times at which a configuration has been triggered. -/
def Db.runs (db : Db) (id : String) : List ℤ :=
  (db.scans.filter fun s => s.configId = id).map (·.time)

/-- Invocations one after the other, each with what it meets. -/
def invoke (db : Db) (invocations : List (ℤ × Env)) : Db :=
  invocations.foldl (fun db i => handleScheduledScans i.2 i.1 db) db

/-- A configuration after an invocation at `now` has gone over those of `ids`. -/
def ScanConfig.after (ids : List String) (now : ℤ) (config : ScanConfig) : ScanConfig :=
  if config.id ∈ ids then { config with lastRunAt := some now } else config

/-- The time from which a new trigger is possible again. -/
def nextTime (t : ℤ) : ℤ := t + dedupWindow

variable {db : Db} {env : Env} {now : ℤ} {config : ScanConfig}

theorem minuteOf_minute (t : ℤ) : minuteOf (minuteOf t * msPerMinute) = minuteOf t := by
  unfold minuteOf msPerMinute
  omega

/-- A date is the same in all milliseconds of a minute. -/
theorem cronMatches_minute (cronExpr : String) (t : ℤ) :
    cronMatches cronExpr t = matchesMinute cronExpr (minuteOf t) := by
  simp only [matchesMinute, cronMatches, getUTCMinutes, getUTCHours, getUTCDate, getUTCMonth,
    getUTCDay, utcDay, minuteOf_minute]

@[simp] theorem after_id (ids : List String) (config : ScanConfig) :
    (config.after ids now).id = config.id := by
  unfold ScanConfig.after
  split_ifs <;> rfl

@[simp] theorem after_cronSchedule (ids : List String) (config : ScanConfig) :
    (config.after ids now).cronSchedule = config.cronSchedule := by
  unfold ScanConfig.after
  split_ifs <;> rfl

theorem after_succeeds (ids : List String) {env' : Env} (h : env'.Succeeds config) :
    env'.Succeeds (config.after ids now) := by
  unfold ScanConfig.after
  split_ifs
  · exact ⟨h.owner, h.reads, h.inserts, h.queues⟩
  · exact h

theorem after_cons (id : String) (ids : List String) (config : ScanConfig) :
    (config.after [id] now).after ids now = config.after (id :: ids) now := by
  unfold ScanConfig.after
  by_cases hid : config.id = id <;> by_cases hids : config.id ∈ ids <;> simp [hid, hids]

/-- One turn of the loop, when everything succeeds. -/
theorem processConfig_succeeds (db : Db) (now : ℤ) (h : env.Succeeds config) :
    (processConfig env now db config).configs = db.configs.map (·.after [config.id] now) ∧
      ∀ id, (processConfig env now db config).runs id =
        db.runs id ++ if id = config.id then [now] else [] := by
  obtain ⟨owner, howner⟩ := h.owner
  obtain ⟨⟨targetUrl, profile⟩, hread⟩ := h.reads
  simp only [processConfig, howner, hread, h.inserts, h.queues, if_true]
  constructor
  · apply List.map_congr_left
    intro c _
    simp only [ScanConfig.after, List.mem_singleton]
  · intro id
    simp only [Db.runs, Db.triggerScheduledScan, List.filter_append, List.map_append]
    by_cases hid : id = config.id
    · simp [hid]
    · simp [hid, Ne.symm hid]

/-- The loop over different configurations. -/
theorem foldl_processConfig (db : Db) (now : ℤ) (configs : List ScanConfig)
    (hsucceeds : ∀ c ∈ configs, env.Succeeds c) (hkeyed : (configs.map (·.id)).Nodup) :
    (configs.foldl (processConfig env now) db).configs =
        db.configs.map (·.after (configs.map (·.id)) now) ∧
      ∀ id, (configs.foldl (processConfig env now) db).runs id =
        db.runs id ++ if id ∈ configs.map (·.id) then [now] else [] := by
  induction configs generalizing db with
  | nil =>
    refine ⟨?_, fun id => by simp⟩
    have hsame : db.configs.map (·.after [] now) = db.configs := by
      simp [ScanConfig.after]
    exact hsame.symm
  | cons c configs ih =>
    obtain ⟨hconfigs, hruns⟩ :=
      processConfig_succeeds db now (hsucceeds c List.mem_cons_self)
    obtain ⟨hc, hrest⟩ := List.nodup_cons.mp hkeyed
    obtain ⟨hconfigs', hruns'⟩ := ih (processConfig env now db c)
      (fun c' hc' => hsucceeds c' (List.mem_cons_of_mem c hc')) hrest
    rw [List.foldl_cons]
    constructor
    · rw [hconfigs', hconfigs, List.map_map]
      apply List.map_congr_left
      intro c' _
      exact after_cons c.id (configs.map (·.id)) c'
    · intro id
      rw [hruns', hruns, List.append_assoc, List.map_cons]
      congr 1
      by_cases hid : id = c.id
      · -- Its own turn is the only one.
        subst hid
        simp [show c.id ∉ configs.map (·.id) from hc]
      · simp [hid]

theorem due_iff : config.due now = true ↔
    (¬∃ l ∈ config.lastRunAt, now < nextTime l) ∧ cronMatches config.cronSchedule now = true := by
  have hwindow (l : ℤ) : now - l < dedupWindow ↔ now < nextTime l := by
    unfold nextTime
    omega
  cases hlast : config.lastRunAt <;> simp [ScanConfig.due, hlast, hwindow]

/-- What an invocation does for one configuration. -/
theorem handleScheduledScans_config (now : ℤ) (hkeyed : (db.configs.map (·.id)).Nodup)
    (hsucceeds : ∀ c ∈ db.configs, env.Succeeds c) (hconfig : config ∈ db.configs) :
    ∃ ids, (handleScheduledScans env now db).configs = db.configs.map (·.after ids now) ∧
      (config.id ∈ ids ↔ config.due now = true) ∧
      (handleScheduledScans env now db).runs config.id =
        db.runs config.id ++ if config.due now = true then [now] else [] := by
  let matching := db.configs.filter fun c => c.due now
  have hsub : matching.Sublist db.configs := List.filter_sublist
  have hmem : config.id ∈ matching.map (·.id) ↔ config.due now = true := by
    constructor
    · intro h
      obtain ⟨c, hc, hid⟩ := List.mem_map.mp h
      have hsame : c = config :=
        List.inj_on_of_nodup_map hkeyed (hsub.subset hc) hconfig hid
      exact hsame ▸ (List.mem_filter.mp hc).2
    · intro h
      exact List.mem_map.mpr ⟨config, List.mem_filter.mpr ⟨hconfig, h⟩, rfl⟩
  obtain ⟨hconfigs, hruns⟩ := foldl_processConfig db now matching
    (fun c hc => hsucceeds c (hsub.subset hc)) (hkeyed.sublist (hsub.map _))
  have hafter : (handleScheduledScans env now db).configs =
      db.configs.map (·.after (matching.map (·.id)) now) := hconfigs
  refine ⟨matching.map (·.id), hafter, hmem, ?_⟩
  have hown := hruns config.id
  simp only [hmem] at hown
  exact hown

/-- The triggers of a configuration are the matching invocations, thinned out. -/
theorem runs_invoke (invocations : List (ℤ × Env)) (hkeyed : (db.configs.map (·.id)).Nodup)
    (hsucceeds : ∀ i ∈ invocations, ∀ c ∈ db.configs, i.2.Succeeds c)
    (hconfig : config ∈ db.configs) :
    (invoke db invocations).runs config.id = db.runs config.id ++
      debounce nextTime config.lastRunAt
        ((invocations.map (·.1)).filter fun t => cronMatches config.cronSchedule t) := by
  induction invocations generalizing db config with
  | nil => simp [invoke, debounce]
  | cons i invocations ih =>
    obtain ⟨now, env⟩ := i
    obtain ⟨ids, hconfigs, hids, hruns⟩ := handleScheduledScans_config now hkeyed
      (hsucceeds (now, env) List.mem_cons_self) hconfig
    have hkeyed' : ((handleScheduledScans env now db).configs.map (·.id)).Nodup := by
      rw [hconfigs, List.map_map]
      simpa [Function.comp_def] using hkeyed
    have hsucceeds' : ∀ i ∈ invocations, ∀ c ∈ (handleScheduledScans env now db).configs,
        i.2.Succeeds c := by
      intro i hi c hc
      rw [hconfigs] at hc
      obtain ⟨c', hc', rfl⟩ := List.mem_map.mp hc
      exact after_succeeds ids (hsucceeds i (List.mem_cons_of_mem _ hi) c' hc')
    have hconfig' : config.after ids now ∈ (handleScheduledScans env now db).configs := by
      rw [hconfigs]
      exact List.mem_map.mpr ⟨config, hconfig, rfl⟩
    have hrest := ih hkeyed' hsucceeds' hconfig'
    rw [after_id, after_cronSchedule] at hrest
    have hinvoke : invoke db ((now, env) :: invocations) =
        invoke (handleScheduledScans env now db) invocations := rfl
    rw [hinvoke, hrest, hruns, List.append_assoc, List.map_cons]
    congr 1
    by_cases hmatch : cronMatches config.cronSchedule now = true
    · rw [List.filter_cons_of_pos hmatch]
      by_cases hlast : ∃ l ∈ config.lastRunAt, now < nextTime l
      · -- It ran just before, and is passed over.
        have hnot : ¬config.due now = true := fun h => (due_iff.mp h).1 hlast
        have hafter : config.after ids now = config := if_neg (mt hids.mp hnot)
        rw [debounce_skip hlast, if_neg hnot, hafter]
        rfl
      · have hdue : config.due now = true := due_iff.mpr ⟨hlast, hmatch⟩
        have hafter : (config.after ids now).lastRunAt = some now := by
          rw [ScanConfig.after, if_pos (hids.mpr hdue)]
        rw [debounce_pick hlast, if_pos hdue, hafter]
        rfl
    · rw [List.filter_cons_of_neg hmatch]
      have hnot : ¬config.due now = true := fun h => hmatch (due_iff.mp h).2
      have hafter : config.after ids now = config := if_neg (mt hids.mp hnot)
      rw [if_neg hnot, hafter]
      rfl

/-- A minute of the period that the expression matches. -/
def DueMinute (cronExpr : String) (first last m : ℤ) : Prop :=
  first ≤ m ∧ m ≤ last ∧ matchesMinute cronExpr m = true

/-- One invocation of each matching minute is picked: those of two minutes that follow each
other are 50 s apart, and every invocation of a matching minute comes less than 50 s after a
picked one. -/
structure Picks (cronExpr : String) (times : List ℤ) (first last : ℤ) (pick : ℤ → ℤ) : Prop where
  picked : ∀ m, DueMinute cronExpr first last m → pick m ∈ times ∧ minuteOf (pick m) = m
  apart : ∀ m, DueMinute cronExpr first last m → DueMinute cronExpr first last (m+1) →
    nextTime (pick m) ≤ pick (m+1)
  near : ∀ t ∈ times, matchesMinute cronExpr (minuteOf t) = true →
    ∃ m, DueMinute cronExpr first last m ∧ pick m ≤ t ∧ t < nextTime (pick m)

/-- The invocations can be grouped so. -/
def Grouped (cronExpr : String) (times : List ℤ) (first last : ℤ) : Prop :=
  ∃ pick, Picks cronExpr times first last pick

theorem lt_nextTime (t : ℤ) : t < nextTime t := by
  unfold nextTime dedupWindow
  omega

/-- Minutes that do not follow each other are far apart. -/
theorem nextTime_le {t u : ℤ} (h : minuteOf t + 1 < minuteOf u) : nextTime t ≤ u := by
  unfold minuteOf msPerMinute at h
  unfold nextTime dedupWindow
  omega

theorem lt_of_minuteOf_lt {t u : ℤ} (h : minuteOf t < minuteOf u) : t < u := by
  unfold minuteOf msPerMinute at h
  omega

theorem length_filter_eq_one {l : List ℤ} {p : ℤ → Bool} (h : l.countP p = 1) {t u : ℤ}
    (ht : t ∈ l) (hu : u ∈ l) (hpt : p t = true) (hpu : p u = true) : t = u := by
  rw [List.countP_eq_length_filter, List.length_eq_one_iff] at h
  obtain ⟨a, ha⟩ := h
  have hta : t ∈ l.filter p := List.mem_filter.mpr ⟨ht, hpt⟩
  have hua : u ∈ l.filter p := List.mem_filter.mpr ⟨hu, hpu⟩
  rw [ha] at hta hua
  rw [List.mem_singleton.mp hta, List.mem_singleton.mp hua]

theorem countP_eq_one {l : List ℤ} {p : ℤ → Bool} {a : ℤ} (hl : l.Nodup)
    (h : ∀ t, t ∈ l ∧ p t = true ↔ t = a) : l.countP p = 1 := by
  have hperm : (l.filter p).Perm [a] := by
    rw [List.perm_ext_iff_of_nodup (hl.filter p) (List.nodup_singleton a)]
    intro t
    rw [List.mem_filter, h, List.mem_singleton]
  rw [List.countP_eq_length_filter, hperm.length_eq]
  rfl

/-- The matching invocations of a period. -/
theorem mem_matching {cronExpr : String} {times : List ℤ} {t : ℤ} :
    t ∈ times.filter (fun t => cronMatches cronExpr t) ↔
      t ∈ times ∧ matchesMinute cronExpr (minuteOf t) = true := by
  rw [List.mem_filter, cronMatches_minute]

/-- The picks thin out the matching invocations. -/
theorem Picks.thins {cronExpr : String} {times : List ℤ} {first last : ℤ} {pick : ℤ → ℤ}
    (h : Picks cronExpr times first last pick) :
    Thins nextTime (fun t => ∃ m, DueMinute cronExpr first last m ∧ pick m = t)
      (times.filter fun t => cronMatches cronExpr t) where
  among := by
    rintro t ⟨m, hm, rfl⟩
    obtain ⟨hmem, hminute⟩ := h.picked m hm
    exact mem_matching.mpr ⟨hmem, hminute.symm ▸ hm.2.2⟩
  apart := by
    rintro t u ⟨m, hm, rfl⟩ ⟨m', hm', rfl⟩ hlt
    have hminute := (h.picked m hm).2
    have hminute' := (h.picked m' hm').2
    by_cases hnext : m' = m + 1
    · rw [hnext] at hm' ⊢
      exact h.apart m hm hm'
    · -- The minutes are different and not one after the other.
      apply nextTime_le
      rw [hminute, hminute']
      rcases lt_trichotomy m m' with hmm | rfl | hmm
      · omega
      · exact absurd hlt (lt_irrefl _)
      · have hback : pick m' < pick m := lt_of_minuteOf_lt (by rw [hminute, hminute']; exact hmm)
        exact absurd hlt hback.not_gt
  near := by
    intro t ht
    obtain ⟨hmem, hmatch⟩ := mem_matching.mp ht
    obtain ⟨m, hm, hle, hlt⟩ := h.near t hmem hmatch
    exact ⟨pick m, ⟨m, hm, rfl⟩, hle, hlt⟩

/-- Invocations that all come in the first ten seconds of their minutes can be grouped. -/
theorem grouped_of_prompt {cronExpr : String} {times : List ℤ} {first last : ℤ}
    (hsorted : times.Pairwise (· ≤ ·))
    (hperiod : ∀ t ∈ times, first ≤ minuteOf t ∧ minuteOf t ≤ last)
    (hevery : ∀ m, first ≤ m → m ≤ last → ∃ t ∈ times, minuteOf t = m)
    (hprompt : ∀ t ∈ times, t % msPerMinute < 10000) : Grouped cronExpr times first last := by
  -- The pick of a minute is its first invocation.
  have hfirst (m : ℤ) : ∃ p, DueMinute cronExpr first last m →
      p ∈ times ∧ minuteOf p = m ∧ ∀ t ∈ times, minuteOf t = m → p ≤ t := by
    by_cases hm : DueMinute cronExpr first last m
    · obtain ⟨u, hu, hminute⟩ := hevery m hm.1 hm.2.1
      have hrises : (times.filter fun t => minuteOf t = m).Pairwise (· ≤ ·) := hsorted.filter _
      have hmem (t : ℤ) : t ∈ times.filter (fun t => minuteOf t = m) ↔
          t ∈ times ∧ minuteOf t = m := by simp
      cases hin : times.filter (fun t => minuteOf t = m) with
      | nil =>
        have hu' := (hmem u).mpr ⟨hu, hminute⟩
        rw [hin] at hu'
        cases hu'
      | cons p rest =>
        rw [hin] at hrises hmem
        refine ⟨p, fun _ => ⟨((hmem p).mp List.mem_cons_self).1,
          ((hmem p).mp List.mem_cons_self).2, fun t ht htm => ?_⟩⟩
        rcases List.mem_cons.mp ((hmem t).mpr ⟨ht, htm⟩) with rfl | hrest
        · exact le_rfl
        · exact (List.pairwise_cons.mp hrises).1 t hrest
    · exact ⟨0, fun h => absurd h hm⟩
  choose pick hpick using hfirst
  have hinside {t : ℤ} (ht : t ∈ times) :
      minuteOf t * msPerMinute ≤ t ∧ t < minuteOf t * msPerMinute + 10000 := by
    have hlate := hprompt t ht
    unfold minuteOf msPerMinute at *
    omega
  refine ⟨pick, fun m hm => ⟨(hpick m hm).1, (hpick m hm).2.1⟩, ?_, ?_⟩
  · intro m hm hm'
    obtain ⟨hmem, hminute, -⟩ := hpick m hm
    obtain ⟨hmem', hminute', -⟩ := hpick (m+1) hm'
    have hbefore := (hinside hmem).2
    have hafter := (hinside hmem').1
    rw [hminute] at hbefore
    rw [hminute'] at hafter
    unfold nextTime dedupWindow
    unfold msPerMinute at hbefore hafter
    omega
  · intro t ht hmatch
    have hdue : DueMinute cronExpr first last (minuteOf t) :=
      ⟨(hperiod t ht).1, (hperiod t ht).2, hmatch⟩
    obtain ⟨hmem, hminute, hleast⟩ := hpick _ hdue
    refine ⟨minuteOf t, hdue, hleast t ht rfl, ?_⟩
    have hbefore := (hinside ht).2
    have hafter := (hinside hmem).1
    rw [hminute] at hafter
    unfold nextTime dedupWindow
    omega

/-- A configuration that has not run yet is triggered exactly once in each matching minute if
and only if the invocations of the matching minutes can be grouped. -/
theorem triggered_once_each_minute_iff (db : Db) (invocations : List (ℤ × Env)) (first last : ℤ)
    (hkeyed : (db.configs.map (·.id)).Nodup) (hconfig : config ∈ db.configs)
    (hnew : config.lastRunAt = none) (hruns : db.runs config.id = [])
    (hsorted : (invocations.map (·.1)).Pairwise (· ≤ ·))
    (hperiod : ∀ i ∈ invocations, first ≤ minuteOf i.1 ∧ minuteOf i.1 ≤ last)
    (hsucceeds : ∀ i ∈ invocations, ∀ c ∈ db.configs, i.2.Succeeds c) :
    (∀ m, DueMinute config.cronSchedule first last m →
      ((invoke db invocations).runs config.id).countP (fun t => minuteOf t = m) = 1) ↔
    Grouped config.cronSchedule (invocations.map (·.1)) first last := by
  let times := invocations.map (·.1)
  let matching := times.filter fun t => cronMatches config.cronSchedule t
  have hmatching : matching.Pairwise (· ≤ ·) := hsorted.filter _
  have hall : (invoke db invocations).runs config.id = debounce nextTime none matching := by
    rw [runs_invoke invocations hkeyed hsucceeds hconfig, hruns, hnew, List.nil_append]
  have hthins := debounce_thins lt_nextTime hmatching
  have hdue (t : ℤ) (ht : t ∈ matching) :
      DueMinute config.cronSchedule first last (minuteOf t) := by
    obtain ⟨hmem, hmatch⟩ := mem_matching.mp ht
    obtain ⟨i, hi, rfl⟩ := List.mem_map.mp hmem
    exact ⟨(hperiod i hi).1, (hperiod i hi).2, hmatch⟩
  rw [hall]
  constructor
  · intro honce
    -- The trigger of each minute is its pick.
    have hexists (m : ℤ) : ∃ t, DueMinute config.cronSchedule first last m →
        t ∈ debounce nextTime none matching ∧ minuteOf t = m := by
      by_cases hm : DueMinute config.cronSchedule first last m
      · have hpos : 0 < (debounce nextTime none matching).countP (fun t => minuteOf t = m) := by
          rw [honce m hm]
          exact Nat.one_pos
        obtain ⟨t, ht, hminute⟩ := List.countP_pos_iff.mp hpos
        exact ⟨t, fun _ => ⟨ht, of_decide_eq_true hminute⟩⟩
      · exact ⟨0, fun h => absurd h hm⟩
    choose pick hpick using hexists
    refine ⟨pick, ?_, ?_, ?_⟩
    · intro m hm
      have hmem := hthins.among _ (hpick m hm).1
      exact ⟨(mem_matching.mp hmem).1, (hpick m hm).2⟩
    · intro m hm hm'
      refine hthins.apart _ _ (hpick m hm).1 (hpick (m+1) hm').1 (lt_of_minuteOf_lt ?_)
      rw [(hpick m hm).2, (hpick (m+1) hm').2]
      omega
    · intro t ht hmatch
      obtain ⟨p, hp, hle, hlt⟩ := hthins.near t (mem_matching.mpr ⟨ht, hmatch⟩)
      have hm := hdue p (hthins.among p hp)
      have hsame : p = pick (minuteOf p) := by
        apply length_filter_eq_one (honce _ hm) hp (hpick _ hm).1 (decide_eq_true rfl)
        exact decide_eq_true (hpick _ hm).2
      exact ⟨minuteOf p, hm, hsame ▸ hle, hsame ▸ hlt⟩
  · rintro ⟨pick, h⟩ m hm
    have hmem := h.thins.mem_debounce hmatching
    have hnodup : (debounce nextTime none matching).Nodup :=
      (debounce_rises lt_nextTime hmatching).imp ne_of_lt
    apply countP_eq_one (a := pick m) hnodup
    intro t
    rw [hmem, decide_eq_true_eq]
    constructor
    · rintro ⟨⟨m', hm', rfl⟩, hminute⟩
      rw [(h.picked m' hm').2] at hminute
      rw [hminute]
    · rintro rfl
      exact ⟨⟨m, hm, rfl⟩, (h.picked m hm).2⟩

/-- An invocation in which everything succeeds. -/
def willing : Env where
  getProjectOwnerForScan _ := .ok (some ⟨"u1", none⟩)
  readConfig _ := .ok ("http://test", "full")
  randomUUID id := id
  inserts _ := true
  queues _ := true

theorem willing_succeeds (c : ScanConfig) : willing.Succeeds c :=
  ⟨⟨_, rfl⟩, ⟨_, rfl⟩, rfl, rfl⟩

/-- One configuration, with the given schedule. -/
def scheduled (cronSchedule : String) : Db := ⟨[⟨"c1", "p1", "{}", cronSchedule, none⟩], [], []⟩

/-- Two invocations, each in the first second of its minute. -/
def promptly : List (ℤ × Env) := [(1735734600500, willing), (1735734660200, willing)]

theorem triggered_once_in_two_minutes :
    ((invoke (scheduled "* * * * *") promptly).runs "c1").countP
        (fun t => minuteOf t = 28928910) = 1 ∧
      ((invoke (scheduled "* * * * *") promptly).runs "c1").countP
        (fun t => minuteOf t = 28928911) = 1 := by
  have hsorted : (promptly.map (·.1)).Pairwise (· ≤ ·) := by decide
  have hgrouped : Grouped "* * * * *" (promptly.map (·.1)) 28928910 28928911 := by
    apply grouped_of_prompt hsorted (by decide) _ (by decide)
    intro m hfirst hlast
    obtain rfl | rfl : m = 28928910 ∨ m = 28928911 := by omega
    · exact ⟨1735734600500, by decide, by decide⟩
    · exact ⟨1735734660200, by decide, by decide⟩
  have honce := (triggered_once_each_minute_iff (scheduled "* * * * *") promptly 28928910
    28928911 (List.nodup_singleton _) List.mem_cons_self rfl rfl hsorted (by decide)
    fun i hi c _ => by
      -- Both invocations meet the same.
      rcases List.mem_cons.mp hi with rfl | hi
      · exact willing_succeeds c
      · rw [List.mem_singleton.mp hi]
        exact willing_succeeds c).mpr hgrouped
  exact ⟨honce 28928910 ⟨by decide, by decide, by decide⟩,
    honce 28928911 ⟨by decide, by decide, by decide⟩⟩

/-- A run in the last seconds of a minute makes the only invocation of the next one pass it
over; and a second invocation late in a minute triggers a daily scan again. -/
theorem minute_skipped_and_minute_repeated :
    ((invoke (scheduled "* * * * *") [(1735734655000, willing), (1735734665000, willing)]).runs
        "c1" = [1735734655000] ∧
      minuteOf 1735734665000 = minuteOf 1735734655000 + 1 ∧
      matchesMinute "* * * * *" (minuteOf 1735734665000) = true) ∧
    (invoke (scheduled "30 12 * * *") [(1735734600500, willing), (1735734655000, willing)]).runs
        "c1" = [1735734600500, 1735734655000] ∧
      minuteOf 1735734655000 = minuteOf 1735734600500 := by
  decide

end Swazz.Scheduler
