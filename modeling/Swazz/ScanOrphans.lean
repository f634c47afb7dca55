import Swazz.FindingsQueueOrder
import Swazz.ScanWriters

/-! No event, finding or token outlives its scan, however the writers of a scan's rows and
the deletions interleave. -/
namespace Swazz.ScanWriters

open AtomicCalls
open Findings (Statement TextFns)
open ProjectDeletion (Deletion)
open ScanDeletion (ChildTable Where purgeScanChildren)
open StepSystem (Reaches ReachesUnder)

/-- The rows of the queue are rows of scans that exist. -/
structure RowsRooted (rows : Findings.Db) : Prop where
  events : ∀ r ∈ rows.events, (rows.scans r.scanId).isSome = true
  progress : ∀ id kind, (rows.progress id kind).isSome = true → (rows.scans id).isSome = true
  findings : ∀ r ∈ rows.findings, (rows.scans r.scanId).isSome = true

/-- Every row has a scan that exists. -/
structure Rooted (db : Db) : Prop where
  rows : RowsRooted db.rows
  oobPending : ∀ r ∈ db.oobPending, db.hasScan r.scanId = true

/-- The scans that exist are the same. -/
def SameScans (rows rows' : Findings.Db) : Prop :=
  ∀ id, (rows'.scans id).isSome = (rows.scans id).isSome

section queue

variable {T : TextFns} {rows rows' : Findings.Db}

theorem RowsRooted.of_same (h : RowsRooted rows) (hscans : SameScans rows rows')
    (hevents : rows'.events = rows.events) (hprogress : rows'.progress = rows.progress)
    (hfindings : rows'.findings = rows.findings) : RowsRooted rows' where
  events r hr := by
    rw [hscans]
    exact h.events r (hevents ▸ hr)
  progress id kind hrow := by
    rw [hscans]
    exact h.progress id kind (hprogress ▸ hrow)
  findings r hr := by
    rw [hscans]
    exact h.findings r (hfindings ▸ hr)

theorem sameScans_update {scanId : String} {scan : Findings.Scan}
    (h : rows.scans scanId = some scan) (scan' : Findings.Scan) :
    SameScans rows { rows with scans := Function.update rows.scans scanId (some scan') } := by
  intro id
  change (Function.update rows.scans scanId (some scan') id).isSome = _
  by_cases hid : id = scanId
  · rw [hid, Function.update_self, h]
    rfl
  · rw [Function.update_of_ne hid]

theorem rooted_endScan (h : RowsRooted rows) (scanId : String)
    (f : Findings.Scan → Findings.Scan) : RowsRooted (rows.endScan scanId f).1 ∧
      SameScans rows (rows.endScan scanId f).1 := by
  unfold Findings.Db.endScan
  cases hscan : rows.scans scanId with
  | none => exact ⟨h, fun _ => rfl⟩
  | some scan =>
    simp only
    split
    · have hsame := sameScans_update hscan (f scan)
      exact ⟨h.of_same hsame rfl rfl rfl, hsame⟩
    · exact ⟨h, fun _ => rfl⟩

/-- Every insert asks for its scan, and no statement deletes one. -/
theorem rooted_exec (h : RowsRooted rows) (s : Statement) :
    RowsRooted (rows.exec T s).1 ∧ SameScans rows (rows.exec T s).1 := by
  cases s with
  | upsertProgress scanId kind row =>
    rw [Findings.Db.exec]
    split
    · rename_i hwrites
      have hscan : (rows.scans scanId).isSome = true := (Bool.and_eq_true_iff.mp hwrites).1
      refine ⟨⟨h.events, fun id kind' hrow => ?_, h.findings⟩, fun _ => rfl⟩
      by_cases hid : id = scanId
      · exact hid ▸ hscan
      · refine h.progress id kind' ?_
        change (PairMap.put rows.progress scanId kind row id kind').isSome = true at hrow
        rwa [PairMap.put_ne fun heq => hid (Prod.mk.inj heq).1] at hrow
    · exact ⟨h, fun _ => rfl⟩
  | insertEvent row =>
    rw [Findings.Db.exec]
    split
    · rename_i hwrites
      refine ⟨⟨fun r hr => ?_, h.progress, h.findings⟩, fun _ => rfl⟩
      rcases List.mem_append.mp hr with hold | hnew
      · exact h.events r hold
      · rw [List.mem_singleton.mp hnew]
        exact (Bool.and_eq_true_iff.mp hwrites).1
    · exact ⟨h, fun _ => rfl⟩
  | complete scanId stats => exact rooted_endScan h scanId _
  | checkpoint scanId data =>
    rw [Findings.Db.exec]
    split
    · rename_i scan hscan
      have hsame := sameScans_update hscan { scan with lastCheckpoint := some data }
      exact ⟨h.of_same hsame rfl rfl rfl, hsame⟩
    · exact ⟨h, fun _ => rfl⟩
  | fail scanId reason => exact rooted_endScan h scanId _
  | insertFinding row =>
    rw [Findings.Db.exec]
    split
    · rename_i hwrites
      refine ⟨⟨h.events, h.progress, fun r hr => ?_⟩, fun _ => rfl⟩
      rcases List.mem_append.mp hr with hold | hnew
      · exact h.findings r hold
      · rw [List.mem_singleton.mp hnew]
        exact (Bool.and_eq_true_iff.mp hwrites).1
    · exact ⟨h, fun _ => rfl⟩

theorem rooted_batch (h : RowsRooted rows) (statements : List Statement) :
    RowsRooted (rows.batch T statements).1 ∧ SameScans rows (rows.batch T statements).1 := by
  induction statements generalizing rows with
  | nil => exact ⟨h, fun _ => rfl⟩
  | cons s rest ih =>
    obtain ⟨hrooted, hsame⟩ := rooted_exec (T := T) h s
    obtain ⟨hrest, hlast⟩ := ih hrooted
    exact ⟨hrest, fun id => (hlast id).trans (hsame id)⟩

end queue

section calls

variable {db : Db}

theorem rooted_insertToken (h : Rooted db) {scanId : String} (hscan : db.hasScan scanId = true)
    (t : OobToken) : Rooted (db.insertToken scanId t) ∧ (db.insertToken scanId t).rows = db.rows := by
  unfold Db.insertToken
  split
  · exact ⟨h, rfl⟩
  · refine ⟨⟨h.rows, fun r hr => ?_⟩, rfl⟩
    rcases List.mem_append.mp hr with hold | hnew
    · exact h.oobPending r hold
    · rw [List.mem_singleton.mp hnew]
      exact hscan

theorem rooted_storeOobPending (h : Rooted db) (scanId : String) (tokens : List OobToken) :
    Rooted (db.storeOobPending scanId tokens) ∧
      (db.storeOobPending scanId tokens).rows = db.rows := by
  have hall (tokens : List OobToken) (db' : Db) (h' : Rooted db') (hrows : db'.rows = db.rows)
      (hscan : db'.hasScan scanId = true) :
      Rooted (tokens.foldl (fun db t => db.insertToken scanId t) db') ∧
        (tokens.foldl (fun db t => db.insertToken scanId t) db').rows = db.rows := by
    induction tokens generalizing db' with
    | nil => exact ⟨h', hrows⟩
    | cons t tokens ih =>
      obtain ⟨hrooted, hsame⟩ := rooted_insertToken h' hscan t
      refine ih _ hrooted (hsame.trans hrows) ?_
      rw [Db.hasScan, hsame]
      exact hscan
  unfold Db.storeOobPending
  split
  · rename_i hscan
    exact hall _ db h rfl hscan
  · exact ⟨h, rfl⟩

/-- The finding of a late callback is of the scan that has the token. -/
theorem rooted_recordLate (h : Rooted db) (scanId token : String) :
    Rooted (db.recordLate scanId token) ∧ (db.recordLate scanId token).rows.scans = db.rows.scans := by
  have hall (found : List Findings.FindingRow) (rows : Findings.Db) (hrows : RowsRooted rows)
      (hscans : rows.scans = db.rows.scans) (hfound : ∀ r ∈ found, db.hasScan r.scanId = true) :
      RowsRooted (found.foldl Db.insertFinding rows) ∧
        (found.foldl Db.insertFinding rows).scans = db.rows.scans := by
    induction found generalizing rows with
    | nil => exact ⟨hrows, hscans⟩
    | cons row found ih =>
      obtain ⟨hrow, hrest⟩ := List.forall_mem_cons.mp hfound
      rw [List.foldl_cons]
      refine ih _ ?_ ?_ hrest
      · unfold Db.insertFinding
        split
        · exact hrows
        · refine ⟨hrows.events, hrows.progress, fun r hr => ?_⟩
          rcases List.mem_append.mp hr with hold | hnew
          · exact hrows.findings r hold
          · rw [List.mem_singleton.mp hnew, hscans]
            exact hrow
      · unfold Db.insertFinding
        split
        · exact hscans
        · exact hscans
  have hlate : ∀ r ∈ (db.oobPending.filter (Db.isOn scanId token)).map Db.lateFinding,
      db.hasScan r.scanId = true := by
    intro r hr
    obtain ⟨row, hrow, rfl⟩ := List.mem_map.mp hr
    exact h.oobPending row (List.mem_filter.mp hrow).1
  obtain ⟨hrooted, hsame⟩ := hall _ db.rows h.rows rfl hlate
  refine ⟨⟨hrooted, fun r hr => ?_⟩, hsame⟩
  have hold := h.oobPending r (List.mem_filter.mp hr).1
  change ((db.recordLate scanId token).rows.scans r.scanId).isSome = true
  rw [show (db.recordLate scanId token).rows.scans = db.rows.scans from hsame]
  exact hold

theorem rooted_purgeChunk (h : Rooted db) (L : Limited) (w : Where) (table : ChildTable) :
    Rooted (db.purgeChunk L w table) ∧ (db.purgeChunk L w table).rows.scans = db.rows.scans := by
  cases table with
  | findings =>
    refine ⟨⟨⟨h.rows.events, h.rows.progress, fun r hr => ?_⟩, h.oobPending⟩, rfl⟩
    exact h.rows.findings r (List.mem_filter.mp hr).1
  | scanEvents =>
    refine ⟨⟨⟨fun r hr => ?_, fun id kind hrow => ?_, h.rows.findings⟩, h.oobPending⟩, rfl⟩
    · exact h.rows.events r (List.mem_filter.mp hr).1
    · refine h.rows.progress id kind ?_
      simp only [Db.purgeChunk] at hrow
      split at hrow
      · cases hrow
      · exact hrow
  | oobPending =>
    refine ⟨⟨h.rows, fun r hr => ?_⟩, rfl⟩
    exact h.oobPending r (List.mem_filter.mp hr).1

/-- The rows of the scans that go are gone with them. -/
theorem rooted_deleteRows (h : Rooted db) (d : Deletion) : Rooted (db.deleteRows d) := by
  have hleft {id : String} (hscan : db.hasScan id = true)
      (hkept : db.scanMatches ⟨d.users, d.projects⟩ id = false) :
      (db.deleteRows d).hasScan id = true := by
    unfold Db.hasScan Db.deleteRows Db.deleteScansWhere
    simp only
    rw [if_neg (by rw [hkept]; exact Bool.false_ne_true)]
    exact hscan
  have hkept {p : String → Bool} {id : String} (hid : (!p id) = true) : p id = false := by
    simpa using hid
  refine ⟨⟨fun r hr => ?_, fun id kind hrow => ?_, fun r hr => ?_⟩, fun r hr => ?_⟩
  · obtain ⟨hmem, hnot⟩ := List.mem_filter.mp hr
    exact hleft (h.rows.events r hmem) (hkept hnot)
  · simp only [Db.deleteRows, Db.deleteScansWhere] at hrow
    split at hrow
    · cases hrow
    · rename_i hnot
      exact hleft (h.rows.progress id kind hrow) (Bool.eq_false_iff.mpr hnot)
  · obtain ⟨hmem, hnot⟩ := List.mem_filter.mp hr
    exact hleft (h.rows.findings r hmem) (hkept hnot)
  · obtain ⟨hmem, hnot⟩ := List.mem_filter.mp hr
    exact hleft (h.oobPending r hmem) (hkept hnot)

end calls

theorem rooted_call (T : TextFns) (L : Limited) {db : Db} (h : Rooted db) (op : Op) :
    Rooted (exec T L db op).2 := by
  cases op with
  | lookupScans | storedIds | pendingToken => exact h
  | batch statements =>
    obtain ⟨hrooted, hsame⟩ := rooted_batch (T := T) h.rows statements
    refine ⟨hrooted, fun r hr => ?_⟩
    exact (hsame r.scanId).trans (h.oobPending r hr)
  | storeOobPending scanId tokens => exact (rooted_storeOobPending h scanId tokens).1
  | recordLate scanId token => exact (rooted_recordLate h scanId token).1
  | purgeChunk table w => exact (rooted_purgeChunk h L w table).1
  | deleteRows d => exact rooted_deleteRows h d

theorem rooted_happen {db : Db} (h : Rooted db) (e : Event) : Rooted (happen db e) := by
  cases e with
  | elapse seconds => exact ⟨h.rows, h.oobPending⟩
  | insertScan scanId userId scan =>
    rw [happen]
    split
    · exact h
    · have hmore {id : String} (hid : (db.rows.scans id).isSome = true) :
          (Function.update db.rows.scans scanId (some scan) id).isSome = true := by
        by_cases heq : id = scanId
        · rw [heq, Function.update_self]
          rfl
        · rwa [Function.update_of_ne heq]
      exact ⟨⟨fun r hr => hmore (h.rows.events r hr),
        fun id kind hrow => hmore (h.rows.progress id kind hrow),
        fun r hr => hmore (h.rows.findings r hr)⟩, fun r hr => hmore (h.oobPending r hr)⟩

/-- A call of a deletion is a statement of the purge, or its request is done after it. -/
def PurgesOrEnds (op : Op) (next : Answer op → Calls Answer Outcome) : Prop :=
  (∃ table w, op = .purgeChunk table w) ∨ ∀ a, next a = .ret .done

theorem purgesOrEnds_delete (d : Deletion) : (delete d).Every PurgesOrEnds := by
  have hlast : (deleteLast d).Every PurgesOrEnds := by
    intro ok
    cases ok with
    | false => exact trivial
    | true => exact ⟨Or.inr fun _ => rfl, fun _ => trivial⟩
  have hpurge : (purgeScanChildren fun table =>
      perform (.purgeChunk table ⟨d.users, d.projects⟩)).Uses
      fun op => ∃ table w, op = .purgeChunk table w :=
    ScanDeletion.uses_purgeScanChildren fun table => ⟨⟨table, _, rfl⟩, fun _ => trivial⟩
  have hall : ((purgeScanChildren fun table =>
      perform (.purgeChunk table ⟨d.users, d.projects⟩)).bind fun _ => deleteLast d).Every
      PurgesOrEnds :=
    Calls.every_bind_of_uses hpurge (fun _ _ hop => Or.inl hop) fun _ => hlast
  unfold delete
  split
  · exact trivial
  · exact hall

/-- The calls ahead of a deletion. -/
def Purges (r : Request) (p : Calls Answer Outcome) : Prop :=
  ∀ d, r = .delete d → p.Every PurgesOrEnds

/-- Every row has its scan, and every deletion goes on as its program says. -/
structure Sound (w : Pool Answer Db Request Outcome) : Prop where
  rooted : Rooted w.store
  deletions : ∀ (i : ℕ) r p, w.running[i]? = some (r, p) → Purges r p

theorem sound_step {T : TextFns} {L : Limited} {w w' : Pool Answer Db Request Outcome}
    {m : Move Request Event} (hw : Sound w) (h : (writers T L).step w m = some w') : Sound w' := by
  refine ⟨?_, ?_⟩
  · cases System.step_cases h with
    | start r => exact hw.rooted
    | choose => exact hw.rooted
    | call i left r op next hi => exact rooted_call T L hw.rooted op
    | world e => exact rooted_happen hw.rooted e
  · refine System.running_step hw.deletions ?_ ?_ ?_ ?_ h
    · exact fun _ _ _ _ hp => hp
    · rintro r d rfl
      exact purgesOrEnds_delete d
    · intro i left r op next _ hi _ d hr
      exact (hw.deletions i r _ hi d hr).2 _
    · intro i left r next _ _ hp d hr
      exact hp d hr left

/-- The scans and the projects are the same. -/
structure Keeps (db db' : Db) : Prop where
  scans : db'.rows.scans = db.rows.scans
  projects : db'.projects = db.projects

theorem keeps_purgeChunk (L : Limited) (db : Db) (w : Where) (table : ChildTable) :
    Keeps db (db.purgeChunk L w table) := by
  cases table <;> exact ⟨rfl, rfl⟩

theorem keeps_of_unfinished {T : TextFns} {L : Limited} {w w' : Pool Answer Db Request Outcome}
    (hw : Sound w) {i : ℕ} {d : Deletion} {p : Calls Answer Outcome} {left : Bool}
    (hi : w.running[i]? = some (.delete d, p)) (h : (writers T L).step w (.next i left) = some w')
    (hunfinished : w'.running[i]? ≠ some (.delete d, .ret .done)) : Keeps w.store w'.store := by
  have hlt : i < w.running.length := (List.getElem?_eq_some_iff.mp hi).1
  cases System.step_cases h with
  | choose => exact ⟨rfl, rfl⟩
  | call i left r op next hnext =>
    obtain ⟨rfl, rfl⟩ := Prod.mk.inj (Option.some.inj (hi.symm.trans hnext))
    rcases (hw.deletions i _ _ hi d rfl).1 with ⟨table, where', rfl⟩ | hends
    · exact keeps_purgeChunk L w.store where' table
    · refine absurd ?_ hunfinished
      rw [← hends ((writers T L).exec i (.delete d) op w.store).1]
      exact List.getElem?_set_self hlt

/-- Whatever interleaves, every row has its scan; and no step of a deletion touches a scan or
a project but the one with which it is done, so none does of one that fails. -/
theorem no_rows_outlive_scan (T : TextFns) (L : Limited) (db : Db) (h : Rooted db)
    {w : Pool Answer Db Request Outcome} (hw : Reaches (writers T L).step ⟨db, []⟩ w) :
    Rooted w.store ∧ ∀ i d p left w', w.running[i]? = some (.delete d, p) →
      (writers T L).step w (.next i left) = some w' →
      w'.running[i]? ≠ some (.delete d, .ret .done) → Keeps w.store w'.store := by
  have hsound : Sound w := by
    refine ReachesUnder.invariant ⟨h, fun i r p hi => ?_⟩ (fun t m u ht _ hu => ?_) hw
    · simp at hi
    · exact sound_step ht hu
  refine ⟨hsound.rooted, ?_⟩
  intro i d p left w' hi hstep hunfinished
  exact keeps_of_unfinished hsound hi hstep hunfinished

/-- A statement takes every row there is. -/
def takeAll : Limited where
  event _ _ := true
  progress _ _ _ := true
  finding _ _ := true
  oob _ _ := true
  changes _ _ := 0

/-- A scan of a project, with a token that it handed over. -/
def oneScan : Db where
  rows := {
    scans := Function.update (fun _ => none) "scan"
      (some ⟨⟨"project", "https://example.test", "default"⟩, .running, none, none, none⟩)
    events := []
    progress := fun _ _ => none
    findings := [] }
  scanUser := fun _ => none
  oobPending := [⟨"scan", "token", none, none, 0⟩]
  projects := ["project"]
  users := []
  now := 0

/-- A late callback and an event that came before the deletion are written after it. -/
def writtenAfter : List (Move Request Event) :=
  [.start (.delete (.deleteProject "project")),
    .start (.processFindingsQueueMessages [⟨"scan", some "error", none, none, none⟩]),
    .start (.recordLateOobCallback "scan" "token"), .next 1 true, .next 2 true, .next 0 true,
    .next 0 true, .next 0 true, .next 0 true, .next 0 true, .next 1 true, .next 2 true]

theorem no_rows_outlive_deleted_scan : ∃ w,
    Reaches (writers Findings.plainText takeAll).step ⟨oneScan, []⟩ w ∧
    w.store.hasScan "scan" = false ∧ System.nextCall w 0 = none ∧ System.nextCall w 1 = none ∧
    System.nextCall w 2 = none ∧ Rooted w.store := by
  obtain ⟨w, hreach, htest⟩ := StepSystem.reachesUnder_of_test
    (writers Findings.plainText takeAll).step (fun _ _ => True) ⟨oneScan, []⟩ writtenAfter
    (fun w => !w.store.hasScan "scan" && (System.nextCall w 0).isNone &&
      (System.nextCall w 1).isNone && (System.nextCall w 2).isNone) (by decide)
  simp only [Bool.and_eq_true, Bool.not_eq_true', Option.isNone_iff_eq_none] at htest
  obtain ⟨⟨⟨hgone, hdeleted⟩, hevent⟩, hlate⟩ := htest
  have hrooted : Rooted oneScan := by
    refine ⟨⟨nofun, nofun, nofun⟩, fun r hr => ?_⟩
    rw [List.mem_singleton.mp hr]
    decide
  have hkept := no_rows_outlive_scan Findings.plainText takeAll oneScan hrooted hreach
  exact ⟨w, hreach, hgone, hdeleted, hevent, hlate, hkept.1⟩

end Swazz.ScanWriters
