import Mathlib.Data.List.MinMax
import Swazz.AbsorbingFold
import Swazz.FindingsQueueSteps

/-! Runner events handed over again, and out of order. -/
namespace Swazz.Findings

open Prepared (InStream Stores)

variable (T : TextFns)

/-- What handling an event comes to. -/
theorem handle_cases {db : Db} {body : Body} {r : Processed} (h : handle T db body = some r) :
    (db.scanToProject body.scanId = none ∧ r = ⟨db, [], []⟩) ∨
    (db.scanToProject body.scanId).isSome = true ∧
      ((∃ k, isCoalescedProgressEvent body = some k ∧ r = ⟨db.setProgress body.scanId k
          (upsertRow T (db.progress body.scanId k) (coalescedRow body k)), [], []⟩) ∨
      (isCoalescedProgressEvent body = none ∧ (storedEventId body).any db.hasEvent = true ∧
        r = ⟨db, [], []⟩) ∨
      isCoalescedProgressEvent body = none ∧ (storedEventId body).any db.hasEvent = false ∧
        ∃ projInfo q, Prepared.init.store T (storedEventId body) body projInfo = some q ∧
          r = q.finish T db) := by
  unfold handle at h
  split at h
  · rename_i hscan
    exact Or.inl ⟨hscan, (Option.some.inj h).symm⟩
  · rename_i projInfo hscan
    have hsome : (db.scanToProject body.scanId).isSome = true := by simp [hscan]
    refine Or.inr ⟨hsome, ?_⟩
    split at h
    · rename_i k hkind
      rw [exec_upsert T hsome] at h
      exact Or.inl ⟨k, hkind, (Option.some.inj h).symm⟩
    · rename_i hkind
      split_ifs at h with hstored
      · exact Or.inr (Or.inl ⟨hkind, hstored, (Option.some.inj h).symm⟩)
      · obtain ⟨q, hq, hr⟩ := Option.map_eq_some_iff.mp h
        exact Or.inr (Or.inr ⟨hkind, by simpa using hstored, projInfo, q, hq, hr.symm⟩)

theorem progress_batch {xs : List Statement}
    (h : ∀ s k row, Statement.upsertProgress s k row ∉ xs) (db : Db) :
    (db.batch T xs).1.progress = db.progress := by
  induction xs generalizing db with
  | nil => rfl
  | cons x xs ih =>
    have htail := ih (fun s k row hmem => h s k row (List.mem_cons_of_mem x hmem))
      (db.exec T x).1
    simp only [Db.batch]
    rw [htail]
    cases x with
    | upsertProgress s k row => exact absurd List.mem_cons_self (h s k row)
    | insertEvent row => simp only [Db.exec]; split_ifs <;> rfl
    | complete s stats => simp only [Db.exec, Db.endScan]; split <;> (try split_ifs) <;> rfl
    | checkpoint s data => simp only [Db.exec]; split <;> rfl
    | fail s reason => simp only [Db.exec, Db.endScan]; split <;> (try split_ifs) <;> rfl
    | insertFinding row => simp only [Db.exec]; split_ifs <;> rfl

theorem scanToProject_handle {db : Db} {body : Body} {r : Processed}
    (h : handle T db body = some r) (s : String) : r.db.scanToProject s = db.scanToProject s := by
  rcases handle_cases T h with ⟨-, rfl⟩ | ⟨-, ⟨k, -, rfl⟩ | ⟨-, -, rfl⟩ | ⟨-, -, _, q, hq, rfl⟩⟩
  · rfl
  · rfl
  · rfl
  · exact Prepared.scanToProject_finish T q db s

theorem hasEvent_handle {db : Db} {body : Body} {r : Processed} (h : handle T db body = some r)
    {i : String} (hi : r.db.hasEvent i = true) :
    db.hasEvent i = true ∨ storedEventId body = some i := by
  rcases handle_cases T h with ⟨-, rfl⟩ | ⟨hscan, ⟨k, -, rfl⟩ | ⟨-, -, rfl⟩ |
    ⟨-, -, _, q, hq, rfl⟩⟩
  · exact Or.inl hi
  · exact Or.inl hi
  · exact Or.inl hi
  · exact ((Prepared.stores_store T hq).hasEvent T hscan i).mp hi

theorem hasEvent_handle_mono {db : Db} {body : Body} {r : Processed}
    (h : handle T db body = some r) {i : String} (hi : db.hasEvent i = true) :
    r.db.hasEvent i = true := by
  rcases handle_cases T h with ⟨-, rfl⟩ | ⟨hscan, ⟨k, -, rfl⟩ | ⟨-, -, rfl⟩ |
    ⟨-, -, _, q, hq, rfl⟩⟩
  · exact hi
  · exact hi
  · exact hi
  · exact ((Prepared.stores_store T hq).hasEvent T hscan i).mpr (Or.inl hi)

/-- A coalesced row changes only by an event of its scan and kind. -/
theorem progress_handle {db : Db} {body : Body} {r : Processed} (h : handle T db body = some r)
    (s : String) (k : ProgressKind) :
    r.db.progress s k = db.progress s k ∨
      body.scanId = s ∧ isCoalescedProgressEvent body = some k ∧
        r.db.progress s k = some (upsertRow T (db.progress s k) (coalescedRow body k)) := by
  rcases handle_cases T h with ⟨-, rfl⟩ | ⟨hscan, ⟨k', hkind, rfl⟩ | ⟨-, -, rfl⟩ |
    ⟨-, -, _, q, hq, rfl⟩⟩
  · exact Or.inl rfl
  · by_cases hkey : (s, k) = (body.scanId, k')
    · obtain ⟨rfl, rfl⟩ := Prod.mk.inj hkey
      exact Or.inr ⟨rfl, hkind, setProgress_self _ _ _ _⟩
    · exact Or.inl (PairMap.put_ne hkey)
  · exact Or.inl rfl
  · have hkeeps := progress_batch T (Prepared.stores_store T hq).noUpsert db
    exact Or.inl (congrFun (congrFun hkeeps s) k)

/-! ### Events handed over again -/

/-- The event was handled: handling it again would do nothing. -/
def Absorbed (done : Processed) (body : Body) : Prop :=
  (done.db.scanToProject body.scanId).isSome = true →
    match isCoalescedProgressEvent body, eventOrder body with
    | some k, some o => ∃ row, done.db.progress body.scanId k = some row ∧
      placeReplaces T o.exec o.seq row.payload = false
    | _, _ => ∃ i, storedEventId body = some i ∧ done.db.hasEvent i = true

theorem storedEventId_isSome {db : Db} {body : Body} {o : EventOrder}
    (hscan : (db.scanToProject body.scanId).isSome = true) (ho : eventOrder body = some o)
    (hkind : isCoalescedProgressEvent body = none) :
    storedEventId body = some (eventIdFor body.scanId o.exec o.seq) := by
  simp [storedEventId, hkind, (isSome_scans hscan).1, ho]

/-- Whatever the row was, after the upsert the event does not replace it. -/
theorem placeReplaces_upsertRow {body : Body} {k : ProgressKind} {o : EventOrder}
    (ho : eventOrder body = some o) (stored : Option ProgressRow) :
    placeReplaces T o.exec o.seq (upsertRow T stored (coalescedRow body k)).payload = false := by
  have hself : placeReplaces T o.exec o.seq (coalescedRow body k).payload = false := by
    rw [placeReplaces_coalesced T ho]
    simp
  cases stored with
  | none => exact hself
  | some old =>
    simp only [upsertRow, replaces_coalesced T ho]
    split_ifs with hrep
    · exact hself
    · simpa using hrep

theorem absorbed_after {execOf : String → ProgressKind → String} {done next : Processed}
    {body : Body} (hstream : InStream execOf body) (h : handleStep T done body = some next) :
    Absorbed T next body := by
  obtain ⟨r, hr, rfl⟩ := Option.map_eq_some_iff.mp h
  obtain ⟨o, ho, -⟩ := hstream
  intro hscan
  have hscan' : (done.db.scanToProject body.scanId).isSome = true := by
    rw [← scanToProject_handle T hr]
    exact hscan
  rw [ho]
  rcases handle_cases T hr with ⟨hnone, -⟩ | ⟨-, ⟨k, hkind, rfl⟩ | ⟨hkind, hstored, rfl⟩ |
    ⟨hkind, -, _, q, hq, rfl⟩⟩
  · simp [hnone] at hscan'
  · rw [hkind]
    exact ⟨_, setProgress_self _ _ _ _, placeReplaces_upsertRow T ho _⟩
  · rw [hkind]
    exact (Option.any_eq_true _ _).mp hstored
  · rw [hkind]
    have hid := storedEventId_isSome hscan' ho hkind
    have hstores := Prepared.stores_store T hq
    exact ⟨_, hid, (hstores.hasEvent T hscan' _).mpr (Or.inr hid)⟩

theorem absorbed_keep {execOf : String → ProgressKind → String} {done next : Processed}
    {a b : Body} (ha : InStream execOf a) (hb : InStream execOf b) (habs : Absorbed T done a)
    (h : handleStep T done b = some next) : Absorbed T next a := by
  obtain ⟨r, hr, rfl⟩ := Option.map_eq_some_iff.mp h
  obtain ⟨o, ho, hexec⟩ := ha
  obtain ⟨o', ho', hexec'⟩ := hb
  intro hscan
  have hscan' : (done.db.scanToProject a.scanId).isSome = true := by
    rw [← scanToProject_handle T hr]
    exact hscan
  have habs := habs hscan'
  rw [ho] at habs ⊢
  cases hkind : isCoalescedProgressEvent a with
  | none =>
    rw [hkind] at habs
    obtain ⟨i, hi, hhas⟩ := habs
    exact ⟨i, hi, hasEvent_handle_mono T hr hhas⟩
  | some k =>
    rw [hkind] at habs
    obtain ⟨row, hrow, hnot⟩ := habs
    rcases progress_handle T hr a.scanId k with hsame | ⟨hs, hk, hupsert⟩
    · exact ⟨row, by rw [← hrow]; exact hsame, hnot⟩
    · refine ⟨_, hupsert, ?_⟩
      have hsame : o'.exec = o.exec := by rw [hexec' k hk, hexec k hkind, hs]
      rw [hrow]
      simp only [upsertRow, replaces_coalesced T ho']
      split_ifs with hrep
      · -- The newer event is of the same execution and comes after `a` in it.
        have hlt : ¬ o'.seq < o.seq := by
          intro hlt
          rw [hsame] at hrep
          have htrue := placeReplaces_mono T hlt.le hrep
          rw [hnot] at htrue
          cases htrue
        rw [← hsame, placeReplaces_coalesced T ho']
        simpa using hlt
      · exact hnot

theorem absorbed_noop {execOf : String → ProgressKind → String} {done : Processed}
    {body : Body} (hstream : InStream execOf body) (habs : Absorbed T done body) :
    handleStep T done body = some done := by
  obtain ⟨o, ho, -⟩ := hstream
  have hhandle : handle T done.db body = some ⟨done.db, [], []⟩ := by
    unfold handle
    cases hscan : done.db.scanToProject body.scanId with
    | none => rfl
    | some projInfo =>
      have hsome : (done.db.scanToProject body.scanId).isSome = true := by simp [hscan]
      have habs := habs hsome
      rw [ho] at habs
      cases hkind : isCoalescedProgressEvent body with
      | none =>
        rw [hkind] at habs
        obtain ⟨i, hi, hhas⟩ := habs
        simp [hi, hhas]
      | some k =>
        rw [hkind] at habs
        obtain ⟨row, hrow, hnot⟩ := habs
        simp only [exec_upsert T hsome, hrow, upsertRow, replaces_coalesced T ho, hnot]
        simp [setProgress_eq_self hrow]
  simp [handleStep, hhandle, Prepared.andThen_nothing]

/-- What makes two bodies the same event. -/
def eventKey (body : Body) : String × Option String × Option ℕ :=
  (body.scanId, body.exec, body.seq)

/-- If no two executions share a coalesced row, each row has its execution. -/
theorem exists_execOf {bodies : List Body}
    (hsequenced : ∀ a ∈ bodies, (eventOrder a).isSome = true)
    (hexec : ∀ a ∈ bodies, ∀ b ∈ bodies, a.scanId = b.scanId →
      (isCoalescedProgressEvent a).isSome = true →
      isCoalescedProgressEvent a = isCoalescedProgressEvent b → a.exec = b.exec) :
    ∃ execOf, ∀ a ∈ bodies, InStream execOf a := by
  let first (s : String) (k : ProgressKind) : Option Body :=
    bodies.find? fun a => a.scanId == s && isCoalescedProgressEvent a == some k
  refine ⟨fun s k => ((first s k).bind Body.exec).getD "", ?_⟩
  intro a ha
  obtain ⟨o, ho⟩ := Option.isSome_iff_exists.mp (hsequenced a ha)
  refine ⟨o, ho, ?_⟩
  intro k hk
  have hfound : (first a.scanId k).isSome = true := by
    rw [List.find?_isSome]
    exact ⟨a, ha, by simp [hk]⟩
  obtain ⟨b, hb⟩ := Option.isSome_iff_exists.mp hfound
  have hkey := List.find?_some hb
  simp only [Bool.and_eq_true, beq_iff_eq] at hkey
  have hsame := hexec a ha b (List.mem_of_find?_eq_some hb) hkey.1.symm (by simp [hk])
    (by rw [hk, hkey.2])
  simp [hb, ← hsame, (eventOrder_eq_some ho).1]

/-- Text functions that leave text as it is. -/
def plainText : TextFns where
  runnerErrorText := fun _ => ""
  string := fun _ => ""
  slice := fun s _ => s
  stringify := fun _ => ""

/-- A database with one dispatched scan. -/
def oneScan : Db where
  scans := fun id => if id = "s" then some {
    projectId := "p", targetUrl := "http://t", profile := "default", status := .dispatched,
    summaryStats := none, lastCheckpoint := none, failureReason := none } else none
  events := []
  progress := fun _ _ => none
  findings := []

def sequencedEvent (type : String) (data : Json) (exec : String) (seq : ℕ) : Body where
  scanId := "s"
  type := some "event"
  payload := some (.obj [("type", .str type), ("data", data)])
  exec := some exec
  seq := some seq

/-- The exec of a scan's progress row. -/
def progressExec (done : Option Processed) : Option Json :=
  (done.bind fun d => d.db.progress "s" .progress).bind fun row => row.payload.field "_exec"

def Db.lastCheckpoint (db : Db) (scanId : String) : Option Json :=
  (db.scans scanId).bind Scan.lastCheckpoint

def isCheckpoint (body : Body) : Bool := Json.isStr (body.payloadField "type") "checkpoint"

def isOfKind (kind : ProgressKind) (body : Body) : Bool :=
  decide (isCoalescedProgressEvent body = some kind)

/-- The event with the highest seq of those with the property. -/
def newest (p : Body → Bool) (bodies : List Body) : Option Body :=
  (bodies.filter p).argmax fun body => body.seq.getD 0

/-- Only a checkpoint statement on the scan writes its last checkpoint. -/
theorem lastCheckpoint_exec (db : Db) {s : String} {stmt : Statement}
    (h : ∀ data, stmt ≠ .checkpoint s data) :
    (db.exec T stmt).1.lastCheckpoint s = db.lastCheckpoint s := by
  have hupdate {scanId : String} {scan scan' : Scan} (hscan : db.scans scanId = some scan)
      (hsame : scanId = s → scan'.lastCheckpoint = scan.lastCheckpoint) :
      { db with scans := Function.update db.scans scanId (some scan') }.lastCheckpoint s =
        db.lastCheckpoint s := by
    by_cases hs : scanId = s
    · subst hs
      simp [Db.lastCheckpoint, hscan, hsame rfl]
    · simp [Db.lastCheckpoint, Ne.symm hs]
  have hends (scanId : String) (f : Scan → Scan)
      (hf : ∀ x, (f x).lastCheckpoint = x.lastCheckpoint) :
      (db.endScan scanId f).1.lastCheckpoint s = db.lastCheckpoint s := by
    unfold Db.endScan
    split
    · rename_i scan hscan
      split_ifs
      · exact hupdate hscan fun _ => hf scan
      · rfl
    · rfl
  cases stmt with
  | upsertProgress scanId kind row => simp only [Db.exec]; split_ifs <;> rfl
  | insertEvent row => simp only [Db.exec]; split_ifs <;> rfl
  | complete scanId stats => exact hends scanId _ fun _ => rfl
  | checkpoint scanId data =>
    simp only [Db.exec]
    split
    · rename_i scan hscan
      exact hupdate hscan fun hs => absurd (by rw [hs]) (h data)
    · rfl
  | fail scanId reason => exact hends scanId _ fun _ => rfl
  | insertFinding row => simp only [Db.exec]; split_ifs <;> rfl

theorem lastCheckpoint_batch {s : String} {xs : List Statement}
    (h : ∀ data, Statement.checkpoint s data ∉ xs) (db : Db) :
    (db.batch T xs).1.lastCheckpoint s = db.lastCheckpoint s := by
  induction xs generalizing db with
  | nil => rfl
  | cons x xs ih =>
    have htail := ih (fun data hmem => h data (List.mem_cons_of_mem x hmem)) (db.exec T x).1
    simp only [Db.batch]
    rw [htail]
    apply lastCheckpoint_exec T db
    intro data heq
    exact h data (heq ▸ List.mem_cons_self)

theorem checkpoint_notMem_findings (body : Body) (s : String) (data : Json) :
    Statement.checkpoint s data ∉ (analyzerFindings T body).map fun f =>
      Statement.insertFinding ⟨body.scanId, f⟩ := by
  intro hmem
  obtain ⟨f, -, heq⟩ := List.mem_map.mp hmem
  cases heq

/-- A stored checkpoint event sets its scan's last checkpoint, whatever it was; other
events leave it. -/
theorem lastCheckpoint_store {id : Option String} {body : Body} {projInfo : ProjInfo}
    {q : Prepared} (h : Prepared.init.store T id body projInfo = some q) {db : Db}
    (hscan : (db.scanToProject body.scanId).isSome = true) :
    (q.finish T db).db.lastCheckpoint body.scanId =
      if isCheckpoint body then body.payloadField "data" else db.lastCheckpoint body.scanId := by
  have hnone := checkpoint_notMem_findings T body body.scanId
  have hplain {xs : List Statement} (hq : q.statements = xs)
      (hxs : ∀ data, Statement.checkpoint body.scanId data ∉ xs) :
      (q.finish T db).db.lastCheckpoint body.scanId = db.lastCheckpoint body.scanId := by
    subst hq
    exact lastCheckpoint_batch T hxs db
  unfold Prepared.store at h
  unfold isCheckpoint
  unfold scanUpdate at h
  by_cases hcomplete : Json.isStr (body.payloadField "type") "complete" = true
  · have hother : Json.isStr (body.payloadField "type") "checkpoint" = false := by
      unfold Json.isStr at hcomplete ⊢
      split at hcomplete
      · rename_i t ht
        have hname : t = "complete" := by simpa using hcomplete
        simp [hname]
      · cases hcomplete
    rw [if_pos hcomplete] at h
    rw [hother]
    apply hplain (by rw [← Option.some.inj h])
    simp [Prepared.push, Prepared.init, hnone]
  · rw [if_neg hcomplete] at h
    by_cases hcheck : Json.isStr (body.payloadField "type") "checkpoint" = true
    · rw [if_pos hcheck] at h
      rw [if_pos hcheck]
      cases hdata : body.payloadField "data" with
      | none =>
        rw [hdata] at h
        cases h
      | some data =>
        rw [hdata] at h
        have hstmts : q.statements =
            [.insertEvent ⟨id, body.scanId, body.eventType, payloadStr body⟩,
              .checkpoint body.scanId data] ++ (analyzerFindings T body).map fun f =>
              Statement.insertFinding ⟨body.scanId, f⟩ := by
          rw [← Option.some.inj h]
          simp [Prepared.push, Prepared.init]
        simp only [Prepared.finish, hstmts, batch_append]
        rw [lastCheckpoint_batch T hnone]
        simp only [Db.batch]
        have hkeeps := scanToProject_exec T db
          (.insertEvent ⟨id, body.scanId, body.eventType, payloadStr body⟩) body.scanId
        have hsome := (isSome_scans (hkeeps ▸ hscan)).2
        obtain ⟨scan, hscan'⟩ := Option.isSome_iff_exists.mp hsome
        conv_lhs => rw [Db.exec.eq_def]
        simp [hscan', Db.lastCheckpoint]
    · rw [if_neg hcheck] at h
      rw [if_neg hcheck]
      split_ifs at h
      · apply hplain (by rw [← Option.some.inj h])
        simp [Prepared.push, Prepared.init, hnone]
      · apply hplain (by rw [← Option.some.inj h])
        simp [Prepared.push, Prepared.init, hnone]

/-- What events of one execution of a scan, all new, leave: the checkpoint handled last,
and of each kind the coalesced row of the highest seq. -/
structure Handled (db : Db) (s : String) (bodies : List Body) (after : Db) : Prop where
  scan : (after.scanToProject s).isSome = true
  events : ∀ i, after.hasEvent i = true →
    db.hasEvent i = true ∨ ∃ body ∈ bodies, storedEventId body = some i
  checkpoint : after.lastCheckpoint s = match (bodies.filter isCheckpoint).getLast? with
    | some last => last.payloadField "data"
    | none => db.lastCheckpoint s
  rows : ∀ k, after.progress s k = match newest (isOfKind k) bodies with
    | some body => some (coalescedRow body k)
    | none => db.progress s k

theorem handled_nil {db : Db} {s : String} (hscan : (db.scanToProject s).isSome = true) :
    Handled db s [] db where
  scan := hscan
  events := fun _ h => Or.inl h
  checkpoint := rfl
  rows := fun _ => rfl

theorem newest_concat (p : Body → Bool) (bodies : List Body) (body : Body) :
    newest p (bodies ++ [body]) =
      if p body then
        match newest p bodies with
        | some kept => if kept.seq.getD 0 < body.seq.getD 0 then some body else some kept
        | none => some body
      else newest p bodies := by
  unfold newest
  rw [List.filter_append]
  by_cases hp : p body = true
  · simp only [List.filter_cons_of_pos hp, List.filter_nil, List.argmax_concat, hp, if_true]
    cases (bodies.filter p).argmax fun b => b.seq.getD 0 <;> rfl
  · simp [hp]

theorem mem_of_newest {p : Body → Bool} {bodies : List Body} {body : Body}
    (h : newest p bodies = some body) : body ∈ bodies ∧ p body = true :=
  List.mem_filter.mp (List.argmax_mem h)

/-- An event of an execution replaces the row another execution, or none, left. -/
theorem placeReplaces_other {exec : String} {stored : Json}
    (h : jsonExtract T stored "_exec" ≠ some (.text exec)) (seq : ℕ) :
    placeReplaces T exec seq stored = true := by
  unfold placeReplaces
  cases jsonExtract T stored "_seq" with
  | none => rfl
  | some old =>
    simp only [Bool.or_eq_true]
    refine Or.inr ?_
    cases hexec : jsonExtract T stored "_exec" with
    | none => rfl
    | some value =>
      cases value with
      | number m k => rfl
      | text other =>
        have hne : exec ≠ other := fun heq => h (by rw [hexec, heq])
        simp [SqlValue.same, hne]

/-- The set of events of an execution, before any of them is handled. -/
structure Fresh (db : Db) (s exec : String) (bodies : List Body) : Prop where
  stream : ∀ body ∈ bodies, body.scanId = s ∧ ∃ n, eventOrder body = some ⟨exec, n⟩
  distinct : (bodies.map Body.seq).Nodup
  unstored : ∀ body ∈ bodies, ∀ i, storedEventId body = some i → db.hasEvent i = false
  rows : ∀ k row, db.progress s k = some row →
    jsonExtract T row.payload "_exec" ≠ some (.text exec)

theorem not_checkpoint_of_kind {body : Body} {kind : ProgressKind}
    (h : isCoalescedProgressEvent body = some kind) : isCheckpoint body = false := by
  unfold isCoalescedProgressEvent at h
  unfold isCheckpoint
  cases htype : body.payloadField "type" with
  | none => rfl
  | some value =>
    cases value with
    | str t =>
      rw [htype] at h
      by_cases ht : t = "checkpoint"
      · subst ht
        simp [Json.isStr] at h
      · simp [Json.isStr, ht]
    | _ => rfl

theorem progress_handle_kind {db : Db} {body : Body} {r : Processed}
    (h : handle T db body = some r) (hscan : (db.scanToProject body.scanId).isSome = true)
    {kind : ProgressKind} (hkind : isCoalescedProgressEvent body = some kind) :
    r.db.progress body.scanId kind =
      some (upsertRow T (db.progress body.scanId kind) (coalescedRow body kind)) := by
  rcases handle_cases T h with ⟨hnone, -⟩ | ⟨-, ⟨k, hk, rfl⟩ | ⟨hno, -⟩ | ⟨hno, -⟩⟩
  · rw [hnone] at hscan
    cases hscan
  · obtain rfl : k = kind := Option.some.inj (hk.symm.trans hkind)
    exact setProgress_self _ _ _ _
  · rw [hno] at hkind
    cases hkind
  · rw [hno] at hkind
    cases hkind

theorem handled_step {db : Db} {s exec : String} {bodies : List Body} {body : Body}
    (hfresh : Fresh T db s exec (bodies ++ [body])) {before : Db}
    (hbefore : Handled db s bodies before) {r : Processed}
    (h : handle T before body = some r) : Handled db s (bodies ++ [body]) r.db := by
  obtain ⟨rfl, n, ho⟩ := hfresh.stream body (by simp)
  have hscan := hbefore.scan
  have hexec := (eventOrder_eq_some ho).1
  have hseq := (eventOrder_eq_some ho).2.1
  have hnew (i : String) (hi : storedEventId body = some i) : before.hasEvent i = false := by
    by_contra hhas
    rcases hbefore.events i (by simpa using hhas) with hold | ⟨other, hother, hid⟩
    · rw [hfresh.unstored body (by simp) i hi] at hold
      cases hold
    · -- Two events with one id have one seq.
      obtain ⟨-, m, hm⟩ := hfresh.stream other (by simp [hother])
      obtain ⟨q, hq, hiq⟩ := storedEventId_eq_some hid
      obtain ⟨p, hp, hip⟩ := storedEventId_eq_some hi
      have hsame := (eventIdFor_injective (eventOrder_eq_some hq).2.2.1
        (eventOrder_eq_some hp).2.2.1 (hiq.symm.trans hip)).2.2
      have hseqs : other.seq = body.seq := by
        rw [(eventOrder_eq_some hq).2.1, (eventOrder_eq_some hp).2.1, hsame]
      have hdistinct := hfresh.distinct
      rw [List.map_append, List.map_singleton, List.nodup_append] at hdistinct
      exact hdistinct.2.2 other.seq (List.mem_map_of_mem hother) body.seq (by simp) hseqs
  have hevents (i : String) (hi : r.db.hasEvent i = true) :
      db.hasEvent i = true ∨ ∃ b ∈ bodies ++ [body], storedEventId b = some i := by
    rcases hasEvent_handle T h hi with hold | hid
    · refine (hbefore.events i hold).imp_right ?_
      rintro ⟨b, hb, hid⟩
      exact ⟨b, by simp [hb], hid⟩
    · exact Or.inr ⟨body, by simp, hid⟩
  have hscan' : (r.db.scanToProject body.scanId).isSome = true := by
    rw [scanToProject_handle T h]
    exact hscan
  refine ⟨hscan', hevents, ?_, ?_⟩
  · rcases handle_cases T h with ⟨hnone, -⟩ | ⟨-, ⟨k, hkind, rfl⟩ | ⟨-, hstored, -⟩ |
      ⟨-, -, _, q, hq, rfl⟩⟩
    · rw [hnone] at hscan
      cases hscan
    · have hother : isCheckpoint body = false := not_checkpoint_of_kind hkind
      rw [List.filter_append, List.filter_cons_of_neg (by simp [hother]), List.filter_nil,
        List.append_nil]
      exact hbefore.checkpoint
    · obtain ⟨i, hi, hhas⟩ := (Option.any_eq_true _ _).mp hstored
      rw [hnew i hi] at hhas
      cases hhas
    · rw [lastCheckpoint_store T hq hscan, List.filter_append]
      by_cases hcheck : isCheckpoint body = true
      · simp [hcheck]
      · simp [hcheck, hbefore.checkpoint]
  · intro k
    rw [newest_concat]
    by_cases hk : isCoalescedProgressEvent body = some k
    · have hof : isOfKind k body = true := by simp [isOfKind, hk]
      rw [progress_handle_kind T h hscan hk, hbefore.rows k, if_pos hof]
      cases hkept : newest (isOfKind k) bodies with
      | none =>
        cases hrow : db.progress body.scanId k with
        | none => rfl
        | some row =>
          have hrep := placeReplaces_other T (hfresh.rows k row hrow) n
          simp [upsertRow, replaces_coalesced T ho, hrep]
      | some kept =>
        obtain ⟨-, m, hm⟩ := hfresh.stream kept (by simp [(mem_of_newest hkept).1])
        have hkseq := (eventOrder_eq_some hm).2.1
        simp only [upsertRow, replaces_coalesced T ho, placeReplaces_coalesced T hm, hkseq, hseq,
          Option.getD_some, decide_eq_true_eq]
        split_ifs <;> rfl
    · have hof : isOfKind k body = false := by simp [isOfKind, hk]
      rw [hof, if_neg (by simp), ← hbefore.rows k]
      rcases progress_handle T h body.scanId k with hsame | ⟨-, hk', -⟩
      · exact hsame
      · exact absurd hk' hk

theorem Fresh.of_concat {db : Db} {s exec : String} {bodies : List Body} {body : Body}
    (h : Fresh T db s exec (bodies ++ [body])) : Fresh T db s exec bodies where
  stream := fun b hb => h.stream b (by simp [hb])
  distinct := by
    have hdistinct := h.distinct
    rw [List.map_append, List.nodup_append] at hdistinct
    exact hdistinct.1
  unstored := fun b hb => h.unstored b (by simp [hb])
  rows := h.rows

theorem handled_all {db : Db} {s exec : String} {bodies : List Body}
    (hscan : (db.scanToProject s).isSome = true) (hfresh : Fresh T db s exec bodies)
    {done : Processed} (h : handleAll T db bodies = some done) :
    Handled db s bodies done.db := by
  induction bodies using List.reverseRecOn generalizing done with
  | nil =>
    obtain rfl := Option.some.inj h
    exact handled_nil hscan
  | append_singleton bodies body ih =>
    unfold handleAll at h
    rw [List.foldlM_append] at h
    obtain ⟨before, hbefore, hlast⟩ := Option.bind_eq_some_iff.mp h
    rw [List.foldlM_cons] at hlast
    obtain ⟨after, hafter, hdone⟩ := Option.bind_eq_some_iff.mp hlast
    obtain ⟨r, hr, rfl⟩ := Option.map_eq_some_iff.mp hafter
    rw [← Option.some.inj hdone]
    have hstep := handled_step T hfresh (ih (hfresh.of_concat) hbefore) hr
    exact hstep

/-- In whatever order and batches the events of an execution are processed, the coalesced
rows are those of the highest seq, and the last checkpoint is that of the highest seq if
and only if the checkpoint processed last has its data. -/
theorem processed_in_order_iff {db : Db} {s exec : String} {batches : List (List Body)}
    {done : Processed} (hscan : (db.scanToProject s).isSome = true)
    (hfresh : Fresh T db s exec batches.flatten) (h : processBatches T db batches = some done) :
    ((∀ top ∈ newest isCheckpoint batches.flatten,
        done.db.lastCheckpoint s = top.payloadField "data") ∧
      ∀ k, ∀ top ∈ newest (isOfKind k) batches.flatten,
        done.db.progress s k = some (coalescedRow top k)) ↔
    ∀ top ∈ newest isCheckpoint batches.flatten,
      ∀ last ∈ (batches.flatten.filter isCheckpoint).getLast?,
        last.payloadField "data" = top.payloadField "data" := by
  have hstream : ∀ body ∈ batches.flatten, InStream (fun _ _ => exec) body := by
    intro body hbody
    obtain ⟨-, n, ho⟩ := hfresh.stream body hbody
    exact ⟨_, ho, fun _ _ => rfl⟩
  rw [processBatches_eq_handleAll T db hstream] at h
  have hdone := handled_all T hscan hfresh h
  have hcheck := hdone.checkpoint
  constructor
  · intro hclaim top htop last hlast
    rw [← hclaim.1 top htop, hcheck, Option.mem_def.mp hlast]
  · intro hcond
    refine ⟨?_, ?_⟩
    · intro top htop
      have hmem := List.argmax_mem htop
      have hne : batches.flatten.filter isCheckpoint ≠ [] := List.ne_nil_of_mem hmem
      have hlast := List.getLast?_eq_some_getLast hne
      rw [hcheck, hlast]
      exact hcond top htop _ hlast
    · intro k top htop
      rw [hdone.rows k, Option.mem_def.mp htop]

def checkpointEvent (seq : ℕ) : Body := sequencedEvent "checkpoint" (.num seq 0) "e" seq

theorem fresh_checkpoints {m n : ℕ} (hm : Delivery.isValidSeq m = true)
    (hn : Delivery.isValidSeq n = true) (hne : m ≠ n) :
    Fresh plainText oneScan "s" "e" [checkpointEvent m, checkpointEvent n] where
  stream := by
    intro body hbody
    have hor : body = checkpointEvent m ∨ body = checkpointEvent n := by simpa using hbody
    have hexec : Delivery.isValidExec "e" = true := by decide
    rcases hor with rfl | rfl
    · exact ⟨rfl, m, by simp [eventOrder, checkpointEvent, sequencedEvent, hexec, hm]⟩
    · exact ⟨rfl, n, by simp [eventOrder, checkpointEvent, sequencedEvent, hexec, hn]⟩
  distinct := by simp [checkpointEvent, sequencedEvent, hne]
  unstored := fun _ _ _ _ => rfl
  rows := by simp [oneScan]

/-- Two checkpoints, one a batch, in the order of their seqs. -/
theorem processed_in_order_iff_checkpoints :
    ∃ done, processBatches plainText oneScan [[checkpointEvent 3], [checkpointEvent 5]] =
        some done ∧ done.db.lastCheckpoint "s" = some (.num 5 0) := by
  have hscan : (oneScan.scanToProject "s").isSome = true := rfl
  have hfresh := fresh_checkpoints (m := 3) (n := 5) (by decide) (by decide) (by decide)
  obtain ⟨done, hdone⟩ : ∃ done, processBatches plainText oneScan
      [[checkpointEvent 3], [checkpointEvent 5]] = some done := ⟨_, rfl⟩
  have hiff := processed_in_order_iff plainText hscan hfresh hdone
  refine ⟨done, hdone, (hiff.mpr ?_).1 (checkpointEvent 5) rfl⟩
  intro top htop last hlast
  obtain rfl : checkpointEvent 5 = top := Option.some.inj htop
  obtain rfl : checkpointEvent 5 = last := Option.some.inj hlast
  rfl

/-- A checkpoint that is processed after a later one takes the scan's checkpoint back. -/
theorem checkpoint_moves_back : ∃ (batches : List (List Body)) (done : Processed),
    (oneScan.scanToProject "s").isSome = true ∧
    Fresh plainText oneScan "s" "e" batches.flatten ∧
    processBatches plainText oneScan batches = some done ∧
    ∃ top ∈ newest isCheckpoint batches.flatten,
      done.db.lastCheckpoint "s" ≠ top.payloadField "data" := by
  refine ⟨[[checkpointEvent 5], [checkpointEvent 3]], _, rfl, ?_, rfl, checkpointEvent 5,
    rfl, ?_⟩
  · exact fresh_checkpoints (m := 5) (n := 3) (by decide) (by decide) (by decide)
  · intro heq
    have hnum : some (Json.num 3 0) = some (Json.num 5 0) := heq
    have hseq := (Json.num.inj (Option.some.inj hnum)).1
    exact absurd hseq (by decide)

end Swazz.Findings
