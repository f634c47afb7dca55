import Mathlib.Algebra.Order.Ring.Int
import Swazz.FindingsQueue
import Swazz.ListIndex

/-! A batch of runner events does what its events do one at a time, if the coalesced
events of a scan are of one execution. -/
namespace Swazz.Findings

open Delivery (isValidSeq isValidExec)

variable (T : TextFns)

/-- What one event does to the database. -/
def handle (db : Db) (body : Body) : Option Processed :=
  match db.scanToProject body.scanId with
  | none => some ⟨db, [], []⟩
  | some projInfo =>
    match isCoalescedProgressEvent body with
    | some kind =>
      some ⟨(db.exec T (.upsertProgress body.scanId kind (coalescedRow body kind))).1, [], []⟩
    | none =>
      if (storedEventId body).any db.hasEvent then some ⟨db, [], []⟩
      else (Prepared.init.store T (storedEventId body) body projInfo).map fun p => p.finish T db

def handleStep (done : Processed) (body : Body) : Option Processed :=
  (handle T done.db body).map done.andThen

/-- Events handled one after the other. -/
def handleAll (db : Db) (bodies : List Body) : Option Processed :=
  bodies.foldlM (handleStep T) ⟨db, [], []⟩

/-! ### Coalesced rows -/

/-- Whether an event at this place replaces a stored row. -/
def placeReplaces (exec : String) (seq : ℕ) (stored : Json) : Bool :=
  match jsonExtract T stored "_seq" with
  | some old =>
    (SqlValue.number seq 0).gt old ||
      match jsonExtract T stored "_exec" with
      | some oldExec => !(SqlValue.text exec).same oldExec
      | none => true
  | none => true

theorem jsonExtract_coalesced {body : Body} (kind : ProgressKind) {exec : String} {seq : ℕ}
    (h : eventOrder body = some ⟨exec, seq⟩) :
    jsonExtract T (coalescedRow body kind).payload "_seq" = some (.number seq 0) ∧
      jsonExtract T (coalescedRow body kind).payload "_exec" = some (.text exec) := by
  have hne : ("_exec" : String) ≠ "_seq" := by decide
  simp [coalescedRow, h, jsonExtract, Json.field, Json.lookup_setField,
    Json.lookup_setField_ne hne]

theorem replaces_coalesced {body : Body} {kind : ProgressKind} {exec : String} {seq : ℕ}
    (h : eventOrder body = some ⟨exec, seq⟩) (stored : Json) :
    replaces T (coalescedRow body kind).payload stored = placeReplaces T exec seq stored := by
  obtain ⟨hseq, hexec⟩ := jsonExtract_coalesced T kind h
  unfold replaces placeReplaces
  rw [hseq, hexec]
  cases jsonExtract T stored "_seq" with
  | none => rfl
  | some old => cases jsonExtract T stored "_exec" <;> rfl

/-- Against a row an event of the same execution left, the higher seq wins. -/
theorem placeReplaces_coalesced {body : Body} {kind : ProgressKind} {exec : String}
    {old : ℕ} (h : eventOrder body = some ⟨exec, old⟩) (seq : ℕ) :
    placeReplaces T exec seq (coalescedRow body kind).payload = decide (old < seq) := by
  obtain ⟨hseq, hexec⟩ := jsonExtract_coalesced T kind h
  unfold placeReplaces
  rw [hseq, hexec]
  simp [SqlValue.gt, SqlValue.same]

theorem placeReplaces_mono {exec : String} {m n : ℕ} {stored : Json} (hmn : m ≤ n)
    (h : placeReplaces T exec m stored = true) : placeReplaces T exec n stored = true := by
  unfold placeReplaces at h ⊢
  cases hseq : jsonExtract T stored "_seq" with
  | none => rfl
  | some old =>
    rw [hseq] at h
    simp only [Bool.or_eq_true] at h ⊢
    refine h.imp_left ?_
    intro hgt
    cases old with
    | text s => simp [SqlValue.gt] at hgt
    | number k e =>
      simp only [SqlValue.gt, pow_zero, mul_one, decide_eq_true_eq] at hgt ⊢
      have hpow : (0 : ℤ) ≤ 10^e := pow_nonneg (by decide) e
      have hle : (m : ℤ)*10^e ≤ (n : ℤ)*10^e :=
        mul_le_mul_of_nonneg_right (by omega) hpow
      omega

/-- The row the upsert leaves, whether or not it changed it. -/
def upsertRow (stored : Option ProgressRow) (row : ProgressRow) : ProgressRow :=
  match stored with
  | some old => if replaces T row.payload old.payload then row else old
  | none => row

/-- The later of two rows of one execution, upserted alone or after the earlier one. -/
theorem upsertRow_newer {a b : Body} {kind : ProgressKind} {exec : String} {m n : ℕ}
    (ha : eventOrder a = some ⟨exec, m⟩) (hb : eventOrder b = some ⟨exec, n⟩) (hmn : m < n)
    (stored : Option ProgressRow) :
    upsertRow T (some (upsertRow T stored (coalescedRow a kind))) (coalescedRow b kind) =
      upsertRow T stored (coalescedRow b kind) := by
  cases stored with
  | none =>
    simp [upsertRow, replaces_coalesced T hb, placeReplaces_coalesced T ha, hmn]
  | some old =>
    simp only [upsertRow, replaces_coalesced T ha, replaces_coalesced T hb]
    by_cases hrep : placeReplaces T exec m old.payload = true
    · have hrep' := placeReplaces_mono T hmn.le hrep
      simp [hrep, hrep', placeReplaces_coalesced T ha, hmn]
    · simp [hrep]

theorem upsertRow_older {a b : Body} {kind : ProgressKind} {exec : String} {m n : ℕ}
    (ha : eventOrder a = some ⟨exec, m⟩) (hb : eventOrder b = some ⟨exec, n⟩) (hnm : n ≤ m)
    (stored : Option ProgressRow) :
    upsertRow T (some (upsertRow T stored (coalescedRow a kind))) (coalescedRow b kind) =
      upsertRow T stored (coalescedRow a kind) := by
  have hnot : ¬ m < n := by omega
  cases stored with
  | none =>
    simp [upsertRow, replaces_coalesced T hb, placeReplaces_coalesced T ha, hnot]
  | some old =>
    simp only [upsertRow, replaces_coalesced T ha, replaces_coalesced T hb]
    by_cases hrep : placeReplaces T exec m old.payload = true
    · simp [hrep, placeReplaces_coalesced T ha, hnot]
    · have hrep' : placeReplaces T exec n old.payload = false := by
        by_contra htrue
        exact hrep (placeReplaces_mono T hnm (by simpa using htrue))
      simp [hrep, hrep']

/-! ### Statements in order -/

/-- The database with one coalesced row put in place. -/
def Db.setProgress (db : Db) (scanId : String) (kind : ProgressKind) (row : ProgressRow) : Db :=
  { db with progress := PairMap.put db.progress scanId kind row }

@[simp] theorem setProgress_self (db : Db) (scanId : String) (kind : ProgressKind)
    (row : ProgressRow) : (db.setProgress scanId kind row).progress scanId kind = some row :=
  PairMap.put_self

theorem setProgress_setProgress (db : Db) (scanId : String) (kind : ProgressKind)
    (a b : ProgressRow) :
    (db.setProgress scanId kind a).setProgress scanId kind b = db.setProgress scanId kind b := by
  simp [Db.setProgress, PairMap.put_put]

theorem setProgress_eq_self {db : Db} {scanId : String} {kind : ProgressKind}
    {row : ProgressRow} (h : db.progress scanId kind = some row) :
    db.setProgress scanId kind row = db := by
  simp [Db.setProgress, PairMap.put_eq_self h]

theorem isSome_scans {db : Db} {scanId : String}
    (h : (db.scanToProject scanId).isSome = true) :
    scanId.isEmpty = false ∧ (db.scans scanId).isSome = true := by
  unfold Db.scanToProject at h
  split_ifs at h with hempty
  · cases h
  · exact ⟨by simpa using hempty, by simpa using h⟩

theorem exec_upsert {db : Db} {scanId : String}
    (hscan : (db.scanToProject scanId).isSome = true) (kind : ProgressKind) (row : ProgressRow) :
    (db.exec T (.upsertProgress scanId kind row)).1 =
      db.setProgress scanId kind (upsertRow T (db.progress scanId kind) row) := by
  have hscan := (isSome_scans hscan).2
  cases hold : db.progress scanId kind with
  | none => simp [Db.exec, hscan, hold, upsertRow, Db.setProgress]
  | some old =>
    by_cases hrep : replaces T row.payload old.payload = true
    · simp [Db.exec, hscan, hold, upsertRow, hrep, Db.setProgress]
    · simp only [Db.exec, hscan, hold, upsertRow, hrep, Option.all_some, Bool.and_false]
      simp [setProgress_eq_self hold]

/-- The statement does not write the coalesced row. -/
def Statement.sparesProgress (scanId : String) (kind : ProgressKind) : Statement → Prop
  | .upsertProgress s k _ => (s, k) ≠ (scanId, kind)
  | _ => True

theorem scanToProject_update {db : Db} {scanId : String} {scan scan' : Scan}
    (hscan : db.scans scanId = some scan) (hsame : scan'.toProjInfo = scan.toProjInfo)
    (s : String) :
    { db with scans := Function.update db.scans scanId (some scan') }.scanToProject s =
      db.scanToProject s := by
  by_cases hs : s = scanId
  · subst hs
    simp [Db.scanToProject, hscan, hsame]
  · simp [Db.scanToProject, hs]

/-- No statement adds a scan, takes one away or gives it to another project. -/
theorem scanToProject_exec (db : Db) (stmt : Statement) (s : String) :
    (db.exec T stmt).1.scanToProject s = db.scanToProject s := by
  have hends (scanId : String) (f : Scan → Scan) (hf : ∀ x, (f x).toProjInfo = x.toProjInfo) :
      (db.endScan scanId f).1.scanToProject s = db.scanToProject s := by
    unfold Db.endScan
    split
    · rename_i scan hscan
      split_ifs
      · exact scanToProject_update hscan (hf scan) s
      · rfl
    · rfl
  cases stmt with
  | upsertProgress scanId kind row => simp only [Db.exec]; split_ifs <;> rfl
  | insertEvent row => simp only [Db.exec]; split_ifs <;> rfl
  | complete scanId stats => exact hends scanId _ fun _ => rfl
  | checkpoint scanId data =>
    simp only [Db.exec]
    split
    · rename_i scan hscan
      have hsame : ({ scan with lastCheckpoint := some data } : Scan).toProjInfo =
          scan.toProjInfo := rfl
      exact scanToProject_update hscan hsame s
    · rfl
  | fail scanId reason => exact hends scanId _ fun _ => rfl
  | insertFinding row => simp only [Db.exec]; split_ifs <;> rfl

/-- Other statements and the coalesced row do not see each other. -/
theorem exec_setProgress (db : Db) {scanId : String} {kind : ProgressKind} (row : ProgressRow)
    {stmt : Statement} (h : stmt.sparesProgress scanId kind) :
    (db.setProgress scanId kind row).exec T stmt =
      ((db.exec T stmt).1.setProgress scanId kind row, (db.exec T stmt).2) := by
  cases stmt with
  | upsertProgress s k new =>
    have hold : (db.setProgress scanId kind row).progress s k = db.progress s k :=
      PairMap.put_ne h
    have hscans : (db.setProgress scanId kind row).scans s = db.scans s := rfl
    simp only [Db.exec, hold, hscans]
    split_ifs
    · have hcomm : PairMap.put (db.setProgress scanId kind row).progress s k new =
          PairMap.put (PairMap.put db.progress s k new) scanId kind row := PairMap.put_comm h
      rw [hcomm]
      rfl
    · rfl
  | insertEvent r =>
    have hevent : (db.setProgress scanId kind row).hasEvent = db.hasEvent := rfl
    have hscans : (db.setProgress scanId kind row).scans = db.scans := rfl
    simp only [Db.exec, hevent, hscans]
    split_ifs <;> rfl
  | complete s stats =>
    simp only [Db.exec, Db.setProgress, Db.endScan]
    split
    · split_ifs <;> rfl
    · rfl
  | checkpoint s data =>
    simp only [Db.exec, Db.setProgress]
    split <;> rfl
  | fail s reason =>
    simp only [Db.exec, Db.setProgress, Db.endScan]
    split
    · split_ifs <;> rfl
    · rfl
  | insertFinding r =>
    have hfinding : (db.setProgress scanId kind row).hasFinding = db.hasFinding := rfl
    have hscans : (db.setProgress scanId kind row).scans = db.scans := rfl
    simp only [Db.exec, hfinding, hscans]
    split_ifs <;> rfl

theorem batch_append (db : Db) (xs ys : List Statement) :
    db.batch T (xs ++ ys) = (((db.batch T xs).1.batch T ys).1,
      (db.batch T xs).2 ++ ((db.batch T xs).1.batch T ys).2) := by
  induction xs generalizing db with
  | nil => rfl
  | cons x xs ih => simp [Db.batch, ih]

theorem length_batch (db : Db) (xs : List Statement) :
    (db.batch T xs).2.length = xs.length := by
  induction xs generalizing db with
  | nil => rfl
  | cons x xs ih => simp [Db.batch, ih]

theorem scanToProject_batch (db : Db) (xs : List Statement) (s : String) :
    (db.batch T xs).1.scanToProject s = db.scanToProject s := by
  induction xs generalizing db with
  | nil => rfl
  | cons x xs ih =>
    simp only [Db.batch]
    rw [ih, scanToProject_exec]

theorem batch_setProgress (db : Db) {scanId : String} {kind : ProgressKind}
    (row : ProgressRow) {xs : List Statement}
    (h : ∀ x ∈ xs, x.sparesProgress scanId kind) :
    (db.setProgress scanId kind row).batch T xs =
      ((db.batch T xs).1.setProgress scanId kind row, (db.batch T xs).2) := by
  induction xs generalizing db with
  | nil => rfl
  | cons x xs ih =>
    have hx := h x List.mem_cons_self
    have hxs := ih (db.exec T x).1 fun y hy => h y (List.mem_cons_of_mem x hy)
    simp only [Db.batch, exec_setProgress T db row hx, hxs]

/-- What a batch leaves in a coalesced row that one of its statements writes. -/
theorem batch_upsert (db : Db) {scanId : String}
    (hscan : (db.scanToProject scanId).isSome = true) {kind : ProgressKind} (row : ProgressRow) (xs : List Statement) {ys : List Statement}
    (hys : ∀ y ∈ ys, y.sparesProgress scanId kind) :
    let before := (db.batch T xs).1
    let after := before.batch T ys
    ∃ changes, db.batch T (xs ++ .upsertProgress scanId kind row :: ys) =
      (after.1.setProgress scanId kind (upsertRow T (before.progress scanId kind) row),
        (db.batch T xs).2 ++ changes :: after.2) := by
  intro before after
  have hbefore : (before.scanToProject scanId).isSome = true := by
    rw [scanToProject_batch T db xs scanId, hscan]
  refine ⟨(before.exec T (.upsertProgress scanId kind row)).2, ?_⟩
  rw [batch_append]
  simp only [Db.batch]
  rw [exec_upsert T hbefore kind row, batch_setProgress T before _ hys]

/-! ### Stored ids -/

theorem colon_notMem_exec {exec : String} (h : isValidExec exec = true) : ':' ∉ exec.toList := by
  intro hmem
  simp only [isValidExec, matchesId, Bool.and_eq_true, List.all_eq_true] at h
  have hchar := h.2 ':' hmem
  exact absurd hchar (by decide)

theorem colon_notMem_seq (seq : ℕ) : ':' ∉ (toString seq).toList := by
  intro hmem
  have hdigits : ':' ∈ Nat.toDigits 10 seq := by
    simpa [Nat.toString_eq_repr, Nat.repr] using hmem
  have hdigit := Nat.isDigit_of_mem_toDigits (by decide) (by decide) hdigits
  exact absurd hdigit (by decide)

/-- The id of a stored event names its run, execution and seq. -/
theorem eventIdFor_injective {run run' exec exec' : String} {seq seq' : ℕ}
    (he : isValidExec exec = true) (he' : isValidExec exec' = true)
    (h : eventIdFor run exec seq = eventIdFor run' exec' seq') :
    run = run' ∧ exec = exec' ∧ seq = seq' := by
  have hlist := congrArg String.toList h
  have hcolon : (":" : String).toList = [':'] := rfl
  simp only [eventIdFor, String.toList_append, hcolon, List.append_assoc,
    List.singleton_append] at hlist
  have hlist := List.append_cancel_left hlist
  have hcut : (run.toList ++ ':' :: exec.toList) ++ ':' :: (toString seq).toList =
      (run'.toList ++ ':' :: exec'.toList) ++ ':' :: (toString seq').toList := by
    simpa using hlist
  obtain ⟨hcut, hseq⟩ := ListIndex.last_separator (colon_notMem_seq seq) (colon_notMem_seq seq') hcut
  obtain ⟨hrun, hexec⟩ := ListIndex.last_separator (colon_notMem_exec he) (colon_notMem_exec he') hcut
  have hdigits : Nat.toDigits 10 seq = Nat.toDigits 10 seq' := by
    simpa [Nat.toString_eq_repr, Nat.repr] using hseq
  have hnat := congrArg (fun cs => Nat.ofDigitChars 10 cs 0) hdigits
  simp only [Nat.ofDigitChars_ten_toDigits] at hnat
  exact ⟨String.toList_injective hrun, String.toList_injective hexec, hnat⟩

theorem storedEventId_eq_some {body : Body} {id : String} (h : storedEventId body = some id) :
    ∃ o, eventOrder body = some o ∧ id = eventIdFor body.scanId o.exec o.seq := by
  unfold storedEventId at h
  split_ifs at h
  obtain ⟨o, ho, hid⟩ := Option.map_eq_some_iff.mp h
  exact ⟨o, ho, hid.symm⟩

theorem eventOrder_eq_some {body : Body} {o : EventOrder} (h : eventOrder body = some o) :
    body.exec = some o.exec ∧ body.seq = some o.seq ∧ isValidExec o.exec = true ∧
      isValidSeq o.seq = true := by
  unfold eventOrder at h
  split at h
  · rename_i exec seq hexec hseq
    split_ifs at h with hvalid
    obtain rfl := Option.some.inj h
    rw [Bool.and_eq_true] at hvalid
    exact ⟨hexec, hseq, hvalid.1, hvalid.2⟩
  · cases h

theorem scanId_of_storedEventId {a b : Body} {id : String} (ha : storedEventId a = some id)
    (hb : storedEventId b = some id) : a.scanId = b.scanId := by
  obtain ⟨o, ho, hid⟩ := storedEventId_eq_some ha
  obtain ⟨q, hq, hid'⟩ := storedEventId_eq_some hb
  have hvalid := (eventOrder_eq_some ho).2.2.1
  have hvalid' := (eventOrder_eq_some hq).2.2.1
  exact (eventIdFor_injective hvalid hvalid' (hid.symm.trans hid')).1

theorem mem_lookupStored {db : Db} {fuel : ℕ} {ids : List String} (hfuel : ids.length ≤ fuel)
    {id : String} : id ∈ db.lookupStored fuel ids ↔ id ∈ ids ∧ db.hasEvent id = true := by
  induction fuel generalizing ids with
  | zero =>
    have hnil : ids = [] := List.length_eq_zero_iff.mp (by omega)
    simp [hnil, Db.lookupStored]
  | succ fuel ih =>
    have hdrop : (ids.drop EVENT_ID_LOOKUP_CHUNK).length ≤ fuel := by
      rw [List.length_drop]
      have hchunk : 0 < EVENT_ID_LOOKUP_CHUNK := by decide
      omega
    have hsplit : id ∈ ids ↔ id ∈ ids.take EVENT_ID_LOOKUP_CHUNK ∨
        id ∈ ids.drop EVENT_ID_LOOKUP_CHUNK := by
      rw [← List.mem_append, List.take_append_drop]
    rw [Db.lookupStored, List.mem_append, ih hdrop, List.mem_filter, hsplit, or_and_right]

/-! ### The loop -/

namespace Prepared

/-- The local state after more statements and terminal updates, numbered from there. -/
def extend (p q : Prepared) : Prepared :=
  { p with
    statements := p.statements ++ q.statements
    terminalUpdates := p.terminalUpdates ++ q.terminalUpdates.map fun u =>
      { u with statement := p.statements.length+u.statement } }

theorem store_eq (p : Prepared) (id : Option String) (body : Body) (projInfo : ProjInfo) :
    p.store T id body projInfo = (init.store T id body projInfo).map p.extend := by
  unfold store
  cases scanUpdate T body projInfo with
  | none => simp [push, extend, init]
  | sets stmt => simp [push, extend, init]
  | ends stmt webhook => simp [push, extend, init]
  | unbindable => rfl

/-- Every terminal update is the statement of its number. -/
def Bounded (p : Prepared) : Prop :=
  ∀ u ∈ p.terminalUpdates, u.statement < p.statements.length

theorem applied_append {us : List TerminalUpdate} {rs : List ℕ}
    (hus : ∀ u ∈ us, u.statement < rs.length) (vs : List TerminalUpdate) (rs' : List ℕ) :
    applied (us ++ vs.map fun u => { u with statement := rs.length+u.statement })
        (rs ++ rs') =
      applied us rs ++
        (applied vs rs').map fun u => { u with statement := rs.length+u.statement } := by
  unfold applied
  rw [List.filter_append, List.filter_map]
  congr 1
  · apply List.filter_congr
    intro u hu
    rw [List.getElem?_append_left (hus u hu)]
  · congr 1
    apply List.filter_congr
    intro u _
    simp only [Function.comp_apply]
    rw [List.getElem?_append_right (by omega), Nat.add_sub_cancel_left]

/-- Running more statements after the first ones. -/
theorem finish_extend {p : Prepared} (hp : p.Bounded) (q : Prepared) (db : Db) :
    (p.extend q).finish T db = (p.finish T db).andThen (q.finish T (p.finish T db).db) := by
  have hlength := length_batch T db p.statements
  have happlied := applied_append (fun u hu => (hp u hu).trans_eq hlength.symm)
    q.terminalUpdates ((db.batch T p.statements).1.batch T q.statements).2
  rw [hlength] at happlied
  simp only [finish, extend, batch_append, happlied, Processed.andThen, List.map_append,
    List.filterMap_append, List.map_map, List.filterMap_map]
  rfl

/-- What holds of the local state while the loop runs over events that are sequenced,
and of one execution for each coalesced row. -/
structure LoopInv (db : Db) (execOf : String → ProgressKind → String) (p : Prepared) :
    Prop where
  bounded : p.Bounded
  terminal : ∀ u ∈ p.terminalUpdates, ∀ s k row,
    p.statements[u.statement]? ≠ some (.upsertProgress s k row)
  kept : ∀ s k kp, p.coalescedInBatch s k = some kp →
    (db.scanToProject s).isSome = true ∧ ∃ body n,
      p.statements[kp.index]? = some (.upsertProgress s k (coalescedRow body k)) ∧
      kp.order = some ⟨execOf s k, n⟩ ∧ eventOrder body = some ⟨execOf s k, n⟩
  unique : ∀ j s k row, p.statements[j]? = some (.upsertProgress s k row) →
    ∃ kp, p.coalescedInBatch s k = some kp ∧ kp.index = j
  seenStored : ∀ i ∈ p.seenInBatch, ∀ body, storedEventId body = some i →
    (db.scanToProject body.scanId).isSome = true → (p.finish T db).db.hasEvent i = true
  storedSeen : ∀ i, (p.finish T db).db.hasEvent i = true →
    db.hasEvent i = true ∨ i ∈ p.seenInBatch
  oldStored : ∀ i, db.hasEvent i = true → (p.finish T db).db.hasEvent i = true

theorem loopInv_init (db : Db) (execOf : String → ProgressKind → String) :
    LoopInv T db execOf init where
  bounded := by simp [Bounded, init]
  terminal := by simp [init]
  kept := by simp [init]
  unique := by simp [init]
  seenStored := by simp [init]
  storedSeen := fun i h => Or.inl h
  oldStored := fun i h => h

/-- The statements a kept event's statement stands between. -/
theorem split_kept {db : Db} {execOf : String → ProgressKind → String} {p : Prepared}
    (hp : LoopInv T db execOf p) {s : String} {k : ProgressKind} {kp : Kept}
    (hkp : p.coalescedInBatch s k = some kp) {row : ProgressRow}
    (hrow : p.statements[kp.index]? = some (.upsertProgress s k row)) :
    ∃ xs ys, p.statements = xs ++ .upsertProgress s k row :: ys ∧ xs.length = kp.index ∧
      ∀ y ∈ ys, y.sparesProgress s k := by
  obtain ⟨hlt, hget⟩ := List.getElem?_eq_some_iff.mp hrow
  refine ⟨p.statements.take kp.index, p.statements.drop (kp.index+1), ?_, ?_, ?_⟩
  · rw [← hget, List.cons_getElem_drop_succ, List.take_append_drop]
  · simp [hlt.le]
  · intro y hy
    cases y with
    | upsertProgress s' k' row' =>
      intro heq
      obtain ⟨rfl, rfl⟩ := Prod.mk.inj heq
      obtain ⟨j, hj⟩ := List.mem_iff_getElem?.mp hy
      rw [List.getElem?_drop] at hj
      obtain ⟨kp', hkp', hindex⟩ := hp.unique _ _ _ _ hj
      obtain rfl : kp = kp' := by simpa [hkp] using hkp'
      omega
    | _ => trivial

theorem hasEvent_upsert {db : Db} {s : String} (hscan : (db.scanToProject s).isSome = true)
    (k : ProgressKind) (row : ProgressRow) (i : String) :
    (db.exec T (.upsertProgress s k row)).1.hasEvent i = db.hasEvent i := by
  rw [exec_upsert T hscan]
  rfl

theorem scanToProject_finish (p : Prepared) (db : Db) (s : String) :
    (p.finish T db).db.scanToProject s = db.scanToProject s :=
  scanToProject_batch T db p.statements s

theorem finish_congr {p q : Prepared} (hs : p.statements = q.statements)
    (hu : p.terminalUpdates = q.terminalUpdates) (db : Db) :
    p.finish T db = q.finish T db := by
  simp only [finish, hs, hu]

/-- The first event of a coalesced row adds a statement. -/
theorem coalesce_first {db : Db} {execOf : String → ProgressKind → String} {p : Prepared}
    (hp : LoopInv T db execOf p) {body : Body} {k : ProgressKind} {n : ℕ}
    (hscan : (db.scanToProject body.scanId).isSome = true)
    (horder : eventOrder body = some ⟨execOf body.scanId k, n⟩)
    (hnone : p.coalescedInBatch body.scanId k = none) :
    LoopInv T db execOf (p.coalesce body k) ∧ (p.coalesce body k).finish T db =
      (p.finish T db).andThen ⟨((p.finish T db).db.exec T
        (.upsertProgress body.scanId k (coalescedRow body k))).1, [], []⟩ := by
  set stmt := Statement.upsertProgress body.scanId k (coalescedRow body k) with hstmt
  have hco : p.coalesce body k = { p.push [stmt] with
      coalescedInBatch := PairMap.put p.coalescedInBatch body.scanId k
        ⟨p.statements.length, eventOrder body⟩ } := by
    simp [coalesce, hnone, hstmt]
  have hstmts : (p.coalesce body k).statements = p.statements ++ [stmt] := by rw [hco]; rfl
  have hmap : (p.coalesce body k).coalescedInBatch = PairMap.put p.coalescedInBatch
      body.scanId k ⟨p.statements.length, eventOrder body⟩ := by rw [hco]
  have hupdates : (p.coalesce body k).terminalUpdates = p.terminalUpdates := by rw [hco]; rfl
  have hseen : (p.coalesce body k).seenInBatch = p.seenInBatch := by rw [hco]; rfl
  have hfinish : (p.coalesce body k).finish T db =
      (p.finish T db).andThen ⟨((p.finish T db).db.exec T stmt).1, [], []⟩ := by
    have hext : (p.coalesce body k).finish T db =
        (p.extend { init with statements := [stmt] }).finish T db := by
      apply finish_congr
      · exact hstmts
      · simp [hupdates, extend, init]
    rw [hext, finish_extend T hp.bounded]
    rfl
  have hscan' : ((p.finish T db).db.scanToProject body.scanId).isSome = true := by
    rw [scanToProject_finish, hscan]
  have hevents (i : String) : ((p.coalesce body k).finish T db).db.hasEvent i =
      (p.finish T db).db.hasEvent i := by
    rw [hfinish]
    exact hasEvent_upsert T hscan' k _ i
  refine ⟨⟨?_, ?_, ?_, ?_, ?_, ?_, ?_⟩, hfinish⟩
  · intro u hu
    rw [hupdates] at hu
    have hlt := hp.bounded u hu
    rw [hstmts, List.length_append]
    omega
  · intro u hu s k' row
    rw [hupdates] at hu
    rw [hstmts, List.getElem?_append_left (hp.bounded u hu)]
    exact hp.terminal u hu s k' row
  · intro s k' kp hkp
    by_cases hkey : (s, k') = (body.scanId, k)
    · obtain ⟨rfl, rfl⟩ := Prod.mk.inj hkey
      have hnew : (⟨p.statements.length, eventOrder body⟩ : Kept) = kp := by
        simpa [hmap] using hkp
      subst hnew
      refine ⟨hscan, body, n, ?_, horder, horder⟩
      rw [hstmts]
      simp [hstmt]
    · rw [hmap, PairMap.put_ne hkey] at hkp
      obtain ⟨hscan', b, m, hb, hrest⟩ := hp.kept s k' kp hkp
      refine ⟨hscan', b, m, ?_, hrest⟩
      rw [hstmts, List.getElem?_append_left (List.getElem?_eq_some_iff.mp hb).1]
      exact hb
  · intro j s k' row hj
    rw [hstmts] at hj
    rcases ListIndex.of_concat hj with ⟨hj, -⟩ | ⟨hj, hlen⟩
    · obtain ⟨kp, hkp, hindex⟩ := hp.unique j s k' row hj
      have hkey : (s, k') ≠ (body.scanId, k) := by
        intro heq
        obtain ⟨rfl, rfl⟩ := Prod.mk.inj heq
        rw [hnone] at hkp
        cases hkp
      exact ⟨kp, by rw [hmap, PairMap.put_ne hkey, hkp], hindex⟩
    · obtain ⟨rfl, rfl, -⟩ := Statement.upsertProgress.inj hj
      exact ⟨⟨p.statements.length, eventOrder body⟩, by rw [hmap, PairMap.put_self],
        hlen.symm⟩
  · intro i hi b hb hsome
    rw [hseen] at hi
    rw [hevents]
    exact hp.seenStored i hi b hb hsome
  · intro i hi
    rw [hevents] at hi
    rw [hseen]
    exact hp.storedSeen i hi
  · intro i hi
    rw [hevents]
    exact hp.oldStored i hi

/-- A later event that supersedes the kept one takes over its statement. -/
theorem coalesce_newer {db : Db} {execOf : String → ProgressKind → String} {p : Prepared}
    (hp : LoopInv T db execOf p) {body : Body} {k : ProgressKind} {n : ℕ}
    (horder : eventOrder body = some ⟨execOf body.scanId k, n⟩) {kp : Kept}
    (hkp : p.coalescedInBatch body.scanId k = some kp)
    (hsuper : supersedes (eventOrder body) kp.order = true) :
    LoopInv T db execOf (p.coalesce body k) ∧ (p.coalesce body k).finish T db =
      (p.finish T db).andThen ⟨((p.finish T db).db.exec T
        (.upsertProgress body.scanId k (coalescedRow body k))).1, [], []⟩ := by
  set stmt := Statement.upsertProgress body.scanId k (coalescedRow body k) with hstmt
  obtain ⟨hscan, b, m, hb, hkorder, hborder⟩ := hp.kept _ _ _ hkp
  have hmn : m < n := by simpa [supersedes, hkorder, horder] using hsuper
  have hstmts : (p.coalesce body k).statements = p.statements.set kp.index stmt := by
    simp [coalesce, hkp, hsuper, hstmt]
  have hmap : (p.coalesce body k).coalescedInBatch = PairMap.put p.coalescedInBatch
      body.scanId k ⟨kp.index, eventOrder body⟩ := by
    simp [coalesce, hkp, hsuper]
  have hupdates : (p.coalesce body k).terminalUpdates = p.terminalUpdates := by
    simp [coalesce, hkp, hsuper]
  have hseen : (p.coalesce body k).seenInBatch = p.seenInBatch := by
    simp [coalesce, hkp, hsuper]
  have hlt := (List.getElem?_eq_some_iff.mp hb).1
  have hscan' : ((p.finish T db).db.scanToProject body.scanId).isSome = true := by
    rw [scanToProject_finish, hscan]
  have hne (u : TerminalUpdate) (hu : u ∈ p.terminalUpdates) : u.statement ≠ kp.index := by
    intro heq
    exact hp.terminal u hu _ _ _ (heq ▸ hb)
  have hfinish : (p.coalesce body k).finish T db =
      (p.finish T db).andThen ⟨((p.finish T db).db.exec T stmt).1, [], []⟩ := by
    obtain ⟨xs, ys, hsplit, hxs, hys⟩ := split_kept T hp hkp hb
    obtain ⟨c, hold⟩ := batch_upsert T db hscan (coalescedRow b k) xs hys
    obtain ⟨c', hnew⟩ := batch_upsert T db hscan (coalescedRow body k) xs hys
    have hset : p.statements.set kp.index stmt = xs ++ stmt :: ys := by
      rw [hsplit, ← hxs]
      simp
    have hdb : ((p.coalesce body k).finish T db).db = ((p.finish T db).db.exec T stmt).1 := by
      have hset' : (p.coalesce body k).statements = xs ++ stmt :: ys := hstmts.trans hset
      rw [exec_upsert T hscan']
      simp only [finish, hset', hsplit, hstmt, hold, hnew, setProgress_self,
        setProgress_setProgress, upsertRow_newer T hborder horder hmn]
    have hresults (u : TerminalUpdate) (hu : u ∈ p.terminalUpdates) :
        (db.batch T (p.coalesce body k).statements).2[u.statement]? =
          (db.batch T p.statements).2[u.statement]? := by
      have hdiff : u.statement ≠ (db.batch T xs).2.length := by
        rw [length_batch, hxs]
        exact hne u hu
      rw [hstmts, hset, hsplit, hstmt, hold, hnew]
      rcases Nat.lt_or_gt_of_ne hdiff with h | h
      · rw [List.getElem?_append_left h, List.getElem?_append_left h]
      · obtain ⟨d, hd⟩ : ∃ d, u.statement - (db.batch T xs).2.length = d+1 :=
          ⟨u.statement - (db.batch T xs).2.length - 1, by omega⟩
        rw [List.getElem?_append_right h.le, List.getElem?_append_right h.le, hd,
          List.getElem?_cons_succ, List.getElem?_cons_succ]
    have happlied : applied (p.coalesce body k).terminalUpdates
        (db.batch T (p.coalesce body k).statements).2 =
          applied p.terminalUpdates (db.batch T p.statements).2 := by
      rw [hupdates]
      apply List.filter_congr
      intro u hu
      rw [hresults u hu]
    have hcongr : (p.coalesce body k).finish T db =
        ⟨((p.coalesce body k).finish T db).db, (p.finish T db).ended,
          (p.finish T db).webhooks⟩ := by
      simp only [finish, happlied]
    rw [hcongr, hdb]
    simp [Processed.andThen]
  have hevents (i : String) : ((p.coalesce body k).finish T db).db.hasEvent i =
      (p.finish T db).db.hasEvent i := by
    rw [hfinish]
    exact hasEvent_upsert T hscan' k _ i
  refine ⟨⟨?_, ?_, ?_, ?_, ?_, ?_, ?_⟩, hfinish⟩
  · intro u hu
    rw [hupdates] at hu
    rw [hstmts, List.length_set]
    exact hp.bounded u hu
  · intro u hu s k' row
    rw [hupdates] at hu
    rw [hstmts, List.getElem?_set_ne (hne u hu).symm]
    exact hp.terminal u hu s k' row
  · intro s k' kp' hkp'
    by_cases hkey : (s, k') = (body.scanId, k)
    · obtain ⟨rfl, rfl⟩ := Prod.mk.inj hkey
      have hnew : (⟨kp.index, eventOrder body⟩ : Kept) = kp' := by
        simpa [hmap] using hkp'
      subst hnew
      refine ⟨hscan, body, n, ?_, horder, horder⟩
      rw [hstmts]
      simp [hlt, hstmt]
    · rw [hmap, PairMap.put_ne hkey] at hkp'
      obtain ⟨hsome, b', m', hb', hrest⟩ := hp.kept s k' kp' hkp'
      have hindex : kp.index ≠ kp'.index := by
        intro heq
        rw [← heq, hb] at hb'
        obtain ⟨rfl, rfl, -⟩ := Statement.upsertProgress.inj (Option.some.inj hb')
        exact hkey rfl
      refine ⟨hsome, b', m', ?_, hrest⟩
      rw [hstmts, List.getElem?_set_ne hindex]
      exact hb'
  · intro j s k' row hj
    rw [hstmts] at hj
    by_cases hindex : kp.index = j
    · subst hindex
      rw [List.getElem?_set_self hlt] at hj
      obtain ⟨rfl, rfl, -⟩ := Statement.upsertProgress.inj (Option.some.inj hj)
      exact ⟨⟨kp.index, eventOrder body⟩, by rw [hmap, PairMap.put_self], rfl⟩
    · rw [List.getElem?_set_ne hindex] at hj
      obtain ⟨kp', hkp', hj'⟩ := hp.unique j s k' row hj
      have hkey : (s, k') ≠ (body.scanId, k) := by
        intro heq
        obtain ⟨rfl, rfl⟩ := Prod.mk.inj heq
        obtain rfl : kp = kp' := by simpa [hkp] using hkp'
        exact hindex hj'
      exact ⟨kp', by rw [hmap, PairMap.put_ne hkey, hkp'], hj'⟩
  · intro i hi b hb hsome
    rw [hseen] at hi
    rw [hevents]
    exact hp.seenStored i hi b hb hsome
  · intro i hi
    rw [hevents] at hi
    rw [hseen]
    exact hp.storedSeen i hi
  · intro i hi
    rw [hevents]
    exact hp.oldStored i hi

/-- An event that the kept one supersedes is left out, and would have changed nothing. -/
theorem coalesce_older {db : Db} {execOf : String → ProgressKind → String} {p : Prepared}
    (hp : LoopInv T db execOf p) {body : Body} {k : ProgressKind} {n : ℕ}
    (horder : eventOrder body = some ⟨execOf body.scanId k, n⟩) {kp : Kept}
    (hkp : p.coalescedInBatch body.scanId k = some kp)
    (hsuper : supersedes (eventOrder body) kp.order = false) :
    p.coalesce body k = p ∧ ((p.finish T db).db.exec T
      (.upsertProgress body.scanId k (coalescedRow body k))).1 = (p.finish T db).db := by
  obtain ⟨hscan, b, m, hb, hkorder, hborder⟩ := hp.kept _ _ _ hkp
  have hnm : n ≤ m := by simpa [supersedes, hkorder, horder] using hsuper
  have hscan' : ((p.finish T db).db.scanToProject body.scanId).isSome = true := by
    rw [scanToProject_finish, hscan]
  refine ⟨by simp [coalesce, hkp, hsuper], ?_⟩
  obtain ⟨xs, ys, hsplit, hxs, hys⟩ := split_kept T hp hkp hb
  obtain ⟨c, hold⟩ := batch_upsert T db hscan (coalescedRow b k) xs hys
  rw [exec_upsert T hscan']
  simp only [finish, hsplit, hold, setProgress_self, setProgress_setProgress,
    upsertRow_older T hborder horder hnm]

/-- What an event that is not coalesced adds to the statements: its row, and statements
on its scan and its findings. -/
structure Stores (id : Option String) (body : Body) (q : Prepared) : Prop where
  bounded : q.Bounded
  row : ∃ rest, q.statements =
      .insertEvent ⟨id, body.scanId, body.eventType, payloadStr body⟩ :: rest ∧
    ∀ x ∈ rest, ∀ db : Db, (db.exec T x).1.events = db.events
  noUpsert : ∀ s k row, Statement.upsertProgress s k row ∉ q.statements

theorem events_endScan (db : Db) (scanId : String) (f : Scan → Scan) :
    (db.endScan scanId f).1.events = db.events := by
  unfold Db.endScan
  split
  · split_ifs <;> rfl
  · rfl

theorem stores_store {id : Option String} {body : Body} {projInfo : ProjInfo} {q : Prepared}
    (h : init.store T id body projInfo = some q) : Stores T id body q := by
  have hfindings : ∀ x ∈ (analyzerFindings T body).map fun f =>
      Statement.insertFinding ⟨body.scanId, f⟩, ∀ db : Db,
        (db.exec T x).1.events = db.events := by
    intro x hx db
    obtain ⟨f, -, rfl⟩ := List.mem_map.mp hx
    simp only [Db.exec]
    split_ifs <;> rfl
  have hnone (s : String) (k : ProgressKind) (row : ProgressRow) :
      Statement.upsertProgress s k row ∉ (analyzerFindings T body).map fun f =>
        Statement.insertFinding ⟨body.scanId, f⟩ := by
    intro hmem
    obtain ⟨f, -, heq⟩ := List.mem_map.mp hmem
    cases heq
  unfold store at h
  cases hupdate : scanUpdate T body projInfo with
  | none =>
    rw [hupdate] at h
    obtain rfl := Option.some.inj h
    exact ⟨by simp [Bounded, push, init], ⟨_, rfl, hfindings⟩, by simp [push, init]⟩
  | sets stmt =>
    rw [hupdate] at h
    obtain rfl := Option.some.inj h
    have hstmt : ∃ scanId data, stmt = .checkpoint scanId data := by
      unfold scanUpdate at hupdate
      split_ifs at hupdate
      split at hupdate
      · exact ⟨_, _, (ScanUpdate.sets.inj hupdate).symm⟩
      · cases hupdate
    obtain ⟨scanId, data, rfl⟩ := hstmt
    refine ⟨by simp [Bounded, push, init], ⟨_, rfl, ?_⟩, by simp [push, init]⟩
    intro x hx db
    rcases List.mem_cons.mp hx with rfl | hx
    · simp only [Db.exec]
      split <;> rfl
    · exact hfindings x hx db
  | ends stmt webhook =>
    rw [hupdate] at h
    obtain rfl := Option.some.inj h
    have hstmt : (∃ scanId stats, stmt = .complete scanId stats) ∨
        ∃ scanId reason, stmt = .fail scanId reason := by
      unfold scanUpdate at hupdate
      split_ifs at hupdate
      · exact Or.inl ⟨_, _, (ScanUpdate.ends.inj hupdate).1.symm⟩
      · split at hupdate <;> cases hupdate
      · exact Or.inr ⟨_, _, (ScanUpdate.ends.inj hupdate).1.symm⟩
    have hkeeps (db : Db) : (db.exec T stmt).1.events = db.events := by
      rcases hstmt with ⟨scanId, stats, rfl⟩ | ⟨scanId, reason, rfl⟩
      · exact events_endScan db scanId _
      · exact events_endScan db scanId _
    have hplain (s : String) (k : ProgressKind) (row : ProgressRow) :
        stmt ≠ .upsertProgress s k row := by
      rcases hstmt with ⟨scanId, stats, rfl⟩ | ⟨scanId, reason, rfl⟩ <;> simp
    refine ⟨by simp [Bounded, push, init], ⟨_, rfl, ?_⟩, ?_⟩
    · intro x hx db
      rcases List.mem_cons.mp hx with rfl | hx
      · exact hkeeps db
      · exact hfindings x hx db
    · intro s k row
      simp [push, init, Ne.symm (hplain s k row)]
  | unbindable =>
    rw [hupdate] at h
    cases h

theorem events_batch {xs : List Statement}
    (h : ∀ x ∈ xs, ∀ db : Db, (db.exec T x).1.events = db.events) (db : Db) :
    (db.batch T xs).1.events = db.events := by
  induction xs generalizing db with
  | nil => rfl
  | cons x xs ih =>
    have htail := ih (fun y hy => h y (List.mem_cons_of_mem x hy)) (db.exec T x).1
    simp only [Db.batch]
    rw [htail, h x List.mem_cons_self]

/-- The event's own id is the only one added. -/
theorem Stores.hasEvent {id : Option String} {body : Body} {q : Prepared}
    (hq : Stores T id body q) {db : Db} (hscan : (db.scanToProject body.scanId).isSome = true)
    (i : String) :
    (q.finish T db).db.hasEvent i = true ↔ db.hasEvent i = true ∨ id = some i := by
  obtain ⟨rest, hstmts, hkeeps⟩ := hq.row
  have hscan := (isSome_scans hscan).2
  have hevents : (q.finish T db).db.events =
      (db.exec T (.insertEvent ⟨id, body.scanId, body.eventType, payloadStr body⟩)).1.events := by
    simp only [finish, hstmts, Db.batch]
    exact events_batch T hkeeps _
  unfold Db.hasEvent
  rw [hevents]
  by_cases hold : id.any db.hasEvent = true
  · obtain ⟨i', rfl, hi'⟩ := (Option.any_eq_true _ _).mp hold
    simp only [Db.exec, hscan, hold, Bool.not_true, Bool.and_false]
    constructor
    · exact Or.inl
    · intro h
      rcases h with h | h
      · exact h
      · rw [← Option.some.inj h]
        exact hi'
  · simp only [Db.exec, hscan, hold, Bool.not_false, Bool.and_true, if_true]
    simp

theorem store_step {db : Db} {execOf : String → ProgressKind → String} {p : Prepared}
    (hp : LoopInv T db execOf p) {body : Body} {q : Prepared}
    (hscan : (db.scanToProject body.scanId).isSome = true)
    (hq : Stores T (storedEventId body) body q) :
    LoopInv T db execOf ({ p with
      seenInBatch := p.seenInBatch ++ (storedEventId body).toList }.extend q) ∧
    ({ p with seenInBatch := p.seenInBatch ++ (storedEventId body).toList }.extend q).finish
      T db = (p.finish T db).andThen (q.finish T (p.finish T db).db) := by
  set p' := { p with seenInBatch := p.seenInBatch ++ (storedEventId body).toList }.extend q
    with hp'
  have hfinish : p'.finish T db = (p.finish T db).andThen (q.finish T (p.finish T db).db) := by
    rw [← finish_extend T hp.bounded]
    exact finish_congr T rfl rfl db
  have hscan' : ((p.finish T db).db.scanToProject body.scanId).isSome = true := by
    rw [scanToProject_finish, hscan]
  have hevents (i : String) : (p'.finish T db).db.hasEvent i = true ↔
      (p.finish T db).db.hasEvent i = true ∨ storedEventId body = some i := by
    rw [hfinish]
    exact hq.hasEvent T hscan' i
  have hleft {j : ℕ} (hj : j < p.statements.length) :
      p'.statements[j]? = p.statements[j]? := List.getElem?_append_left hj
  have hright {j : ℕ} (hj : p.statements.length ≤ j) (s : String) (k : ProgressKind)
      (row : ProgressRow) : p'.statements[j]? ≠ some (.upsertProgress s k row) := by
    intro heq
    have hget : q.statements[j - p.statements.length]? = some (.upsertProgress s k row) := by
      rw [← heq]
      exact (List.getElem?_append_right hj).symm
    exact hq.noUpsert s k row (List.mem_of_getElem? hget)
  refine ⟨⟨?_, ?_, ?_, ?_, ?_, ?_, ?_⟩, hfinish⟩
  · intro u hu
    have hlen : p'.statements.length = p.statements.length+q.statements.length := by
      simp [hp', extend]
    rcases List.mem_append.mp hu with hu | hu
    · have hlt := hp.bounded u hu
      omega
    · obtain ⟨v, hv, rfl⟩ := List.mem_map.mp hu
      have hlt := hq.bounded v hv
      simp only
      omega
  · intro u hu s k row
    rcases List.mem_append.mp hu with hu | hu
    · rw [hleft (hp.bounded u hu)]
      exact hp.terminal u hu s k row
    · obtain ⟨v, hv, rfl⟩ := List.mem_map.mp hu
      exact hright (by simp) s k row
  · intro s k kp hkp
    obtain ⟨hsome, b, m, hb, hrest⟩ := hp.kept s k kp hkp
    refine ⟨hsome, b, m, ?_, hrest⟩
    rw [hleft (List.getElem?_eq_some_iff.mp hb).1, hb]
  · intro j s k row hj
    rcases Nat.lt_or_ge j p.statements.length with hlt | hge
    · rw [hleft hlt] at hj
      exact hp.unique j s k row hj
    · exact absurd hj (hright hge s k row)
  · intro i hi b hb hsome
    rw [hevents]
    rcases List.mem_append.mp hi with hi | hi
    · exact Or.inl (hp.seenStored i hi b hb hsome)
    · exact Or.inr (by simpa using hi)
  · intro i hi
    rcases (hevents i).mp hi with hi | hi
    · exact (hp.storedSeen i hi).imp_right fun h => List.mem_append_left _ h
    · exact Or.inr (List.mem_append_right _ (by simp [hi]))
  · intro i hi
    exact (hevents i).mpr (Or.inl (hp.oldStored i hi))

/-- A sequenced event, and of the execution its coalesced row is for. -/
def InStream (execOf : String → ProgressKind → String) (body : Body) : Prop :=
  ∃ o, eventOrder body = some o ∧
    ∀ k, isCoalescedProgressEvent body = some k → o.exec = execOf body.scanId k

theorem andThen_nothing (done : Processed) : done.andThen ⟨done.db, [], []⟩ = done := by
  simp [Processed.andThen]

/-- One round of the loop does what handling its event alone does. -/
theorem addMessage_step {db : Db} {execOf : String → ProgressKind → String} {p : Prepared}
    (hp : LoopInv T db execOf p) {alreadyStored : List String} {body : Body}
    (hstream : InStream execOf body)
    (hstored : ∀ i, storedEventId body = some i →
      (i ∈ alreadyStored ↔ db.hasEvent i = true)) :
    (∀ p', p.addMessage T db.scanToProject alreadyStored body = some p' →
      LoopInv T db execOf p') ∧
    (p.addMessage T db.scanToProject alreadyStored body).map (finish T · db) =
      handleStep T (p.finish T db) body := by
  obtain ⟨o, ho, hexec⟩ := hstream
  have hscans := scanToProject_finish T p db body.scanId
  by_cases hskip : (storedEventId body).any
      (fun i => alreadyStored.contains i || p.seenInBatch.contains i) = true
  · have hadd : p.addMessage T db.scanToProject alreadyStored body = some p :=
      if_pos hskip
    rw [hadd]
    refine ⟨by simpa using hp, ?_⟩
    obtain ⟨i, hi, hseen⟩ := (Option.any_eq_true _ _).mp hskip
    have hhandle : handle T (p.finish T db).db body = some ⟨(p.finish T db).db, [], []⟩ := by
      have hplain : isCoalescedProgressEvent body = none := by
        unfold storedEventId at hi
        split_ifs at hi with hsome
        simpa using hsome
      unfold handle
      rw [hscans]
      cases hscan : db.scanToProject body.scanId with
      | none => rfl
      | some projInfo =>
        have hhas : (p.finish T db).db.hasEvent i = true := by
          simp only [Bool.or_eq_true, List.contains_eq_mem, decide_eq_true_eq] at hseen
          rcases hseen with hseen | hseen
          · exact hp.oldStored i ((hstored i hi).mp hseen)
          · exact hp.seenStored i hseen body hi (by simp [hscan])
        simp [hplain, hi, hhas]
    simp [handleStep, hhandle, andThen_nothing]
  · have hnew : p.addMessage T db.scanToProject alreadyStored body =
        match db.scanToProject body.scanId with
        | none => some { p with
            seenInBatch := p.seenInBatch ++ (storedEventId body).toList
            droppedForMissingScan := p.droppedForMissingScan ++ [body.scanId] }
        | some projInfo =>
          match isCoalescedProgressEvent body with
          | some kind => some ({ p with
              seenInBatch := p.seenInBatch ++ (storedEventId body).toList }.coalesce body kind)
          | none => { p with
              seenInBatch := p.seenInBatch ++ (storedEventId body).toList }.store T
                (storedEventId body) body projInfo :=
      if_neg hskip
    rw [hnew]
    unfold handleStep handle
    rw [hscans]
    cases hscan : db.scanToProject body.scanId with
    | none =>
      refine ⟨?_, ?_⟩
      · intro p' hp'
        obtain rfl := Option.some.inj hp'
        refine ⟨hp.bounded, hp.terminal, hp.kept, hp.unique, ?_, ?_, hp.oldStored⟩
        · intro i hi b hb hsome
          rcases List.mem_append.mp hi with hi | hi
          · exact hp.seenStored i hi b hb hsome
          · have hid : storedEventId body = some i := by simpa using hi
            rw [← scanId_of_storedEventId hid hb, hscan] at hsome
            cases hsome
        · exact fun i hi => (hp.storedSeen i hi).imp_right fun h => List.mem_append_left _ h
      · simp only [Option.map_some, andThen_nothing]
        exact congrArg some (finish_congr T rfl rfl db)
    | some projInfo =>
      have hsome : (db.scanToProject body.scanId).isSome = true := by simp [hscan]
      cases hkind : isCoalescedProgressEvent body with
      | some k =>
        have hid : storedEventId body = none := by simp [storedEventId, hkind]
        have horder : eventOrder body = some ⟨execOf body.scanId k, o.seq⟩ := by
          rw [ho, ← hexec k hkind]
        have hsame : { p with seenInBatch := p.seenInBatch ++ (none : Option String).toList } =
            p := by simp
        simp only [hid, hsame, Option.map_some]
        cases hkp : p.coalescedInBatch body.scanId k with
        | none =>
          obtain ⟨hinv, hfinish⟩ := coalesce_first T hp hsome horder hkp
          exact ⟨fun p' hp' => Option.some.inj hp' ▸ hinv, by rw [hfinish]⟩
        | some kp =>
          cases hsuper : supersedes (eventOrder body) kp.order with
          | true =>
            obtain ⟨hinv, hfinish⟩ := coalesce_newer T hp horder hkp hsuper
            exact ⟨fun p' hp' => Option.some.inj hp' ▸ hinv, by rw [hfinish]⟩
          | false =>
            obtain ⟨hsame, hexec⟩ := coalesce_older T hp horder hkp hsuper
            rw [hsame, hexec, andThen_nothing]
            exact ⟨fun p' hp' => Option.some.inj hp' ▸ hp, rfl⟩
      | none =>
        have hid : storedEventId body =
            some (eventIdFor body.scanId o.exec o.seq) := by
          simp [storedEventId, hkind, (isSome_scans hsome).1, ho]
        have hfresh : (storedEventId body).any (p.finish T db).db.hasEvent = false := by
          rw [hid] at hskip ⊢
          simp only [Option.any_some, Bool.or_eq_true, List.contains_eq_mem, decide_eq_true_eq,
            not_or] at hskip
          rw [Option.any_some, Bool.eq_false_iff]
          intro hhas
          rcases hp.storedSeen _ hhas with hold | hseen
          · exact hskip.1 ((hstored _ hid).mpr hold)
          · exact hskip.2 hseen
        simp only [hfresh]
        rw [store_eq]
        cases hstore : init.store T (storedEventId body) body projInfo with
        | none => exact ⟨by simp, rfl⟩
        | some q =>
          obtain ⟨hinv, hfinish⟩ := store_step T hp hsome (stores_store T hstore)
          refine ⟨fun p' hp' => Option.some.inj hp' ▸ hinv, ?_⟩
          simp [hfinish]

/-- The loop over a batch does what handling its events one after the other does. -/
theorem foldlM_addMessage {db : Db} {execOf : String → ProgressKind → String}
    {alreadyStored : List String} {messages : List Body}
    (hstream : ∀ body ∈ messages, InStream execOf body)
    (hstored : ∀ body ∈ messages, ∀ i, storedEventId body = some i →
      (i ∈ alreadyStored ↔ db.hasEvent i = true)) {p : Prepared}
    (hp : LoopInv T db execOf p) :
    (messages.foldlM (addMessage T db.scanToProject alreadyStored) p).map (finish T · db) =
      messages.foldlM (handleStep T) (p.finish T db) := by
  induction messages generalizing p with
  | nil => rfl
  | cons body rest ih =>
    obtain ⟨hinv, hstep⟩ := addMessage_step T hp (hstream body List.mem_cons_self)
      (hstored body List.mem_cons_self)
    rw [List.foldlM_cons, List.foldlM_cons, ← hstep]
    cases hadd : p.addMessage T db.scanToProject alreadyStored body with
    | none => rfl
    | some p' =>
      exact ih (fun b hb => hstream b (List.mem_cons_of_mem body hb))
        (fun b hb => hstored b (List.mem_cons_of_mem body hb)) (hinv p' hadd)

end Prepared

/-- A batch does what its events do one at a time. -/
theorem process_eq_handleAll {execOf : String → ProgressKind → String} (db : Db)
    {messages : List Body} (hstream : ∀ body ∈ messages, Prepared.InStream execOf body) :
    processFindingsQueueMessages T db messages = handleAll T db messages := by
  unfold processFindingsQueueMessages handleAll
  simp only
  rw [Prepared.foldlM_addMessage T hstream _ (Prepared.loopInv_init T db execOf)]
  · rfl
  · intro body hbody i hi
    have hmem : i ∈ (messages.filterMap storedEventId).eraseDups :=
      List.mem_eraseDups.mpr (List.mem_filterMap.mpr ⟨body, hbody, hi⟩)
    rw [mem_lookupStored le_rfl]
    simp [hmem]

theorem andThen_assoc (a b c : Processed) :
    (a.andThen b).andThen c = a.andThen (b.andThen c) := by
  simp [Processed.andThen]

theorem foldlM_andThen (done acc : Processed) (bodies : List Body) :
    bodies.foldlM (handleStep T) (done.andThen acc) =
      (bodies.foldlM (handleStep T) acc).map done.andThen := by
  induction bodies generalizing acc with
  | nil => rfl
  | cons body rest ih =>
    have hstep : handleStep T (done.andThen acc) body =
        (handleStep T acc body).map done.andThen := by
      have hdb : (done.andThen acc).db = acc.db := rfl
      unfold handleStep
      rw [hdb, Option.map_map]
      congr 1
      funext next
      exact andThen_assoc done acc next
    rw [List.foldlM_cons, List.foldlM_cons, hstep]
    cases handleStep T acc body with
    | none => rfl
    | some next => exact ih next

/-- What was done before does not matter to the events that come. -/
theorem foldlM_handleStep (done : Processed) (bodies : List Body) :
    bodies.foldlM (handleStep T) done = (handleAll T done.db bodies).map done.andThen := by
  have h := foldlM_andThen T done ⟨done.db, [], []⟩ bodies
  rw [Prepared.andThen_nothing] at h
  exact h

/-- Batches do what their events do one at a time. -/
theorem processBatches_eq_handleAll {execOf : String → ProgressKind → String} (db : Db)
    {batches : List (List Body)}
    (hstream : ∀ body ∈ batches.flatten, Prepared.InStream execOf body) :
    processBatches T db batches = handleAll T db batches.flatten := by
  have hgeneral (done : Processed) : batches.foldlM (fun done messages =>
      (processFindingsQueueMessages T done.db messages).map done.andThen) done =
        batches.flatten.foldlM (handleStep T) done := by
    induction batches generalizing done with
    | nil => rfl
    | cons messages rest ih =>
      rw [List.foldlM_cons, List.flatten_cons, List.foldlM_append]
      rw [foldlM_handleStep T done messages, process_eq_handleAll T done.db
        fun body hbody => hstream body (by simp [hbody])]
      congr 1
      funext next
      exact ih (fun body hbody => hstream body (by simp [hbody])) next
  exact hgeneral ⟨db, [], []⟩

end Swazz.Findings
