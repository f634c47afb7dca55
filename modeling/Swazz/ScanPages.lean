import Swazz.Base64Url
import Swazz.KeysetPaging
import Mathlib.Data.List.Lex
import Mathlib.Data.Prod.Lex

/-! The scan list of a project, in pages: the query of D1, the cursor that a client passes back,
and what a client that follows the cursors is given. -/
namespace Swazz.ScanPages

open RunnerAccess JsonText Base64Url KeysetPaging

/-- A row of scans. -/
structure Scan where
  id : JsString
  project_id : JsString
  status : JsString
  created_at : JsString
  deriving DecidableEq

/-- A position in a project's scan list, newest first: the last scan of the page before. -/
structure ScansCursor where
  createdAt : JsString
  id : JsString
  deriving DecidableEq

/-! ### The query -/

/-- SQLite compares texts as the bytes they are stored in. -/
def bytesLess : List ℕ → List ℕ → Bool
  | _, [] => false
  | [], _ :: _ => true
  | a :: as, b :: bs => decide (a < b) || (decide (a = b) && bytesLess as bs)

/-- `(created_at, id) < (?, ?)` -/
def rowLess (a b : ScansCursor) : Bool :=
  bytesLess (encode a.createdAt) (encode b.createdAt) ||
    (decide (encode a.createdAt = encode b.createdAt) && bytesLess (encode a.id) (encode b.id))

def Scan.position (s : Scan) : ScansCursor := ⟨s.created_at, s.id⟩

/-- `ORDER BY created_at DESC, id DESC` -/
def newestFirst (scans : List Scan) : List Scan :=
  scans.mergeSort fun a b => !rowLess a.position b.position

/-- `scansPageSql`, run on the rows of the table. -/
def scansPage (db : List Scan) (projectId : JsString) (before : Option ScansCursor) (limit : ℕ) :
    List Scan :=
  (newestFirst (db.filter fun s => decide (s.project_id = projectId) &&
    match before with
    | none => true
    | some cursor => rowLess s.position cursor)).take limit

def ACTIVE_SCAN_STATUSES : List JsString := [js "queued", js "dispatched", js "running", js "paused"]

local instance instLawfulBEqStatus : LawfulBEq JsString := inferInstance

/-- `ScansRepository.getUnfinishedScans` -/
def getUnfinishedScans (db : List Scan) (projectId : JsString) (limit : ℕ) : List Scan :=
  (newestFirst (db.filter fun s => decide (s.project_id = projectId) &&
    decide (s.status ∈ ACTIVE_SCAN_STATUSES))).take limit

/-- `ScansRepository.getScans`: one more than the page, to tell whether another one follows. -/
def getScans (db : List Scan) (projectId : JsString) (limit : ℕ) (before : Option ScansCursor) :
    List Scan × Option ScansCursor :=
  let scans := scansPage db projectId before (limit + 1)
  if scans.length ≤ limit then (scans, none)
  else (scans.take limit, scans[limit - 1]?.map Scan.position)

/-! ### The parameters of a request -/

def DEFAULT_SCANS_PAGE : ℕ := 50

def MAX_SCANS_PAGE : ℕ := 200

def invalidLimit : String := "Invalid query parameter: limit|400"

def invalidCursor : String := "Invalid query parameter: cursor|400"

/-- `Number` of decimal digits. -/
def decimal (s : JsString) : ℕ := s.foldl (fun n c => n * 10 + (c - 48)) 0

def parseScansLimit : Option JsString → Except String ℕ
  | none => .ok DEFAULT_SCANS_PAGE
  | some raw =>
    if raw = [] then .ok DEFAULT_SCANS_PAGE
    else if !raw.all isDigit then .error invalidLimit
    else
      let n := if raw.length > 6 then MAX_SCANS_PAGE else decimal raw
      if n < 1 then .error invalidLimit else .ok (min n MAX_SCANS_PAGE)

def encodeScansCursor (c : ScansCursor) : JsString :=
  bytesToBase64Url (encode (stringifyStrings [c.createdAt, c.id]))

/-- `/^[0-9][0-9:. TZ+-]{0,39}$/` -/
def isCreatedAt : JsString → Bool
  | [] => false
  | c :: rest => isDigit c && decide (rest.length ≤ 39) &&
    rest.all fun c => isDigit c || decide (c ∈ js ":. TZ+-")

/-- The character class of `ID_PATTERN`. -/
def isIdUnit (c : ℕ) : Bool :=
  (decide (65 ≤ c) && decide (c ≤ 90)) || (decide (97 ≤ c) && decide (c ≤ 122)) || isDigit c ||
    decide (c = 95) || decide (c = 45)

/-- `ID_PATTERN` -/
def isId (s : JsString) : Bool := decide (1 ≤ s.length) && decide (s.length ≤ 64) && s.all isIdUnit

/-- What is left of `decodeScansCursor` once the text is parsed. -/
def checkCursor : Value → Except String ScansCursor
  | .array [.string createdAt, .string id] =>
    if isCreatedAt createdAt && isId id then .ok ⟨createdAt, id⟩ else .error invalidCursor
  | _ => .error invalidCursor

def decodeScansCursor (raw : JsString) : Except String ScansCursor :=
  if raw.length > 256 then .error invalidCursor
  else
    match ((base64UrlToBytes raw).bind decode).bind parse with
    | none => .error invalidCursor
    | some parsed => checkCursor parsed

/-- The query of a request for the list; a parameter that is left out is `none`. -/
structure ScansPageQuery where
  limit : Option JsString
  cursor : Option JsString
  active : Option JsString

/-- What the service reads besides the table: whether authentication is on, and the permission
`get:/api/projects/:id/scans` of a user. -/
structure Access where
  authEnabled : Bool
  checkPermission : JsString → JsString → Bool

/-- Who may list the scans; `none` is a caller without an account. -/
def Access.check (a : Access) (projectId : JsString) (userId : Option JsString) :
    Except String Unit :=
  if projectId = [] then .error "Missing query parameter: project_id|400"
  else
    match userId.filter fun u => decide (u ≠ []) with
    | none => if a.authEnabled then .error "Unauthorized|401" else .ok ()
    | some u => if a.checkPermission u projectId then .ok () else .error "Forbidden|403"

/-- A parameter that is given and not empty. -/
def given (p : Option JsString) : Option JsString := p.filter fun s => decide (s ≠ [])

/-- `ScansService.getScans`: a page, and the cursor of the next one. -/
def listScans (a : Access) (db : List Scan) (projectId : JsString) (userId : Option JsString)
    (page : ScansPageQuery) : Except String (List Scan × Option JsString) := do
  a.check projectId userId
  let limit ← parseScansLimit page.limit
  match given page.active with
  | some active =>
    if active ≠ js "1" ∨ (given page.cursor).isSome then
      .error "Invalid query parameter: active|400"
    else .ok (getUnfinishedScans db projectId limit, none)
  | none => do
    let before ← match given page.cursor with
      | none => pure none
      | some raw => (decodeScansCursor raw).map some
    let (scans, next) := getScans db projectId limit before
    .ok (scans, next.map encodeScansCursor)

/-! ### The order of the list -/

/-- What the list is ordered by. -/
def key (s : Scan) : List ℕ ×ₗ List ℕ := toLex (encode s.created_at, encode s.id)

theorem bytesLess_iff (a b : List ℕ) : bytesLess a b = true ↔ a < b := by
  induction a, b using bytesLess.induct with
  | case1 a => simp [bytesLess]
  | case2 b bs => simp [bytesLess]
  | case3 a as b bs ih =>
    rw [bytesLess, Bool.or_eq_true, Bool.and_eq_true, decide_eq_true_iff, decide_eq_true_iff, ih,
      List.cons_lt_cons_iff]

theorem rowLess_iff (a b : Scan) : rowLess a.position b.position = true ↔ key a < key b := by
  rw [rowLess, Bool.or_eq_true, Bool.and_eq_true, decide_eq_true_iff, bytesLess_iff, bytesLess_iff,
    key, key, Prod.Lex.toLex_lt_toLex]
  rfl

theorem newestFirst_eq (scans : List Scan) :
    newestFirst scans = scans.mergeSort fun a b => decide (key b ≤ key a) := by
  rw [newestFirst]
  congr 1
  funext a b
  rw [Bool.eq_iff_iff, Bool.not_eq_true', decide_eq_true_iff, ← Bool.not_eq_true, rowLess_iff,
    not_lt]

/-! ### What the cursor is made of -/

/-- `CURRENT_TIMESTAMP` of SQLite: `YYYY-MM-DD HH:MM:SS`. -/
def isTimestamp (s : JsString) : Bool :=
  decide (s.length = 19) && (s.zip (js "0000-00-00 00:00:00")).all fun p =>
    if p.2 = 48 then isDigit p.1 else decide (p.1 = p.2)

/-- A scan as the coordinator writes it. -/
def Scan.WellFormed (s : Scan) : Prop := isId s.id = true ∧ isTimestamp s.created_at = true

variable {s : JsString} {c : ℕ}

theorem isDigit_iff : isDigit c = true ↔ 48 ≤ c ∧ c ≤ 57 := by
  rw [isDigit, Bool.and_eq_true, decide_eq_true_iff, decide_eq_true_iff]

theorem unit_of_isTimestamp (hs : isTimestamp s = true) (hc : c ∈ s) :
    isDigit c = true ∨ c ∈ js "- :" := by
  rw [isTimestamp, Bool.and_eq_true, decide_eq_true_iff, List.all_eq_true] at hs
  obtain ⟨hlength, hall⟩ := hs
  obtain ⟨i, hi, rfl⟩ := List.mem_iff_getElem.mp hc
  have hi' : i < (js "0000-00-00 00:00:00").length := by
    change i < 19
    omega
  have hpair : (s[i], (js "0000-00-00 00:00:00")[i]) ∈ s.zip (js "0000-00-00 00:00:00") := by
    rw [List.mem_iff_getElem]
    exact ⟨i, by rw [List.length_zip]; omega, List.getElem_zip⟩
  have hunit := hall _ hpair
  dsimp only at hunit
  split_ifs at hunit with hdigit
  · exact Or.inl hunit
  · have hmarks : ∀ u ∈ js "0000-00-00 00:00:00", u ≠ 48 → u ∈ js "- :" := by decide
    rw [of_decide_eq_true hunit]
    exact Or.inr (hmarks _ (List.getElem_mem hi') hdigit)

/-- The check of the cursor lets a timestamp through. -/
theorem isCreatedAt_of_isTimestamp (hs : isTimestamp s = true) : isCreatedAt s = true := by
  have hunits : ∀ c ∈ s, (isDigit c || decide (c ∈ js ":. TZ+-")) = true := by
    intro c hc
    rw [Bool.or_eq_true, decide_eq_true_iff]
    have hmarks : ∀ u ∈ js "- :", u ∈ js ":. TZ+-" := by decide
    exact (unit_of_isTimestamp hs hc).imp_right (hmarks c)
  rw [isTimestamp, Bool.and_eq_true, decide_eq_true_iff] at hs
  cases s with
  | nil => cases hs.1
  | cons c rest =>
    have hfirst : isDigit c = true := by
      have hall := hs.2
      rw [List.all_eq_true] at hall
      exact hall (c, 48) List.mem_cons_self
    have hlength : rest.length ≤ 39 := by
      have := hs.1
      rw [List.length_cons] at this
      omega
    rw [isCreatedAt, hfirst, decide_eq_true hlength, Bool.true_and, Bool.true_and,
      List.all_eq_true]
    exact fun d hd => hunits d (List.mem_cons_of_mem c hd)

/-- A unit that is written as one byte, and in JSON as it is. -/
def IsBare (c : ℕ) : Prop := isPlain c = true ∧ c < 0x80

theorem isBare_iff : IsBare c ↔ 0x20 ≤ c ∧ c ≠ 0x22 ∧ c ≠ 0x5C ∧ c < 0x80 := by
  simp only [IsBare, isPlain, Bool.and_eq_true, decide_eq_true_eq]
  omega

theorem bare_of_isTimestamp (hs : isTimestamp s = true) : ∀ c ∈ s, IsBare c := by
  intro c hc
  rw [isBare_iff]
  rcases unit_of_isTimestamp hs hc with hdigit | hmark
  · rw [isDigit_iff] at hdigit
    omega
  · have hmarks : ∀ u ∈ js "- :", 0x20 ≤ u ∧ u ≠ 0x22 ∧ u ≠ 0x5C ∧ u < 0x80 := by decide
    exact hmarks c hmark

theorem bare_of_isId (hs : isId s = true) : ∀ c ∈ s, IsBare c := by
  intro c hc
  rw [isId, Bool.and_eq_true, List.all_eq_true] at hs
  have hunit := hs.2 c hc
  rw [isBare_iff]
  simp only [isIdUnit, Bool.or_eq_true, Bool.and_eq_true, decide_eq_true_eq, isDigit_iff] at hunit
  omega

section Pair

variable {a b : JsString} (ha : ∀ c ∈ a, IsBare c) (hb : ∀ c ∈ b, IsBare c)
include ha hb

theorem stringifyStrings_pair : stringifyStrings [a, b] =
    0x5B :: 0x22 :: (a ++ 0x22 :: 0x2C :: 0x22 :: (b ++ [0x22, 0x5D])) := by
  simp [stringifyStrings, quoted_plain fun c hc => (ha c hc).1,
    quoted_plain fun c hc => (hb c hc).1]

theorem ascii_stringifyStrings : ∀ c ∈ stringifyStrings [a, b], c < 0x80 := by
  intro c hc
  rw [stringifyStrings_pair ha hb] at hc
  simp only [List.mem_cons, List.mem_append, List.not_mem_nil, or_false] at hc
  rcases hc with rfl | rfl | hc | rfl | rfl | rfl | hc | rfl | rfl
  · decide
  · decide
  · exact (ha c hc).2
  · decide
  · decide
  · decide
  · exact (hb c hc).2
  · decide
  · decide

theorem length_stringifyStrings :
    (stringifyStrings [a, b]).length = a.length + b.length + 7 := by
  rw [stringifyStrings_pair ha hb]
  simp only [List.length_cons, List.length_append, List.length_nil]
  omega

end Pair

/-- The cursor of a scan is accepted, and is the scan's position. -/
theorem decodeScansCursor_encodeScansCursor {scan : Scan} (h : scan.WellFormed) :
    decodeScansCursor (encodeScansCursor scan.position) = .ok scan.position := by
  obtain ⟨hid, htime⟩ := h
  have hbareId := bare_of_isId hid
  have hbareTime := bare_of_isTimestamp htime
  have hascii := ascii_stringifyStrings hbareTime hbareId
  have hbytes : ∀ c ∈ stringifyStrings [scan.created_at, scan.id], c < 256 :=
    fun c hc => (hascii c hc).trans (by decide)
  have htext : encodeScansCursor scan.position =
      bytesToBase64Url (stringifyStrings [scan.created_at, scan.id]) := by
    change bytesToBase64Url (encode (stringifyStrings [scan.created_at, scan.id])) = _
    rw [encode_ascii hascii]
  have hshort : ¬ (encodeScansCursor scan.position).length > 256 := by
    have hlengthId : scan.id.length ≤ 64 := by
      rw [isId, Bool.and_eq_true, Bool.and_eq_true] at hid
      exact of_decide_eq_true hid.1.2
    have hlengthTime : scan.created_at.length = 19 := by
      rw [isTimestamp, Bool.and_eq_true] at htime
      exact of_decide_eq_true htime.1
    rw [htext, length_bytesToBase64Url hbytes, length_stringifyStrings hbareTime hbareId]
    omega
  have hparse : parse (stringifyStrings [scan.created_at, scan.id]) =
      some (.array [.string scan.created_at, .string scan.id]) := by
    apply parse_stringifyStrings (List.cons_ne_nil _ _)
    intro s hs c hc
    simp only [List.mem_cons, List.not_mem_nil, or_false] at hs
    rcases hs with rfl | rfl
    · exact (hbareTime c hc).1
    · exact (hbareId c hc).1
  rw [decodeScansCursor, if_neg hshort, htext, base64UrlToBytes_bytesToBase64Url hbytes,
    Option.bind_some, decode_ascii hascii, Option.bind_some, hparse]
  dsimp only
  rw [checkCursor, isCreatedAt_of_isTimestamp htime, hid]
  rfl

theorem encodeScansCursor_ne_nil {scan : Scan} (h : scan.WellFormed) :
    encodeScansCursor scan.position ≠ [] := by
  intro hnil
  have hdecode := decodeScansCursor_encodeScansCursor h
  rw [hnil] at hdecode
  cases hdecode

/-! ### The pages of a project -/

/-- The scans of a project, however they lie in the table. -/
def scansOf (db : List Scan) (projectId : JsString) : List Scan :=
  db.filter fun s => decide (s.project_id = projectId)

section Project

variable {db : List Scan} {projectId : JsString} {limit : ℕ}

theorem map_key_nodup {scans : List Scan} (hids : (scans.map Scan.id).Nodup)
    (hformed : ∀ s ∈ scans, s.WellFormed) : (scans.map key).Nodup := by
  have hsnd : (scans.map key).map (fun k => (ofLex k).2) = scans.map Scan.id := by
    rw [List.map_map]
    refine List.map_congr_left fun s hs => ?_
    exact encode_ascii fun c hc => (bare_of_isId (hformed s hs).1 c hc).2
  exact List.Nodup.of_map (fun k => (ofLex k).2) (hsnd ▸ hids)

theorem perm_newestFirst (scans : List Scan) : (newestFirst scans).Perm scans :=
  List.mergeSort_perm _ _

theorem scansPage_first (n : ℕ) :
    scansPage db projectId none n = (newestFirst (scansOf db projectId)).take n := by
  simp only [scansPage, Bool.and_true]
  rfl

section Page

variable {before : Option ScansCursor} {rest : List Scan}
  (hpage : ∀ n, scansPage db projectId before n = rest.take n)
include hpage

/-- The last page, and the ones before it, of a list that goes on with `rest`. -/
theorem getScans_last (hlength : rest.length ≤ limit) :
    getScans db projectId limit before = (rest, none) := by
  rw [getScans, hpage, List.take_of_length_le (by omega)]
  exact if_pos hlength

theorem getScans_more (hpos : 0 < limit) (hlength : limit < rest.length) :
    ∃ earlier last, rest = earlier ++ last :: rest.drop limit ∧
      getScans db projectId limit before = (rest.take limit, some last.position) := by
  obtain ⟨m, rfl⟩ := Nat.exists_eq_succ_of_ne_zero (Nat.pos_iff_ne_zero.mp hpos)
  have hm : m < rest.length := by omega
  refine ⟨rest.take m, rest[m], ?_, ?_⟩
  · rw [← List.drop_eq_getElem_cons hm, List.take_append_drop]
  · have hlast : (rest.take (m + 1 + 1))[m]? = some rest[m] := by
      rw [List.getElem?_take_of_lt (by omega), List.getElem?_eq_getElem hm]
    have htake : (rest.take (m + 1 + 1)).take (m + 1) = rest.take (m + 1) := by
      rw [List.take_take, Nat.min_eq_left (by omega)]
    have hlong : ¬ (rest.take (m + 1 + 1)).length ≤ m + 1 := by
      rw [List.length_take]
      omega
    rw [getScans, hpage]
    refine (if_neg hlong).trans ?_
    change ((rest.take (m + 1 + 1)).take (m + 1), (rest.take (m + 1 + 1))[m]?.map Scan.position) = _
    rw [htake, hlast]
    rfl

end Page

variable {a : Access} {userId : Option JsString} (haccess : a.check projectId userId = .ok ())
  {limitText : Option JsString} (hlimit : parseScansLimit limitText = .ok limit)

include haccess hlimit in
/-- What the service reads a cursor as. -/
theorem listScans_of_cursor {cursor : Option JsString} {before : Option ScansCursor}
    (hcursor : (given cursor = none ∧ before = none) ∨
      ∃ raw position, given cursor = some raw ∧ decodeScansCursor raw = .ok position ∧
        before = some position) :
    listScans a db projectId userId ⟨limitText, cursor, none⟩ =
      .ok ((getScans db projectId limit before).1,
        (getScans db projectId limit before).2.map encodeScansCursor) := by
  rw [listScans, haccess]
  dsimp only [bind, Except.bind]
  rw [hlimit]
  rcases hcursor with ⟨hgiven, rfl⟩ | ⟨raw, position, hgiven, hdecode, rfl⟩
  · dsimp only
    rw [hgiven]
    rfl
  · dsimp only
    rw [hgiven]
    dsimp only
    rw [hdecode]
    rfl

variable (hids : (db.map Scan.id).Nodup)
  (hformed : ∀ s ∈ db, s.project_id = projectId → s.WellFormed)

include hformed in
theorem formed_of_mem {s : Scan} (hs : s ∈ newestFirst (scansOf db projectId)) :
    s.WellFormed := by
  have hmem := (perm_newestFirst _).mem_iff.mp hs
  rw [scansOf, List.mem_filter, decide_eq_true_iff] at hmem
  exact hformed s hmem.1 hmem.2

include hids hformed

theorem descending_newestFirst (p : Scan → Bool) :
    Descending key (newestFirst ((scansOf db projectId).filter p)) := by
  rw [newestFirst_eq]
  apply descending_mergeSort
  apply map_key_nodup
  · exact hids.sublist ((List.filter_sublist.trans List.filter_sublist).map Scan.id)
  · intro s hs
    have hmem := List.mem_of_mem_filter hs
    rw [scansOf, List.mem_filter, decide_eq_true_iff] at hmem
    exact hformed s hmem.1 hmem.2

theorem descending_scansOf : Descending key (newestFirst (scansOf db projectId)) := by
  have h : Descending key (newestFirst ((scansOf db projectId).filter fun _ => true)) :=
    descending_newestFirst hids hformed fun _ => true
  rwa [List.filter_true] at h

/-- Filtering before the sort is filtering after it. -/
theorem newestFirst_filter (p : Scan → Bool) :
    newestFirst ((scansOf db projectId).filter p) =
      (newestFirst (scansOf db projectId)).filter p := by
  refine (descending_newestFirst hids hformed p).eq_of_perm
    ((descending_scansOf hids hformed).filter p) ?_
  exact (perm_newestFirst _).trans ((perm_newestFirst _).filter p).symm

/-- A page begins after the scan whose position it is asked for by. -/
theorem scansPage_after {earlier rest : List Scan} {last : Scan}
    (hsplit : newestFirst (scansOf db projectId) = earlier ++ last :: rest) (n : ℕ) :
    scansPage db projectId (some last.position) n = rest.take n := by
  have hbelow : (newestFirst (scansOf db projectId)).filter
      (fun s => rowLess s.position last.position) = rest := by
    have hless : (fun s : Scan => rowLess s.position last.position) =
        fun s => decide (key s < key last) := by
      funext s
      rw [Bool.eq_iff_iff, rowLess_iff, decide_eq_true_iff]
    have hdescending := descending_scansOf hids hformed
    rw [hsplit] at hdescending ⊢
    rw [hless]
    exact hdescending.filter_below
  have hrows : db.filter (fun s => decide (s.project_id = projectId) &&
      rowLess s.position last.position) =
        (scansOf db projectId).filter fun s => rowLess s.position last.position := by
    rw [scansOf, List.filter_filter]
    congr 1
    funext s
    exact Bool.and_comm _ _
  rw [scansPage]
  dsimp only
  rw [hrows, newestFirst_filter hids hformed, hbelow]

/-- Where the cursor of a page stands: before all scans, or right after one of them. -/
def Before (db : List Scan) (projectId : JsString) (cursor : Option JsString) (rest : List Scan) :
    Prop :=
  (cursor = none ∧ rest = newestFirst (scansOf db projectId)) ∨
    ∃ earlier last, newestFirst (scansOf db projectId) = earlier ++ last :: rest ∧
      cursor = some (encodeScansCursor last.position)

section Walk

include haccess hlimit

/-- The pages of the service are those of the list. -/
theorem pages_listScans (hpos : 0 < limit) :
    Pages (fun cursor => listScans a db projectId userId ⟨limitText, cursor, none⟩) limit
      (Before db projectId) := by
  have hservice : ∀ {cursor : Option JsString} {rest : List Scan},
      Before db projectId cursor rest →
      ∃ before, (∀ n, scansPage db projectId before n = rest.take n) ∧
        listScans a db projectId userId ⟨limitText, cursor, none⟩ =
          .ok ((getScans db projectId limit before).1,
            (getScans db projectId limit before).2.map encodeScansCursor) := by
    rintro cursor rest (⟨rfl, rfl⟩ | ⟨earlier, last, hsplit, rfl⟩)
    · exact ⟨none, scansPage_first, listScans_of_cursor haccess hlimit (Or.inl ⟨rfl, rfl⟩)⟩
    · have hlast : last.WellFormed := formed_of_mem hformed (by
        rw [hsplit]
        exact List.mem_append_right earlier List.mem_cons_self)
      have hgiven : given (some (encodeScansCursor last.position)) =
          some (encodeScansCursor last.position) := by
        rw [given, Option.filter_some, if_pos (decide_eq_true (encodeScansCursor_ne_nil hlast))]
      exact ⟨some last.position, scansPage_after hids hformed hsplit,
        listScans_of_cursor haccess hlimit (Or.inr ⟨_, _, hgiven,
          decodeScansCursor_encodeScansCursor hlast, rfl⟩)⟩
  constructor
  · intro cursor rest hbefore hlength
    obtain ⟨before, hpage, hlist⟩ := hservice hbefore
    rw [hlist, getScans_last hpage hlength]
    rfl
  · intro cursor rest hbefore hlength
    obtain ⟨before, hpage, hlist⟩ := hservice hbefore
    obtain ⟨earlier, last, hrest, hget⟩ := getScans_more hpage hpos hlength
    refine ⟨encodeScansCursor last.position, ?_, Or.inr ?_⟩
    · rw [hlist, hget]
      rfl
    · rcases hbefore with ⟨-, rfl⟩ | ⟨earlier', last', hsplit, -⟩
      · exact ⟨earlier, last, hrest, rfl⟩
      · refine ⟨earlier' ++ last' :: earlier, last, ?_, rfl⟩
        rw [hsplit, List.append_assoc, List.cons_append]
        conv_lhs => rw [hrest]

end Walk

end Project

/-- The text of a number, as a client writes it. -/
def numberText (n : ℕ) : JsString := (Nat.toDigits 10 n).map Char.toNat

set_option maxRecDepth 4000 in
/-- Each limit that a client may ask for is one. -/
theorem parseScansLimit_numberText : ∀ n < 201, 1 ≤ n →
    parseScansLimit (some (numberText n)) = .ok n := by
  decide

/-- Following the cursors yields every scan of the project once, newest first, whatever the size of
the pages, and ends. -/
theorem following_cursors_yields_all {db : List Scan} {projectId : JsString}
    (hids : (db.map Scan.id).Nodup)
    (hformed : ∀ s ∈ db, s.project_id = projectId → s.WellFormed)
    {a : Access} {userId : Option JsString} (haccess : a.check projectId userId = .ok ())
    {n : ℕ} (hpos : 1 ≤ n) (hmax : n ≤ 200) :
    parseScansLimit (some (numberText n)) = .ok n ∧
    ∀ limit, parseScansLimit limit = .ok n →
      ∃ scans : List Scan, scans.Perm (scansOf db projectId) ∧
        scans.Pairwise (fun s s' => rowLess s'.position s.position = true) ∧
        ∀ calls, (scansOf db projectId).length < calls →
          follow (fun cursor => listScans a db projectId userId ⟨limit, cursor, none⟩) calls none =
            some (.ok scans) := by
  refine ⟨parseScansLimit_numberText n (by omega) hpos, ?_⟩
  intro limit hlimit
  refine ⟨newestFirst (scansOf db projectId), perm_newestFirst _, ?_, ?_⟩
  · exact (descending_scansOf hids hformed).imp fun h => (rowLess_iff _ _).mpr h
  · intro calls hcalls
    refine (pages_listScans haccess hlimit hids hformed hpos).follow_eq hpos calls
      (Or.inl ⟨rfl, rfl⟩) ?_
    rwa [(perm_newestFirst _).length_eq]

/-- Three scans of one second and a scan of another project, one to a page. -/
theorem following_cursors_yields_all_ties :
    let scan (id : String) (project : String) : Scan :=
      ⟨js id, js project, js "completed", js "2026-01-31 09:05:00"⟩
    let db := [scan "b" "p", scan "x" "q", scan "a" "p", scan "c" "p"]
    parseScansLimit (some (numberText 1)) = .ok 1 ∧
    ∀ limit, parseScansLimit limit = .ok 1 →
      ∃ scans : List Scan, scans.Perm (scansOf db (js "p")) ∧
        scans.Pairwise (fun s s' => rowLess s'.position s.position = true) ∧
        ∀ calls, (scansOf db (js "p")).length < calls →
          follow (fun cursor => listScans ⟨false, fun _ _ => false⟩ db (js "p") none
            ⟨limit, cursor, none⟩) calls none = some (.ok scans) := by
  intro scan db
  refine following_cursors_yields_all (by decide) ?_ rfl (Nat.le_refl 1) (by decide)
  intro s hs _
  simp only [db, List.mem_cons, List.not_mem_nil, or_false] at hs
  rcases hs with rfl | rfl | rfl | rfl <;> exact ⟨by decide, by decide⟩

end Swazz.ScanPages
