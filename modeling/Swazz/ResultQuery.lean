import Mathlib.Algebra.Order.Monoid.Unbundled.WithTop
import Mathlib.Algebra.Order.Group.Nat
import Mathlib.Data.List.Lex
import Mathlib.Data.List.Nodup
import Mathlib.Order.BoundedOrder.Basic
import Swazz.ConfigForRunner
import Swazz.OffsetPaging

/-! The query for a page of a run's stored results: small runs are filtered and sorted in memory,
large ones are read with a cursor over an index. -/
namespace Swazz.Results

open OffsetPaging
open RunnerAccess (JsString js toLowerCase toUpperCase)

/-- What a query reads of a result; `T` is the type of the numbers that are sorted by. -/
structure ResultSummary (T : Type) where
  id : JsString
  timestamp : T
  duration : T
  method : JsString
  endpoint : JsString
  profile : JsString
  status : ℤ
  error : Option JsString
  /-- How many there are. -/
  analyzerFindings : Option ℕ
  identity : Option JsString

/-- A result as it is stored, under the ID of its run. -/
structure Stored (T : Type) where
  runId : JsString
  row : ResultSummary T

/-- The object store, in the order of its keys. -/
structure Store (T : Type) where
  results : List (Stored T)
  keyed : results.Pairwise fun a b => a.row.id < b.row.id

inductive StatusFilter where
  | all
  | s2xx
  | s4xx
  | s5xx
  deriving DecidableEq

inductive SortKey where
  | timestamp
  | duration
  deriving DecidableEq

inductive SortDir where
  | asc
  | desc
  deriving DecidableEq

structure HeatmapFilter where
  method : JsString
  path : JsString
  status : ℤ

structure QueryOptions where
  runId : JsString
  statusFilter : StatusFilter
  search : JsString
  sortKey : SortKey
  sortDir : SortDir
  limit : ℕ
  offset : ℕ
  identityFilter : JsString
  findingsOnly : Bool
  heatmapFilter : Option HeatmapFilter

structure Page (T : Type) where
  rows : List (ResultSummary T)
  total : ℕ

/-- A string that is there and not empty. -/
def truthy (s : Option JsString) : Bool := s.any fun s => !s.isEmpty

section

variable {T : Type}

/-- `runIdIndex.getAll(runId)`: in the order of the keys. -/
def getAll (store : Store T) (runId : JsString) : List (ResultSummary T) :=
  (store.results.filter fun r => r.runId = runId).map Stored.row

variable (isFinal : JsString → ℕ → Bool)

/-! ### In memory -/

def listByIdentity (opts : QueryOptions) (list : List (ResultSummary T)) :
    List (ResultSummary T) :=
  if !opts.identityFilter.isEmpty && opts.identityFilter ≠ js "all" then
    list.filter fun r =>
      if opts.identityFilter = js "User A" then
        !truthy r.identity || r.identity.map (toLowerCase isFinal) = some (js "user a")
      else r.identity.map (toLowerCase isFinal) = some (toLowerCase isFinal opts.identityFilter)
  else list

def listByStatus (opts : QueryOptions) (list : List (ResultSummary T)) : List (ResultSummary T) :=
  match opts.statusFilter with
  | .s5xx => list.filter fun r => 500 ≤ r.status || r.status = 0
  | .s4xx => list.filter fun r => 400 ≤ r.status && r.status < 500
  | .s2xx => list.filter fun r => 200 ≤ r.status && r.status < 300
  | .all => list

def listByFindings (opts : QueryOptions) (list : List (ResultSummary T)) :
    List (ResultSummary T) :=
  if opts.findingsOnly then
    list.filter fun r =>
      let isMcpErr := r.method = js "CALL" || r.method = js "MCP" ||
        (!r.endpoint.isEmpty && (js "mcp://tool/").isPrefixOf r.endpoint)
      (r.analyzerFindings.any fun n => 0 < n) || 400 ≤ r.status ||
        (r.status = 0 && truthy r.error) || isMcpErr
  else list

def listByHeatmap (opts : QueryOptions) (list : List (ResultSummary T)) : List (ResultSummary T) :=
  match opts.heatmapFilter with
  | some f => list.filter fun r =>
      toUpperCase r.method = toUpperCase f.method && r.endpoint = f.path && r.status = f.status
  | none => list

/-- `includes` -/
def includes (s q : JsString) : Bool :=
  (List.range (s.length + 1)).any fun i => q.isPrefixOf (s.drop i)

def listBySearch (opts : QueryOptions) (list : List (ResultSummary T)) : List (ResultSummary T) :=
  if !opts.search.isEmpty then
    let q := toLowerCase isFinal opts.search
    list.filter fun r => includes (toLowerCase isFinal r.endpoint) q ||
      includes (toLowerCase isFinal r.profile) q
  else list

/-- The matching results, in the order of their keys. -/
def matching (store : Store T) (opts : QueryOptions) : List (ResultSummary T) :=
  listBySearch isFinal opts (listByHeatmap opts (listByFindings opts (listByStatus opts
    (listByIdentity isFinal opts (getAll store opts.runId)))))

variable [LinearOrder T]

/-- The comparison of `sort` is not positive: it is the sign of a difference. -/
def comesFirst (opts : QueryOptions) (a b : ResultSummary T) : Bool :=
  let va := if opts.sortKey = .timestamp then a.timestamp else a.duration
  let vb := if opts.sortKey = .timestamp then b.timestamp else b.duration
  if opts.sortDir = .asc then va ≤ vb else vb ≤ va

/-- The path for small runs, and for durations. -/
def queryInMemory (store : Store T) (opts : QueryOptions) : Page T :=
  let list := (matching isFinal store opts).mergeSort (comesFirst opts)
  ⟨page opts.offset opts.limit list, list.length⟩

/-! ### With a cursor -/

/-- The tests of the cursor, each made if the result still matches. -/
def cursorMatches (opts : QueryOptions) (r : ResultSummary T) : Bool :=
  let m :=
    if !opts.identityFilter.isEmpty && opts.identityFilter ≠ js "all" then
      if opts.identityFilter = js "User A" then
        !truthy r.identity || r.identity.map (toLowerCase isFinal) = some (js "user a")
      else r.identity.map (toLowerCase isFinal) = some (toLowerCase isFinal opts.identityFilter)
    else true
  let m :=
    if m && opts.statusFilter ≠ .all then
      match opts.statusFilter with
      | .s5xx => 500 ≤ r.status || r.status = 0
      | .s4xx => 400 ≤ r.status && r.status < 500
      | .s2xx => 200 ≤ r.status && r.status < 300
      | .all => m
    else m
  let m :=
    if m && opts.findingsOnly then
      let isMcpErr := r.method = js "CALL" || r.method = js "MCP" ||
        (!r.endpoint.isEmpty && (js "mcp://tool/").isPrefixOf r.endpoint)
      (r.analyzerFindings.any fun n => 0 < n) || 400 ≤ r.status ||
        (r.status = 0 && truthy r.error) || isMcpErr
    else m
  let m :=
    if m then
      match opts.heatmapFilter with
      | some f =>
        toUpperCase r.method = toUpperCase f.method && r.endpoint = f.path && r.status = f.status
      | none => m
    else m
  if m && !opts.search.isEmpty then
    let q := toLowerCase isFinal opts.search
    includes (toLowerCase isFinal r.endpoint) q || includes (toLowerCase isFinal r.profile) q
  else m

def hasFilters (opts : QueryOptions) : Bool :=
  !opts.search.isEmpty || opts.statusFilter ≠ .all || opts.identityFilter ≠ js "all" ||
    opts.findingsOnly || opts.heatmapFilter.isSome

/-- What the cursor goes over: the keys from `[runId, 0]` to `[runId, Infinity]` of the index, by
timestamps and then by the keys of the results, or all the other way. -/
def cursorRange [Zero T] [OrderTop T] (store : Store T) (opts : QueryOptions) :
    List (ResultSummary T) :=
  let range := (getAll store opts.runId).filter fun r => 0 ≤ r.timestamp && r.timestamp ≤ ⊤
  let next := range.mergeSort fun a b => a.timestamp ≤ b.timestamp
  if opts.sortDir = .desc then next.reverse else next

/-- The steps of the cursor from here on. -/
def cursorFrom (opts : QueryOptions) (totalCount : ℕ) :
    List (ResultSummary T) → List (ResultSummary T) → ℕ → Page T
  | [], rows, matchedCount => ⟨rows, matchedCount⟩
  | r :: rest, rows, matchedCount =>
    if cursorMatches isFinal opts r then
      let matchedCount := matchedCount + 1
      let rows :=
        if opts.offset < matchedCount ∧ rows.length < opts.limit then rows ++ [r] else rows
      if !hasFilters opts && opts.limit ≤ rows.length then ⟨rows, totalCount⟩
      else if opts.limit ≤ rows.length ∧ opts.offset + opts.limit < matchedCount then
        ⟨rows, totalCount⟩
      else cursorFrom opts totalCount rest rows matchedCount
    else cursorFrom opts totalCount rest rows matchedCount

def queryByCursor [Zero T] [OrderTop T] (store : Store T) (opts : QueryOptions) : Page T :=
  cursorFrom isFinal opts (getAll store opts.runId).length (cursorRange store opts) [] 0

/-! ### The query -/

def dbQueryResults [Zero T] [OrderTop T] (store : Store T) (opts : QueryOptions) : Page T :=
  let totalCount := (getAll store opts.runId).length
  if opts.sortKey ≠ .timestamp ∨ totalCount < 2000 then queryInMemory isFinal store opts
  else queryByCursor isFinal store opts

/-! ### The two copies of the filters -/

def keepIdentity (opts : QueryOptions) (r : ResultSummary T) : Bool :=
  if !opts.identityFilter.isEmpty && opts.identityFilter ≠ js "all" then
    if opts.identityFilter = js "User A" then
      !truthy r.identity || r.identity.map (toLowerCase isFinal) = some (js "user a")
    else r.identity.map (toLowerCase isFinal) = some (toLowerCase isFinal opts.identityFilter)
  else true

def keepStatus (opts : QueryOptions) (r : ResultSummary T) : Bool :=
  match opts.statusFilter with
  | .s5xx => 500 ≤ r.status || r.status = 0
  | .s4xx => 400 ≤ r.status && r.status < 500
  | .s2xx => 200 ≤ r.status && r.status < 300
  | .all => true

def keepFindings (opts : QueryOptions) (r : ResultSummary T) : Bool :=
  if opts.findingsOnly then
    (r.analyzerFindings.any fun n => 0 < n) || 400 ≤ r.status ||
      (r.status = 0 && truthy r.error) || (r.method = js "CALL" || r.method = js "MCP" ||
        (!r.endpoint.isEmpty && (js "mcp://tool/").isPrefixOf r.endpoint))
  else true

def keepHeatmap (opts : QueryOptions) (r : ResultSummary T) : Bool :=
  match opts.heatmapFilter with
  | some f =>
    toUpperCase r.method = toUpperCase f.method && r.endpoint = f.path && r.status = f.status
  | none => true

def keepSearch (opts : QueryOptions) (r : ResultSummary T) : Bool :=
  if !opts.search.isEmpty then
    includes (toLowerCase isFinal r.endpoint) (toLowerCase isFinal opts.search) ||
      includes (toLowerCase isFinal r.profile) (toLowerCase isFinal opts.search)
  else true

omit [LinearOrder T]

variable {store : Store T} {opts : QueryOptions} {list : List (ResultSummary T)}

theorem filter_true : list.filter (fun _ => true) = list := List.filter_eq_self.mpr fun _ _ => rfl

theorem listByIdentity_eq (opts : QueryOptions) (list : List (ResultSummary T)) :
    listByIdentity isFinal opts list = list.filter (keepIdentity isFinal opts) := by
  unfold listByIdentity keepIdentity
  split_ifs
  · rfl
  · rfl
  · exact filter_true.symm

theorem listByStatus_eq (opts : QueryOptions) (list : List (ResultSummary T)) :
    listByStatus opts list = list.filter (keepStatus opts) := by
  unfold listByStatus keepStatus
  cases opts.statusFilter with
  | all => exact filter_true.symm
  | s2xx => rfl
  | s4xx => rfl
  | s5xx => rfl

theorem listByFindings_eq (opts : QueryOptions) (list : List (ResultSummary T)) :
    listByFindings opts list = list.filter (keepFindings opts) := by
  unfold listByFindings keepFindings
  split_ifs
  · rfl
  · exact filter_true.symm

theorem listByHeatmap_eq (opts : QueryOptions) (list : List (ResultSummary T)) :
    listByHeatmap opts list = list.filter (keepHeatmap opts) := by
  unfold listByHeatmap keepHeatmap
  cases opts.heatmapFilter with
  | none => exact filter_true.symm
  | some f => rfl

theorem listBySearch_eq (opts : QueryOptions) (list : List (ResultSummary T)) :
    listBySearch isFinal opts list = list.filter (keepSearch isFinal opts) := by
  unfold listBySearch keepSearch
  split_ifs
  · rfl
  · exact filter_true.symm

/-- A test made only if the result still matches is a conjunction. -/
theorem ite_and (m b p : Bool) : (if m && b then p else m) = (m && if b then p else true) := by
  cases m <;> cases b <;> simp

theorem cursorMatches_eq (opts : QueryOptions) (r : ResultSummary T) :
    cursorMatches isFinal opts r = (keepIdentity isFinal opts r && keepStatus opts r &&
      keepFindings opts r && keepHeatmap opts r && keepSearch isFinal opts r) := by
  have hstatus (m : Bool) : (if m && opts.statusFilter ≠ .all then
      match opts.statusFilter with
      | .s5xx => 500 ≤ r.status || r.status = 0
      | .s4xx => 400 ≤ r.status && r.status < 500
      | .s2xx => 200 ≤ r.status && r.status < 300
      | .all => m
    else m) = (m && keepStatus opts r) := by
    unfold keepStatus
    cases m <;> cases opts.statusFilter <;> simp
  have hheatmap (m : Bool) : (if m then
      match opts.heatmapFilter with
      | some f =>
        toUpperCase r.method = toUpperCase f.method && r.endpoint = f.path && r.status = f.status
      | none => m
    else m) = (m && keepHeatmap opts r) := by
    unfold keepHeatmap
    cases m <;> cases opts.heatmapFilter <;> simp
  simp only [cursorMatches, hstatus, hheatmap, ite_and]
  rfl

/-- The cursor keeps what the filters of a list keep. -/
theorem matching_eq (store : Store T) (opts : QueryOptions) : matching isFinal store opts =
    (getAll store opts.runId).filter (cursorMatches isFinal opts) := by
  have hand (r : ResultSummary T) : (keepSearch isFinal opts r && keepHeatmap opts r &&
      keepFindings opts r && keepStatus opts r && keepIdentity isFinal opts r) =
      cursorMatches isFinal opts r := by
    rw [cursorMatches_eq]
    ac_rfl
  rw [matching, listBySearch_eq, listByHeatmap_eq, listByFindings_eq, listByStatus_eq,
    listByIdentity_eq, List.filter_filter, List.filter_filter, List.filter_filter,
    List.filter_filter, List.filter_congr fun r _ => hand r]

theorem cursorMatches_of_no_filters (h : hasFilters opts = false) (r : ResultSummary T) :
    cursorMatches isFinal opts r = true := by
  simp only [hasFilters, Bool.or_eq_false_iff, Bool.not_eq_false', decide_eq_false_iff_not, ne_eq,
    not_not, Option.isSome_eq_false_iff, Option.isNone_iff_eq_none] at h
  obtain ⟨⟨⟨⟨hsearch, hstatus⟩, hidentity⟩, hfindings⟩, hheatmap⟩ := h
  simp [cursorMatches_eq, keepIdentity, keepStatus, keepFindings, keepHeatmap, keepSearch, hsearch,
    hstatus, hidentity, hfindings, hheatmap]

end

/-! ### The pages -/

section

variable {T : Type}

/-- The answer is the page of the list, and its total says whether more of the list follows. -/
structure Answers (opts : QueryOptions) (list : List (ResultSummary T)) (result : Page T) :
    Prop where
  rows : result.rows = page opts.offset opts.limit list
  more : opts.offset + result.rows.length < result.total ↔
    opts.offset + result.rows.length < list.length

variable (isFinal : JsString → ℕ → Bool) {opts : QueryOptions} {list : List (ResultSummary T)}

/-- The cursor stops with the page. What it has gone over are the matching results `p`. -/
theorem answers_cursorFrom (opts : QueryOptions) {totalCount : ℕ} (hle : list.length ≤ totalCount)
    (hall : hasFilters opts = false → list.length = totalCount)
    (rest p : List (ResultSummary T))
    (hlist : list = p ++ rest.filter (cursorMatches isFinal opts)) :
    Answers opts list
      (cursorFrom isFinal opts totalCount rest (page opts.offset opts.limit p) p.length) := by
  induction rest generalizing p with
  | nil =>
    rw [List.filter_nil, List.append_nil] at hlist
    exact hlist ▸ ⟨rfl, Iff.rfl⟩
  | cons r rest ih =>
    by_cases hr : cursorMatches isFinal opts r = true
    · rw [List.filter_cons_of_pos hr, ← List.singleton_append, ← List.append_assoc] at hlist
      have hlen : (p ++ [r]).length = p.length + 1 := List.length_append
      have hrows : page opts.offset opts.limit (p ++ [r]) = _ := page_concat p r
      have hstep : cursorFrom isFinal opts totalCount (r :: rest)
          (page opts.offset opts.limit p) p.length =
          if !hasFilters opts && opts.limit ≤ (page opts.offset opts.limit (p ++ [r])).length then
            ⟨page opts.offset opts.limit (p ++ [r]), totalCount⟩
          else if opts.limit ≤ (page opts.offset opts.limit (p ++ [r])).length ∧
              opts.offset + opts.limit < (p ++ [r]).length then
            ⟨page opts.offset opts.limit (p ++ [r]), totalCount⟩
          else cursorFrom isFinal opts totalCount rest (page opts.offset opts.limit (p ++ [r]))
            (p ++ [r]).length := by
        rw [cursorFrom, if_pos hr, hrows, hlen]
      rw [hstep]
      have hfull (h : opts.limit ≤ (page opts.offset opts.limit (p ++ [r])).length) :
          page opts.offset opts.limit (p ++ [r]) = page opts.offset opts.limit list := by
        rw [hlist, page_append_of_full h]
      split_ifs with hstop hnext
      · obtain ⟨hnone, hlimit⟩ := Bool.and_eq_true_iff.mp hstop
        refine ⟨hfull (of_decide_eq_true hlimit), ?_⟩
        rw [hall (Bool.not_eq_true' _ ▸ hnone)]
      · refine ⟨hfull hnext.1, ?_⟩
        have hlonger : (p ++ [r]).length ≤ list.length := by
          rw [hlist]
          exact (List.prefix_append (p ++ [r]) (rest.filter (cursorMatches isFinal opts))).length_le
        have hpage : (page opts.offset opts.limit (p ++ [r])).length ≤ opts.limit := by
          rw [length_page]
          exact min_le_left _ _
        show opts.offset + (page opts.offset opts.limit (p ++ [r])).length < totalCount ↔
          opts.offset + (page opts.offset opts.limit (p ++ [r])).length < list.length
        omega
      · exact ih (p ++ [r]) hlist
    · rw [List.filter_cons_of_neg hr] at hlist
      rw [cursorFrom, if_neg hr]
      exact ih p hlist

/-! ### The order of the results -/

variable [LinearOrder T] (store : Store T)

/-- Ascending or descending timestamps. -/
def InOrder (dir : SortDir) (a b : ResultSummary T) : Prop :=
  if dir = .asc then a.timestamp ≤ b.timestamp else b.timestamp ≤ a.timestamp

theorem pairwise_mergeSort_le {le : ResultSummary T → ResultSummary T → Bool} (dir : SortDir)
    (hle : ∀ a b, le a b = true ↔ InOrder dir a b) (list : List (ResultSummary T)) :
    (list.mergeSort le).Pairwise (InOrder dir) := by
  have hsorted : (list.mergeSort le).Pairwise fun a b => le a b = true := by
    refine List.pairwise_mergeSort (fun a b c hab hbc => ?_) (fun a b => ?_) list
    · rw [hle] at hab hbc ⊢
      unfold InOrder at hab hbc ⊢
      split_ifs at hab hbc ⊢
      · exact hab.trans hbc
      · exact hbc.trans hab
    · rw [Bool.or_eq_true, hle, hle]
      unfold InOrder
      split_ifs
      · exact le_total _ _
      · exact le_total _ _
  exact hsorted.imp fun h => (hle _ _).mp h

theorem comesFirst_iff (h : opts.sortKey = .timestamp) (a b : ResultSummary T) :
    comesFirst opts a b = true ↔ InOrder opts.sortDir a b := by
  unfold comesFirst InOrder
  rw [if_pos h, if_pos h]
  split_ifs <;> exact decide_eq_true_iff

theorem pairwise_cursorRange [Zero T] [OrderTop T] :
    (cursorRange store opts).Pairwise (InOrder opts.sortDir) := by
  have hnext : (((getAll store opts.runId).filter fun r =>
      0 ≤ r.timestamp && r.timestamp ≤ ⊤).mergeSort fun a b =>
        a.timestamp ≤ b.timestamp).Pairwise (InOrder .asc) :=
    pairwise_mergeSort_le .asc (fun a b => decide_eq_true_iff.trans (Iff.of_eq (if_pos rfl).symm)) _
  unfold cursorRange
  cases hdir : opts.sortDir with
  | asc =>
    rw [if_neg (by simp)]
    exact hnext
  | desc =>
    rw [if_pos rfl, List.pairwise_reverse]
    exact hnext.imp fun h => h

theorem perm_cursorRange [Zero T] [OrderTop T]
    (hpos : ∀ r ∈ getAll store opts.runId, 0 ≤ r.timestamp) :
    (cursorRange store opts).Perm (getAll store opts.runId) := by
  have hrange : ((getAll store opts.runId).filter fun r =>
      0 ≤ r.timestamp && r.timestamp ≤ ⊤) = getAll store opts.runId := by
    rw [List.filter_eq_self]
    intro r hr
    exact Bool.and_eq_true_iff.mpr ⟨decide_eq_true (hpos r hr), decide_eq_true le_top⟩
  unfold cursorRange
  rw [hrange]
  dsimp only
  split_ifs
  · exact (List.reverse_perm _).trans (List.mergeSort_perm _ _)
  · exact List.mergeSort_perm _ _

/-! ### Paging -/

omit [LinearOrder T] in
theorem nodup_matching : ((matching isFinal store opts).map ResultSummary.id).Nodup := by
  have hall : (getAll store opts.runId).Pairwise fun a b => a.id < b.id :=
    List.pairwise_map.mpr (store.keyed.filter _)
  rw [matching_eq]
  exact List.pairwise_map.mpr ((hall.filter _).imp fun h => ne_of_lt h)

theorem answers_inMemory (k : ℕ) : Answers { opts with offset := k }
    ((matching isFinal store opts).mergeSort (comesFirst opts))
    (queryInMemory isFinal store { opts with offset := k }) :=
  ⟨rfl, Iff.rfl⟩

theorem answers_byCursor [Zero T] [OrderTop T] (k : ℕ)
    (hpos : ∀ r ∈ getAll store opts.runId, 0 ≤ r.timestamp) : Answers { opts with offset := k }
    ((cursorRange store opts).filter (cursorMatches isFinal opts))
    (queryByCursor isFinal store { opts with offset := k }) := by
  have hperm := perm_cursorRange store hpos
  have hle : ((cursorRange store opts).filter (cursorMatches isFinal opts)).length ≤
      (getAll store opts.runId).length :=
    (List.length_filter_le _ _).trans_eq hperm.length_eq
  have hall (hnone : hasFilters opts = false) :
      ((cursorRange store opts).filter (cursorMatches isFinal opts)).length =
        (getAll store opts.runId).length := by
    rw [List.filter_eq_self.mpr fun r _ => cursorMatches_of_no_filters isFinal hnone r]
    exact hperm.length_eq
  have hempty : page k opts.limit ([] : List (ResultSummary T)) = [] := by
    rw [page, List.drop_nil, List.take_nil]
  have h : Answers { opts with offset := k } _
      (cursorFrom isFinal { opts with offset := k } (getAll store opts.runId).length
        (cursorRange store opts) (page k opts.limit []) 0) :=
    answers_cursorFrom isFinal { opts with offset := k } hle hall (cursorRange store opts) [] rfl
  rw [hempty] at h
  exact h

/-- The pages at the multiples of the limit are the matching results, each once and in order; the
total of a page is past its end when more results match. -/
structure Paged (query : QueryOptions → Page T) (opts : QueryOptions)
    (list : List (ResultSummary T)) : Prop where
  matching : list.Perm (matching isFinal store opts)
  once : (list.map ResultSummary.id).Nodup
  inOrder : list.Pairwise (InOrder opts.sortDir)
  first : ∀ n, ((List.range n).flatMap fun k =>
    (query { opts with offset := k * opts.limit }).rows) = list.take (n * opts.limit)
  all : ∀ n, list.length ≤ n → ((List.range n).flatMap fun k =>
    (query { opts with offset := k * opts.limit }).rows) = list
  more : ∀ k, k * opts.limit + (query { opts with offset := k * opts.limit }).rows.length <
      (query { opts with offset := k * opts.limit }).total ↔
    list.drop (k * opts.limit + (query { opts with offset := k * opts.limit }).rows.length) ≠ []

theorem paged_of_answers {query : QueryOptions → Page T} (hlimit : 1 ≤ opts.limit)
    (hperm : list.Perm (matching isFinal store opts)) (horder : list.Pairwise (InOrder opts.sortDir))
    (h : ∀ k, Answers { opts with offset := k } list (query { opts with offset := k })) :
    Paged isFinal store query opts list := by
  have hfirst (n : ℕ) : ((List.range n).flatMap fun k =>
      (query { opts with offset := k * opts.limit }).rows) = list.take (n * opts.limit) := by
    rw [List.flatMap_congr fun k _ => (h (k * opts.limit)).rows]
    exact flatMap_pages opts.limit n list
  refine ⟨hperm, ?_, horder, hfirst, fun n hn => ?_, fun k => ?_⟩
  · exact (hperm.map ResultSummary.id).nodup_iff.mpr (nodup_matching isFinal store)
  · rw [hfirst, List.take_of_length_le (hn.trans (Nat.le_mul_of_pos_right n hlimit))]
  · rw [ne_eq, List.drop_eq_nil_iff, not_le]
    exact (h (k * opts.limit)).more

end

def oneResult : ResultSummary (WithTop ℕ) where
  id := js "a"
  timestamp := 7
  duration := 3
  method := js "GET"
  endpoint := js "/users"
  profile := js "RANDOM"
  status := 200
  error := none
  analyzerFindings := some 0
  identity := none

def oneStore : Store (WithTop ℕ) := ⟨[⟨js "r", oneResult⟩], List.pairwise_singleton _ _⟩

def newestFirst : QueryOptions where
  runId := js "r"
  statusFilter := .s2xx
  search := js "USERS"
  sortKey := .timestamp
  sortDir := .desc
  limit := 1
  offset := 0
  identityFilter := js "all"
  findingsOnly := false
  heatmapFilter := none

end Swazz.Results
