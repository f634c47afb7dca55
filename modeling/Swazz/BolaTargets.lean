import Swazz.BolaHarvestBounds

/-! The requests that a candidate is replayed with: which of them is its own request again. -/
namespace Swazz.Bola

open Utf8 hiding runes
open GoUrl EntryMap FillUp GoStrings StepSystem

variable {F : Type} (fl : Floats F)

/-- The payload that is sent, in the body or in the query, when no ID is put in it. -/
def Candidate.sent (cand : Candidate F) : Any F :=
  resolveReplayPayload fl cand (replayParamName cand) []

/-- The text of the candidate's own ID in its payload. -/
def Candidate.ownID (cand : Candidate F) : Option Text :=
  match cand.Payload with
  | .map entries => formatIDScalar fl (field entries (replayParamName cand))
  | _ => none

mutual

/-- The values that an ID takes the place of. -/
def idValues (paramName : Text) : Any F → List (Any F)
  | .map entries => idEntries paramName entries
  | .list items => idItems paramName items
  | .null => []
  | .bool _ => []
  | .str _ => []
  | .float _ => []
  | .int _ => []

def idEntries (paramName : Text) : List (Text × Any F) → List (Any F)
  | [] => []
  | (k, v) :: rest =>
    (if equalFold k paramName || isIDParam k then [v] else idValues paramName v) ++
      idEntries paramName rest

def idItems (paramName : Text) : List (Any F) → List (Any F)
  | [] => []
  | v :: rest => idValues paramName v ++ idItems paramName rest

end

/-- The value is the ID, or the number that its text stands for. -/
def Denotes (id : Text) : Any F → Prop
  | .str s => s = id
  | .float x => fl.ParseFloat id = some x
  | .int n => Atoi id = some n
  | _ => False

/-- The ID is put where the candidate has it already, under another text: the template has no
place for it in the path, and each value of the payload that it replaces is itself. -/
structure Repeats (cand : Candidate F) (id : Text) : Prop where
  no_place : templateHasIDParam cand.Endpoint = false
  path : 123 ∈ cand.Endpoint →
    cand.ResolvedPath = slash :: [slash].intercalate (segments cand.ResolvedPath)
  other_text : cand.ownID fl ≠ some id
  payload : ∀ v ∈ idValues (replayParamName cand) (cand.sent fl), Denotes fl id v

/-- What is claimed of the targets of a candidate. -/
structure TargetsFresh (st : State F) (cand : Candidate F) (expandIDs : Bool) : Prop where
  nodup : (st.buildPathsToTest fl cand expandIDs).Nodup
  own_first : (st.buildPathsToTest fl cand expandIDs).head? = some ⟨cand.ResolvedPath, []⟩
  length_le : (st.buildPathsToTest fl cand expandIDs).length ≤ 1 + maxHarvestedIDsToTest
  no_repeat : ∀ t ∈ (st.buildPathsToTest fl cand expandIDs).tail,
    request fl cand t ≠ request fl cand ⟨cand.ResolvedPath, []⟩

/-! ### Payloads -/

theorem coerceID_eq_iff {v : Any F} {id : Text} : coerceID fl v id = v ↔ Denotes fl id v := by
  cases v with
  | str s => simp [coerceID, Denotes, eq_comm]
  | float x => cases h : fl.ParseFloat id <;> simp [coerceID, Denotes, h]
  | int n => cases h : Atoi id <;> simp [coerceID, Denotes, h]
  | null | bool | list | map => simp [coerceID, Denotes]

mutual

/-- A payload stays what it is when each of the replaced values does. -/
theorem substituteIDs_eq_iff {paramName id : Text} : ∀ v : Any F,
    substituteIDsInPayload fl paramName id v = v ↔ ∀ w ∈ idValues paramName v, Denotes fl id w
  | .map entries => by
    rw [substituteIDsInPayload, idValues, Any.map.injEq]
    exact substituteEntries_eq_iff entries
  | .list items => by
    rw [substituteIDsInPayload, idValues, Any.list.injEq]
    exact substituteItems_eq_iff items
  | .null | .bool _ | .str _ | .float _ | .int _ => by simp [substituteIDsInPayload, idValues]

theorem substituteEntries_eq_iff {paramName id : Text} : ∀ entries : List (Text × Any F),
    substituteEntries fl paramName id entries = entries ↔
      ∀ w ∈ idEntries paramName entries, Denotes fl id w
  | [] => by simp [substituteEntries, idEntries]
  | (k, v) :: rest => by
    rw [substituteEntries, idEntries, List.cons_eq_cons, List.forall_mem_append,
      substituteEntries_eq_iff rest, Prod.mk.injEq, and_iff_right rfl]
    refine and_congr_left' ?_
    split_ifs
    · rw [List.forall_mem_singleton, coerceID_eq_iff]
    · exact substituteIDs_eq_iff v

theorem substituteItems_eq_iff {paramName id : Text} : ∀ items : List (Any F),
    substituteItems fl paramName id items = items ↔ ∀ w ∈ idItems paramName items, Denotes fl id w
  | [] => by simp [substituteItems, idItems]
  | v :: rest => by
    rw [substituteItems, idItems, List.cons_eq_cons, List.forall_mem_append,
      substituteItems_eq_iff rest, substituteIDs_eq_iff v]

end

/-- An ID goes into what is sent without one. -/
theorem resolveReplayPayload_eq {cand : Candidate F} {paramName id : Text} (hid : id ≠ [])
    (hname : paramName ≠ []) : resolveReplayPayload fl cand paramName id =
      substituteIDsInPayload fl paramName id (resolveReplayPayload fl cand paramName []) := by
  obtain ⟨endpoint, resolved, payload, getLike⟩ := cand
  cases getLike <;> cases payload <;>
    simp [resolveReplayPayload, substituteIDsInPayload, isNil, hid, hname]

/-! ### Paths -/

theorem placeIDInSegments_of_none {template base : List Text} (id : Text)
    (h : template.any isIDSegment = false) (hlen : template.length = base.length) :
    placeIDInSegments template base id = base := by
  induction template generalizing base with
  | nil => exact (List.length_eq_zero_iff.mp hlen.symm).symm
  | cons part template ih =>
    cases base with
    | nil => cases hlen
    | cons segment base =>
      rw [List.any_cons, Bool.or_eq_false_iff] at h
      rw [placeIDInSegments, List.zipWith_cons_cons, h.1, ← placeIDInSegments,
        ih h.2 (Nat.succ.inj hlen)]
      rfl

/-- A replay of an ID that is not passed over has the candidate's own path only when the template
has no place for an ID. -/
theorem own_path_iff {cand : Candidate F} {expandIDs : Bool} {id : Text}
    (hexp : expandable cand expandIDs = true)
    (hown : isOwn fl cand (replayParamName cand) (newPath cand id) id = false) :
    newPath cand id = cand.ResolvedPath ↔ templateHasIDParam cand.Endpoint = false ∧
      (123 ∈ cand.Endpoint →
        cand.ResolvedPath = slash :: [slash].intercalate (segments cand.ResolvedPath)) := by
  cases htemplate : templateHasIDParam cand.Endpoint with
  | true =>
    rw [isOwn, if_pos htemplate, Bool.or_eq_false_iff, decide_eq_false_iff_not] at hown
    simp [hown.1]
  | false =>
    rw [and_iff_right rfl, newPath]
    split_ifs with hbrace
    · have haligned : (segments cand.Endpoint).length = (segments cand.ResolvedPath).length := by
        simpa [expandable, hbrace] using (Bool.and_eq_true_iff.mp hexp).2
      rw [placeIDInSegments_of_none id htemplate haligned, eq_comm]
      exact (imp_iff_right hbrace).symm
    · simp [hbrace]

theorem isOwn_of_no_place {cand : Candidate F} {newPath id : Text}
    (h : templateHasIDParam cand.Endpoint = false) :
    isOwn fl cand (replayParamName cand) newPath id = false ↔ cand.ownID fl ≠ some id := by
  rw [isOwn, h, if_neg Bool.false_ne_true, Candidate.ownID]
  cases cand.Payload <;> simp

/-! ### Targets -/

/-- Different IDs make different targets, so each ID that is not passed over adds one. -/
theorem foldl_addTarget (cand : Candidate F) {ids : List Text} {targets : List ReplayTarget}
    (hnodup : ids.Nodup) (hnew : ∀ t ∈ targets, t.id ∉ ids) :
    ids.foldl (addTarget fl cand) targets = targets ++
      (ids.filter fun id => !isOwn fl cand (replayParamName cand) (newPath cand id) id).map
        fun id => ⟨newPath cand id, id⟩ := by
  induction ids generalizing targets with
  | nil => exact (List.append_nil _).symm
  | cons id ids ih =>
    rw [List.nodup_cons] at hnodup
    have hrest : ∀ t ∈ targets, t.id ∉ ids :=
      fun t ht hmem => hnew t ht (List.mem_cons_of_mem _ hmem)
    rw [List.foldl_cons, addTarget]
    split_ifs with hown hmem
    · rw [ih hnodup.2 hrest, List.filter_cons_of_neg (by simp [hown])]
    · exact absurd List.mem_cons_self (hnew _ hmem)
    · rw [List.filter_cons_of_pos (by simp [hown]), ih hnodup.2, List.map_cons, List.append_assoc,
        List.singleton_append]
      intro t ht
      rcases List.mem_append.mp ht with ht | ht
      · exact hrest t ht
      · rw [List.mem_singleton.mp ht]
        exact hnodup.1

/-- The harvested IDs that are tried for a candidate. -/
def State.tried (st : State F) (cand : Candidate F) : List Text :=
  st.harvestedIDsFor (getPathPrefix cand.Endpoint) maxHarvestedIDsToTest

theorem ne_nil_of_tried {st : State F} (hi : Inv fl st) {cand : Candidate F} {id : Text}
    (h : id ∈ st.tried cand) : id ≠ [] := by
  obtain ⟨q, -, hid⟩ := mem_idsOf.mp ((nearFirst st _ _).mem id h)
  rintro rfl
  exact absurd (hi.kept q [] hid).replayable (by decide)

theorem buildPathsToTest_eq {st : State F} (hi : Inv fl st) {cand : Candidate F} {expandIDs : Bool}
    (h : expandable cand expandIDs = true) : st.buildPathsToTest fl cand expandIDs =
      ⟨cand.ResolvedPath, []⟩ :: ((st.tried cand).filter fun id =>
        !isOwn fl cand (replayParamName cand) (newPath cand id) id).map
          fun id => ⟨newPath cand id, id⟩ := by
  rw [State.buildPathsToTest, if_pos h, foldl_addTarget fl cand (nearFirst st _ _).nodup]
  · rfl
  · intro t ht hmem
    rw [List.mem_singleton.mp ht] at hmem
    exact ne_nil_of_tried fl hi hmem rfl

/-- The request of a target is the candidate's own one when its ID repeats it. -/
theorem request_eq_iff {cand : Candidate F} {expandIDs : Bool} {id : Text} (hid : id ≠ [])
    (hexp : expandable cand expandIDs = true)
    (hown : isOwn fl cand (replayParamName cand) (newPath cand id) id = false) :
    request fl cand ⟨newPath cand id, id⟩ = request fl cand ⟨cand.ResolvedPath, []⟩ ↔
      Repeats fl cand id := by
  have hname : replayParamName cand ≠ [] := by
    intro hnil
    simp [expandable, hnil] at hexp
  rw [request, request, Prod.mk.injEq, own_path_iff fl hexp hown, resolveReplayPayload_eq fl hid hname,
    substituteIDs_eq_iff]
  constructor
  · rintro ⟨⟨hplace, hpath⟩, hpayload⟩
    exact ⟨hplace, hpath, (isOwn_of_no_place fl hplace).mp hown, hpayload⟩
  · intro h
    exact ⟨⟨h.no_place, h.path⟩, h.payload⟩

theorem targetsFresh_iff {st : State F} (hi : Inv fl st) (cand : Candidate F) (expandIDs : Bool) :
    TargetsFresh fl st cand expandIDs ↔
      ¬(expandable cand expandIDs = true ∧ ∃ id ∈ st.tried cand, Repeats fl cand id) := by
  by_cases hexp : expandable cand expandIDs = true
  · rw [and_iff_right hexp]
    have heq := buildPathsToTest_eq fl hi hexp
    constructor
    · rintro h ⟨id, hid, hrepeats⟩
      have hown : isOwn fl cand (replayParamName cand) (newPath cand id) id = false :=
        (isOwn_of_no_place fl hrepeats.no_place).mpr hrepeats.other_text
      refine h.no_repeat ⟨newPath cand id, id⟩ ?_
        ((request_eq_iff fl (ne_nil_of_tried fl hi hid) hexp hown).mpr hrepeats)
      rw [heq, List.tail_cons]
      exact List.mem_map_of_mem (List.mem_filter.mpr ⟨hid, by rw [hown]; rfl⟩)
    · intro h
      have hnodup : (st.tried cand).Nodup := (nearFirst st _ _).nodup
      have hlength : (st.tried cand).length ≤ maxHarvestedIDsToTest := by
        rw [State.tried, (nearFirst st _ _).length_eq]
        exact min_le_left _ _
      refine ⟨?_, by rw [heq, List.head?_cons], ?_, ?_⟩
      · rw [heq, List.nodup_cons]
        refine ⟨?_, (hnodup.filter _).map fun a b hab => congrArg ReplayTarget.id hab⟩
        intro hmem
        obtain ⟨id, hid, hown⟩ := List.mem_map.mp hmem
        exact ne_nil_of_tried fl hi (List.mem_of_mem_filter hid) (congrArg ReplayTarget.id hown)
      · rw [heq, List.length_cons, List.length_map, Nat.add_comm]
        exact Nat.add_le_add_left ((List.length_filter_le _ _).trans hlength) 1
      · intro t ht hsame
        rw [heq, List.tail_cons, List.mem_map] at ht
        obtain ⟨id, hid, rfl⟩ := ht
        obtain ⟨hid, hown⟩ := List.mem_filter.mp hid
        rw [Bool.not_eq_true'] at hown
        exact h ⟨id, hid, (request_eq_iff fl (ne_nil_of_tried fl hi hid) hexp hown).mp hsame⟩
  · refine iff_of_true ?_ fun h => hexp h.1
    have heq : st.buildPathsToTest fl cand expandIDs = [⟨cand.ResolvedPath, []⟩] := by
      rw [State.buildPathsToTest, if_neg hexp]
    refine ⟨?_, by rw [heq, List.head?_cons], ?_, ?_⟩
    · rw [heq]
      exact List.nodup_singleton _
    · rw [heq]
      exact Nat.le_add_right 1 _
    · intro t ht
      rw [heq] at ht
      cases ht

/-! ### The whole of it -/

/-- The ID is offered to the prefix, behind fewer different ones than the limit. -/
def State.InReach (st : State F) (p : Text) (limit : ℕ) (id : Text) : Prop :=
  ∃ i, (st.offered p)[i]? = some id ∧ ((st.offered p).take i).toFinset.card < limit

/-- What is claimed of the IDs, and of the targets that are built of them. -/
structure AsClaimed (st : State F) (cand : Candidate F) (expandIDs : Bool) : Prop where
  unique : ∀ p, (st.ids p).Nodup
  bounded : ∀ p, (st.ids p).length ≤ maxHarvestedIDsPerPrefix
  kept : ∀ p, ∀ id ∈ st.ids p, Kept fl st.calls p id
  first_come : ∀ t, Reaches (step fl) st t → ∀ p, st.ids p <+: t.ids p
  near_first : ∀ p limit, 0 < limit → NearFirst st p limit
  fresh : TargetsFresh fl st cand expandIDs

theorem harvested_as_claimed_iff {st : State F} (h : Reaches (step fl) (start F) st)
    (cand : Candidate F) (expandIDs : Bool) : AsClaimed fl st cand expandIDs ↔
      ¬(expandable cand expandIDs = true ∧
        ∃ id, st.InReach (getPathPrefix cand.Endpoint) maxHarvestedIDsToTest id ∧
          Repeats fl cand id) := by
  have hi : Inv fl st := inv_of_reaches fl h
  have hreach : ∀ id, st.InReach (getPathPrefix cand.Endpoint) maxHarvestedIDsToTest id ↔
      id ∈ st.tried cand := fun id => mem_fillUp_iff.symm
  simp only [hreach]
  rw [← targetsFresh_iff fl hi cand expandIDs]
  constructor
  · exact fun hclaimed => hclaimed.fresh
  · intro hfresh
    exact ⟨hi.nodup, hi.length_le, hi.kept, fun t ht p => ids_prefix fl ht p,
      fun p limit _ => nearFirst st p limit, hfresh⟩

/-- Integral numbers, written as such. -/
def integral : Floats ℤ := ⟨Atoi, Itoa⟩

/-- `GET /orders`, which lists an order with a leading zero in its ID. -/
def orders : Harvest ℤ :=
  ⟨ascii "/orders", true, 200, .map [(ascii "id", .str (ascii "01"))], []⟩

/-- `POST /orders` with an ID that is a number. -/
def newOrder (n : ℤ) : Candidate ℤ :=
  ⟨ascii "/orders", ascii "/orders", .map [(ascii "id", .int n)], false⟩

/-- The state in which the order's ID is harvested. -/
def ordered : State ℤ := ⟨[(ascii "/orders", [ascii "01"])], [], [orders]⟩

theorem ordered_reached : Reaches (step integral) (start ℤ) ordered := by
  have hharvested : orders.harvested integral = [ascii "01"] := by decide
  have hreplayable : isReplayableID (ascii "01") = true := by decide
  have hnew : orders.newIDs integral = [ascii "01"] := by
    rw [Harvest.newIDs, hharvested, (List.nodup_singleton _).dedup,
      List.filter_cons_of_pos hreplayable, List.filter_nil, List.mergeSort_singleton]
  have hprefix : orders.prefixOf = ascii "/orders" := by decide
  have hharvest : step integral (start ℤ) (.harvest orders) =
      some ⟨[], [(ascii "/orders", [ascii "01"])], [orders]⟩ := by
    rw [step, hnew, hprefix]
    rfl
  have hstore : step integral ⟨[], [(ascii "/orders", [ascii "01"])], [orders]⟩ (.store 0) =
      some ordered := rfl
  exact (ReachesUnder.tail Relation.ReflTransGen.refl trivial hharvest).tail trivial hstore

theorem idValues_newOrder (n : ℤ) :
    idValues (replayParamName (newOrder n)) ((newOrder n).sent integral) = [.int n] := by
  have hkey : isIDParam (ascii "id") = true := by decide
  show (if equalFold (ascii "id") _ || isIDParam (ascii "id") then [_] else _) ++ [] = [Any.int n]
  rw [hkey, Bool.or_true, if_pos rfl]
  rfl

theorem replayParamName_newOrder (n : ℤ) : replayParamName (newOrder n) = ascii "id" := by
  have hkey : isIDParam (ascii "id") = true := by decide
  show ([ascii "id"].find? isIDParam).getD [] = ascii "id"
  rw [List.find?_cons_of_pos hkey]
  rfl

theorem inReach_ordered : ordered.InReach (ascii "/orders") maxHarvestedIDsToTest (ascii "01") :=
  ⟨0, rfl, by decide⟩

/-- A candidate with another ID is replayed with the order's. -/
theorem harvested_as_claimed_iff_two : Reaches (step integral) (start ℤ) ordered ∧
    AsClaimed integral ordered (newOrder 2) true := by
  refine ⟨ordered_reached, (harvested_as_claimed_iff integral ordered_reached _ _).mpr ?_⟩
  rintro ⟨-, id, ⟨i, hi, -⟩, hrepeats⟩
  have hid : id ∈ [ascii "01"] := mem_offered.mp (List.mem_of_getElem? hi)
  rw [List.mem_singleton.mp hid] at hrepeats
  have hdenotes := hrepeats.payload (.int 2) (by rw [idValues_newOrder]; exact List.mem_cons_self)
  exact absurd hdenotes (by rw [Denotes]; decide)

/-- The harvested `01` is put where the candidate has the number 1, which it stays. -/
theorem leading_zero_repeats : ¬∀ (st : State ℤ) (cand : Candidate ℤ) (expandIDs : Bool),
    Reaches (step integral) (start ℤ) st → AsClaimed integral st cand expandIDs := by
  intro h
  have hfresh := (h ordered (newOrder 1) true ordered_reached).fresh
  have hexp : expandable (newOrder 1) true = true := by
    rw [expandable, replayParamName_newOrder]
    decide
  refine (targetsFresh_iff integral (inv_of_reaches integral ordered_reached) _ _).mp hfresh
    ⟨hexp, ascii "01", mem_fillUp_iff.mpr inReach_ordered, ?_⟩
  refine ⟨by decide, fun hbrace => absurd hbrace (by decide), ?_, ?_⟩
  · rw [Candidate.ownID, replayParamName_newOrder]
    decide
  · rw [idValues_newOrder, List.forall_mem_singleton]
    show Atoi (ascii "01") = some 1
    decide

end Swazz.Bola
