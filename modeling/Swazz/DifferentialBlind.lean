import Swazz.Differential

/-! What the differential phase sees of JSON responses: the bytes that it takes out of a stored body
are those of a string, and of no other value. -/
namespace Swazz.Differential

open RunnerAccess (JsString js foldName)
open RunnerAccess renaming Json → Value
open Fingerprint

variable {lib : Libs} {v w : Value} {raw s : JsString} {fp : SchemaFingerprint}

/-! ### The bytes of a stored body -/

/-- What the phase has of a body that is JSON: the content of a string. -/
def content : Value → JsString
  | .str s => s
  | _ => []

theorem bytes_of_json {r : Response} (h : lib.unmarshal r.raw = some v) :
    lib.bytes r = content v := by
  have hne : r.raw ≠ [] := by
    intro hnil
    rw [hnil, lib.unmarshal_nil] at h
    cases h
  rw [Libs.bytes, Libs.responseBody, if_neg hne, h]
  cases v <;> rfl

theorem str_of_content (h : content v ≠ []) : ∃ s, v = .str s := by
  cases v with
  | str s => exact ⟨s, rfl⟩
  | null => exact absurd rfl h
  | bool b => exact absurd rfl h
  | num printed => exact absurd rfl h
  | arr items => exact absurd rfl h
  | obj entries => exact absurd rfl h

theorem ExtractResourceIDs_of_json (h : lib.unmarshal raw = some v) :
    lib.ExtractResourceIDs raw = distinct (walk v) := by
  rw [Libs.ExtractResourceIDs, lib.decode_of_unmarshal raw v h]

/-! ### Fingerprints of plain values -/

/-- A string, a number or a boolean. -/
def isPlain : Value → Bool
  | .str _ | .num _ | .bool _ => true
  | _ => false

def plainFingerprint : SchemaFingerprint := ⟨.primitive, ∅, 0, false⟩

theorem isPlain_iff : isPlain v = true ↔ inferType v = .primitive := by
  cases v <;> simp [isPlain, inferType]

theorem same_of_isPlain (h : SameValue v w) (hv : isPlain v = true) : w = v := by
  induction h with
  | refl v => rfl
  | trans _ _ ih ih' =>
    have hmiddle := ih hv
    rw [hmiddle] at ih'
    exact ih' hv
  | perm _ => cases hv
  | entry _ _ _ _ _ => cases hv
  | item _ _ _ _ => cases hv

theorem fingerprint_of_isPlain (hv : isPlain v = true) : fingerprint v v = plainFingerprint := by
  cases v with
  | str s => rfl
  | num printed => rfl
  | bool b => rfl
  | null => cases hv
  | arr items => cases hv
  | obj entries => cases hv

theorem extract_of_trimmed (h : lib.unmarshal (License.trim License.goSpace s) = some v)
    (hv : isPlain v = true) : ExtractFingerprint lib.unmarshal s fp ↔ fp = plainFingerprint := by
  have hne : License.trim License.goSpace s ≠ [] := by
    intro hnil
    rw [hnil, lib.unmarshal_nil] at h
    cases h
  constructor
  · intro hfp
    obtain ⟨ranged, checked, hranged, hchecked, rfl⟩ := hfp.of_json hne h
    rw [same_of_isPlain hranged hv, same_of_isPlain hchecked hv, fingerprint_of_isPlain hv]
  · rintro rfl
    rw [← fingerprint_of_isPlain hv]
    exact .json hne h (.refl v) (.refl v)

theorem exists_extract (lib : Libs) (body : JsString) :
    ∃ fp, ExtractFingerprint lib.unmarshal body fp := by
  by_cases hempty : License.trim License.goSpace body = []
  · exact ⟨_, .empty hempty⟩
  · cases hp : lib.unmarshal (License.trim License.goSpace body) with
    | none => exact ⟨_, .nonJson hempty hp⟩
    | some v => exact ⟨_, .json hempty hp (.refl v) (.refl v)⟩

/-- A body that has this fingerprint is one of these values. -/
theorem isPlain_of_extract (h : ExtractFingerprint lib.unmarshal s plainFingerprint) :
    ∃ w, isPlain w = true ∧ lib.unmarshal (License.trim License.goSpace s) = some w := by
  generalize hfp : plainFingerprint = fp at h
  cases h with
  | empty _ => cases congrArg SchemaFingerprint.rootType hfp
  | nonJson _ _ => cases congrArg SchemaFingerprint.fieldCount hfp
  | json _ hp hranged _ =>
    refine ⟨_, ?_, hp⟩
    rw [isPlain_iff, inferType_same hranged]
    exact (congrArg SchemaFingerprint.rootType hfp).symm

/-! ### IDs -/

theorem mem_distinct {ids : List JsString} {id : JsString} : id ∈ distinct ids ↔ id ∈ ids := by
  have hfold (seen : List JsString) :
      id ∈ ids.foldl (fun seen id => if id ∈ seen then seen else seen ++ [id]) seen ↔
        id ∈ seen ∨ id ∈ ids := by
    induction ids generalizing seen with
    | nil => simp
    | cons a ids ih =>
      rw [List.foldl_cons, ih, List.mem_cons]
      split_ifs with ha
      · constructor
        · exact Or.imp_right Or.inr
        · rintro (h | rfl | h)
          · exact Or.inl h
          · exact Or.inl ha
          · exact Or.inr h
      · rw [List.mem_append, List.mem_singleton, or_assoc]
  rw [distinct, hfold]
  simp

/-- A value either has no IDs, or nothing that the phase takes for its bytes. -/
theorem walk_or_content (v : Value) : walk v = [] ∨ content v = [] := by
  cases v with
  | str s => exact Or.inl rfl
  | null => exact Or.inr rfl
  | bool b => exact Or.inr rfl
  | num printed => exact Or.inr rfl
  | arr items => exact Or.inr rfl
  | obj entries => exact Or.inr rfl

/-- Nothing that looks like an ID stands in a value, nor in the text that its string is. -/
def NoIDs (lib : Libs) (v : Value) : Prop :=
  walk v = [] ∧ (content v = [] ∨ lib.isErrorBody (content v) = true ∨
    lib.ExtractResourceIDs (content v) = [])

theorem createdIDs_eq_nil {ep : Endpoint} (hep : isCreation ep.Method = true) :
    lib.createdIDs ep s true = [] ↔
      s = [] ∨ lib.isErrorBody s = true ∨ lib.ExtractResourceIDs s = [] := by
  rw [Libs.createdIDs, hep]
  by_cases hs : s = []
  · simp [hs]
  · by_cases herror : lib.isErrorBody s = true
    · simp [herror]
    · simp [hs, herror]

theorem createdIDs_iff {ep : Endpoint} (hep : isCreation ep.Method = true)
    (h : lib.unmarshal raw = some v) :
    (∀ id, id ∈ lib.createdIDs ep (content v) true ↔ id ∈ lib.ExtractResourceIDs raw) ↔
      NoIDs lib v := by
  have hmem (id : JsString) : id ∈ lib.ExtractResourceIDs raw ↔ id ∈ walk v := by
    rw [ExtractResourceIDs_of_json h, mem_distinct]
  rw [NoIDs, ← createdIDs_eq_nil hep]
  simp only [hmem]
  rcases walk_or_content v with hwalk | hcontent
  · rw [hwalk]
    simp [List.eq_nil_iff_forall_not_mem]
  · have hnone : lib.createdIDs ep [] true = [] := (createdIDs_eq_nil hep).mpr (Or.inl rfl)
    rw [hcontent, hnone]
    simp [List.eq_nil_iff_forall_not_mem]

/-! ### What the phase is to see -/

/-- A result that creates something, with a body that is JSON and no error structure. -/
structure Creates (lib : Libs) (inp : Inputs) (res : Result) (ep : Endpoint) (v : Value) :
    Prop where
  mem : res ∈ inp.results
  endpoint : endpointOf inp.endpoints res = some ep
  succeeded : res.response.succeeded = true
  method : isCreation ep.Method = true
  json : lib.unmarshal res.response.raw = some v
  fine : checkErrorStructure v = false

/-- The IDs of every creation are harvested, every probe with a JSON body is compared by that body,
and the same object for another identity is reported. -/
structure Sees (lib : Libs) (inp : Inputs) : Prop where
  harvested : ∀ res ep v, Creates lib inp res ep v →
    ∀ id, id ∈ lib.harvestedIDs inp.endpoints res ↔ id ∈ lib.ExtractResourceIDs res.response.raw
  compared : ∀ c ∈ lib.candidates inp, ∀ r, inp.probe c = some r → r.succeeded = true →
    ∀ v, lib.unmarshal r.raw = some v →
      ∀ fp, lib.Compares r fp ↔ ExtractFingerprint lib.unmarshal r.raw fp
  reported : ∀ res ep entries, Creates lib inp res ep (.obj entries) →
    ∀ id ∈ lib.ExtractResourceIDs res.response.raw, ∀ target ∈ inp.endpoints,
      matchEndpointToResource target.Path (lib.getBasePathPrefix ep.Path) ≠ none →
      ∀ name ∈ inp.identities ++ [anonymous], name ≠ creator →
        (∀ c : ProbeCandidate, c.TargetEndpoint = target → c.HarvestedID = id →
          c.ProbeIdentity = name → ∃ r, inp.probe c = some r ∧ r.succeeded = true ∧
            lib.unmarshal r.raw = some (.obj entries)) →
        ∃ c ∈ lib.candidates inp, c.TargetEndpoint = target ∧ c.HarvestedID = id ∧
          c.ProbeIdentity = name ∧ ∃ r, inp.probe c = some r ∧ lib.Reports c r

/-- There is nothing that the phase is blind to: no creation has an ID in it, and every probe with a
JSON body is a string that is itself the text of a string, a number or a boolean. -/
structure NothingHidden (lib : Libs) (inp : Inputs) : Prop where
  creations : ∀ res ep v, Creates lib inp res ep v → NoIDs lib v
  probes : ∀ c ∈ lib.candidates inp, ∀ r, inp.probe c = some r → r.succeeded = true →
    ∀ v, lib.unmarshal r.raw = some v →
      ∃ w, isPlain w = true ∧ lib.unmarshal (License.trim License.goSpace (content v)) = some w

theorem harvestedIDs_of_creates {inp : Inputs} {res : Result} {ep : Endpoint}
    (h : Creates lib inp res ep v) :
    lib.harvestedIDs inp.endpoints res = lib.createdIDs ep (content v) true := by
  rw [Libs.harvestedIDs, h.endpoint, ← h.succeeded, ← bytes_of_json h.json]

theorem compares_iff {r : Response} (hr : r.succeeded = true) (h : lib.unmarshal r.raw = some v) :
    (∀ fp, lib.Compares r fp ↔ ExtractFingerprint lib.unmarshal r.raw fp) ↔
      ∃ w, isPlain w = true ∧ lib.unmarshal (License.trim License.goSpace (content v)) = some w := by
  have hbytes := bytes_of_json h
  have htrim := lib.unmarshal_trim r.raw v h
  constructor
  · intro hall
    obtain ⟨fp, hfp⟩ := exists_extract lib r.raw
    have hne : content v ≠ [] := hbytes ▸ ((hall fp).mpr hfp).2.1
    obtain ⟨s, rfl⟩ := str_of_content hne
    have hcompares := (hall plainFingerprint).mpr ((extract_of_trimmed htrim rfl).mpr rfl)
    have hcontent := hcompares.2.2
    rw [hbytes] at hcontent
    exact isPlain_of_extract hcontent
  · rintro ⟨w, hw, hjson⟩ fp
    have hne : content v ≠ [] := by
      intro hnil
      rw [hnil, show License.trim License.goSpace [] = [] from rfl, lib.unmarshal_nil] at hjson
      cases hjson
    obtain ⟨s, rfl⟩ := str_of_content hne
    rw [Libs.Compares, hbytes, extract_of_trimmed htrim rfl, extract_of_trimmed hjson hw]
    exact ⟨fun hall => hall.2.2, fun heq => ⟨hr, hne, heq⟩⟩

/-- The phase sees every JSON response exactly if there is nothing that it is blind to. -/
theorem sees_iff_nothingHidden (lib : Libs) (inp : Inputs) :
    Sees lib inp ↔ NothingHidden lib inp := by
  constructor
  · intro h
    constructor
    · intro res ep v hcreates
      have hharvested := h.harvested res ep v hcreates
      rw [harvestedIDs_of_creates hcreates] at hharvested
      exact (createdIDs_iff hcreates.method hcreates.json).mp hharvested
    · intro c hc r hr hsucceeded v hjson
      exact (compares_iff hsucceeded hjson).mp (h.compared c hc r hr hsucceeded v hjson)
  · intro h
    constructor
    · intro res ep v hcreates
      rw [harvestedIDs_of_creates hcreates]
      exact (createdIDs_iff hcreates.method hcreates.json).mpr (h.creations res ep v hcreates)
    · intro c hc r hr hsucceeded v hjson
      exact (compares_iff hsucceeded hjson).mpr (h.probes c hc r hr hsucceeded v hjson)
    · -- an object that is created has no ID, so there is nothing to replay
      intro res ep entries hcreates id hid
      rw [ExtractResourceIDs_of_json hcreates.json, mem_distinct,
        (h.creations res ep _ hcreates).1] at hid
      cases hid

/-- The answer to a creation is an object with its ID, and nothing is harvested of it. -/
theorem object_is_not_harvested :
    let raw := js "\x7b\"id\":\"5\"\x7d"
    let v : Value := .obj [(js "id", .str (js "5"))]
    ∃ lib : Libs, lib.unmarshal raw = some v ∧
      ¬Sees lib ⟨[⟨js "/a", js "POST"⟩], [], [⟨js "/a", js "POST", ⟨201, raw⟩⟩], fun _ => none⟩ := by
  intro raw v
  have htrim : License.trim License.goSpace raw = raw := by decide
  let lib : Libs :=
    { unmarshal := fun s => if s = raw then some v else none
      decode := fun s => if s = raw then some v else none
      parsePath := fun _ => none
      decode_of_unmarshal := fun _ _ h => h
      unmarshal_trim := fun s v' h => by
        have hs : s = raw := (Option.ite_none_right_eq_some.mp h).1
        rw [hs] at h ⊢
        rw [htrim]
        exact h
      unmarshal_nil := rfl }
  have hjson : lib.unmarshal raw = some v := show (if raw = raw then some v else none) = _ from if_pos rfl
  refine ⟨lib, hjson, fun hsees => ?_⟩
  have hcreates : Creates lib ⟨[⟨js "/a", js "POST"⟩], [], [⟨js "/a", js "POST", ⟨201, raw⟩⟩],
      fun _ => none⟩ ⟨js "/a", js "POST", ⟨201, raw⟩⟩ ⟨js "/a", js "POST"⟩ v :=
    ⟨List.mem_cons_self, rfl, rfl, rfl, hjson, by decide⟩
  have hid := hsees.harvested _ _ v hcreates (js "5")
  rw [harvestedIDs_of_creates hcreates, ExtractResourceIDs_of_json hjson, mem_distinct] at hid
  exact absurd (hid.mpr (by decide)) (List.not_mem_nil)

end Swazz.Differential
