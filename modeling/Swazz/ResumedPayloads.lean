import Swazz.FuzzIterations

/-! What a resumed scan sends, beside what the scan would have sent without the interruption. -/
namespace Swazz.Payloads

open AtomicCalls SequentialPicks

/-! ## The safe generator -/

theorem onlyAsks_question (q : Question) : OnlyAsks (ask q) :=
  onlyAsks_ask q fun a => onlyAsks_pure a

namespace Generator

variable {g : Generator} {use name : String}

theorem onlyAsks_randomPick (arr : List Value) : OnlyAsks (randomPick arr) :=
  onlyAsks_bind (onlyAsks_question _) fun _ => onlyAsks_pure _

theorem onlyAsks_intRange (min max : ℕ) : OnlyAsks (intRange min max) :=
  onlyAsks_bind (onlyAsks_question _) fun _ => onlyAsks_pure _

theorem onlyAsks_generateUUID (hg : g.profile = .random) : OnlyAsks (g.generateUUID use) := by
  simp only [generateUUID, hg, reduceCtorEq, false_and, if_false]
  apply onlyAsks_pure_bind
  exact onlyAsks_bind (onlyAsks_question _) fun _ => onlyAsks_pure _

theorem onlyAsks_generateDate (hg : g.profile = .random) : OnlyAsks (g.generateDate use) := by
  simp only [generateDate, hg, reduceCtorEq, false_and, if_false]
  exact onlyAsks_bind (onlyAsks_question _) fun _ => onlyAsks_pure _

theorem onlyAsks_generateBoolean (hg : g.profile = .random) :
    OnlyAsks (g.generateBoolean use) := by
  simp only [generateBoolean, hg, reduceCtorEq, false_and, if_false]
  exact onlyAsks_bind (onlyAsks_question _) fun _ => onlyAsks_pure _

theorem onlyAsks_generateNumber (hg : g.profile = .random) (typ : String) :
    OnlyAsks (g.generateNumber use typ) := by
  simp only [generateNumber, hg, reduceCtorEq, false_and, if_false]
  apply onlyAsks_ite
  · exact fun _ => onlyAsks_bind (onlyAsks_intRange 1 1000) fun _ => onlyAsks_pure _
  · exact fun _ => onlyAsks_bind (onlyAsks_question _) fun _ => onlyAsks_pure _

theorem onlyAsks_generateStringInternal (hg : g.profile = .random) (format : String)
    (inArray : Bool) : OnlyAsks (g.generateStringInternal format name inArray) := by
  rw [generateStringInternal, if_pos hg]
  exact onlyAsks_question _

theorem onlyAsks_getArraySize (hg : g.profile = .random) (schema : Option Schema) :
    OnlyAsks (g.getArraySize use schema) := by
  simp only [getArraySize, hg, reduceCtorEq, false_and, if_false]
  exact onlyAsks_bind (onlyAsks_intRange 1 5) fun _ => onlyAsks_pure _

/-- A string by its format, where only the plain ones differ between fields and items. -/
theorem onlyAsks_generateFormat (hg : g.profile = .random) (format : String) (inArray : Bool) :
    OnlyAsks (if format = "date-time" then g.generateDate name
      else if format = "uuid" then g.generateUUID name
      else g.generateStringInternal format name inArray) := by
  apply onlyAsks_ite
  · exact fun _ => onlyAsks_generateDate hg
  · intro _
    apply onlyAsks_ite
    · exact fun _ => onlyAsks_generateUUID hg
    · exact fun _ => onlyAsks_generateStringInternal hg format inArray

theorem onlyAsks_generateByProfile (hg : g.profile = .random) (typ format : String) :
    OnlyAsks (g.generateByProfile typ format name) := by
  simp only [generateByProfile, hg, reduceCtorEq, false_and, if_false]
  apply onlyAsks_pure_bind
  apply onlyAsks_ite nofun
  intro _
  apply onlyAsks_ite
  · exact fun _ => onlyAsks_generateFormat hg (toLower format) false
  · intro _
    apply onlyAsks_ite
    · exact fun _ => onlyAsks_generateNumber hg typ
    · intro _
      apply onlyAsks_ite
      · exact fun _ => onlyAsks_generateBoolean hg
      · exact fun _ => onlyAsks_question _

theorem onlyAsks_generate (hg : g.profile = .random) (schema : Option Schema) :
    OnlyAsks (g.generate name schema) := by
  cases schema with
  | none => exact onlyAsks_pure _
  | some schema =>
    simp only [generate, hg, reduceCtorEq, and_false, if_false]
    apply onlyAsks_pure_bind
    apply onlyAsks_ite
    · exact fun _ => onlyAsks_randomPick _
    · intro _
      apply onlyAsks_ite
      · exact fun _ => onlyAsks_randomPick _
      · exact fun _ => onlyAsks_generateByProfile hg schema.type schema.format

theorem onlyAsks_generateArrayItem (hg : g.profile = .random) (schema : Option Schema) :
    OnlyAsks (g.generateArrayItem name schema) := by
  cases schema with
  | none => exact onlyAsks_pure _
  | some schema =>
    apply onlyAsks_ite
    · exact fun _ => onlyAsks_generateFormat hg (toLower schema.format) true
    · exact fun _ => onlyAsks_generate hg (some schema)

variable {nested : Option Schema → Gen (List (String × Value))}

theorem onlyAsks_buildProperty (hg : g.profile = .random)
    (hnested : ∀ schema, OnlyAsks (nested schema)) (schema : Schema) :
    OnlyAsks (g.buildProperty nested name schema) := by
  apply onlyAsks_ite
  · exact fun _ => onlyAsks_bind (hnested _) fun _ => onlyAsks_pure _
  · intro _
    apply onlyAsks_ite
    · intro _
      apply onlyAsks_bind (onlyAsks_getArraySize hg _)
      intro count
      apply onlyAsks_bind _ fun _ => onlyAsks_pure _
      apply onlyAsks_mapM
      intro _
      apply onlyAsks_ite
      · exact fun _ => onlyAsks_bind (hnested _) fun _ => onlyAsks_pure _
      · exact fun _ => onlyAsks_generateArrayItem hg _
    · exact fun _ => onlyAsks_generate hg (some schema)

theorem onlyAsks_buildProperties (hg : g.profile = .random)
    (hnested : ∀ schema, OnlyAsks (nested schema)) (props : List (String × Option Schema))
    (required keys : List String) : OnlyAsks (g.buildProperties nested props required keys) := by
  induction keys with
  | nil => exact onlyAsks_pure _
  | cons key keys ih =>
    rw [buildProperties]
    cases (props.lookup key).join with
    | none => exact ih
    | some schema =>
      simp only [hg, reduceCtorEq, if_false]
      apply onlyAsks_pure_bind
      apply onlyAsks_ite nofun
      intro _
      apply onlyAsks_bind (onlyAsks_buildProperty hg hnested schema)
      exact fun value => onlyAsks_bind ih fun _ => onlyAsks_pure _

theorem onlyAsks_buildObjectFrom (hg : g.profile = .random)
    (hnested : ∀ schema, OnlyAsks (nested schema)) (schema : Option Schema) :
    OnlyAsks (g.buildObjectFrom nested schema) := by
  cases schema with
  | none => exact onlyAsks_pure _
  | some schema =>
    rw [buildObjectFrom]
    cases schema.properties with
    | none => exact onlyAsks_pure _
    | some props =>
      apply onlyAsks_ite (fun _ => onlyAsks_pure _)
      intro _
      rw [if_pos hg]
      apply onlyAsks_bind (onlyAsks_question _)
      intro empty
      apply onlyAsks_ite (fun _ => onlyAsks_pure _)
      intro _
      apply onlyAsks_bind (onlyAsks_question _)
      exact fun keys => onlyAsks_buildProperties hg hnested props schema.required keys

theorem onlyAsks_buildObject (hg : g.profile = .random) (schema : Option Schema) :
    OnlyAsks (g.buildObject schema) := by
  have hdepth : ∀ room schema, OnlyAsks (g.buildObjectWithDepth room schema) := by
    intro room
    induction room with
    | zero => exact onlyAsks_buildObjectFrom hg fun _ => onlyAsks_pure _
    | succ room ih => exact onlyAsks_buildObjectFrom hg ih
  exact hdepth 6 schema

end Generator

variable {env : Env} {ep : Endpoint} {g : Generator}

theorem onlyAsks_buildHeaders (hg : g.profile = .random) : OnlyAsks (buildHeaders env ep g) := by
  apply onlyAsks_ite (fun _ => onlyAsks_pure _)
  exact fun _ => onlyAsks_bind (Generator.onlyAsks_buildObject hg _) fun _ => onlyAsks_pure _

theorem onlyAsks_pathParamsFrom (hg : g.profile = .random)
    (params : List (String × Option Schema)) (names : List String) :
    OnlyAsks (pathParamsFrom env g params names) := by
  induction names with
  | nil => exact onlyAsks_pure _
  | cons name names ih =>
    rw [pathParamsFrom]
    cases params.lookup name with
    | none => exact ih
    | some schema =>
      apply onlyAsks_bind (Generator.onlyAsks_generate hg _)
      exact fun v => onlyAsks_bind ih fun _ => onlyAsks_pure _

theorem onlyAsks_buildPathParams (hg : g.profile = .random) :
    OnlyAsks (buildPathParams env ep g) := by
  apply onlyAsks_ite (fun _ => onlyAsks_pure _)
  intro _
  apply onlyAsks_bind (onlyAsks_question _)
  exact fun names => onlyAsks_bind (onlyAsks_pathParamsFrom hg _ names) fun _ => onlyAsks_pure _

theorem onlyAsks_bodyFromSchema (hg : g.profile = .random) {emptied : Gen Bool}
    (hemptied : OnlyAsks emptied) : OnlyAsks (bodyFromSchema ep g emptied) := by
  apply onlyAsks_ite _ fun _ => onlyAsks_pure _
  intro _
  apply onlyAsks_bind hemptied
  intro empty
  apply onlyAsks_ite (fun _ => onlyAsks_pure _)
  exact fun _ => onlyAsks_bind (Generator.onlyAsks_buildObject hg _) fun _ => onlyAsks_pure _

theorem onlyAsks_queryFrom (hg : g.profile = .random) (params : List (String × Option Schema)) :
    OnlyAsks (queryFrom g params) := by
  apply onlyAsks_ite _ fun _ => onlyAsks_pure _
  exact fun _ => onlyAsks_bind (Generator.onlyAsks_buildObject hg _) fun _ => onlyAsks_pure _

theorem onlyAsks_buildFromSchema (hg : g.profile = .random) {emptied : Gen Bool}
    (hemptied : OnlyAsks emptied) : OnlyAsks (buildFromSchema ep g emptied) := by
  apply onlyAsks_ite
  · exact fun _ => onlyAsks_bind (onlyAsks_queryFrom hg _) fun _ => onlyAsks_pure _
  · intro _
    apply onlyAsks_bind (onlyAsks_bodyFromSchema hg hemptied)
    exact fun body => onlyAsks_bind (onlyAsks_queryFrom hg _) fun _ => onlyAsks_pure _

/-- What every safe payload ends with. -/
theorem onlyAsks_complete (hg : g.profile = .random) (out : GeneratedPayload) :
    OnlyAsks (do
      let headers ← buildHeaders env ep g
      let pathParams ← buildPathParams env ep g
      return { out with headers := headers, pathParams := pathParams }) := by
  apply onlyAsks_bind (onlyAsks_buildHeaders hg)
  exact fun headers => onlyAsks_bind (onlyAsks_buildPathParams hg) fun _ => onlyAsks_pure _

theorem onlyAsks_buildSafePayload (hg : g.profile = .random) :
    OnlyAsks (buildSafePayload env ep g) := by
  rw [buildSafePayload]
  cases ep.exampleValue with
  | some v => exact onlyAsks_complete hg _
  | none =>
    apply onlyAsks_ite
    · intro _
      apply onlyAsks_bind (onlyAsks_buildFromSchema hg (onlyAsks_pure false))
      exact fun out => onlyAsks_complete hg out
    · exact fun _ => onlyAsks_pure _

/-! ## Target fields -/

theorem onlyAsks_visitChildren {children : List (String × Visit)}
    (h : ∀ k visit, children.lookup k = some visit → ∀ path arrays, OnlyAsks (visit path arrays))
    (path : Slice) (keys : List String) (arrays : List Backing) :
    OnlyAsks (visitChildren env path children keys arrays) := by
  induction keys generalizing arrays with
  | nil => exact onlyAsks_pure _
  | cons k keys ih =>
    rw [visitChildren]
    cases hk : children.lookup k with
    | none => exact ih arrays
    | some visit =>
      apply onlyAsks_bind (h k visit hk _ _)
      exact fun r => onlyAsks_bind (ih _) fun _ => onlyAsks_pure _

theorem onlyAsks_collectTop {children : List (String × Visit)}
    (h : ∀ k visit, children.lookup k = some visit → ∀ path arrays, OnlyAsks (visit path arrays))
    (keys : List String) (arrays : List Backing) :
    OnlyAsks (collectTop children keys arrays) := by
  induction keys generalizing arrays with
  | nil => exact onlyAsks_pure _
  | cons k keys ih =>
    rw [collectTop]
    cases hk : children.lookup k with
    | none => exact ih arrays
    | some visit =>
      apply onlyAsks_bind (h k visit hk _ _)
      exact fun r => onlyAsks_bind (ih _) fun _ => onlyAsks_pure _

mutual

theorem onlyAsks_collectBody : ∀ (schema : Schema) (path : Slice) (arrays : List Backing),
    OnlyAsks (collectBody env schema path arrays)
  | ⟨_, _, _, some props, _, _⟩, path, arrays => by
    rw [collectBody]
    apply onlyAsks_ite
    · intro _
      apply onlyAsks_bind (onlyAsks_question _)
      exact fun keys => onlyAsks_visitChildren (onlyAsks_collectProps props) path keys arrays
    · exact fun _ => onlyAsks_pure _
  | ⟨_, _, _, none, _, _⟩, path, arrays => by
    rw [collectBody]
    exact onlyAsks_pure _

theorem onlyAsks_collectProps : ∀ (props : List (String × Option Schema)) (k : String)
    (visit : Visit), (collectProps env props).lookup k = some visit →
    ∀ path arrays, OnlyAsks (visit path arrays)
  | [], k, visit, h => by simp [collectProps] at h
  | (key, none) :: rest, k, visit, h => by
    rw [collectProps, List.lookup_cons] at h
    split at h
    · obtain rfl := Option.some.inj h
      exact fun _ _ => onlyAsks_pure _
    · exact onlyAsks_collectProps rest k visit h
  | (key, some schema) :: rest, k, visit, h => by
    rw [collectProps, List.lookup_cons] at h
    split at h
    · obtain rfl := Option.some.inj h
      exact onlyAsks_collectBody schema
    · exact onlyAsks_collectProps rest k visit h

end

theorem onlyAsks_collectParams (location : Location) (params : List (String × Option Schema)) :
    OnlyAsks (collectParams location params) :=
  onlyAsks_bind (onlyAsks_question _) fun _ => onlyAsks_pure _

theorem onlyAsks_collectBodyFields : OnlyAsks (collectBodyFields env ep) := by
  apply onlyAsks_ite (fun _ => onlyAsks_pure _)
  intro _
  apply onlyAsks_ite
  · intro _
    apply onlyAsks_bind (onlyAsks_question _)
    intro keys
    apply onlyAsks_bind (onlyAsks_collectTop (onlyAsks_collectProps _) keys [])
    exact fun _ => onlyAsks_pure _
  · exact fun _ => onlyAsks_ite (fun _ => onlyAsks_pure _) fun _ => onlyAsks_pure _

theorem onlyAsks_collectTargetFields : OnlyAsks (collectTargetFields env ep) := by
  apply onlyAsks_bind onlyAsks_collectBodyFields
  intro body
  apply onlyAsks_bind (onlyAsks_collectParams _ _)
  intro query
  apply onlyAsks_bind (onlyAsks_collectParams _ _)
  exact fun header => onlyAsks_bind (onlyAsks_collectParams _ _) fun _ => onlyAsks_pure _

/-! ## Interrupted and resumed -/

/-- A new generator only asks how its dictionaries are ranged over, and has its profile. -/
theorem onlyAsks_newGenerator {α : Type} {m : Malicious} {owner : Owner}
    {dictionaries : List (String × List Value)} {profile : FuzzingProfile} {settings : Settings}
    {f : Generator → Gen α} (h : ∀ g, g.profile = profile → OnlyAsks (f g)) :
    OnlyAsks (newGenerator m owner dictionaries profile settings >>= f) :=
  onlyAsks_ask _ fun _ => h _ rfl

theorem onlyAsks_setup (r : Run) : OnlyAsks r.setup := by
  apply onlyAsks_newGenerator
  intro gen _
  apply onlyAsks_newGenerator
  intro safeGen hsafe
  apply onlyAsks_bind
  · exact onlyAsks_ite (fun _ => onlyAsks_collectTargetFields) fun _ => onlyAsks_pure _
  · intro fields
    apply onlyAsks_bind _ fun _ => onlyAsks_pure _
    exact onlyAsks_ite (fun _ => onlyAsks_buildSafePayload hsafe) fun _ => onlyAsks_pure _

/-- The generators are fresh when the iterations begin. -/
theorem counters_started (r : Run) (ch : Choices) : (r.started ch).counters = fresh :=
  counters_of_onlyAsks (onlyAsks_setup r)

/-- Where the generator stands before an iteration of the uninterrupted run. -/
def countersAt (r : Run) (ch : Choices) (k : ℕ) : Counter → ℕ :=
  advance fresh (picked ((fuzzEndpoint r ch 0).take k))

abbrev Iterations := List (ℕ × (Option TargetField × ℕ) ×
  Outcome String Counter Value (Option GeneratedPayload))

/-- Each payload that is drawn, with its target field and what it is for. -/
def combinations (rs : Iterations) : List (Option TargetField × String × Option Value) :=
  rs.flatMap fun (_, (field, _), o) =>
    (o.picks.zip o.values).map fun (p, v) => (field, p.use, v)

/-- From the iteration it resumes at, a scan draws for each index what the uninterrupted one
draws for it, and so the two parts draw everything that the uninterrupted one draws. -/
structure Resumes (r : Run) (ch ch' : Choices) (k : ℕ) : Prop where
  same : ((fuzzEndpoint r ch 0).drop k).map observed = (fuzzEndpoint r ch' k).map observed
  covered : ∀ c ∈ combinations (fuzzEndpoint r ch 0),
    c ∈ combinations ((fuzzEndpoint r ch 0).take k) ∨ c ∈ combinations (fuzzEndpoint r ch' k)

/-- What is left of an uninterrupted run does not notice the interruption: its fields come in
the same order, its other choices lead to the same lists, and the lists read on from where their
counters stand as they do from their start. -/
structure Unshifted (r : Run) (ch ch' : Choices) (k : ℕ) : Prop where
  fields : (r.items (r.started ch).result).drop k = (r.items (r.started ch').result).drop k
  choices : SamePicks (r.iteration (r.started ch).result) (r.iteration (r.started ch').result)
    ch.during ch'.during ((r.items (r.started ch).result).drop k) k (countersAt r ch k)
  counters : Aligned (countersAt r ch k) (picked ((fuzzEndpoint r ch 0).drop k))

theorem combinations_of_observed (rs rs' : Iterations) (h : rs.map observed = rs'.map observed) :
    combinations rs = combinations rs' := by
  have hfrom : ∀ rs : Iterations, combinations rs = (rs.map observed).flatMap
      fun (_, (field, _), picks, values) =>
        (picks.zip values).map fun (p, v) => (field, p.use, v) := by
    intro rs
    rw [combinations, List.flatMap_map]
    rfl
  rw [hfrom, hfrom, h]

/-- The first choice of everything, and maps in the order they are written in. -/
def firstReply : (q : Question) → Reply q
  | .chance _ => false
  | .intN _ => 0
  | .order keys => keys
  | .fallbackRandom _ => .str "alpha"
  | .floatRange _ _ => "0"
  | .randomDate => "2020-01-01T00:00:00.000Z"
  | .uuid => "11111111-1111-4111-8111-111111111111"
  | .substituted s => s
  | .semanticValue _ vector => vector
  | .seenHash _ => false

def firstChoices : Choices := ⟨fun _ => firstReply, fun _ _ => firstReply⟩

/-- The first choice of everything, but maps in the reverse order. -/
def reversedChoices : Choices where
  before _ q := match q with
    | .order keys => keys.reverse
    | q => firstReply q
  during _ := fun _ => firstReply

/-- Boundary integers for the integer query parameters of a `GET` endpoint, one after the
other. -/
def integerRun (params : List String) : Run where
  env :=
    { sprint := fun _ => "", capPathParam := fun _ => "", payloadFits := fun _ _ => true,
      sizedPayloadHash := fun _ _ => none, growslice := fun n => 2 * n }
  payloads := ⟨[], [], [], [], [], [], [], [], [], [], [], [], [], [], [], [], []⟩
  dictionaries := []
  settings := ⟨1, 0, [(.boundary, [catBoundaryIntegers])], true, true⟩
  profile := .boundary
  endpoint :=
    { method := "GET"
      schema := ⟨"", "", [], none, none, []⟩
      pathParams := []
      queryParams := params.map fun name => (name, some ⟨"integer", "", [], none, none, []⟩)
      headerParams := []
      exampleValue := none }

/-- The field and the integers of each iteration, by its index. -/
def integersOf (rs : Iterations) : List (ℕ × List String × List (Option ℤ)) :=
  rs.map fun (i, (field, _), o) =>
    (i, (field.map TargetField.path).getD [], o.values.map fun
      | some (.int n) => some n
      | _ => none)

theorem integersOf_of_observed (rs rs' : Iterations) (h : rs.map observed = rs'.map observed) :
    integersOf rs = integersOf rs' := by
  have hfrom : ∀ rs : Iterations, integersOf rs = (rs.map observed).map
      fun (i, (field, _), _, values) =>
        (i, (field.map TargetField.path).getD [], values.map fun
          | some (.int n) => some n
          | _ => none) := by
    intro rs
    rw [integersOf, List.map_map]
    rfl
  rw [hfrom, hfrom, h]

end Swazz.Payloads
