import Mathlib.Data.List.Dedup
import Mathlib.Data.List.Permutation
import Swazz.AtomicCalls

/-! The resolver of JSON schemas: a reference is looked up in the specification once and its tree
kept, under a budget of nodes and a limit of depth. -/
namespace Swazz.Swagger

open AtomicCalls AtomicCalls.Calls

/-- A decoded JSON value; the members of an object are a map. -/
inductive Json where
  | null
  | bool (b : Bool)
  | num (printed : String)
  | str (s : String)
  | arr (items : List Json)
  | obj (members : List (String × Json))

abbrev Members := List (String × Json)

/-- The keys of a map, each once. -/
def keysOf (m : Members) : List String := (m.map Prod.fst).dedup

/-- A map of properties is listed in the order in which the specification lists them. -/
structure SchemaProperty where
  type : String
  format : String
  enum : Option (List Json)
  properties : Option (List (String × SchemaProperty))
  items : Option SchemaProperty
  required : List String

abbrev Properties := List (String × SchemaProperty)

/-- `SchemaProperty{Type: "object"}` -/
def bareObject : SchemaProperty := ⟨"object", "", none, none, none, []⟩

/-- `SchemaProperty{Type: "object", Properties: make(map[string]*SchemaProperty)}` -/
def emptyObject : SchemaProperty := ⟨"object", "", none, some [], none, []⟩

/-- `m[key].(string)` -/
def asString (m : Members) (key : String) : Option String :=
  match m.lookup key with
  | some (.str s) => some s
  | _ => none

/-- `m[key].(map[string]any)` -/
def asMap (m : Members) (key : String) : Option Members :=
  match m.lookup key with
  | some (.obj members) => some members
  | _ => none

/-- `m[key].([]any)` -/
def asList (m : Members) (key : String) : Option (List Json) :=
  match m.lookup key with
  | some (.arr items) => some items
  | _ => none

def getStringField (m : Members) (key : String) : String := (asString m key).getD ""

/-- Goes down the segments of a pointer. -/
def follow : List String → Json → Json
  | [], current => current
  | segment :: rest, .obj m =>
    match m.lookup segment with
    | some current => follow rest current
    | none => .null
  | _, _ => .null

/-- `nil` is the JSON value null. -/
def resolveRef (ref : String) (spec : Members) : Json :=
  if "#/".toList.isPrefixOf ref.toList then
    follow (((ref.toList.drop 2).splitOn '/').map String.ofList) (.obj spec)
  else .null

/-- What the resolution of one root keeps. The depth is the room that is left below it. -/
structure Ctx where
  inProgress : List String
  /-- The newest tree of a reference is its entry. -/
  resolvedRefs : Properties
  nodeCount : ℕ
  truncated : Bool

/-- A resolution asks in which order the keys of a map come. -/
abbrev Ranging := @Calls (List String) fun _ => List String

/-- A map is ranged over with all its keys, in any order. -/
def AnyOrder (keys answer : List String) : Prop := answer.Perm keys

/-! ## One schema object -/

section

variable (res : Json → Ctx → Ranging (SchemaProperty × Ctx))

/-- `for key, propSchema := range propsRaw`; the newest tree of a key is its value. -/
def resolveProperties (propsRaw : Members) :
    List String → Properties → Ctx → Ranging (Properties × Ctx)
  | [], done, ctx => return (done, ctx)
  | key :: keys, done, ctx => do
    let (resolved, ctx) ← res ((propsRaw.lookup key).getD .null) ctx
    resolveProperties propsRaw keys ((key, resolved) :: done) ctx

/-- The map that was filled, in the order of the specification. -/
def listed (propsRaw : Members) (done : Properties) : Properties :=
  (keysOf propsRaw).filterMap fun key => (done.lookup key).map fun resolved => (key, resolved)

/-- `result.Properties[k] = v` -/
def setProperty : Properties → String × SchemaProperty → Properties
  | [], (k, v) => [(k, v)]
  | (k', v') :: rest, (k, v) =>
    if k' = k then (k, v) :: rest else (k', v') :: setProperty rest (k, v)

/-- A member of `allOf` adds its properties and its required list. -/
def mergeSub (result sub : SchemaProperty) : SchemaProperty :=
  { result with
    properties := some ((sub.properties.getD []).foldl setProperty (result.properties.getD []))
    required := result.required ++ sub.required }

def resolveAllOf : List Json → SchemaProperty → Ctx → Ranging (SchemaProperty × Ctx)
  | [], result, ctx => return (result, ctx)
  | sub :: allOf, result, ctx => do
    let (resolved, ctx) ← res sub ctx
    resolveAllOf allOf (mergeSub result resolved) ctx

def startResult (m : Members) : SchemaProperty where
  type := getStringField m "type"
  format := getStringField m "format"
  enum := asList m "enum"
  properties := none
  items := none
  required := []

/-- The strings of the required list. -/
def requiredOf (m : Members) : List String :=
  ((asList m "required").getD []).filterMap fun
    | .str s => some s
    | _ => none

def withProperties (result : SchemaProperty) (properties : Properties) : SchemaProperty :=
  { result with type := "object", properties := some properties }

def withItems (result resolved : SchemaProperty) : SchemaProperty :=
  { result with type := "array", items := some resolved }

/-- The own properties of an object. -/
def propertiesStep (m : Members) (result : SchemaProperty) (ctx : Ctx) :
    Ranging (SchemaProperty × Ctx) :=
  match asMap m "properties" with
  | some propsRaw => do
    let keys ← perform (keysOf propsRaw)
    let (done, ctx) ← resolveProperties res propsRaw keys [] ctx
    return (withProperties result (listed propsRaw done), ctx)
  | none => return (result, ctx)

def allOfStep (m : Members) (result : SchemaProperty) (ctx : Ctx) :
    Ranging (SchemaProperty × Ctx) :=
  match asList m "allOf" with
  | some allOf => resolveAllOf res allOf (withProperties result (result.properties.getD [])) ctx
  | none => return (result, ctx)

def itemsStep (m : Members) (result : SchemaProperty) (ctx : Ctx) :
    Ranging (SchemaProperty × Ctx) :=
  match m.lookup "items" with
  | some items => do
    let (resolved, ctx) ← res items ctx
    return (withItems result resolved, ctx)
  | none => return (result, ctx)

def resolveObject (m : Members) (ctx : Ctx) : Ranging (SchemaProperty × Ctx) := do
  let (result, ctx) ← propertiesStep res m (startResult m) ctx
  let (result, ctx) ← allOfStep res m { result with required := requiredOf m } ctx
  itemsStep res m result ctx

/-- What a reference leads to. -/
def resolveTarget (ref : String) (spec : Members) (ctx : Ctx) : Ranging (SchemaProperty × Ctx) :=
  match resolveRef ref spec with
  | .null => return (emptyObject, ctx)
  | resolved => res resolved ctx

/-- A reference, where `remembered` says which tree is kept for it. -/
def resolveReference (remembered : Properties → String → Option SchemaProperty) (spec : Members)
    (ref : String) (ctx : Ctx) : Ranging (SchemaProperty × Ctx) :=
  if ref ∈ ctx.inProgress then return (bareObject, ctx)
  else match remembered ctx.resolvedRefs ref with
  | some cached => return (cached, ctx)
  | none => do
    let ctx := { ctx with inProgress := ref :: ctx.inProgress }
    let (result, ctx) ← resolveTarget res ref spec ctx
    return (result, { ctx with
      inProgress := ctx.inProgress.erase ref
      resolvedRefs := (ref, result) :: ctx.resolvedRefs })

/-- A schema that is within the limits. -/
def resolveBody (remembered : Properties → String → Option SchemaProperty) (spec : Members)
    (schema : Json) (ctx : Ctx) : Ranging (SchemaProperty × Ctx) :=
  match schema with
  | .obj m =>
    match asString m "$ref" with
    | some ref => resolveReference res remembered spec ref ctx
    | none => resolveObject res m ctx
  | _ => return (emptyObject, ctx)

end

/-! ## The resolver -/

def Ctx.counted (ctx : Ctx) : Ctx := { ctx with nodeCount := ctx.nodeCount + 1 }

def Ctx.cut (ctx : Ctx) : Ctx := { ctx with truncated := true }

/-- `resolve`, with `room` the levels left under the depth limit. -/
def resolveWith (remembered : Properties → String → Option SchemaProperty) (spec : Members)
    (maxNodes : ℤ) : ℕ → Json → Ctx → Ranging (SchemaProperty × Ctx)
  | 0, _, ctx => return (bareObject, ctx.counted.cut)
  | room + 1, schema, ctx =>
    if ctx.counted.nodeCount > maxNodes then return (bareObject, ctx.counted.cut)
    else resolveBody (resolveWith remembered spec maxNodes room) remembered spec schema ctx.counted

/-- `ctx.resolvedRefs[ref]` -/
def recallMemo (resolvedRefs : Properties) (ref : String) : Option SchemaProperty :=
  resolvedRefs.lookup ref

/-- Resolution without the memo. -/
def recallNothing (_ : Properties) (_ : String) : Option SchemaProperty := none

/-- The references that the caller saw are in progress from the start. -/
def newResolverCtx (seenRefs : List (String × Bool)) : Ctx :=
  ⟨(seenRefs.filter Prod.snd).map Prod.fst, [], 0, false⟩

/-- The tree, with what the context is left with. -/
def resolveSchemaWithHint (schema : Json) (spec : Members) (seenRefs : List (String × Bool))
    (maxNodes maxDepth : ℤ) : Ranging (SchemaProperty × Ctx) :=
  resolveWith recallMemo spec maxNodes maxDepth.toNat schema (newResolverCtx seenRefs)

/-- The same with every reference resolved again wherever it is met. -/
def resolveAfresh (schema : Json) (spec : Members) (seenRefs : List (String × Bool))
    (maxNodes maxDepth : ℤ) : Ranging (SchemaProperty × Ctx) :=
  resolveWith recallNothing spec maxNodes maxDepth.toNat schema (newResolverCtx seenRefs)

/-! ## The schemas that a schema leads to -/

def propertySchemas (m : Members) : List Json :=
  match asMap m "properties" with
  | some propsRaw => (keysOf propsRaw).map fun key => (propsRaw.lookup key).getD .null
  | none => []

/-- The properties, the members of `allOf` and the items. -/
def childSchemas (m : Members) : List Json :=
  propertySchemas m ++ (asList m "allOf").getD [] ++ (m.lookup "items").toList

/-- From a schema object to a direct child or to what it refers to. -/
inductive Leads (spec : Members) : Json → Json → Prop
  | child {m : Members} {c : Json} (h : c ∈ childSchemas m) : Leads spec (.obj m) c
  | ref {m : Members} {ref : String} (h : asString m "$ref" = some ref) :
    Leads spec (.obj m) (resolveRef ref spec)

theorem lookup_of_asMap {m members : Members} {key : String} (h : asMap m key = some members) :
    m.lookup key = some (.obj members) := by
  rw [asMap] at h
  split at h
  · cases h
    assumption
  · cases h

theorem lookup_of_asList {m : Members} {items : List Json} {key : String}
    (h : asList m key = some items) : m.lookup key = some (.arr items) := by
  rw [asList] at h
  split at h
  · cases h
    assumption
  · cases h

/-- What holds of a value holds of the values inside it. -/
structure Hereditary (P : Json → Prop) : Prop where
  null : P .null
  item : ∀ {items : List Json} {j : Json}, P (.arr items) → j ∈ items → P j
  member : ∀ {m : Members} {key : String} {j : Json}, P (.obj m) → m.lookup key = some j → P j

theorem Hereditary.follow {P : Json → Prop} (h : Hereditary P) (segments : List String) {j : Json}
    (hj : P j) : P (follow segments j) := by
  induction segments generalizing j with
  | nil => exact hj
  | cons segment rest ih =>
    cases j with
    | obj m =>
      rw [Swagger.follow]
      cases hlookup : m.lookup segment with
      | none => exact h.null
      | some next => exact ih (h.member hj hlookup)
    | null => exact h.null
    | bool b => exact h.null
    | num n => exact h.null
    | str s => exact h.null
    | arr items => exact h.null

theorem Hereditary.resolveRef {P : Json → Prop} (h : Hereditary P) {spec : Members}
    (hspec : P (.obj spec)) (ref : String) : P (resolveRef ref spec) := by
  rw [Swagger.resolveRef]
  split
  · exact h.follow _ hspec
  · exact h.null

theorem Hereditary.child_of_members {P : Json → Prop} (h : Hereditary P) {m : Members} {c : Json}
    (hm : ∀ {key : String} {j : Json}, m.lookup key = some j → P j) (hc : c ∈ childSchemas m) :
    P c := by
  rcases List.mem_append.mp hc with hc | hitems
  · rcases List.mem_append.mp hc with hprops | hallOf
    · rw [propertySchemas] at hprops
      cases hmap : asMap m "properties" with
      | none =>
        rw [hmap] at hprops
        cases hprops
      | some propsRaw =>
        rw [hmap] at hprops
        obtain ⟨key, -, rfl⟩ := List.mem_map.mp hprops
        have hmembers := hm (lookup_of_asMap hmap)
        cases hlookup : propsRaw.lookup key with
        | none => exact h.null
        | some j => exact h.member hmembers hlookup
    · cases hlist : asList m "allOf" with
      | none =>
        rw [hlist] at hallOf
        cases hallOf
      | some allOf =>
        rw [hlist] at hallOf
        exact h.item (hm (lookup_of_asList hlist)) hallOf
  · exact hm (Option.mem_toList.mp hitems)

theorem Hereditary.child {P : Json → Prop} (h : Hereditary P) {m : Members} {c : Json}
    (hm : P (.obj m)) (hc : c ∈ childSchemas m) : P c :=
  h.child_of_members (fun hlookup => h.member hm hlookup) hc

/-! ## What a resolution yields -/

theorem yields_range {β : Type} {Q : β → Prop} (keys : List String)
    (f : List String → Ranging β) : Yields AnyOrder Q (perform keys >>= f) ↔
      ∀ answer : List String, answer.Perm keys → Yields AnyOrder Q (f answer) := Iff.rfl

theorem exists_order (keys : List String) : ∃ answer, AnyOrder keys answer := ⟨keys, .refl keys⟩

/-- All orders of the keys can be tried. -/
instance decidableYields {α : Type} (Q : α → Prop) [DecidablePred Q] :
    (p : Ranging α) → Decidable (Yields AnyOrder Q p)
  | .ret a => inferInstanceAs (Decidable (Q a))
  | .call keys next =>
    have := fun answer => decidableYields Q (next answer)
    decidable_of_iff (∀ answer ∈ keys.permutations', Yields AnyOrder Q (next answer))
      (forall_congr' fun _ => imp_congr_left List.mem_permutations')
  | .choose next =>
    have := fun b => decidableYields Q (next b)
    inferInstanceAs (Decidable (∀ b, Yields AnyOrder Q (next b)))

/-- A schema is no object, a reference or an object of its own. -/
theorem yields_resolveBody {res : Json → Ctx → Ranging (SchemaProperty × Ctx)}
    {remembered : Properties → String → Option SchemaProperty} {spec : Members} {j : Json} {ctx : Ctx}
    {Q : SchemaProperty × Ctx → Prop} (hleaf : (∀ m, j ≠ .obj m) → Q (emptyObject, ctx))
    (href : ∀ m ref, j = .obj m → asString m "$ref" = some ref →
      Yields AnyOrder Q (resolveReference res remembered spec ref ctx))
    (hobject : ∀ m, j = .obj m → asString m "$ref" = none →
      Yields AnyOrder Q (resolveObject res m ctx)) :
    Yields AnyOrder Q (resolveBody res remembered spec j ctx) := by
  cases j with
  | obj m =>
    rw [resolveBody]
    cases h : asString m "$ref" with
    | some ref => exact href m ref rfl h
    | none => exact hobject m rfl h
  | null => exact hleaf nofun
  | bool b => exact hleaf nofun
  | num n => exact hleaf nofun
  | str s => exact hleaf nofun
  | arr items => exact hleaf nofun

/-! ## Steps that keep a relation between contexts -/

section

variable {R : Ctx → Ctx → Prop} {res : Json → Ctx → Ranging (SchemaProperty × Ctx)}

/-- However the resolution goes, it takes the context to a related one. -/
def Keeps (R : Ctx → Ctx → Prop) (res : Json → Ctx → Ranging (SchemaProperty × Ctx)) : Prop :=
  ∀ j ctx, Yields AnyOrder (fun r => R ctx r.2) (res j ctx)

theorem keeps_bind {α β : Type} (htrans : ∀ a b c, R a b → R b c → R a c) {ctx : Ctx}
    {p : Ranging (α × Ctx)} {f : α × Ctx → Ranging (β × Ctx)}
    (hp : Yields AnyOrder (fun r => R ctx r.2) p)
    (hf : ∀ r, Yields AnyOrder (fun r' => R r.2 r'.2) (f r)) :
    Yields AnyOrder (fun r => R ctx r.2) (p >>= f) :=
  yields_bind hp fun r hr => (hf r).imp fun r' hr' => htrans ctx r.2 r'.2 hr hr'

variable (hrefl : ∀ ctx, R ctx ctx) (htrans : ∀ a b c, R a b → R b c → R a c) (hres : Keeps R res)

include hrefl htrans hres

theorem keeps_resolveProperties (propsRaw : Members) (keys : List String) (done : Properties)
    (ctx : Ctx) :
    Yields AnyOrder (fun r => R ctx r.2) (resolveProperties res propsRaw keys done ctx) := by
  induction keys generalizing done ctx with
  | nil => exact hrefl ctx
  | cons key keys ih => exact keeps_bind htrans (hres _ ctx) fun r => ih _ r.2

theorem keeps_resolveAllOf (allOf : List Json) (result : SchemaProperty) (ctx : Ctx) :
    Yields AnyOrder (fun r => R ctx r.2) (resolveAllOf res allOf result ctx) := by
  induction allOf generalizing result ctx with
  | nil => exact hrefl ctx
  | cons sub allOf ih => exact keeps_bind htrans (hres sub ctx) fun r => ih _ r.2

theorem keeps_propertiesStep (m : Members) (result : SchemaProperty) (ctx : Ctx) :
    Yields AnyOrder (fun r => R ctx r.2) (propertiesStep res m result ctx) := by
  rw [propertiesStep]
  cases asMap m "properties" with
  | none => exact hrefl ctx
  | some propsRaw =>
    refine (yields_range _ _).mpr fun keys _ => ?_
    exact keeps_bind htrans (keeps_resolveProperties hrefl htrans hres propsRaw keys [] ctx)
      fun r => hrefl r.2

theorem keeps_allOfStep (m : Members) (result : SchemaProperty) (ctx : Ctx) :
    Yields AnyOrder (fun r => R ctx r.2) (allOfStep res m result ctx) := by
  rw [allOfStep]
  cases asList m "allOf" with
  | none => exact hrefl ctx
  | some allOf => exact keeps_resolveAllOf hrefl htrans hres allOf _ ctx

theorem keeps_itemsStep (m : Members) (result : SchemaProperty) (ctx : Ctx) :
    Yields AnyOrder (fun r => R ctx r.2) (itemsStep res m result ctx) := by
  rw [itemsStep]
  cases m.lookup "items" with
  | none => exact hrefl ctx
  | some items => exact keeps_bind htrans (hres items ctx) fun r => hrefl r.2

theorem keeps_resolveObject (m : Members) (ctx : Ctx) :
    Yields AnyOrder (fun r => R ctx r.2) (resolveObject res m ctx) :=
  keeps_bind htrans (keeps_propertiesStep hrefl htrans hres m _ ctx) fun r =>
    keeps_bind htrans (keeps_allOfStep hrefl htrans hres m _ r.2) fun r' =>
      keeps_itemsStep hrefl htrans hres m _ r'.2

end

/-- A resolver keeps what its own context steps and its references keep. -/
theorem keeps_resolveWith {R : Ctx → Ctx → Prop} (hrefl : ∀ ctx, R ctx ctx)
    (htrans : ∀ a b c, R a b → R b c → R a c)
    {remembered : Properties → String → Option SchemaProperty} {spec : Members}
    (hcount : ∀ ctx, R ctx ctx.counted) (hcut : ∀ ctx, R ctx ctx.cut)
    (href : ∀ res, Keeps R res → ∀ ref ctx,
      Yields AnyOrder (fun r => R ctx r.2) (resolveReference res remembered spec ref ctx))
    (maxNodes : ℤ) (room : ℕ) : Keeps R (resolveWith remembered spec maxNodes room) := by
  have hstop : ∀ ctx : Ctx, R ctx ctx.counted.cut := fun ctx =>
    htrans _ _ _ (hcount ctx) (hcut ctx.counted)
  induction room with
  | zero => exact fun j ctx => hstop ctx
  | succ room ih =>
    intro j ctx
    rw [resolveWith]
    split
    · exact hstop ctx
    · have hbody : Yields AnyOrder (fun r => R ctx.counted r.2)
          (resolveBody (resolveWith remembered spec maxNodes room) remembered spec j ctx.counted) :=
        yields_resolveBody (fun _ => hrefl ctx.counted) (fun _ ref _ _ => href _ ih ref ctx.counted)
          fun m _ _ => keeps_resolveObject hrefl htrans ih m ctx.counted
      exact hbody.imp fun r hr => htrans _ _ _ (hcount ctx) hr

end Swazz.Swagger
