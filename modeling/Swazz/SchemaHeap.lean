import Swazz.ListIndex
import Swazz.PointerTrees
import Swazz.SchemaResolver

/-! The resolver of JSON schemas with its pointers: a property is a structure in the heap, and
what a reference led to is copied wherever it is met again, its map and its pointers shared. -/
namespace Swazz.Swagger.InHeap

open AtomicCalls AtomicCalls.Calls PointerTrees

/-- The entries of a map of properties, with the addresses of the structures. -/
abbrev Pointers := List (String × ℕ)

structure SchemaProperty where
  type : String
  format : String
  enum : Option (List Json)
  properties : Option Pointers
  items : Option ℕ
  required : List String

/-- The structures by their addresses. -/
abbrev Heap := List SchemaProperty

def bareObject : SchemaProperty := ⟨"object", "", none, none, none, []⟩

def emptyObject : SchemaProperty := ⟨"object", "", none, some [], none, []⟩

structure Ctx where
  inProgress : List String
  resolvedRefs : List (String × SchemaProperty)
  nodeCount : ℕ
  truncated : Bool
  heap : Heap

/-- `&resolved` -/
def Ctx.alloc (ctx : Ctx) (resolved : SchemaProperty) : Ctx :=
  { ctx with heap := ctx.heap ++ [resolved] }

/-! ## One schema object -/

section

variable (res : Json → Ctx → Ranging (SchemaProperty × Ctx))

def resolveProperties (propsRaw : Members) :
    List String → Pointers → Ctx → Ranging (Pointers × Ctx)
  | [], done, ctx => return (done, ctx)
  | key :: keys, done, ctx => do
    let (resolved, ctx) ← res ((propsRaw.lookup key).getD .null) ctx
    resolveProperties propsRaw keys ((key, ctx.heap.length) :: done) (ctx.alloc resolved)

/-- The map that was filled, in the order of the specification. -/
def listed (propsRaw : Members) (done : Pointers) : Pointers :=
  (keysOf propsRaw).filterMap fun key => (done.lookup key).map fun pointer => (key, pointer)

/-- `result.Properties[k] = v` -/
def setProperty : Pointers → String × ℕ → Pointers
  | [], (k, v) => [(k, v)]
  | (k', v') :: rest, (k, v) =>
    if k' = k then (k, v) :: rest else (k', v') :: setProperty rest (k, v)

def mergeSub (result sub : SchemaProperty) : SchemaProperty :=
  { result with
    properties := some ((sub.properties.getD []).foldl setProperty (result.properties.getD []))
    required := result.required ++ sub.required }

def resolveAllOf : List Json → SchemaProperty → Ctx → Ranging (SchemaProperty × Ctx)
  | [], result, ctx => return (result, ctx)
  | sub :: allOf, result, ctx => do
    let (resolved, ctx) ← res sub ctx
    resolveAllOf allOf (mergeSub result resolved) ctx

def startResult (m : Members) : SchemaProperty where
  type := getStringField m "type"
  format := getStringField m "format"
  enum := asList m "enum"
  properties := none
  items := none
  required := []

def withProperties (result : SchemaProperty) (properties : Pointers) : SchemaProperty :=
  { result with type := "object", properties := some properties }

def withItems (result : SchemaProperty) (pointer : ℕ) : SchemaProperty :=
  { result with type := "array", items := some pointer }

def propertiesStep (m : Members) (result : SchemaProperty) (ctx : Ctx) :
    Ranging (SchemaProperty × Ctx) :=
  match asMap m "properties" with
  | some propsRaw => do
    let keys ← perform (keysOf propsRaw)
    let (done, ctx) ← resolveProperties res propsRaw keys [] ctx
    return (withProperties result (listed propsRaw done), ctx)
  | none => return (result, ctx)

def allOfStep (m : Members) (result : SchemaProperty) (ctx : Ctx) :
    Ranging (SchemaProperty × Ctx) :=
  match asList m "allOf" with
  | some allOf => resolveAllOf res allOf (withProperties result (result.properties.getD [])) ctx
  | none => return (result, ctx)

def itemsStep (m : Members) (result : SchemaProperty) (ctx : Ctx) :
    Ranging (SchemaProperty × Ctx) :=
  match m.lookup "items" with
  | some items => do
    let (resolved, ctx) ← res items ctx
    return (withItems result ctx.heap.length, ctx.alloc resolved)
  | none => return (result, ctx)

def resolveObject (m : Members) (ctx : Ctx) : Ranging (SchemaProperty × Ctx) := do
  let (result, ctx) ← propertiesStep res m (startResult m) ctx
  let (result, ctx) ← allOfStep res m { result with required := requiredOf m } ctx
  itemsStep res m result ctx

def resolveTarget (ref : String) (spec : Members) (ctx : Ctx) : Ranging (SchemaProperty × Ctx) :=
  match resolveRef ref spec with
  | .null => return (emptyObject, ctx)
  | resolved => res resolved ctx

/-- `return *cached`: the structure is copied, with the map and the pointers in it. -/
def resolveReference (spec : Members) (ref : String) (ctx : Ctx) :
    Ranging (SchemaProperty × Ctx) :=
  if ref ∈ ctx.inProgress then return (bareObject, ctx)
  else match ctx.resolvedRefs.lookup ref with
  | some cached => return (cached, ctx)
  | none => do
    let ctx := { ctx with inProgress := ref :: ctx.inProgress }
    let (result, ctx) ← resolveTarget res ref spec ctx
    return (result, { ctx with
      inProgress := ctx.inProgress.erase ref
      resolvedRefs := (ref, result) :: ctx.resolvedRefs })

def resolveBody (spec : Members) (schema : Json) (ctx : Ctx) : Ranging (SchemaProperty × Ctx) :=
  match schema with
  | .obj m =>
    match asString m "$ref" with
    | some ref => resolveReference res spec ref ctx
    | none => resolveObject res m ctx
  | _ => return (emptyObject, ctx)

end

/-! ## The resolver -/

def Ctx.counted (ctx : Ctx) : Ctx := { ctx with nodeCount := ctx.nodeCount + 1 }

def Ctx.cut (ctx : Ctx) : Ctx := { ctx with truncated := true }

/-- `resolve`, with `room` the levels left under the depth limit. -/
def resolve (spec : Members) (maxNodes : ℤ) : ℕ → Json → Ctx → Ranging (SchemaProperty × Ctx)
  | 0, _, ctx => return (bareObject, ctx.counted.cut)
  | room + 1, schema, ctx =>
    if ctx.counted.nodeCount > maxNodes then return (bareObject, ctx.counted.cut)
    else resolveBody (resolve spec maxNodes room) spec schema ctx.counted

/-- A schema of the parse result: of a request body or of a header, of a parameter by its type and
format, or of the parameters of a query by their names, types and formats. -/
inductive Source where
  | schema (schema : Json)
  | param (type format : String)
  | params (params : List (String × String × String))

def param (type format : String) : SchemaProperty := ⟨type, format, none, none, none, []⟩

/-- The root of a schema is the newest structure of the heap. -/
def parseSource (spec : Members) (maxNodes maxDepth : ℤ) (heap : Heap) : Source → Ranging Heap
  | .schema schema => do
    let (root, ctx) ← resolve spec maxNodes maxDepth.toNat schema ⟨[], [], 0, false, heap⟩
    return ctx.heap ++ [root]
  | .param type format => return heap ++ [param type format]
  | .params params =>
    let leaves := params.map fun p => param p.2.1 p.2.2
    let properties := ((params.map Prod.fst).zipIdx heap.length).foldl setProperty []
    return heap ++ leaves ++ [withProperties (param "object" "") properties]

/-- The heap of a parse result, and the addresses of its schemas. -/
def parse (spec : Members) (maxNodes maxDepth : ℤ) : List Source → Heap → List ℕ →
    Ranging (Heap × List ℕ)
  | [], heap, roots => return (heap, roots)
  | source :: sources, heap, roots => do
    let heap ← parseSource spec maxNodes maxDepth heap source
    parse spec maxNodes maxDepth sources heap (roots ++ [heap.length - 1])

/-! ## The graph of a heap -/

/-- What of a property is not a pointer. -/
structure Data where
  type : String
  format : String
  enum : Option (List Json)
  required : List String

def SchemaProperty.data (s : SchemaProperty) : Data := ⟨s.type, s.format, s.enum, s.required⟩

/-- The entry without a key is that of the items. -/
def SchemaProperty.children (s : SchemaProperty) : List (Option String × ℕ) :=
  (s.properties.getD []).map (fun e => (some e.1, e.2)) ++ s.items.toList.map fun c => (none, c)

def Heap.graph (heap : Heap) : PointerGraph (Option Data) (Option String) where
  data a := heap[a]?.map SchemaProperty.data
  children a := (heap[a]?.map SchemaProperty.children).getD []

/-- A property whose pointers are below an address and whose keys are those of a map. -/
structure SchemaProperty.Below (s : SchemaProperty) (a : ℕ) : Prop where
  properties : ∀ e ∈ s.properties.getD [], e.2 < a
  items : ∀ c ∈ s.items, c < a
  keys_nodup : ((s.properties.getD []).map Prod.fst).Nodup

def Heap.WellFormed (heap : Heap) : Prop :=
  ∀ (a : ℕ) (s : SchemaProperty), heap[a]? = some s → s.Below a

section WellFormed

variable {s sub : SchemaProperty} {a b : ℕ} {heap : Heap}

theorem SchemaProperty.Below.mono (h : s.Below a) (hab : a ≤ b) : s.Below b :=
  ⟨fun e he => (h.properties e he).trans_le hab, fun c hc => (h.items c hc).trans_le hab, h.keys_nodup⟩

theorem below_of_no_pointers (hproperties : s.properties.getD [] = []) (hitems : s.items = none) :
    s.Below a := by
  refine ⟨?_, ?_, ?_⟩
  · rw [hproperties]
    exact fun e he => absurd he List.not_mem_nil
  · rw [hitems]
    exact fun c hc => absurd hc (Option.not_mem_none c)
  · rw [hproperties]
    exact List.nodup_nil

theorem Heap.WellFormed.concat (h : heap.WellFormed) (hs : s.Below heap.length) :
    Heap.WellFormed (heap ++ [s]) := by
  intro a t ht
  rcases ListIndex.of_concat ht with ⟨hold, -⟩ | ⟨rfl, rfl⟩
  · exact h a t hold
  · exact hs

theorem Heap.WellFormed.append (h : heap.WellFormed) {more : Heap}
    (hmore : ∀ s ∈ more, s.Below heap.length) : Heap.WellFormed (heap ++ more) := by
  induction more using List.reverseRecOn with
  | nil => rwa [List.append_nil]
  | append_singleton more s ih =>
    rw [← List.append_assoc]
    have hlast := hmore s (List.mem_append_right _ List.mem_cons_self)
    refine (ih fun t ht => hmore t (List.mem_append_left _ ht)).concat (hlast.mono ?_)
    rw [List.length_append]
    exact Nat.le_add_right _ _

theorem Heap.WellFormed.older (h : heap.WellFormed) : heap.graph.Older := by
  intro a e he
  cases hs : heap[a]? with
  | none =>
    simp only [Heap.graph, hs] at he
    cases he
  | some s =>
    simp only [Heap.graph, hs, Option.map_some, Option.getD_some, SchemaProperty.children,
      List.mem_append, List.mem_map, Option.mem_toList] at he
    rcases he with ⟨e', he', rfl⟩ | ⟨c, hc, rfl⟩
    · exact (h a s hs).properties e' he'
    · exact (h a s hs).items c hc

/-! ## What the resolver builds -/

theorem mem_setProperty {ps : Pointers} {e e' : String × ℕ} (h : e' ∈ setProperty ps e) :
    e' = e ∨ e' ∈ ps := by
  induction ps with
  | nil => exact Or.inl (List.mem_singleton.mp h)
  | cons first ps ih =>
    rw [setProperty] at h
    split_ifs at h
    · exact (List.mem_cons.mp h).imp_right (List.mem_cons_of_mem _)
    · rcases List.mem_cons.mp h with rfl | h
      · exact Or.inr List.mem_cons_self
      · exact (ih h).imp_right (List.mem_cons_of_mem _)

theorem nodup_setProperty {ps : Pointers} (h : (ps.map Prod.fst).Nodup) (e : String × ℕ) :
    ((setProperty ps e).map Prod.fst).Nodup := by
  induction ps with
  | nil => exact List.nodup_singleton _
  | cons first ps ih =>
    rw [List.map_cons, List.nodup_cons] at h
    rw [setProperty]
    split_ifs with hk
    · exact List.nodup_cons.mpr ⟨hk ▸ h.1, h.2⟩
    · refine List.nodup_cons.mpr ⟨fun hmem => ?_, ih h.2⟩
      obtain ⟨e', he', hfst⟩ := List.mem_map.mp hmem
      rcases mem_setProperty he' with rfl | he'
      · exact hk hfst.symm
      · exact h.1 (hfst ▸ List.mem_map_of_mem he')

/-- Entries that are put into a map one after the other. -/
theorem foldl_setProperty {ps more : Pointers} (hps : ∀ e ∈ ps, e.2 < a)
    (hmore : ∀ e ∈ more, e.2 < a) (hnodup : (ps.map Prod.fst).Nodup) :
    (∀ e ∈ more.foldl setProperty ps, e.2 < a) ∧
      ((more.foldl setProperty ps).map Prod.fst).Nodup := by
  induction more generalizing ps with
  | nil => exact ⟨hps, hnodup⟩
  | cons e more ih =>
    refine ih ?_ (fun e' he' => hmore e' (List.mem_cons_of_mem _ he')) (nodup_setProperty hnodup e)
    intro e' he'
    rcases mem_setProperty he' with rfl | he'
    · exact hmore e' List.mem_cons_self
    · exact hps e' he'

theorem below_mergeSub (hs : s.Below a) (hsub : sub.Below a) : (mergeSub s sub).Below a := by
  obtain ⟨holder, hnodup⟩ := foldl_setProperty hs.properties hsub.properties hs.keys_nodup
  exact ⟨holder, hs.items, hnodup⟩

theorem below_withProperties {ps : Pointers} (hs : s.Below a) (hps : ∀ e ∈ ps, e.2 < a)
    (hnodup : (ps.map Prod.fst).Nodup) : (withProperties s ps).Below a :=
  ⟨hps, hs.items, hnodup⟩

theorem below_withItems (hs : s.Below a) (hb : b < a) : (withItems s b).Below a := by
  refine ⟨hs.properties, fun c hc => ?_, hs.keys_nodup⟩
  obtain rfl : b = c := Option.some.inj hc
  exact hb

theorem mem_of_lookup {β : Type} {l : List (String × β)} {key : String} {v : β}
    (h : l.lookup key = some v) : (key, v) ∈ l := by
  obtain ⟨before, after, rfl, -⟩ := List.lookup_eq_some_iff.mp h
  exact List.mem_append_right _ List.mem_cons_self

theorem mem_listed {propsRaw : Members} {done : Pointers} {e : String × ℕ}
    (h : e ∈ listed propsRaw done) : e ∈ done := by
  obtain ⟨key, -, hlookup⟩ := List.mem_filterMap.mp h
  obtain ⟨pointer, hpointer, rfl⟩ := Option.map_eq_some_iff.mp hlookup
  exact mem_of_lookup hpointer

theorem keys_listed (propsRaw : Members) (done : Pointers) :
    ((listed propsRaw done).map Prod.fst).Nodup := by
  have hsublist : ((listed propsRaw done).map Prod.fst).Sublist (keysOf propsRaw) := by
    rw [listed]
    induction keysOf propsRaw with
    | nil => exact List.Sublist.refl _
    | cons key keys ih =>
      rw [List.filterMap_cons]
      cases done.lookup key with
      | none => exact ih.cons key
      | some pointer => exact ih.cons_cons key
  exact (List.nodup_dedup _).sublist hsublist

end WellFormed

/-- The heap and what is remembered point to older structures only. -/
structure Ctx.Ok (ctx : Ctx) : Prop where
  heap : ctx.heap.WellFormed
  memo : ∀ e ∈ ctx.resolvedRefs, e.2.Below ctx.heap.length

/-- The heap has grown, and points to older structures only, and so does the result. -/
structure Built (ctx : Ctx) (r : SchemaProperty × Ctx) : Prop where
  ok : r.2.Ok
  grown : ctx.heap.length ≤ r.2.heap.length
  below : r.1.Below r.2.heap.length

/-- What the resolution of any schema keeps. -/
def Builds (res : Json → Ctx → Ranging (SchemaProperty × Ctx)) : Prop :=
  ∀ j ctx, ctx.Ok → Yields AnyOrder (Built ctx) (res j ctx)

theorem Ctx.Ok.alloc {ctx : Ctx} {s : SchemaProperty} (h : ctx.Ok) (hs : s.Below ctx.heap.length) :
    (ctx.alloc s).Ok := by
  refine ⟨h.heap.concat hs, fun e he => (h.memo e he).mono ?_⟩
  rw [Ctx.alloc, List.length_append]
  exact Nat.le_add_right _ _

theorem length_alloc (ctx : Ctx) (s : SchemaProperty) :
    (ctx.alloc s).heap.length = ctx.heap.length + 1 := by
  rw [Ctx.alloc, List.length_append, List.length_singleton]

section

variable {res : Json → Ctx → Ranging (SchemaProperty × Ctx)} (hres : Builds res)

include hres

theorem built_resolveProperties (propsRaw : Members) (keys : List String) {done : Pointers}
    {ctx : Ctx} (hctx : ctx.Ok) (hdone : ∀ e ∈ done, e.2 < ctx.heap.length) :
    Yields AnyOrder (fun r => r.2.Ok ∧ ctx.heap.length ≤ r.2.heap.length ∧
      ∀ e ∈ r.1, e.2 < r.2.heap.length) (resolveProperties res propsRaw keys done ctx) := by
  induction keys generalizing done ctx with
  | nil => exact ⟨hctx, le_rfl, hdone⟩
  | cons key keys ih =>
    refine yields_bind (hres _ ctx hctx) fun r hr => ?_
    have hdone' : ∀ e ∈ (key, r.2.heap.length) :: done, e.2 < (r.2.alloc r.1).heap.length := by
      intro e he
      rw [length_alloc]
      rcases List.mem_cons.mp he with rfl | he
      · exact Nat.lt_succ_self _
      · exact ((hdone e he).trans_le hr.grown).trans (Nat.lt_succ_self _)
    refine (ih (hr.ok.alloc hr.below) hdone').imp fun r' hr' => ⟨hr'.1, ?_, hr'.2.2⟩
    have hgrown := hr'.2.1
    rw [length_alloc] at hgrown
    exact hr.grown.trans ((Nat.le_succ _).trans hgrown)

theorem built_propertiesStep (m : Members) {result : SchemaProperty} {ctx : Ctx} (hctx : ctx.Ok)
    (hresult : result.Below ctx.heap.length) :
    Yields AnyOrder (Built ctx) (propertiesStep res m result ctx) := by
  rw [propertiesStep]
  cases asMap m "properties" with
  | none => exact ⟨hctx, le_rfl, hresult⟩
  | some propsRaw =>
    refine (yields_range _ _).mpr fun keys _ => ?_
    refine yields_bind (built_resolveProperties hres propsRaw keys hctx fun e he => ?_)
      fun r hr => ?_
    · cases he
    · refine ⟨hr.1, hr.2.1, below_withProperties (hresult.mono hr.2.1) (fun e he => ?_)
        (keys_listed propsRaw r.1)⟩
      exact hr.2.2 e (mem_listed he)

theorem built_resolveAllOf (allOf : List Json) {result : SchemaProperty} {ctx : Ctx}
    (hctx : ctx.Ok) (hresult : result.Below ctx.heap.length) :
    Yields AnyOrder (Built ctx) (resolveAllOf res allOf result ctx) := by
  induction allOf generalizing result ctx with
  | nil => exact ⟨hctx, le_rfl, hresult⟩
  | cons sub allOf ih =>
    refine yields_bind (hres sub ctx hctx) fun r hr => ?_
    refine (ih hr.ok (below_mergeSub (hresult.mono hr.grown) hr.below)).imp fun r' hr' => ?_
    exact ⟨hr'.ok, hr.grown.trans hr'.grown, hr'.below⟩

theorem built_allOfStep (m : Members) {result : SchemaProperty} {ctx : Ctx} (hctx : ctx.Ok)
    (hresult : result.Below ctx.heap.length) :
    Yields AnyOrder (Built ctx) (allOfStep res m result ctx) := by
  rw [allOfStep]
  cases asList m "allOf" with
  | none => exact ⟨hctx, le_rfl, hresult⟩
  | some allOf =>
    exact built_resolveAllOf hres allOf hctx
      (below_withProperties hresult hresult.properties hresult.keys_nodup)

theorem built_itemsStep (m : Members) {result : SchemaProperty} {ctx : Ctx} (hctx : ctx.Ok)
    (hresult : result.Below ctx.heap.length) :
    Yields AnyOrder (Built ctx) (itemsStep res m result ctx) := by
  rw [itemsStep]
  cases m.lookup "items" with
  | none => exact ⟨hctx, le_rfl, hresult⟩
  | some items =>
    refine yields_bind (hres items ctx hctx) fun r hr => ?_
    have hgrown : ctx.heap.length ≤ (r.2.alloc r.1).heap.length := by
      rw [length_alloc]
      exact hr.grown.trans (Nat.le_succ _)
    refine ⟨hr.ok.alloc hr.below, hgrown, below_withItems (hresult.mono hgrown) ?_⟩
    rw [length_alloc]
    exact Nat.lt_succ_self _

theorem built_resolveObject (m : Members) {ctx : Ctx} (hctx : ctx.Ok) :
    Yields AnyOrder (Built ctx) (resolveObject res m ctx) := by
  refine yields_bind (built_propertiesStep hres m hctx (below_of_no_pointers rfl rfl))
    fun r hr => ?_
  have hbelow : ({ r.1 with required := requiredOf m } : SchemaProperty).Below r.2.heap.length :=
    ⟨hr.below.properties, hr.below.items, hr.below.keys_nodup⟩
  refine yields_bind (built_allOfStep hres m hr.ok hbelow) fun r' hr' => ?_
  refine (built_itemsStep hres m hr'.ok hr'.below).imp fun r'' hr'' => ?_
  exact ⟨hr''.ok, hr.grown.trans (hr'.grown.trans hr''.grown), hr''.below⟩

theorem built_resolveTarget (ref : String) (spec : Members) {ctx : Ctx} (hctx : ctx.Ok) :
    Yields AnyOrder (Built ctx) (resolveTarget res ref spec ctx) := by
  rw [resolveTarget]
  split
  · exact ⟨hctx, le_rfl, below_of_no_pointers rfl rfl⟩
  · exact hres _ ctx hctx

theorem built_resolveReference (spec : Members) (ref : String) {ctx : Ctx} (hctx : ctx.Ok) :
    Yields AnyOrder (Built ctx) (resolveReference res spec ref ctx) := by
  rw [resolveReference]
  split
  · exact ⟨hctx, le_rfl, below_of_no_pointers rfl rfl⟩
  · split
    · next cached hcached =>
      exact ⟨hctx, le_rfl, hctx.memo _ (mem_of_lookup hcached)⟩
    · have hctx' : ({ ctx with inProgress := ref :: ctx.inProgress } : Ctx).Ok :=
        ⟨hctx.heap, hctx.memo⟩
      refine yields_bind (built_resolveTarget hres ref spec hctx') fun r hr => ?_
      refine ⟨⟨hr.ok.heap, fun e he => ?_⟩, hr.grown, hr.below⟩
      rcases List.mem_cons.mp he with rfl | he
      · exact hr.below
      · exact hr.ok.memo e he

theorem built_resolveBody (spec : Members) (j : Json) {ctx : Ctx} (hctx : ctx.Ok) :
    Yields AnyOrder (Built ctx) (resolveBody res spec j ctx) := by
  cases j with
  | obj m =>
    rw [resolveBody]
    cases asString m "$ref" with
    | some ref => exact built_resolveReference hres spec ref hctx
    | none => exact built_resolveObject hres m hctx
  | null | bool | num | str | arr => exact ⟨hctx, le_rfl, below_of_no_pointers rfl rfl⟩

end

theorem builds_resolve (spec : Members) (maxNodes : ℤ) (room : ℕ) :
    Builds (resolve spec maxNodes room) := by
  induction room with
  | zero => exact fun j ctx hctx => ⟨⟨hctx.heap, hctx.memo⟩, le_rfl, below_of_no_pointers rfl rfl⟩
  | succ room ih =>
    intro j ctx hctx
    rw [resolve]
    split
    · exact ⟨⟨hctx.heap, hctx.memo⟩, le_rfl, below_of_no_pointers rfl rfl⟩
    · have hcounted : ctx.counted.Ok := ⟨hctx.heap, hctx.memo⟩
      refine (built_resolveBody ih spec j hcounted).imp ?_
      exact fun r hr => ⟨hr.ok, hr.grown, hr.below⟩

theorem wellFormed_parseSource (spec : Members) (maxNodes maxDepth : ℤ) {heap : Heap}
    (h : heap.WellFormed) (source : Source) :
    Yields AnyOrder Heap.WellFormed (parseSource spec maxNodes maxDepth heap source) := by
  cases source with
  | schema schema =>
    refine yields_bind (builds_resolve spec maxNodes _ schema _ ⟨h, ?_⟩) fun r hr => ?_
    · exact fun e he => absurd he List.not_mem_nil
    · exact hr.ok.heap.concat hr.below
  | param type format => exact h.concat (below_of_no_pointers rfl rfl)
  | params params =>
    have hleaves : Heap.WellFormed (heap ++ params.map fun p => param p.2.1 p.2.2) := by
      refine h.append fun s hs => ?_
      obtain ⟨p, -, rfl⟩ := List.mem_map.mp hs
      exact below_of_no_pointers rfl rfl
    have hentries : ∀ e ∈ (params.map Prod.fst).zipIdx heap.length,
        e.2 < (heap ++ params.map fun p => param p.2.1 p.2.2).length := by
      intro e he
      have hlt := List.snd_lt_of_mem_zipIdx he
      rw [List.length_map] at hlt
      rw [List.length_append, List.length_map]
      omega
    have hnone : ∀ e ∈ ([] : Pointers),
        e.2 < (heap ++ params.map fun p => param p.2.1 p.2.2).length :=
      fun e he => absurd he List.not_mem_nil
    obtain ⟨holder, hnodup⟩ := foldl_setProperty hnone hentries List.nodup_nil
    exact hleaves.concat (below_withProperties (below_of_no_pointers rfl rfl) holder hnodup)

/-- Every heap that the parser can build points to older structures only. -/
theorem wellFormed_parse (spec : Members) (maxNodes maxDepth : ℤ) (sources : List Source)
    {heap : Heap} (h : heap.WellFormed) (roots : List ℕ) :
    Yields AnyOrder (fun r => Heap.WellFormed r.1)
      (parse spec maxNodes maxDepth sources heap roots) := by
  induction sources generalizing heap roots with
  | nil => exact h
  | cons source sources ih =>
    exact yields_bind (wellFormed_parseSource spec maxNodes maxDepth h source) fun _ hheap =>
      ih hheap _

end Swazz.Swagger.InHeap
