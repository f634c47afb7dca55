import Mathlib.Algebra.Order.BigOperators.Group.List
import Mathlib.Algebra.Order.Ring.Nat
import Swazz.SchemaResolver

/-! The size of what the schema resolver returns: within the budget of nodes and the limit of depth
as long as no kept tree is used a second time. -/
namespace Swazz.Swagger

open AtomicCalls AtomicCalls.Calls

/-! ## The size of a tree -/

mutual

/-- The nodes of a tree, a shared subtree counted wherever it is reached. -/
def SchemaProperty.nodes : SchemaProperty → ℕ
  | ⟨_, _, _, properties, items, _⟩ => 1 + nodesOfMap properties + nodesOfItems items

def nodesOfMap : Option (List (String × SchemaProperty)) → ℕ
  | none => 0
  | some properties => nodesOfEntries properties

def nodesOfEntries : List (String × SchemaProperty) → ℕ
  | [] => 0
  | (_, t) :: rest => t.nodes + nodesOfEntries rest

def nodesOfItems : Option SchemaProperty → ℕ
  | none => 0
  | some t => t.nodes

end

mutual

/-- The edges on the longest way down a tree. -/
def SchemaProperty.height : SchemaProperty → ℕ
  | ⟨_, _, _, properties, items, _⟩ => max (heightOfMap properties) (heightOfItems items)

def heightOfMap : Option (List (String × SchemaProperty)) → ℕ
  | none => 0
  | some properties => heightOfEntries properties

def heightOfEntries : List (String × SchemaProperty) → ℕ
  | [] => 0
  | (_, t) :: rest => max (t.height + 1) (heightOfEntries rest)

def heightOfItems : Option SchemaProperty → ℕ
  | none => 0
  | some t => t.height + 1

end

theorem nodesOfEntries_eq (entries : List (String × SchemaProperty)) :
    nodesOfEntries entries = (entries.map fun e => e.2.nodes).sum := by
  induction entries with
  | nil => rw [nodesOfEntries]; rfl
  | cons e rest ih =>
    obtain ⟨k, t⟩ := e
    rw [nodesOfEntries, ih]
    rfl

theorem heightOfEntries_le {entries : List (String × SchemaProperty)} {h : ℕ} :
    heightOfEntries entries ≤ h ↔ ∀ e ∈ entries, e.2.height + 1 ≤ h := by
  induction entries with
  | nil =>
    rw [heightOfEntries]
    exact ⟨fun _ => nofun, fun _ => Nat.zero_le h⟩
  | cons e rest ih =>
    obtain ⟨k, t⟩ := e
    rw [heightOfEntries, max_le_iff, ih, List.forall_mem_cons]

theorem SchemaProperty.nodes_eq (t : SchemaProperty) :
    t.nodes = 1 + nodesOfMap t.properties + nodesOfItems t.items := by
  obtain ⟨type, format, enum, properties, items, required⟩ := t
  rw [SchemaProperty.nodes]

theorem SchemaProperty.height_le_iff {t : SchemaProperty} {h : ℕ} :
    t.height ≤ h ↔ heightOfMap t.properties ≤ h ∧ heightOfItems t.items ≤ h := by
  obtain ⟨type, format, enum, properties, items, required⟩ := t
  rw [SchemaProperty.height, max_le_iff]

theorem nodesOfMap_getD (properties : Option Properties) :
    nodesOfMap (some (properties.getD [])) = nodesOfMap properties := by
  cases properties with
  | none => rw [Option.getD_none, nodesOfMap, nodesOfMap, nodesOfEntries]
  | some entries => rfl

theorem heightOfMap_getD_le {properties : Option Properties} {h : ℕ} :
    heightOfMap properties ≤ h ↔ ∀ e ∈ properties.getD [], e.2.height + 1 ≤ h := by
  cases properties with
  | none =>
    rw [heightOfMap]
    exact ⟨fun _ => nofun, fun _ => Nat.zero_le h⟩
  | some entries =>
    rw [heightOfMap]
    exact heightOfEntries_le

theorem mem_setProperty {props : Properties} {entry e : String × SchemaProperty}
    (h : e ∈ setProperty props entry) : e ∈ props ∨ e = entry := by
  induction props with
  | nil => exact Or.inr (List.mem_singleton.mp h)
  | cons e' rest ih =>
    rw [setProperty] at h
    split at h
    · rcases List.mem_cons.mp h with rfl | hrest
      · exact Or.inr rfl
      · exact Or.inl (List.mem_cons_of_mem _ hrest)
    · rcases List.mem_cons.mp h with rfl | hrest
      · exact Or.inl List.mem_cons_self
      · exact (ih hrest).imp_left (List.mem_cons_of_mem _)

theorem nodes_setProperty_le (props : Properties) (entry : String × SchemaProperty) :
    nodesOfEntries (setProperty props entry) ≤ nodesOfEntries props + entry.2.nodes := by
  obtain ⟨key, value⟩ := entry
  change nodesOfEntries (setProperty props (key, value)) ≤ nodesOfEntries props + value.nodes
  induction props with
  | nil => simp [setProperty, nodesOfEntries]
  | cons e rest ih =>
    rw [setProperty]
    split
    · rw [nodesOfEntries, nodesOfEntries]
      omega
    · rw [nodesOfEntries, nodesOfEntries]
      omega

theorem mem_foldl_setProperty {props more : Properties} {e : String × SchemaProperty}
    (h : e ∈ more.foldl setProperty props) : e ∈ props ∨ e ∈ more := by
  induction more generalizing props with
  | nil => exact Or.inl h
  | cons entry more ih =>
    rcases ih h with hset | hmore
    · refine (mem_setProperty hset).imp_right fun heq => ?_
      rw [heq]
      exact List.mem_cons_self
    · exact Or.inr (List.mem_cons_of_mem _ hmore)

theorem nodes_foldl_setProperty_le (props more : Properties) :
    nodesOfEntries (more.foldl setProperty props) ≤ nodesOfEntries props + nodesOfEntries more := by
  induction more generalizing props with
  | nil => simp [nodesOfEntries]
  | cons entry more ih =>
    have hset := nodes_setProperty_le props entry
    have hrest := ih (setProperty props entry)
    rw [List.foldl_cons, nodesOfEntries]
    omega

theorem mem_listed {propsRaw : Members} {done : Properties} {e : String × SchemaProperty}
    (h : e ∈ listed propsRaw done) : e ∈ done := by
  obtain ⟨key, -, hkey⟩ := List.mem_filterMap.mp h
  obtain ⟨resolved, hlookup, rfl⟩ := Option.map_eq_some_iff.mp hkey
  obtain ⟨before, after, rfl, -⟩ := List.lookup_eq_some_iff.mp hlookup
  exact List.mem_append_right _ List.mem_cons_self

/-- Each key is listed once. -/
theorem nodup_listed (propsRaw : Members) (done : Properties) : (listed propsRaw done).Nodup := by
  refine List.Nodup.filterMap ?_ (List.nodup_dedup _)
  intro key key' e he he'
  obtain ⟨resolved, -, rfl⟩ := Option.map_eq_some_iff.mp he
  obtain ⟨resolved', -, heq⟩ := Option.map_eq_some_iff.mp he'
  exact (congrArg Prod.fst heq).symm

theorem nodes_listed_le (propsRaw : Members) (done : Properties) :
    nodesOfEntries (listed propsRaw done) ≤ nodesOfEntries done := by
  obtain ⟨entries, hperm, hsub⟩ :=
    List.subperm_of_subset (nodup_listed propsRaw done) fun _ => mem_listed
  rw [nodesOfEntries_eq, nodesOfEntries_eq, ← (hperm.map fun e => e.2.nodes).sum_eq]
  exact (hsub.map fun e => e.2.nodes).sum_le_sum fun _ _ => Nat.zero_le _

/-! ## The direct children of a schema object -/

/-- No schema object that the schema leads to has more than `w` direct children. -/
def AtMostChildren (spec : Members) (w : ℕ) (schema : Json) : Prop :=
  ∀ m, Relation.ReflTransGen (Leads spec) schema (.obj m) → (childSchemas m).length ≤ w

theorem AtMostChildren.leads {spec : Members} {w : ℕ} {schema c : Json}
    (h : AtMostChildren spec w schema) (hc : Leads spec schema c) : AtMostChildren spec w c :=
  fun m hm => h m (hm.head hc)

mutual

/-- The largest number of direct children of an object. -/
def widest : Json → ℕ
  | .arr items => widestOfItems items
  | .obj m => max (childSchemas m).length (widestOfMembers m)
  | .null => 0
  | .bool _ => 0
  | .num _ => 0
  | .str _ => 0

def widestOfItems : List Json → ℕ
  | [] => 0
  | j :: rest => max (widest j) (widestOfItems rest)

def widestOfMembers : List (String × Json) → ℕ
  | [] => 0
  | (_, j) :: rest => max (widest j) (widestOfMembers rest)

end

theorem widest_le_of_mem {items : List Json} {j : Json} (h : j ∈ items) :
    widest j ≤ widestOfItems items := by
  induction items with
  | nil => cases h
  | cons j' rest ih =>
    rw [widestOfItems]
    rcases List.mem_cons.mp h with rfl | hrest
    · exact le_max_left _ _
    · exact le_trans (ih hrest) (le_max_right _ _)

theorem widest_le_of_lookup {m : Members} {key : String} {j : Json} (h : m.lookup key = some j) :
    widest j ≤ widestOfMembers m := by
  induction m with
  | nil => cases h
  | cons e rest ih =>
    obtain ⟨key', j'⟩ := e
    rw [widestOfMembers]
    rw [List.lookup_cons] at h
    split at h
    · cases h
      exact le_max_left _ _
    · exact le_trans (ih h) (le_max_right _ _)

theorem hereditary_widest (w : ℕ) : Hereditary fun j => widest j ≤ w where
  null := by
    rw [widest]
    exact Nat.zero_le w
  item hle hj := by
    rw [widest] at hle
    exact le_trans (widest_le_of_mem hj) hle
  member hle hlookup := by
    rw [widest] at hle
    exact le_trans (widest_le_of_lookup hlookup) (le_trans (le_max_right _ _) hle)

/-- The largest number of direct children in the specification and the schema bounds those of
every schema object that resolution comes to. -/
theorem atMostChildren_widest (spec : Members) (schema : Json) :
    AtMostChildren spec (max (widest schema) (widest (.obj spec))) schema := by
  have hreach : ∀ j, Relation.ReflTransGen (Leads spec) schema j →
      widest j ≤ max (widest schema) (widest (.obj spec)) := by
    intro j hj
    induction hj with
    | refl => exact le_max_left _ _
    | tail _ hstep ih =>
      cases hstep with
      | child hc => exact (hereditary_widest _).child ih hc
      | ref h => exact (hereditary_widest _).resolveRef (le_max_right _ _) _
  intro m hm
  refine le_trans ?_ (hreach _ hm)
  rw [widest]
  exact le_max_left _ _

/-! ## What a resolution without the memo spends -/

/-- So many resolutions, each with at most `w + 1` further ones inside while the budget `n` lasts,
brought the count of nodes from one number to another. -/
structure Spent (w n calls before after : ℕ) : Prop where
  le : before ≤ after
  budget : after + (1 + w) * min before n ≤ before + calls + (1 + w) * min after n

theorem Spent.refl (w n c : ℕ) : Spent w n 0 c c := ⟨le_refl c, le_refl _⟩

theorem Spent.trans {w n k k' a b c : ℕ} (h : Spent w n k a b) (h' : Spent w n k' b c) :
    Spent w n (k + k') a c := by
  have hb := h.budget
  have hb' := h'.budget
  exact ⟨le_trans h.le h'.le, by omega⟩

theorem Spent.mono {w n k k' a b : ℕ} (h : Spent w n k a b) (hk : k ≤ k') : Spent w n k' a b := by
  have hb := h.budget
  exact ⟨h.le, by omega⟩

/-- One resolution that stops at once. -/
theorem Spent.stop (w n c : ℕ) : Spent w n 1 c (c + 1) := by
  have hmin : min c n ≤ min (c + 1) n := by omega
  have hmul := Nat.mul_le_mul_left (1 + w) hmin
  exact ⟨Nat.le_succ c, by omega⟩

/-- One resolution within the budget, with those inside it. -/
theorem Spent.enter {w n k c c' : ℕ} (hc : c + 1 ≤ n) (hk : k ≤ 1 + w)
    (h : Spent w n k (c + 1) c') : Spent w n 1 c c' := by
  have hb := h.budget
  rw [min_eq_left hc, Nat.mul_succ] at hb
  exact ⟨le_trans (Nat.le_succ c) h.le, by rw [min_eq_left (Nat.le_of_succ_le hc)]; omega⟩

theorem Spent.total {w n c : ℕ} (h : Spent w n 1 0 c) : c ≤ n * (1 + w) + 1 := by
  have hb := h.budget
  have hmin := Nat.mul_le_mul_left (1 + w) (Nat.min_le_right c n)
  rw [Nat.mul_comm n]
  simp only [Nat.zero_min, Nat.mul_zero] at hb
  omega

section

variable {w n h : ℕ} {S : Json → Prop} {res : Json → Ctx → Ranging (SchemaProperty × Ctx)}

/-- Resolving such a schema returns a tree of at most this height, with no more nodes than were
counted for it. -/
def Costs (w n h : ℕ) (S : Json → Prop) (res : Json → Ctx → Ranging (SchemaProperty × Ctx)) :
    Prop :=
  ∀ j ctx, S j → Yields AnyOrder (fun r => r.1.height ≤ h ∧
    ctx.nodeCount + r.1.nodes ≤ r.2.nodeCount ∧ Spent w n 1 ctx.nodeCount r.2.nodeCount) (res j ctx)

theorem nodes_withProperties_le (result : SchemaProperty) (properties : Properties) :
    (withProperties result properties).nodes ≤ result.nodes + nodesOfEntries properties := by
  rw [withProperties, SchemaProperty.nodes, nodesOfMap, result.nodes_eq]
  omega

theorem nodes_withProperties_own (result : SchemaProperty) :
    (withProperties result (result.properties.getD [])).nodes = result.nodes := by
  rw [withProperties, SchemaProperty.nodes, nodesOfMap_getD, ← result.nodes_eq]

theorem nodes_withItems_le (result resolved : SchemaProperty) :
    (withItems result resolved).nodes ≤ result.nodes + resolved.nodes := by
  rw [withItems, SchemaProperty.nodes, nodesOfItems, result.nodes_eq]
  omega

theorem nodes_mergeSub_le (result sub : SchemaProperty) :
    (mergeSub result sub).nodes ≤ result.nodes + sub.nodes := by
  have hset := nodes_foldl_setProperty_le (result.properties.getD []) (sub.properties.getD [])
  have hresult := nodesOfMap_getD result.properties
  have hsub := nodesOfMap_getD sub.properties
  rw [nodesOfMap] at hresult hsub
  rw [mergeSub, SchemaProperty.nodes, nodesOfMap, result.nodes_eq, sub.nodes_eq]
  omega

theorem height_withProperties_le {result : SchemaProperty} {properties : Properties}
    (hresult : result.height ≤ h) (hprops : ∀ e ∈ properties, e.2.height + 1 ≤ h) :
    (withProperties result properties).height ≤ h :=
  SchemaProperty.height_le_iff.mpr ⟨heightOfMap_getD_le.mpr hprops,
    (SchemaProperty.height_le_iff.mp hresult).2⟩

theorem height_withItems_le {result resolved : SchemaProperty} (hresult : result.height ≤ h)
    (hresolved : resolved.height + 1 ≤ h) : (withItems result resolved).height ≤ h := by
  refine SchemaProperty.height_le_iff.mpr ⟨(SchemaProperty.height_le_iff.mp hresult).1, ?_⟩
  rw [withItems, heightOfItems]
  exact hresolved

theorem height_mergeSub_le {result sub : SchemaProperty} (hresult : result.height ≤ h)
    (hsub : sub.height ≤ h) : (mergeSub result sub).height ≤ h := by
  obtain ⟨hprops, hitems⟩ := SchemaProperty.height_le_iff.mp hresult
  refine SchemaProperty.height_le_iff.mpr ⟨heightOfMap_getD_le.mpr fun e he => ?_, hitems⟩
  rcases mem_foldl_setProperty he with hown | hmore
  · exact heightOfMap_getD_le.mp hprops e hown
  · exact heightOfMap_getD_le.mp (SchemaProperty.height_le_iff.mp hsub).1 e hmore

theorem costs_resolveProperties (hres : Costs w n h S res) (propsRaw : Members) :
    ∀ (keys : List String) (done : Properties) (ctx : Ctx),
      (∀ key ∈ keys, S ((propsRaw.lookup key).getD .null)) →
      Yields AnyOrder (fun r => (∀ e ∈ r.1, e ∈ done ∨ e.2.height ≤ h) ∧
        ctx.nodeCount + nodesOfEntries r.1 ≤ r.2.nodeCount + nodesOfEntries done ∧
        Spent w n keys.length ctx.nodeCount r.2.nodeCount)
        (resolveProperties res propsRaw keys done ctx)
  | [], done, ctx, _ => ⟨fun e he => Or.inl he, le_refl _, Spent.refl w n _⟩
  | key :: keys, done, ctx, hS => by
    rw [resolveProperties]
    refine yields_bind (hres _ ctx (hS key List.mem_cons_self)) ?_
    rintro ⟨resolved, ctx'⟩ ⟨hheight, hnodes, hspent⟩
    have hrest := costs_resolveProperties hres propsRaw keys ((key, resolved) :: done) ctx'
      fun key hkey => hS key (List.mem_cons_of_mem _ hkey)
    refine hrest.imp ?_
    rintro ⟨props, ctx''⟩ ⟨hheights, hmore, hspent'⟩
    refine ⟨fun e he => ?_, ?_, ?_⟩
    · rcases hheights e he with hin | hle
      · rcases List.mem_cons.mp hin with rfl | hdone
        · exact Or.inr hheight
        · exact Or.inl hdone
      · exact Or.inr hle
    · rw [nodesOfEntries] at hmore
      dsimp only at hnodes hmore ⊢
      omega
    · exact (hspent.trans hspent').mono (Nat.le_of_eq (Nat.add_comm 1 keys.length))

theorem costs_resolveAllOf (hres : Costs w n h S res) :
    ∀ (allOf : List Json) (result : SchemaProperty) (ctx : Ctx), (∀ sub ∈ allOf, S sub) →
      result.height ≤ h + 1 →
      Yields AnyOrder (fun r => r.1.height ≤ h + 1 ∧
        ctx.nodeCount + r.1.nodes ≤ r.2.nodeCount + result.nodes ∧
        Spent w n allOf.length ctx.nodeCount r.2.nodeCount) (resolveAllOf res allOf result ctx)
  | [], result, ctx, _, hresult => ⟨hresult, le_refl _, Spent.refl w n _⟩
  | sub :: allOf, result, ctx, hS, hresult => by
    rw [resolveAllOf]
    refine yields_bind (hres sub ctx (hS sub List.mem_cons_self)) ?_
    rintro ⟨resolved, ctx'⟩ ⟨hheight, hnodes, hspent⟩
    have hrest := costs_resolveAllOf hres allOf (mergeSub result resolved) ctx'
      (fun sub hsub => hS sub (List.mem_cons_of_mem _ hsub))
      (height_mergeSub_le hresult (Nat.le_succ_of_le hheight))
    refine hrest.imp ?_
    rintro ⟨merged, ctx''⟩ ⟨hheights, hmore, hspent'⟩
    have hmerge := nodes_mergeSub_le result resolved
    refine ⟨hheights, ?_, (hspent.trans hspent').mono (Nat.le_of_eq (Nat.add_comm 1 _))⟩
    dsimp only at hnodes hmore ⊢
    omega

/-- What a step over the object's children keeps. -/
def StepCosts (w n h calls : ℕ)
    (step : SchemaProperty → Ctx → Ranging (SchemaProperty × Ctx)) : Prop :=
  ∀ result ctx, result.height ≤ h + 1 → Yields AnyOrder (fun r => r.1.height ≤ h + 1 ∧
    ctx.nodeCount + r.1.nodes ≤ r.2.nodeCount + result.nodes ∧
    Spent w n calls ctx.nodeCount r.2.nodeCount) (step result ctx)

theorem costs_propertiesStep (hres : Costs w n h S res) (m : Members)
    (hS : ∀ c ∈ propertySchemas m, S c) :
    StepCosts w n h (propertySchemas m).length (propertiesStep res m) := by
  intro result ctx hresult
  rw [propertySchemas] at hS ⊢
  rw [propertiesStep]
  cases hmap : asMap m "properties" with
  | none => exact ⟨hresult, le_refl _, Spent.refl w n _⟩
  | some propsRaw =>
    rw [hmap] at hS
    refine (yields_range _ _).mpr fun keys hkeys => ?_
    have hprops := costs_resolveProperties hres propsRaw keys [] ctx
      fun key hkey => hS _ (List.mem_map_of_mem (hkeys.mem_iff.mp hkey))
    refine yields_bind hprops ?_
    rintro ⟨done, ctx'⟩ ⟨hheights, hnodes, hspent⟩
    have hlisted := nodes_listed_le propsRaw done
    have hwith := nodes_withProperties_le result (listed propsRaw done)
    refine ⟨height_withProperties_le hresult fun e he => ?_, ?_, ?_⟩
    · rcases hheights e (mem_listed he) with hin | hle
      · cases hin
      · exact Nat.succ_le_succ hle
    · rw [nodesOfEntries] at hnodes
      dsimp only at hnodes ⊢
      omega
    · rw [List.length_map, ← hkeys.length_eq]
      exact hspent

theorem costs_allOfStep (hres : Costs w n h S res) (m : Members)
    (hS : ∀ c ∈ (asList m "allOf").getD [], S c) :
    StepCosts w n h ((asList m "allOf").getD []).length (allOfStep res m) := by
  intro result ctx hresult
  rw [allOfStep]
  cases hlist : asList m "allOf" with
  | none => exact ⟨hresult, le_refl _, Spent.refl w n _⟩
  | some allOf =>
    rw [hlist] at hS
    have hheights := heightOfMap_getD_le.mp (SchemaProperty.height_le_iff.mp hresult).1
    have hmerged := costs_resolveAllOf hres allOf _ ctx hS
      (height_withProperties_le hresult hheights)
    rw [nodes_withProperties_own] at hmerged
    exact hmerged

theorem costs_itemsStep (hres : Costs w n h S res) (m : Members)
    (hS : ∀ c ∈ (m.lookup "items").toList, S c) :
    StepCosts w n h (m.lookup "items").toList.length (itemsStep res m) := by
  intro result ctx hresult
  rw [itemsStep]
  cases hitems : m.lookup "items" with
  | none => exact ⟨hresult, le_refl _, Spent.refl w n _⟩
  | some items =>
    rw [hitems] at hS
    refine yields_bind (hres items ctx (hS items List.mem_cons_self)) ?_
    rintro ⟨resolved, ctx'⟩ ⟨hheight, hnodes, hspent⟩
    have hwith := nodes_withItems_le result resolved
    refine ⟨height_withItems_le hresult (Nat.succ_le_succ hheight), ?_, hspent⟩
    dsimp only at hnodes ⊢
    omega

theorem nodes_required (result : SchemaProperty) (required : List String) :
    ({ result with required := required } : SchemaProperty).nodes = result.nodes := by
  rw [SchemaProperty.nodes, ← result.nodes_eq]

theorem height_required_le {result : SchemaProperty} (required : List String)
    (hresult : result.height ≤ h) :
    ({ result with required := required } : SchemaProperty).height ≤ h :=
  have hparts := SchemaProperty.height_le_iff.mp hresult
  SchemaProperty.height_le_iff.mpr hparts

/-- An object with its children. -/
theorem costs_resolveObject (hres : Costs w n h S res) (m : Members)
    (hS : ∀ c ∈ childSchemas m, S c) (ctx : Ctx) :
    Yields AnyOrder (fun r => r.1.height ≤ h + 1 ∧ ctx.nodeCount + r.1.nodes ≤ r.2.nodeCount + 1 ∧
      Spent w n (childSchemas m).length ctx.nodeCount r.2.nodeCount) (resolveObject res m ctx) := by
  have hprops := costs_propertiesStep hres m fun c hc =>
    hS c (List.mem_append_left _ (List.mem_append_left _ hc))
  have hallOf := costs_allOfStep hres m fun c hc =>
    hS c (List.mem_append_left _ (List.mem_append_right _ hc))
  have hitems := costs_itemsStep hres m fun c hc => hS c (List.mem_append_right _ hc)
  have hstart : (startResult m).nodes = 1 := by
    rw [startResult, SchemaProperty.nodes, nodesOfMap, nodesOfItems]
  have hheight : (startResult m).height ≤ h + 1 := by
    rw [startResult, SchemaProperty.height, heightOfMap, heightOfItems]
    exact Nat.zero_le _
  rw [resolveObject]
  refine yields_bind (hprops _ ctx hheight) ?_
  rintro ⟨result, ctx₁⟩ ⟨hheight₁, hnodes₁, hspent₁⟩
  refine yields_bind (hallOf _ ctx₁ (height_required_le _ hheight₁)) ?_
  rintro ⟨result', ctx₂⟩ ⟨hheight₂, hnodes₂, hspent₂⟩
  refine (hitems result' ctx₂ hheight₂).imp ?_
  rintro ⟨result'', ctx₃⟩ ⟨hheight₃, hnodes₃, hspent₃⟩
  rw [nodes_required] at hnodes₂
  refine ⟨hheight₃, ?_, ?_⟩
  · dsimp only at hnodes₁ hnodes₂ hnodes₃ ⊢
    omega
  · rw [childSchemas, List.length_append, List.length_append]
    exact (hspent₁.trans hspent₂).trans hspent₃

/-- A reference that is resolved wherever it is met. -/
theorem costs_resolveReference (hres : Costs w n h S res) (spec : Members) (ref : String)
    (hS : S (resolveRef ref spec)) (ctx : Ctx) :
    Yields AnyOrder (fun r => r.1.height ≤ h + 1 ∧ ctx.nodeCount + r.1.nodes ≤ r.2.nodeCount + 1 ∧
      Spent w n 1 ctx.nodeCount r.2.nodeCount)
      (resolveReference res recallNothing spec ref ctx) := by
  have hbare : bareObject.height = 0 ∧ bareObject.nodes = 1 := by decide
  have hempty : emptyObject.height = 0 ∧ emptyObject.nodes = 1 := by decide
  rw [resolveReference]
  split
  · refine ⟨hbare.1 ▸ Nat.zero_le _, ?_, (Spent.refl w n _).mono (Nat.zero_le 1)⟩
    rw [hbare.2]
  · have hleaf : ∀ ctx' : Ctx, ctx'.nodeCount = ctx.nodeCount →
        emptyObject.height ≤ h + 1 ∧ ctx.nodeCount + emptyObject.nodes ≤ ctx'.nodeCount + 1 ∧
          Spent w n 1 ctx.nodeCount ctx'.nodeCount := by
      intro ctx' hcount
      rw [hempty.1, hempty.2, hcount]
      exact ⟨Nat.zero_le _, le_refl _, (Spent.refl w n _).mono (Nat.zero_le 1)⟩
    have htarget := hres (resolveRef ref spec)
      { ctx with inProgress := ref :: ctx.inProgress } hS
    have hresult : Yields AnyOrder (fun r : SchemaProperty × Ctx => r.1.height ≤ h + 1 ∧
        ctx.nodeCount + r.1.nodes ≤ r.2.nodeCount + 1 ∧ Spent w n 1 ctx.nodeCount r.2.nodeCount)
        (resolveTarget res ref spec { ctx with inProgress := ref :: ctx.inProgress }) := by
      rw [resolveTarget]
      split
      · exact hleaf _ rfl
      · refine htarget.imp ?_
        rintro ⟨result, ctx'⟩ ⟨hheight, hnodes, hspent⟩
        exact ⟨Nat.le_succ_of_le hheight, Nat.le_succ_of_le hnodes, hspent⟩
    exact yields_bind hresult fun _ hr => hr

theorem costs_resolveBody (hres : Costs w n h S res) (spec : Members) (j : Json)
    (hS : ∀ c, Leads spec j c → S c)
    (hw : ∀ m, j = .obj m → (childSchemas m).length ≤ 1 + w) (ctx : Ctx) :
    Yields AnyOrder (fun r => ∃ k ≤ 1 + w, r.1.height ≤ h + 1 ∧
      ctx.nodeCount + r.1.nodes ≤ r.2.nodeCount + 1 ∧ Spent w n k ctx.nodeCount r.2.nodeCount)
      (resolveBody res recallNothing spec j ctx) := by
  have hempty : emptyObject.height = 0 ∧ emptyObject.nodes = 1 := by decide
  refine yields_resolveBody (fun _ => ?_) (fun m ref hj href => ?_) fun m hj _ => ?_
  · rw [hempty.1, hempty.2]
    exact ⟨0, Nat.zero_le _, Nat.zero_le _, le_refl _, Spent.refl w n _⟩
  · subst hj
    refine (costs_resolveReference hres spec ref (hS _ (.ref href)) ctx).imp fun r hr => ?_
    exact ⟨1, Nat.le_add_right 1 w, hr⟩
  · subst hj
    refine (costs_resolveObject hres m (fun c hc => hS c (.child hc)) ctx).imp fun r hr => ?_
    exact ⟨_, hw m rfl, hr⟩

end

/-- Resolution without the memo: the tree is no higher than the room left and has no more nodes
than were counted. -/
theorem costs_resolveWith (spec : Members) (maxNodes : ℤ) (w : ℕ) (room : ℕ) :
    Costs w maxNodes.toNat room (AtMostChildren spec w)
      (resolveWith recallNothing spec maxNodes room) := by
  have hstop : ∀ (room : ℕ) (ctx : Ctx), bareObject.height ≤ room ∧
      ctx.nodeCount + bareObject.nodes ≤ ctx.counted.cut.nodeCount ∧
        Spent w maxNodes.toNat 1 ctx.nodeCount ctx.counted.cut.nodeCount := by
    intro room ctx
    have hbare : bareObject.height = 0 ∧ bareObject.nodes = 1 := by decide
    rw [hbare.1, hbare.2]
    exact ⟨Nat.zero_le room, le_refl _, Spent.stop w _ _⟩
  induction room with
  | zero => exact fun j ctx hS => hstop 0 ctx
  | succ room ih =>
    intro j ctx hS
    rw [resolveWith]
    split
    · exact hstop (room + 1) ctx
    · rename_i hbudget
      have hle : ctx.nodeCount + 1 ≤ maxNodes.toNat := by
        rw [Ctx.counted] at hbudget
        dsimp only at hbudget
        omega
      have hw : ∀ m, j = .obj m → (childSchemas m).length ≤ 1 + w := by
        rintro m rfl
        exact le_trans (hS m .refl) (Nat.le_add_left w 1)
      refine (costs_resolveBody ih spec j (fun c hc => hS.leads hc) hw ctx.counted).imp ?_
      rintro r ⟨k, hk, hheight, hnodes, hspent⟩
      refine ⟨hheight, ?_, Spent.enter hle hk hspent⟩
      rw [Ctx.counted] at hnodes
      dsimp only at hnodes
      omega

/-! ## As long as no reference is met again -/

/-- No reference was resolved twice. -/
def Ctx.Fresh (ctx : Ctx) : Prop := (ctx.resolvedRefs.map Prod.fst).Nodup

/-- The trees kept before are still kept. -/
def Ctx.Grows (ctx ctx' : Ctx) : Prop := ctx.resolvedRefs <:+ ctx'.resolvedRefs

theorem Ctx.Grows.fresh {ctx ctx' : Ctx} (h : ctx.Grows ctx') (hfresh : ctx'.Fresh) : ctx.Fresh :=
  (h.map Prod.fst).sublist.nodup hfresh

theorem Ctx.Grows.refl (ctx : Ctx) : ctx.Grows ctx := List.suffix_refl _

theorem Ctx.Grows.trans (a b c : Ctx) (h : a.Grows b) (h' : b.Grows c) : a.Grows c :=
  List.IsSuffix.trans h h'

theorem grows_resolveTarget {res : Json → Ctx → Ranging (SchemaProperty × Ctx)}
    (hres : Keeps Ctx.Grows res) (ref : String) (spec : Members) (ctx : Ctx) :
    Yields AnyOrder (fun r => ctx.Grows r.2) (resolveTarget res ref spec ctx) := by
  rw [resolveTarget]
  split
  · exact Ctx.Grows.refl ctx
  · exact hres _ ctx

theorem keeps_grows (spec : Members) (maxNodes : ℤ) (room : ℕ) :
    Keeps Ctx.Grows (resolveWith recallNothing spec maxNodes room) := by
  refine keeps_resolveWith Ctx.Grows.refl Ctx.Grows.trans Ctx.Grows.refl Ctx.Grows.refl ?_
    maxNodes room
  intro res hres ref ctx
  rw [resolveReference]
  split
  · exact Ctx.Grows.refl ctx
  · have htarget := grows_resolveTarget hres ref spec
      { ctx with inProgress := ref :: ctx.inProgress }
    exact yields_bind htarget fun r hr => List.IsSuffix.trans hr (List.suffix_cons _ _)

/-- What the first program yields, the second yields too, when it includes that no reference was
resolved twice. -/
def Follows {α : Type} (p q : Ranging (α × Ctx)) : Prop :=
  ∀ Q : α × Ctx → Prop, (∀ r, Q r → r.2.Fresh) → Yields AnyOrder Q p → Yields AnyOrder Q q

theorem Follows.refl {α : Type} (p : Ranging (α × Ctx)) : Follows p p := fun _ _ h => h

theorem Follows.bind {α β : Type} {p q : Ranging (α × Ctx)} {f g : α × Ctx → Ranging (β × Ctx)}
    (hp : Follows p q) (hf : ∀ r, Follows (f r) (g r))
    (hgrow : ∀ r, Yields AnyOrder (fun r' => r.2.Grows r'.2) (f r)) :
    Follows (p >>= f) (q >>= g) := by
  intro Q hQ h
  have hfirst : Yields AnyOrder (fun r => Yields AnyOrder Q (f r)) q := by
    refine hp _ (fun r hr => ?_) ((yields_bind_iff _ _).mp h)
    obtain ⟨r', hr', hgrows⟩ := (hr.and (hgrow r)).exists_result exists_order
    exact hgrows.fresh (hQ r' hr')
  exact (yields_bind_iff _ _).mpr (hfirst.imp fun r hr => hf r Q hQ hr)

section

variable {res res' : Json → Ctx → Ranging (SchemaProperty × Ctx)}
  (hres : ∀ j ctx, Follows (res j ctx) (res' j ctx)) (hgrow : Keeps Ctx.Grows res)

include hres hgrow

theorem follows_resolveProperties (propsRaw : Members) (keys : List String) (done : Properties)
    (ctx : Ctx) : Follows (resolveProperties res propsRaw keys done ctx)
      (resolveProperties res' propsRaw keys done ctx) := by
  induction keys generalizing done ctx with
  | nil => exact Follows.refl _
  | cons key keys ih =>
    refine (hres _ ctx).bind (fun r => ih _ r.2) fun r => ?_
    exact keeps_resolveProperties Ctx.Grows.refl Ctx.Grows.trans hgrow propsRaw keys _ r.2

theorem follows_resolveAllOf (allOf : List Json) (result : SchemaProperty) (ctx : Ctx) :
    Follows (resolveAllOf res allOf result ctx) (resolveAllOf res' allOf result ctx) := by
  induction allOf generalizing result ctx with
  | nil => exact Follows.refl _
  | cons sub allOf ih =>
    refine (hres sub ctx).bind (fun r => ih _ r.2) fun r => ?_
    exact keeps_resolveAllOf Ctx.Grows.refl Ctx.Grows.trans hgrow allOf _ r.2

theorem follows_propertiesStep (m : Members) (result : SchemaProperty) (ctx : Ctx) :
    Follows (propertiesStep res m result ctx) (propertiesStep res' m result ctx) := by
  rw [propertiesStep, propertiesStep]
  cases asMap m "properties" with
  | none => exact Follows.refl _
  | some propsRaw =>
    intro Q hQ h keys hkeys
    refine ((follows_resolveProperties hres hgrow propsRaw keys [] ctx).bind
      (fun r => Follows.refl _) fun r => ?_) Q hQ (h keys hkeys)
    exact Ctx.Grows.refl r.2

theorem follows_allOfStep (m : Members) (result : SchemaProperty) (ctx : Ctx) :
    Follows (allOfStep res m result ctx) (allOfStep res' m result ctx) := by
  rw [allOfStep, allOfStep]
  cases asList m "allOf" with
  | none => exact Follows.refl _
  | some allOf => exact follows_resolveAllOf hres hgrow allOf _ ctx

omit hgrow in
theorem follows_itemsStep (m : Members) (result : SchemaProperty) (ctx : Ctx) :
    Follows (itemsStep res m result ctx) (itemsStep res' m result ctx) := by
  rw [itemsStep, itemsStep]
  cases m.lookup "items" with
  | none => exact Follows.refl _
  | some items => exact (hres items ctx).bind (fun r => Follows.refl _) fun r => Ctx.Grows.refl r.2

theorem follows_resolveObject (m : Members) (ctx : Ctx) :
    Follows (resolveObject res m ctx) (resolveObject res' m ctx) := by
  refine (follows_propertiesStep hres hgrow m _ ctx).bind (fun r => ?_) fun r => ?_
  · refine (follows_allOfStep hres hgrow m _ r.2).bind (fun r' => ?_) fun r' => ?_
    · exact follows_itemsStep hres m _ r'.2
    · exact keeps_itemsStep Ctx.Grows.refl Ctx.Grows.trans hgrow m _ r'.2
  · refine keeps_bind Ctx.Grows.trans
      (keeps_allOfStep Ctx.Grows.refl Ctx.Grows.trans hgrow m _ r.2) fun r' => ?_
    exact keeps_itemsStep Ctx.Grows.refl Ctx.Grows.trans hgrow m _ r'.2

/-- A kept tree is looked up only for a reference that was resolved before. -/
theorem follows_resolveReference (spec : Members) (ref : String) (ctx : Ctx) :
    Follows (resolveReference res recallNothing spec ref ctx)
      (resolveReference res' recallMemo spec ref ctx) := by
  intro Q hQ h
  have hgrows := grows_resolveTarget hgrow ref spec { ctx with inProgress := ref :: ctx.inProgress }
  rw [resolveReference] at h ⊢
  by_cases hin : ref ∈ ctx.inProgress
  · rw [if_pos hin] at h ⊢
    exact h
  · rw [if_neg hin] at h ⊢
    have hbind := (yields_bind_iff _ _).mp h
    cases hmemo : recallMemo ctx.resolvedRefs ref with
    | some cached =>
      -- the reference is among those resolved, so resolving it again ends with it there twice
      obtain ⟨r, hr, hsuffix⟩ := (hbind.and hgrows).exists_result exists_order
      have hfresh : ((ref, r.1) :: r.2.resolvedRefs |>.map Prod.fst).Nodup := hQ _ hr
      obtain ⟨before, after, hkept, -⟩ := List.lookup_eq_some_iff.mp hmemo
      have hmem : (ref, cached) ∈ r.2.resolvedRefs := by
        refine hsuffix.subset ?_
        change (ref, cached) ∈ ctx.resolvedRefs
        rw [hkept]
        exact List.mem_append_right _ List.mem_cons_self
      exact absurd (List.mem_map_of_mem hmem) (List.nodup_cons.mp hfresh).1
    | none =>
      have htarget : Follows
          (resolveTarget res ref spec { ctx with inProgress := ref :: ctx.inProgress })
          (resolveTarget res' ref spec { ctx with inProgress := ref :: ctx.inProgress }) := by
        rw [resolveTarget, resolveTarget]
        split
        · exact Follows.refl _
        · exact hres _ _
      refine (htarget.bind (fun r => Follows.refl _) fun r => ?_) Q hQ h
      exact List.suffix_cons _ _

end

theorem follows_resolveWith (spec : Members) (maxNodes : ℤ) (room : ℕ) (j : Json) (ctx : Ctx) :
    Follows (resolveWith recallNothing spec maxNodes room j ctx)
      (resolveWith recallMemo spec maxNodes room j ctx) := by
  induction room generalizing j ctx with
  | zero => exact Follows.refl _
  | succ room ih =>
    have hgrow := keeps_grows spec maxNodes room
    rw [resolveWith, resolveWith]
    by_cases hbudget : ctx.counted.nodeCount > maxNodes
    · rw [if_pos hbudget, if_pos hbudget]
      exact Follows.refl _
    · rw [if_neg hbudget, if_neg hbudget]
      cases j with
      | obj m =>
        rw [resolveBody, resolveBody]
        cases asString m "$ref" with
        | some ref => exact follows_resolveReference ih hgrow spec ref ctx.counted
        | none => exact follows_resolveObject ih hgrow m ctx.counted
      | null => exact Follows.refl _
      | bool b => exact Follows.refl _
      | num n => exact Follows.refl _
      | str s => exact Follows.refl _
      | arr items => exact Follows.refl _

/-! ## The budget -/

/-- Whatever the order of the maps, the tree is no higher than `maxDepth`, and has no more than
`maxNodes * (1 + w) + 1` nodes where no schema object has more than `w` direct children. -/
def WithinBudget (schema : Json) (spec : Members) (seenRefs : List (String × Bool))
    (maxNodes maxDepth : ℤ) : Prop :=
  ∀ w, AtMostChildren spec w schema → Yields AnyOrder
    (fun r => (r.1.height : ℤ) ≤ maxDepth ∧ (r.1.nodes : ℤ) ≤ maxNodes * (1 + w) + 1)
    (resolveSchemaWithHint schema spec seenRefs maxNodes maxDepth)

/-- Resolved without the memo, no reference is resolved twice within the limits, whatever the order
of the maps. -/
def NeverMetAgain (schema : Json) (spec : Members) (seenRefs : List (String × Bool))
    (maxNodes maxDepth : ℤ) : Prop :=
  Yields AnyOrder (fun r => r.2.Fresh) (resolveAfresh schema spec seenRefs maxNodes maxDepth)

/-- Without the memo the budget is kept whatever the specification. -/
theorem afresh_within_budget {schema : Json} {spec : Members} {w : ℕ}
    (hw : AtMostChildren spec w schema) (seenRefs : List (String × Bool)) {maxNodes maxDepth : ℤ}
    (hnodes : 0 ≤ maxNodes) (hdepth : 0 ≤ maxDepth) :
    Yields AnyOrder
      (fun r => (r.1.height : ℤ) ≤ maxDepth ∧ (r.1.nodes : ℤ) ≤ maxNodes * (1 + w) + 1)
      (resolveAfresh schema spec seenRefs maxNodes maxDepth) := by
  obtain ⟨n, rfl⟩ := Int.eq_ofNat_of_zero_le hnodes
  obtain ⟨d, rfl⟩ := Int.eq_ofNat_of_zero_le hdepth
  refine (costs_resolveWith spec n w d schema (newResolverCtx seenRefs) hw).imp ?_
  rintro r ⟨hheight, hcount, hspent⟩
  refine ⟨by exact_mod_cast hheight, ?_⟩
  have htotal : r.2.nodeCount ≤ n * (1 + w) + 1 := hspent.total
  have hle : r.1.nodes ≤ n * (1 + w) + 1 := by
    rw [newResolverCtx] at hcount
    dsimp only at hcount
    omega
  exact_mod_cast hle

theorem within_budget {schema : Json} {spec : Members} {seenRefs : List (String × Bool)}
    {maxNodes maxDepth : ℤ} (hnodes : 0 ≤ maxNodes) (hdepth : 0 ≤ maxDepth)
    (hfresh : NeverMetAgain schema spec seenRefs maxNodes maxDepth) :
    WithinBudget schema spec seenRefs maxNodes maxDepth := by
  intro w hw
  have hboth := (afresh_within_budget hw seenRefs hnodes hdepth).and hfresh
  exact (follows_resolveWith spec maxNodes _ schema _ _ (fun r hr => hr.2) hboth).imp
    fun r hr => hr.1

theorem nodes_pos (t : SchemaProperty) : 1 ≤ t.nodes := by
  rw [t.nodes_eq]
  omega

/-- A negative limit is never kept. -/
theorem nonneg_of_within_budget {schema : Json} {spec : Members} {seenRefs : List (String × Bool)}
    {maxNodes maxDepth : ℤ} (h : WithinBudget schema spec seenRefs maxNodes maxDepth) :
    0 ≤ maxNodes ∧ 0 ≤ maxDepth := by
  have hyields := h _ (atMostChildren_widest spec schema)
  obtain ⟨r, hheight, hnodes⟩ := hyields.exists_result exists_order
  have hpos := nodes_pos r.1
  have hwidth : (0 : ℤ) < 1 + (max (widest schema) (widest (.obj spec)) : ℕ) := by omega
  refine ⟨Int.nonneg_of_mul_nonneg_left ?_ hwidth, by omega⟩
  omega

/-- Where no reference is met again, the tree is within the budget for all limits that are not
negative. -/
theorem within_budget_iff {schema : Json} {spec : Members} {seenRefs : List (String × Bool)}
    {maxNodes maxDepth : ℤ} (hfresh : NeverMetAgain schema spec seenRefs maxNodes maxDepth) :
    WithinBudget schema spec seenRefs maxNodes maxDepth ↔ 0 ≤ maxNodes ∧ 0 ≤ maxDepth :=
  ⟨nonneg_of_within_budget, fun h => within_budget h.1 h.2 hfresh⟩

/-! ## A chain of shared references -/

instance (ctx : Ctx) : Decidable ctx.Fresh :=
  inferInstanceAs (Decidable (ctx.resolvedRefs.map Prod.fst).Nodup)

instance (schema : Json) (spec : Members) (seenRefs : List (String × Bool))
    (maxNodes maxDepth : ℤ) : Decidable (NeverMetAgain schema spec seenRefs maxNodes maxDepth) :=
  decidableYields _ _

def refTo (name : String) : Json := .obj [("$ref", .str ("#/definitions/" ++ name))]

/-- A definition with two properties of the next one. -/
def twice (name next : String) : String × Json :=
  (name, .obj [("properties", .obj [("l", refTo next), ("r", refTo next)])])

def chain : Members :=
  [("definitions", .obj [twice "A" "B", twice "B" "C", twice "C" "D", twice "D" "E", twice "E" "F",
    ("F", .obj [("type", .str "string")])])]

/-- Seventeen resolutions give a tree of 63 nodes. -/
theorem chain_exceeds : ¬ WithinBudget (refTo "A") chain [] 17 64 := by
  intro h
  have hw : AtMostChildren chain 2 (refTo "A") := by
    have hwidest := atMostChildren_widest chain (refTo "A")
    have heq : max (widest (refTo "A")) (widest (.obj chain)) = 2 := by decide
    rw [heq] at hwidest
    exact hwidest
  have hresult := ((h 2 hw).answered List.Perm.refl).2
  revert hresult
  decide

/-- Two maps, and no reference twice. -/
theorem chain_end_within : WithinBudget (.obj [("properties", .obj [("a", refTo "F"),
    ("b", .obj [("items", .obj [("type", .str "number")])])])]) chain [] 5 3 :=
  (within_budget_iff (by decide)).mpr ⟨by decide, by decide⟩

end Swazz.Swagger
