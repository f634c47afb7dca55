import Swazz.FuzzIterations
import Swazz.PathForest

/-! The fields that active fuzzing targets: each leaf of the body schema once, under the names that
lead to it, as long as no two brothers write into one backing array of their paths. -/
namespace Swazz.Payloads

open AtomicCalls AtomicCalls.Calls SequentialPicks PathForest

/-! ## The schema as a forest -/

mutual

/-- The properties of a body schema. A leaf is what is not an object with properties; nothing
stands under a name without a schema. -/
def forestOf : List (String × Option Schema) → Forest String Schema
  | [] => .nil
  | (k, none) :: rest => .skip k (forestOf rest)
  | (k, some schema) :: rest => under k schema (forestOf rest)

def under (k : String) : Schema → Forest String Schema → Forest String Schema
  | ⟨type, format, enum, some props, items, required⟩, rest =>
    if type = "object" ∧ props.length > 0 then .node k (forestOf props) rest
    else .leaf k ⟨type, format, enum, some props, items, required⟩ rest
  | ⟨type, format, enum, none, items, required⟩, rest =>
    .leaf k ⟨type, format, enum, none, items, required⟩ rest

end

/-- The leaves of the body that an endpoint sends, with the names that lead to them. -/
def bodyLeaves (ep : Endpoint) : List (List String × Schema) :=
  let props := ep.schema.properties.getD []
  if isNoBodyMethod ep.method then []
  else if ep.schema.type = "object" ∧ props.length > 0 then (forestOf props).leaves []
  else if ep.schema.type ≠ "" then [([], ep.schema)]
  else []

/-- One field for each leaf of the body and for each parameter. -/
def targets (ep : Endpoint) : List TargetField :=
  (bodyLeaves ep).map (fun l => ⟨.body, l.1, some l.2⟩) ++
    ep.queryParams.map (fun p => ⟨.query, [p.1], p.2⟩) ++
    ep.headerParams.map (fun p => ⟨.header, [p.1], p.2⟩) ++
    ep.pathParams.map (fun p => ⟨.path, [p.1], p.2⟩)

/-- The maps of an endpoint have distinct keys. -/
structure DistinctKeys (ep : Endpoint) : Prop where
  properties : (forestOf (ep.schema.properties.getD [])).Distinct
  query : (ep.queryParams.map Prod.fst).Nodup
  header : (ep.headerParams.map Prod.fst).Nodup
  path : (ep.pathParams.map Prod.fst).Nodup

/-- A map is ranged over with all its keys, in any order. -/
def AnyOrder : (op : Op String Counter Value Question) → Answer Reply op → Prop
  | .ask (.order keys), answer => @List.Perm String answer keys
  | _, _ => True

/-! ## What is visited -/

/-- Goes through the items in their order; `place` makes the path of each. -/
def walkForest (env : Env) : Forest String Schema → (List Backing → String → List Backing × Slice) →
    List Backing → List Backing × List (Slice × Schema)
  | .nil, _, arrays => (arrays, [])
  | .skip k rest, place, arrays => walkForest env rest place (place arrays k).1
  | .leaf k schema rest, place, arrays =>
    let later := walkForest env rest place (place arrays k).1
    (later.1, ((place arrays k).2, schema) :: later.2)
  | .node k children rest, place, arrays =>
    let own := place arrays k
    let inner := walkForest env children (fun arrays k' => appendTo env arrays own.2 k') own.1
    let later := walkForest env rest place inner.1
    (later.1, inner.2 ++ later.2)

variable {env : Env} {props : List (String × Option Schema)}
  {Q : List Backing × List (Slice × Schema) → Prop}

/-- What a visit may return for an item. -/
def Visits (env : Env) (visit : Visit) : Item String Schema → Prop
  | .skip => ∀ path arrays, ∀ Q : List Backing × List (Slice × Schema) → Prop,
      Yields AnyOrder Q (visit path arrays) ↔ Q (arrays, [])
  | .leaf schema => ∀ path arrays, ∀ Q : List Backing × List (Slice × Schema) → Prop,
      Yields AnyOrder Q (visit path arrays) ↔ Q (arrays, [(path, schema)])
  | .node children => ∀ path arrays, ∀ Q : List Backing × List (Slice × Schema) → Prop,
      Yields AnyOrder Q (visit path arrays) ↔ ∀ F', Arranges F' children →
        Q (walkForest env F' (fun arrays k => appendTo env arrays path k) arrays)

/-- A level of items, with a place for the path of each. -/
def visitLevel (place : List Backing → String → List Backing × Slice)
    (children : List (String × Visit)) :
    List String → List Backing → Gen (List Backing × List (Slice × Schema))
  | [], arrays => return (arrays, [])
  | k :: keys, arrays =>
    match children.lookup k with
    | none => visitLevel place children keys arrays
    | some visit => do
      let (arrays, found) ← visit (place arrays k).2 (place arrays k).1
      let (arrays, more) ← visitLevel place children keys arrays
      return (arrays, found ++ more)

theorem visitChildren_eq (path : Slice) (children : List (String × Visit)) (keys : List String)
    (arrays : List Backing) : visitChildren env path children keys arrays =
      visitLevel (fun arrays k => appendTo env arrays path k) children keys arrays := by
  induction keys generalizing arrays with
  | nil => rfl
  | cons k keys ih =>
    rw [visitChildren, visitLevel]
    cases children.lookup k with
    | none => exact ih arrays
    | some visit => simp only [ih]

/-- At the top each path starts in an array of its own. -/
def topPlace (arrays : List Backing) (k : String) : List Backing × Slice :=
  (arrays ++ [⟨[k], 1⟩], ⟨arrays.length, 1⟩)

theorem collectTop_eq (children : List (String × Visit)) (keys : List String)
    (arrays : List Backing) :
    collectTop children keys arrays = visitLevel topPlace children keys arrays := by
  induction keys generalizing arrays with
  | nil => rfl
  | cons k keys ih =>
    rw [collectTop, visitLevel]
    cases children.lookup k with
    | none => exact ih arrays
    | some visit =>
      simp only [ih]
      rfl

/-- A level returns what walking its items in the order of the keys gives. -/
theorem yields_level {F : Forest String Schema} {children : List (String × Visit)}
    (hdistinct : F.Distinct)
    (hvisits : ∀ k it, (k, it) ∈ F.items → ∃ visit, children.lookup k = some visit ∧
      Visits env visit it)
    (place : List Backing → String → List Backing × Slice) (keys : List String)
    (hkeys : ∀ k ∈ keys, k ∈ F.names) (arrays : List Backing)
    (Q : List Backing × List (Slice × Schema) → Prop) :
    Yields AnyOrder Q (visitLevel place children keys arrays) ↔
      ∀ F', F'.names = keys → Takes F' F → Q (walkForest env F' place arrays) := by
  have hnodup : (F.items.map Prod.fst).Nodup := map_fst_items F ▸ hdistinct.nodup
  induction keys generalizing arrays Q with
  | nil =>
    constructor
    · intro h F' hnames _
      rw [eq_nil_of_names hnames]
      exact h
    · exact fun h => h .nil rfl trivial
  | cons k keys ih =>
    obtain ⟨it, hit⟩ := exists_item (hkeys k List.mem_cons_self)
    obtain ⟨visit, hlookup, hvisit⟩ := hvisits k it hit
    -- the only item of this name
    have honly : ∀ it', (k, it') ∈ F.items → it' = it := by
      intro it' hit'
      have h := (ListIndex.lookup_eq_some_iff_mem hnodup).mpr hit
      rw [(ListIndex.lookup_eq_some_iff_mem hnodup).mpr hit'] at h
      exact Option.some.inj h
    have hstep : Yields AnyOrder Q (visitLevel place children (k :: keys) arrays) ↔
        Yields AnyOrder (fun r => ∀ F', F'.names = keys → Takes F' F →
          Q ((walkForest env F' place r.1).1, r.2 ++ (walkForest env F' place r.1).2))
          (visit (place arrays k).2 (place arrays k).1) := by
      have hrest := fun (r : List Backing × List (Slice × Schema)) =>
        ih (fun k hk => hkeys k (List.mem_cons_of_mem _ hk)) r.1
          fun later => Q (later.1, r.2 ++ later.2)
      rw [visitLevel, hlookup]
      refine (yields_bind_iff _ _).trans ?_
      have hsame : (fun r : List Backing × List (Slice × Schema) => Yields AnyOrder Q
          (visitLevel place children keys r.1 >>= fun later => pure (later.1, r.2 ++ later.2))) =
          fun r => ∀ F', F'.names = keys → Takes F' F →
            Q ((walkForest env F' place r.1).1, r.2 ++ (walkForest env F' place r.1).2) := by
        funext r
        exact propext ((yields_bind_iff _ _).trans (hrest r))
      exact iff_of_eq (congrArg (fun Q' => Yields AnyOrder Q' (visit _ _)) hsame)
    rw [hstep]
    cases it with
    | skip =>
      rw [hvisit]
      constructor
      · intro h F' hnames htakes
        cases F' with
        | nil => cases hnames
        | skip k' rest =>
          obtain ⟨rfl, hrest⟩ := List.cons.inj hnames
          exact h rest hrest htakes.2
        | leaf k' schema rest =>
          obtain ⟨rfl, hrest⟩ := List.cons.inj hnames
          cases honly _ htakes.1
        | node k' C rest =>
          obtain ⟨rfl, hrest⟩ := List.cons.inj hnames
          obtain ⟨C', hC', -⟩ := htakes.1
          cases honly _ hC'
      · intro h F' hnames htakes
        exact h (.skip k F') (congrArg (k :: ·) hnames) ⟨hit, htakes⟩
    | leaf schema =>
      rw [hvisit]
      constructor
      · intro h F' hnames htakes
        cases F' with
        | nil => cases hnames
        | skip k' rest =>
          obtain ⟨rfl, hrest⟩ := List.cons.inj hnames
          cases honly _ htakes.1
        | leaf k' schema' rest =>
          obtain ⟨rfl, hrest⟩ := List.cons.inj hnames
          cases honly _ htakes.1
          exact h rest hrest htakes.2
        | node k' C rest =>
          obtain ⟨rfl, hrest⟩ := List.cons.inj hnames
          obtain ⟨C', hC', -⟩ := htakes.1
          cases honly _ hC'
      · intro h F' hnames htakes
        exact h (.leaf k schema F') (congrArg (k :: ·) hnames) ⟨hit, htakes⟩
    | node C =>
      rw [hvisit]
      constructor
      · intro h F' hnames htakes
        cases F' with
        | nil => cases hnames
        | skip k' rest =>
          obtain ⟨rfl, hrest⟩ := List.cons.inj hnames
          cases honly _ htakes.1
        | leaf k' schema rest =>
          obtain ⟨rfl, hrest⟩ := List.cons.inj hnames
          cases honly _ htakes.1
        | node k' children' rest =>
          obtain ⟨rfl, hrest⟩ := List.cons.inj hnames
          obtain ⟨⟨C', hC', harranged⟩, htakes⟩ := htakes
          cases honly _ hC'
          exact h children' harranged rest hrest htakes
      · intro h children' harranged F' hnames htakes
        exact h (.node k children' F') (congrArg (k :: ·) hnames) ⟨⟨C, hit, harranged⟩, htakes⟩

/-! ## What the schema's visits are -/

def itemOf : Schema → Item String Schema
  | ⟨type, format, enum, some props, items, required⟩ =>
    if type = "object" ∧ props.length > 0 then .node (forestOf props)
    else .leaf ⟨type, format, enum, some props, items, required⟩
  | ⟨type, format, enum, none, items, required⟩ => .leaf ⟨type, format, enum, none, items, required⟩

theorem items_under (k : String) (schema : Schema) (rest : Forest String Schema) :
    (under k schema rest).items = (k, itemOf schema) :: rest.items := by
  obtain ⟨type, format, enum, properties, items, required⟩ := schema
  cases properties with
  | none =>
    rw [under]
    rfl
  | some props =>
    rw [under, itemOf]
    split <;> rfl

theorem distinct_under {k : String} {schema : Schema} {rest : Forest String Schema}
    (h : (under k schema rest).Distinct) : k ∉ rest.names ∧ rest.Distinct := by
  obtain ⟨type, format, enum, properties, items, required⟩ := schema
  cases properties with
  | none =>
    rw [under] at h
    exact h
  | some props =>
    rw [under] at h
    split at h
    · exact ⟨h.1, h.2.2⟩
    · exact h

theorem names_forestOf (props : List (String × Option Schema)) :
    (forestOf props).names = props.map Prod.fst := by
  induction props with
  | nil => rw [forestOf]; rfl
  | cons p rest ih =>
    obtain ⟨k, _ | schema⟩ := p
    · rw [forestOf]
      exact congrArg (k :: ·) ih
    · rw [← map_fst_items] at ih ⊢
      rw [forestOf, items_under]
      exact congrArg (k :: ·) ih

theorem yields_order {β : Type} {Q : β → Prop} (keys : List String) (f : List String → Gen β) :
    Yields AnyOrder Q (ask (.order keys) >>= f) ↔
      ∀ answer : List String, answer.Perm keys → Yields AnyOrder Q (f answer) := Iff.rfl

/-- A map that is ranged over in any order, level by level. -/
theorem forall_order_iff {F : Forest String Schema} {P : Forest String Schema → Prop} :
    (∀ keys : List String, keys.Perm F.names → ∀ F', F'.names = keys → Takes F' F → P F') ↔
      ∀ F', Arranges F' F → P F' := by
  constructor
  · exact fun h F' hF' => h _ hF'.1 F' rfl hF'.2
  · rintro h keys hkeys F' rfl htakes
    exact h F' ⟨hkeys, htakes⟩

mutual

theorem visits_collectBody : ∀ schema : Schema,
    (∀ C, itemOf schema = .node C → C.Distinct) → Visits env (collectBody env schema) (itemOf schema)
  | ⟨type, format, enum, some props, items, required⟩, hdistinct => by
    rw [itemOf] at hdistinct ⊢
    by_cases hobject : type = "object" ∧ props.length > 0
    · rw [if_pos hobject] at hdistinct ⊢
      have hC := hdistinct _ rfl
      intro path arrays Q
      rw [collectBody, if_pos hobject, ← forall_order_iff, names_forestOf]
      refine (yields_order _ _).trans (forall_congr' fun keys => imp_congr_right fun hkeys => ?_)
      rw [visitChildren_eq]
      refine yields_level hC (visits_collectProps props hC) _ keys (fun k hk => ?_) arrays Q
      rw [names_forestOf]
      exact hkeys.mem_iff.mp hk
    · rw [if_neg hobject]
      intro path arrays Q
      rw [collectBody, if_neg hobject]
      exact Iff.rfl
  | ⟨type, format, enum, none, items, required⟩, _ => by
    intro path arrays Q
    rw [collectBody]
    exact Iff.rfl

theorem visits_collectProps : ∀ props : List (String × Option Schema),
    (forestOf props).Distinct → ∀ k it, (k, it) ∈ (forestOf props).items →
      ∃ visit, (collectProps env props).lookup k = some visit ∧ Visits env visit it
  | [], _, k, it, hit => by
    rw [forestOf] at hit
    cases hit
  | (key, none) :: rest, hdistinct, k, it, hit => by
    rw [forestOf] at hdistinct hit
    rw [collectProps]
    rcases List.mem_cons.mp hit with heq | hlater
    · cases heq
      exact ⟨_, List.lookup_cons_self, fun path arrays Q => Iff.rfl⟩
    · have hne : k ≠ key := by
        rintro rfl
        exact hdistinct.1 (mem_names hlater)
      obtain ⟨visit, hlookup, hvisit⟩ := visits_collectProps rest hdistinct.2 k it hlater
      refine ⟨visit, ?_, hvisit⟩
      rw [List.lookup_cons, beq_eq_false_iff_ne.mpr hne]
      exact hlookup
  | (key, some schema) :: rest, hdistinct, k, it, hit => by
    have hitem : (key, itemOf schema) ∈ (forestOf ((key, some schema) :: rest)).items := by
      rw [forestOf, items_under]
      exact List.mem_cons_self
    have hrest : key ∉ (forestOf rest).names ∧ (forestOf rest).Distinct := by
      rw [forestOf] at hdistinct
      exact distinct_under hdistinct
    rw [collectProps]
    rw [forestOf, items_under] at hit
    rcases List.mem_cons.mp hit with heq | hlater
    · cases heq
      refine ⟨_, List.lookup_cons_self, visits_collectBody schema fun C hC => ?_⟩
      exact distinct_node hdistinct (hC ▸ hitem)
    · have hne : k ≠ key := by
        rintro rfl
        exact hrest.1 (mem_names hlater)
      obtain ⟨visit, hlookup, hvisit⟩ := visits_collectProps rest hrest.2 k it hlater
      refine ⟨visit, ?_, hvisit⟩
      rw [List.lookup_cons, beq_eq_false_iff_ne.mpr hne]
      exact hlookup

end

/-! ## The arrays of the paths -/

theorem appendTo_full {arrays : List Backing} {a n cap : ℕ} {cells p : List String}
    (ha : arrays[a]? = some ⟨cells, cap⟩) (hcap : ¬n < cap) (hcells : cells.take n = p)
    (k : String) : appendTo env arrays ⟨a, n⟩ k =
      (arrays ++ [⟨p ++ [k], env.growslice n⟩], ⟨arrays.length, n + 1⟩) := by
  rw [appendTo]
  simp only [ha, if_neg hcap, hcells]

theorem appendTo_room {arrays : List Backing} {a cap : ℕ} {p tail : List String}
    (ha : arrays[a]? = some ⟨p ++ tail, cap⟩) (hcap : p.length < cap) (k : String) :
    appendTo env arrays ⟨a, p.length⟩ k =
      (arrays.set a ⟨p ++ k :: tail.drop 1, cap⟩, ⟨a, p.length + 1⟩) := by
  have hdrop : (p ++ tail).drop (p.length + 1) = tail.drop 1 := by
    rw [← List.drop_drop, List.drop_left]
  rw [appendTo]
  simp only [ha, if_pos hcap, List.take_left, hdrop]

/-- A leaf as the code keeps it: a slice of the shared array `a`, or of a later one that holds
its path. -/
def Keeps (a low : ℕ) (arrays : List Backing) : Found String Schema → Slice × Schema → Prop
  | .shared len schema, x => x = (⟨a, len⟩, schema)
  | .own path schema, x =>
    x.2 = schema ∧ low ≤ x.1.array ∧ x.1.array < arrays.length ∧ x.1.read arrays = path

theorem Keeps.later {a low low' : ℕ} {arrays arrays' : List Backing} {f : Found String Schema}
    {x : Slice × Schema} (h : Keeps a low arrays f x) (hlow : low' ≤ low)
    (hlen : arrays.length ≤ arrays'.length)
    (hkept : ∀ b, low ≤ b → b < arrays.length → arrays'[b]? = arrays[b]?) :
    Keeps a low' arrays' f x := by
  cases f with
  | shared len schema => exact h
  | own path schema =>
    obtain ⟨hschema, hle, hlt, hread⟩ := h
    refine ⟨hschema, hlow.trans hle, hlt.trans_le hlen, ?_⟩
    rw [Slice.read, hkept _ hle hlt]
    exact hread

/-- When nothing is written to the shared array any more, its leaves are settled. -/
theorem Keeps.settle {a a' low low' cap : ℕ} {arrays arrays' : List Backing} {cells : List String}
    {f : Found String Schema} {x : Slice × Schema} (h : Keeps a' low arrays f x)
    (harray : arrays[a']? = some ⟨cells, cap⟩) (ha' : low' ≤ a') (hlow : low' ≤ low)
    (hlen : arrays.length ≤ arrays'.length)
    (hkept : ∀ b, low' ≤ b → b < arrays.length → arrays'[b]? = arrays[b]?) :
    Keeps a low' arrays' (f.settle cells) x := by
  have hlt : a' < arrays.length := (List.getElem?_eq_some_iff.mp harray).1
  cases f with
  | shared len schema =>
    cases h
    refine ⟨rfl, ha', hlt.trans_le hlen, ?_⟩
    rw [Slice.read, hkept _ ha' hlt, harray]
    rfl
  | own path schema =>
    obtain ⟨hschema, hle, hlt', hread⟩ := h
    refine ⟨hschema, hlow.trans hle, hlt'.trans_le hlen, ?_⟩
    rw [Slice.read, hkept _ (hlow.trans hle) hlt']
    exact hread

/-- What walking the items under a path comes to: the other arrays stay, the one of the path
holds what is written there, and the leaves are kept. -/
structure Refines (grow : ℕ → ℕ) (F : Forest String Schema) (p : List String) (room : ℕ)
    (tail : List String) (a cap : ℕ) (arrays : List Backing)
    (r : List Backing × List (Slice × Schema)) : Prop where
  length : arrays.length ≤ r.1.length
  kept : ∀ b, b < arrays.length → b ≠ a → r.1[b]? = arrays[b]?
  array : r.1[a]? = some ⟨p ++ (visit grow F p room tail).1, cap⟩
  found : List.Forall₂ (Keeps a arrays.length r.1) (visit grow F p room tail).2 r.2

/-- Where each item starts an array of its own, all arrays stay. -/
structure RefinesFresh (grow : ℕ → ℕ) (F : Forest String Schema) (p tail : List String)
    (arrays : List Backing) (r : List Backing × List (Slice × Schema)) : Prop where
  length : arrays.length ≤ r.1.length
  kept : ∀ b, b < arrays.length → r.1[b]? = arrays[b]?
  found : ∀ a, List.Forall₂ (Keeps a arrays.length r.1) (visit grow F p 0 tail).2 r.2

/-- What the paths of a level with arrays of their own rest on. -/
structure Fresh (grow : ℕ → ℕ) (p : List String)
    (place : List Backing → String → List Backing × Slice) (hold : List Backing → Prop) : Prop where
  place : ∀ arrays k, hold arrays →
    place arrays k = (arrays ++ [⟨p ++ [k], grow p.length⟩], ⟨arrays.length, p.length + 1⟩)
  keep : ∀ arrays arrays', hold arrays → (∀ b, b < arrays.length → arrays'[b]? = arrays[b]?) →
    hold arrays'

theorem fresh_full {grow : ℕ → ℕ} (hgrow : ∀ n, 0 < n → grow n = env.growslice n)
    {p tail : List String} {a cap : ℕ} (hp : p ≠ []) (hcap : cap - p.length = 0) :
    Fresh grow p (fun arrays k => appendTo env arrays ⟨a, p.length⟩ k)
      fun arrays => arrays[a]? = some ⟨p ++ tail, cap⟩ := by
  refine ⟨fun arrays k ha => ?_, fun arrays arrays' ha hkept => ?_⟩
  · rw [hgrow p.length (List.length_pos_iff.mpr hp)]
    exact appendTo_full ha (by omega) List.take_left k
  · rw [hkept a (List.getElem?_eq_some_iff.mp ha).1]
    exact ha

theorem refines_of_fresh {grow : ℕ → ℕ} {F : Forest String Schema} {p tail : List String}
    {a cap : ℕ} {arrays : List Backing} {r : List Backing × List (Slice × Schema)}
    (h : RefinesFresh grow F p tail arrays r) (ha : arrays[a]? = some ⟨p ++ tail, cap⟩) :
    Refines grow F p 0 tail a cap arrays r := by
  refine ⟨h.length, fun b hb _ => h.kept b hb, ?_, h.found a⟩
  rw [visit_zero, h.kept a (List.getElem?_eq_some_iff.mp ha).1]
  exact ha

/-- A place in an array of its own. -/
theorem getElem?_concat (arrays : List Backing) (x : Backing) :
    (∀ b, b < arrays.length → (arrays ++ [x])[b]? = arrays[b]?) ∧
      (arrays ++ [x])[arrays.length]? = some x ∧ (arrays ++ [x]).length = arrays.length + 1 :=
  ⟨fun _ hb => List.getElem?_append_left hb, by simp, by simp⟩

/-- A name written to the shared array. -/
theorem getElem?_write {arrays : List Backing} {a : ℕ} {x : Backing} (y : Backing)
    (ha : arrays[a]? = some x) :
    (∀ b, b ≠ a → (arrays.set a y)[b]? = arrays[b]?) ∧ (arrays.set a y)[a]? = some y ∧
      (arrays.set a y).length = arrays.length := by
  refine ⟨fun b hb => List.getElem?_set_ne (Ne.symm hb), ?_, List.length_set⟩
  exact List.getElem?_set_self (List.getElem?_eq_some_iff.mp ha).1

theorem walk_refines {grow : ℕ → ℕ} (hgrow : ∀ n, 0 < n → grow n = env.growslice n)
    (F : Forest String Schema) :
    (∀ p tail place hold arrays, Fresh grow p place hold → hold arrays →
        RefinesFresh grow F p tail arrays (walkForest env F place arrays)) ∧
      ∀ p room tail a cap arrays, p ≠ [] → arrays[a]? = some ⟨p ++ tail, cap⟩ →
        cap - p.length = room →
        Refines grow F p room tail a cap arrays
          (walkForest env F (fun arrays k => appendTo env arrays ⟨a, p.length⟩ k) arrays) := by
  induction F with
  | nil =>
    refine ⟨fun p tail place hold arrays _ _ => ⟨le_rfl, fun _ _ => rfl, fun _ => .nil⟩, ?_⟩
    exact fun p room tail a cap arrays _ ha _ => ⟨le_rfl, fun _ _ _ => rfl, ha, .nil⟩
  | skip k rest ih =>
    have hfresh : ∀ p tail place hold arrays, Fresh grow p place hold → hold arrays →
        RefinesFresh grow (.skip k rest) p tail arrays
          (walkForest env (.skip k rest) place arrays) := by
      intro p tail place hold arrays hplace hhold
      obtain ⟨hbefore, -, hlen⟩ := getElem?_concat arrays ⟨p ++ [k], grow p.length⟩
      rw [walkForest, hplace.place arrays k hhold]
      obtain ⟨hle, hkept, hfound⟩ := ih.1 p tail place hold _ hplace
        (hplace.keep _ _ hhold hbefore)
      refine ⟨by simp only; omega, fun b hb => ?_, fun a => (hfound a).imp fun f x h => ?_⟩
      · simp only
        rw [hkept b (by omega), hbefore b hb]
      · exact h.later (by omega) le_rfl fun _ _ _ => rfl
    refine ⟨hfresh, fun p room tail a cap arrays hp ha hroom => ?_⟩
    cases room with
    | zero => exact refines_of_fresh (hfresh _ _ _ _ _ (fresh_full hgrow hp hroom) ha) ha
    | succ room =>
      obtain ⟨hbefore, hself, hlen⟩ := getElem?_write ⟨p ++ k :: tail.drop 1, cap⟩ ha
      rw [walkForest, appendTo_room ha (by omega)]
      obtain ⟨hle, hkept, harray, hfound⟩ := ih.2 p (room + 1) _ a cap _ hp hself hroom
      rw [hlen] at hle hkept hfound
      exact ⟨hle, fun b hb hne => (hkept b hb hne).trans (hbefore b hne), harray, hfound⟩
  | leaf k schema rest ih =>
    have hfresh : ∀ p tail place hold arrays, Fresh grow p place hold → hold arrays →
        RefinesFresh grow (.leaf k schema rest) p tail arrays
          (walkForest env (.leaf k schema rest) place arrays) := by
      intro p tail place hold arrays hplace hhold
      obtain ⟨hbefore, hself, hlen⟩ := getElem?_concat arrays ⟨p ++ [k], grow p.length⟩
      rw [walkForest, hplace.place arrays k hhold]
      obtain ⟨hle, hkept, hfound⟩ := ih.1 p tail place hold _ hplace
        (hplace.keep _ _ hhold hbefore)
      refine ⟨by simp only; omega, fun b hb => ?_, fun a => .cons ?_ ((hfound a).imp fun f x h => ?_)⟩
      · simp only
        rw [hkept b (by omega), hbefore b hb]
      · refine ⟨rfl, le_rfl, by simp only; omega, ?_⟩
        simp only [Slice.read]
        rw [hkept arrays.length (by omega), hself]
        exact List.take_of_length_le (by simp)
      · exact h.later (by omega) le_rfl fun _ _ _ => rfl
    refine ⟨hfresh, fun p room tail a cap arrays hp ha hroom => ?_⟩
    cases room with
    | zero => exact refines_of_fresh (hfresh _ _ _ _ _ (fresh_full hgrow hp hroom) ha) ha
    | succ room =>
      obtain ⟨hbefore, hself, hlen⟩ := getElem?_write ⟨p ++ k :: tail.drop 1, cap⟩ ha
      rw [walkForest, appendTo_room ha (by omega)]
      obtain ⟨hle, hkept, harray, hfound⟩ := ih.2 p (room + 1) _ a cap _ hp hself hroom
      rw [hlen] at hle hkept hfound
      exact ⟨hle, fun b hb hne => (hkept b hb hne).trans (hbefore b hne), harray, .cons rfl hfound⟩
  | node k children rest ihc ih =>
    have hfresh : ∀ p tail place hold arrays, Fresh grow p place hold → hold arrays →
        RefinesFresh grow (.node k children rest) p tail arrays
          (walkForest env (.node k children rest) place arrays) := by
      intro p tail place hold arrays hplace hhold
      obtain ⟨hbefore, hself, hlen⟩ := getElem?_concat arrays ⟨p ++ [k], grow p.length⟩
      have hp : (p ++ [k]).length = p.length + 1 := by simp
      rw [walkForest, hplace.place arrays k hhold]
      have hinner := ihc.2 (p ++ [k]) (grow p.length - (p.length + 1)) [] arrays.length
        (grow p.length) _ (by simp) (by rw [List.append_nil]; exact hself) (by rw [hp])
      rw [hp] at hinner
      obtain ⟨hle, hkept, harray, hfound⟩ := hinner
      have hhold' := hplace.keep _ _ hhold (fun b hb =>
        (hkept b (by omega) (by omega)).trans (hbefore b hb))
      obtain ⟨hle', hkept', hfound'⟩ := ih.1 p tail place hold _ hplace hhold'
      refine ⟨by simp only; omega, fun b hb => ?_, fun a => ?_⟩
      · simp only
        rw [hkept' b (by omega), hkept b (by omega) (by omega), hbefore b hb]
      · refine List.rel_append ?_ ((hfound' a).imp fun f x h => ?_)
        · rw [List.forall₂_map_left_iff]
          refine hfound.imp fun f x h => ?_
          exact h.settle harray le_rfl (by omega) hle' fun b _ hb => hkept' b hb
        · exact h.later (by omega) le_rfl fun _ _ _ => rfl
    refine ⟨hfresh, fun p room tail a cap arrays hp ha hroom => ?_⟩
    cases room with
    | zero => exact refines_of_fresh (hfresh _ _ _ _ _ (fresh_full hgrow hp hroom) ha) ha
    | succ room =>
      obtain ⟨hbefore, hself, hlen⟩ := getElem?_write ⟨p ++ k :: tail.drop 1, cap⟩ ha
      have hlt := (List.getElem?_eq_some_iff.mp ha).1
      have hlength : (p ++ [k]).length = p.length + 1 := by simp
      rw [walkForest, appendTo_room ha (by omega)]
      have hinner := ihc.2 (p ++ [k]) room (tail.drop 1) a cap _ (by simp)
        (by rw [List.append_assoc]; exact hself) (by omega)
      rw [hlength] at hinner
      obtain ⟨hle, hkept, harray, hfound⟩ := hinner
      rw [List.append_assoc] at harray
      obtain ⟨hle', hkept', harray', hfound'⟩ := ih.2 p (room + 1) _ a cap _ hp harray hroom
      rw [hlen] at hle hkept hfound
      refine ⟨hle.trans hle', fun b hb hne => ?_, harray', List.rel_append ?_ ?_⟩
      · simp only
        rw [hkept' b (by omega) hne, hkept b hb hne, hbefore b hne]
      · refine hfound.imp fun f x h => ?_
        exact h.later le_rfl hle' fun b hb hb' => hkept' b hb' (by omega)
      · refine hfound'.imp fun f x h => ?_
        exact h.later hle le_rfl fun _ _ _ => rfl

/-! ## The fields -/

/-- How long a path's array is, by the length of the full array before it; the first name is in an
array of its own. -/
def Env.capacity (env : Env) (n : ℕ) : ℕ := if n = 0 then 1 else env.growslice n

/-- The body fields when the properties are visited in this order. -/
def fieldsOf (env : Env) (F : Forest String Schema) : List (List String × Schema) :=
  (walkForest env F topPlace []).2.map fun x => (x.1.read (walkForest env F topPlace []).1, x.2)

theorem fieldsOf_eq (F : Forest String Schema) :
    fieldsOf env F = reads env.capacity F [] 0 [] := by
  have hfresh : Fresh env.capacity [] topPlace fun _ => True :=
    ⟨fun _ _ _ => rfl, fun _ _ _ _ => trivial⟩
  have hgrow : ∀ n, 0 < n → env.capacity n = env.growslice n := fun n hn => if_neg hn.ne'
  obtain ⟨-, -, hfound⟩ := (walk_refines hgrow F).1 [] [] topPlace _ [] hfresh trivial
  have hown := @own_of_leafIn _ _ env.capacity F [] [] 0 leafIn_zero
  rw [reads, fieldsOf]
  have hreads := hfound 0
  clear hfound
  generalize (walkForest env F topPlace []).1 = arrays at hreads ⊢
  generalize (walkForest env F topPlace []).2 = found at hreads ⊢
  generalize (visit env.capacity F [] 0 []).1 = cells
  generalize (visit env.capacity F [] 0 []).2 = vs at hreads hown
  induction hreads with
  | nil => rfl
  | cons hkeeps _ ih =>
    obtain ⟨path, schema, rfl⟩ := hown _ List.mem_cons_self
    obtain ⟨hschema, -, -, hread⟩ := hkeeps
    rw [List.map_cons, List.map_cons, ih fun f hf => hown f (List.mem_cons_of_mem _ hf), hschema,
      hread]
    rfl

variable {ep : Endpoint}

/-- When no object of the body with several properties lets them share an array, some leaf's path
being in it. -/
def FieldsApart (env : Env) (ep : Endpoint) : Prop :=
  isNoBodyMethod ep.method = false → ep.schema.type = "object" →
    Safe env.capacity (forestOf (ep.schema.properties.getD [])) 0 0

theorem collectBody_fields (hobject : ep.schema.type = "object" ∧
      (ep.schema.properties.getD []).length > 0) (hmethod : isNoBodyMethod ep.method = false)
    (hkeys : (forestOf (ep.schema.properties.getD [])).Distinct) (Q : List TargetField → Prop) :
    Yields AnyOrder Q (collectBodyFields env ep) ↔
      ∀ F', Arranges F' (forestOf (ep.schema.properties.getD [])) →
        Q ((fieldsOf env F').map fun l => ⟨.body, l.1, some l.2⟩) := by
  rw [collectBodyFields]
  simp only [hmethod, Bool.false_eq_true, if_false, if_pos hobject]
  rw [← forall_order_iff, names_forestOf]
  refine (yields_order _ _).trans (forall_congr' fun keys => imp_congr_right fun hperm => ?_)
  refine (yields_bind_iff _ _).trans ?_
  rw [collectTop_eq]
  refine (yields_level hkeys (visits_collectProps _ hkeys) _ keys (fun k hk => ?_) []  _).trans ?_
  · rw [names_forestOf]
    exact hperm.mem_iff.mp hk
  · refine forall_congr' fun F' => imp_congr_right fun _ => imp_congr_right fun _ => ?_
    rw [fieldsOf, List.map_map]
    exact Iff.rfl

theorem params_perm {location : Location} {params : List (String × Option Schema)}
    (hnodup : (params.map Prod.fst).Nodup) {keys : List String}
    (hkeys : keys.Perm (params.map Prod.fst)) :
    (keys.filterMap fun k => (params.lookup k).map fun schema =>
        (⟨location, [k], schema⟩ : TargetField)).Perm
      (params.map fun p => ⟨location, [p.1], p.2⟩) := by
  refine (hkeys.filterMap _).trans (List.Perm.of_eq ?_)
  rw [List.filterMap_map, ← List.filterMap_eq_map]
  refine List.filterMap_congr fun p hp => ?_
  rw [Function.comp_apply, (ListIndex.lookup_eq_some_iff_mem hnodup).mpr hp]
  rfl

/-- The parameters are targeted once in any order, so all depends on the body. -/
theorem yields_targets_iff (hkeys : DistinctKeys ep) :
    Yields AnyOrder (fun fields => fields.Perm (targets ep)) (collectTargetFields env ep) ↔
      Yields AnyOrder (fun body => body.Perm ((bodyLeaves ep).map fun l => ⟨.body, l.1, some l.2⟩))
        (collectBodyFields env ep) := by
  refine (yields_bind_iff _ _).trans ?_
  have hsame : (fun body => Yields AnyOrder (fun fields => fields.Perm (targets ep)) (do
      let query ← collectParams .query ep.queryParams
      let header ← collectParams .header ep.headerParams
      let path ← collectParams .path ep.pathParams
      return body ++ query ++ header ++ path)) =
      fun body => body.Perm ((bodyLeaves ep).map fun l => ⟨.body, l.1, some l.2⟩) := by
    funext body
    refine propext ?_
    constructor
    · intro h
      have hquery := h (ep.queryParams.map Prod.fst) (List.Perm.refl _)
      have hheader := hquery (ep.headerParams.map Prod.fst) (List.Perm.refl _)
      have hpath : List.Perm _ (targets ep) :=
        hheader (ep.pathParams.map Prod.fst) (List.Perm.refl _)
      have hback := hpath.trans (((List.Perm.append_left _
        (params_perm hkeys.query (List.Perm.refl _)).symm).append
        (params_perm hkeys.header (List.Perm.refl _)).symm).append
        (params_perm hkeys.path (List.Perm.refl _)).symm)
      exact (List.perm_append_right_iff _).mp ((List.perm_append_right_iff _).mp
        ((List.perm_append_right_iff _).mp hback))
    · intro h query hquery header hheader path hpath
      exact ((h.append (params_perm hkeys.query hquery)).append
        (params_perm hkeys.header hheader)).append (params_perm hkeys.path hpath)
  exact iff_of_eq (congrArg (fun Q' => Yields AnyOrder Q' (collectBodyFields env ep)) hsame)

theorem body_iff (hkeys : DistinctKeys ep) :
    Yields AnyOrder (fun body => body.Perm ((bodyLeaves ep).map fun l => ⟨.body, l.1, some l.2⟩))
        (collectBodyFields env ep) ↔ FieldsApart env ep := by
  cases hmethod : isNoBodyMethod ep.method with
  | true =>
    have hleaves : bodyLeaves ep = [] := by
      simp only [bodyLeaves, hmethod, if_true]
    rw [hleaves, collectBodyFields]
    simp only [hmethod, if_true]
    exact iff_of_true (List.Perm.refl _) fun h => (Bool.noConfusion (hmethod.symm.trans h))
  | false =>
    by_cases hobject : ep.schema.type = "object" ∧ (ep.schema.properties.getD []).length > 0
    · have hleaves : bodyLeaves ep = (forestOf (ep.schema.properties.getD [])).leaves [] := by
        simp only [bodyLeaves, hmethod, Bool.false_eq_true, if_false, if_pos hobject]
      have hinj : Function.Injective fun l : List String × Schema =>
          (⟨.body, l.1, some l.2⟩ : TargetField) := by
        rintro ⟨path, schema⟩ ⟨path', schema'⟩ h
        cases h
        rfl
      rw [hleaves, collectBody_fields hobject hmethod hkeys.properties]
      have hreads := @all_orders_iff _ _ env.capacity (forestOf (ep.schema.properties.getD [])) [] []
        0 _ hkeys.properties (Nat.zero_le _)
      refine Iff.trans (forall_congr' fun F' => imp_congr_right fun _ => ?_)
        (hreads.trans ⟨fun h _ _ => h, fun h => h hmethod hobject.1⟩)
      rw [List.map_perm_map_iff hinj, fieldsOf_eq]
    · have hsafe : FieldsApart env ep := by
        intro _ htype
        have hnil : ep.schema.properties.getD [] = [] := by
          by_contra hne
          exact hobject ⟨htype, List.length_pos_iff.mpr hne⟩
        rw [hnil, forestOf]
        exact ⟨Or.inl (Nat.zero_le _), trivial⟩
      refine iff_of_true ?_ hsafe
      by_cases htype : ep.schema.type = ""
      · have hleaves : bodyLeaves ep = [] := by
          simp only [bodyLeaves, hmethod, Bool.false_eq_true, if_false, if_neg hobject]
          exact if_neg (not_not.mpr htype)
        rw [hleaves, collectBodyFields]
        simp only [hmethod, Bool.false_eq_true, if_false, if_neg hobject]
        rw [if_neg (not_not.mpr htype)]
        exact List.Perm.refl _
      · have hleaves : bodyLeaves ep = [([], ep.schema)] := by
          simp only [bodyLeaves, hmethod, Bool.false_eq_true, if_false, if_neg hobject, ne_eq, htype,
            not_false_eq_true, if_true]
        rw [hleaves, collectBodyFields]
        simp only [hmethod, Bool.false_eq_true, if_false, if_neg hobject, ne_eq, htype,
          not_false_eq_true, if_true]
        exact List.Perm.refl _

/-! ## One field is changed -/

/-- What a path leads to. -/
def valueAt : List String → List (String × Value) → Option Value
  | [], _ => none
  | [k], m => m.lookup k
  | k :: path, m =>
    match m.lookup k with
    | some (.object entries) => valueAt path entries
    | _ => none

/-- Neither path leads through the other. -/
def Apart (path path' : List String) : Prop := ¬path <+: path' ∧ ¬path' <+: path

/-- The payload differs from the baseline only where the field's path leads. -/
structure ChangesOnly (field : TargetField) (baseline mutated : GeneratedPayload) : Prop where
  body : (field.location ≠ .body → mutated.body = baseline.body) ∧ ∀ path, Apart path field.path →
    valueAt path (mutated.body.getD []) = valueAt path (baseline.body.getD [])
  query : (field.location ≠ .query → mutated.queryParams = baseline.queryParams) ∧
    ∀ path, Apart path field.path →
      valueAt path (mutated.queryParams.getD []) = valueAt path (baseline.queryParams.getD [])
  headers : (field.location ≠ .header → mutated.headers = baseline.headers) ∧
    ∀ name, name ≠ field.path.headD "" →
      (mutated.headers.getD []).lookup name = (baseline.headers.getD []).lookup name
  pathParams : (field.location ≠ .path → mutated.pathParams = baseline.pathParams) ∧
    ∀ name, name ≠ field.path.headD "" →
      (mutated.pathParams.getD []).lookup name = (baseline.pathParams.getD []).lookup name

/-- Active fuzzing has each field as its target once, and a target changes only its field. -/
structure TargetsEachField (env : Env) (ep : Endpoint) : Prop where
  fields : Yields AnyOrder (fun fields => fields.Perm (targets ep)) (collectTargetFields env ep)
  mutates : ∀ baseline field gen,
    Yields AnyOrder (ChangesOnly field baseline) (buildMutatedPayload env baseline field gen)

theorem lookup_setKey {β : Type} (k : String) (v : β) (m : List (String × β)) (k' : String) :
    (setKey k v m).lookup k' = if k' = k then some v else m.lookup k' := by
  induction m with
  | nil =>
    rw [setKey, List.lookup_cons]
    by_cases h : k' = k
    · simp [h]
    · simp [h, beq_eq_false_iff_ne.mpr h]
  | cons entry m ih =>
    obtain ⟨k₁, v₁⟩ := entry
    rw [setKey]
    by_cases h₁ : k₁ = k
    · subst h₁
      rw [if_pos rfl, List.lookup_cons, List.lookup_cons]
      by_cases h : k' = k₁
      · simp [h]
      · simp [h, beq_eq_false_iff_ne.mpr h]
    · rw [if_neg h₁, List.lookup_cons, List.lookup_cons, ih]
      by_cases h : k' = k₁
      · subst h
        rw [beq_self_eq_true]
        exact (if_neg h₁).symm
      · rw [beq_eq_false_iff_ne.mpr h]

theorem valueAt_nil (path : List String) : valueAt path [] = none := by
  cases path with
  | nil => rfl
  | cons k path =>
    cases path with
    | nil => rfl
    | cons k' path => rfl

theorem valueAt_cons_cons (k k' : String) (path : List String) (m : List (String × Value)) :
    valueAt (k :: k' :: path) m = match m.lookup k with
      | some (.object entries) => valueAt (k' :: path) entries
      | _ => none := rfl

/-- What a path leads to depends on the value of its first key. -/
theorem valueAt_congr {k : String} {path : List String} {m m' : List (String × Value)}
    (h : m.lookup k = m'.lookup k) : valueAt (k :: path) m = valueAt (k :: path) m' := by
  cases path with
  | nil => exact h
  | cons k' path => rw [valueAt_cons_cons, valueAt_cons_cons, h]

theorem Apart.tail {k : String} {path path' : List String} (h : Apart (k :: path) (k :: path')) :
    Apart path path' :=
  ⟨fun hprefix => h.1 (List.cons_prefix_cons.mpr ⟨rfl, hprefix⟩),
    fun hprefix => h.2 (List.cons_prefix_cons.mpr ⟨rfl, hprefix⟩)⟩

/-- A nested value leaves what other paths lead to. -/
theorem valueAt_setNestedValue (value : Value) (path path' : List String) (h : Apart path' path)
    (m : List (String × Value)) : valueAt path' (setNestedValue value path m) = valueAt path' m := by
  induction path generalizing path' m with
  | nil => exact (h.2 List.nil_prefix).elim
  | cons k path ih =>
    cases path' with
    | nil => exact (h.1 List.nil_prefix).elim
    | cons k₁ path' =>
      by_cases hk : k₁ = k
      · subst hk
        have htail := h.tail
        cases path with
        | nil => exact (htail.2 List.nil_prefix).elim
        | cons k₂ path =>
          cases path' with
          | nil => exact (htail.1 List.nil_prefix).elim
          | cons k₃ path' =>
            rw [setNestedValue, valueAt_cons_cons, valueAt_cons_cons, lookup_setKey, if_pos rfl]
            simp only
            rw [ih _ htail]
            cases m.lookup k₁ with
            | none => exact valueAt_nil _
            | some v =>
              cases v with
              | object entries => rfl
              | _ => exact valueAt_nil _
            simp
      · refine valueAt_congr ?_
        cases path with
        | nil => rw [setNestedValue, lookup_setKey, if_neg hk]
        | cons k₂ path => rw [setNestedValue, lookup_setKey, if_neg hk]; simp

theorem changesOnly_refl (field : TargetField) (p : GeneratedPayload) : ChangesOnly field p p :=
  ⟨⟨fun _ => rfl, fun _ _ => rfl⟩, ⟨fun _ => rfl, fun _ _ => rfl⟩, ⟨fun _ => rfl, fun _ _ => rfl⟩,
    ⟨fun _ => rfl, fun _ _ => rfl⟩⟩

theorem setField_changesOnly (env : Env) (field : TargetField) (value : Value)
    (p : GeneratedPayload) : ChangesOnly field p (setField env field value p) := by
  obtain ⟨location, path, schema⟩ := field
  have hkept := changesOnly_refl ⟨location, path, schema⟩ p
  cases location with
  | body =>
    by_cases hpath : path.length = 0
    · have hnil := List.length_eq_zero_iff.mp hpath
      subst hnil
      have hbody : ∀ q, ¬Apart q [] := fun q h => h.2 List.nil_prefix
      cases value with
      | object entries =>
        exact ⟨⟨fun h => (h rfl).elim, fun q h => (hbody q h).elim⟩, hkept.query, hkept.headers,
          hkept.pathParams⟩
      | _ =>
        exact ⟨⟨fun h => (h rfl).elim, fun q h => (hbody q h).elim⟩, hkept.query, hkept.headers,
          hkept.pathParams⟩
    · have hset : setField env ⟨.body, path, schema⟩ value p =
          { p with body := some (setNestedValue value path (p.body.getD [])) } := if_neg hpath
      rw [hset]
      exact ⟨⟨fun h => (h rfl).elim, fun q h => valueAt_setNestedValue value path q h _⟩, hkept.query,
        hkept.headers, hkept.pathParams⟩
  | query =>
    exact ⟨hkept.body, ⟨fun h => (h rfl).elim, fun q h => valueAt_setNestedValue value path q h _⟩,
      hkept.headers, hkept.pathParams⟩
  | header =>
    refine ⟨hkept.body, hkept.query, ⟨fun h => (h rfl).elim, fun name hname => ?_⟩,
      hkept.pathParams⟩
    exact (lookup_setKey _ _ _ name).trans (if_neg hname)
  | path =>
    refine ⟨hkept.body, hkept.query, hkept.headers, ⟨fun h => (h rfl).elim, fun name hname => ?_⟩⟩
    exact (lookup_setKey _ _ _ name).trans (if_neg hname)

theorem buildMutatedPayload_changesOnly (baseline : GeneratedPayload) (field : TargetField)
    (gen : Generator) :
    Yields AnyOrder (ChangesOnly field baseline) (buildMutatedPayload env baseline field gen) := by
  rw [buildMutatedPayload]
  split
  · exact changesOnly_refl field baseline
  · refine (yields_bind_iff _ _).mpr (yields_of_forall (fun value => ?_) _)
    exact setField_changesOnly env field value baseline

/-- Active fuzzing targets every field once under its own path, and changes only that one, exactly
when no brothers share an array with a leaf's path. -/
theorem targets_each_field_iff (env : Env) {ep : Endpoint} (hkeys : DistinctKeys ep) :
    TargetsEachField env ep ↔ FieldsApart env ep := by
  rw [← body_iff hkeys, ← yields_targets_iff hkeys]
  exact ⟨fun h => h.fields, fun h => ⟨h, buildMutatedPayload_changesOnly⟩⟩

/-- Go's runtime doubles a small array that is full. -/
def doubling : Env := ⟨fun _ => "", fun _ => "", fun _ _ => true, fun _ _ => some 0, fun n => 2 * n⟩

def text : Schema := ⟨"string", "", [], none, none, []⟩

def object (props : List (String × Option Schema)) : Schema := ⟨"object", "", [], some props, none, []⟩

/-- Brothers three levels down are apart. -/
def threeDeep : Endpoint :=
  ⟨"POST", object [("a", some (object [("b", some (object [("c", some text), ("d", some text)]))]))],
    [], [], [], none⟩

/-- Four levels down they share the array. -/
def fourDeep : Endpoint :=
  ⟨"POST", object [("a", some (object [("b", some (object [("c",
    some (object [("d", some text), ("e", some text)]))]))]))], [], [], [], none⟩

theorem threeDeep_targets : TargetsEachField doubling threeDeep := by
  refine (targets_each_field_iff doubling ⟨?_, by decide, by decide, by decide⟩).mpr ?_
  · simp [threeDeep, object, text, forestOf, under, Forest.Distinct, Forest.names]
  · intro _ _
    simp [threeDeep, object, text, forestOf, under, Safe, SafeBelow, Level, Forest.names, leafIn,
      childRoom, doubling, Env.capacity]

theorem fourDeep_misses : ¬TargetsEachField doubling fourDeep := by
  intro h
  have hkeys : DistinctKeys fourDeep := by
    refine ⟨?_, by decide, by decide, by decide⟩
    simp [fourDeep, object, text, forestOf, under, Forest.Distinct, Forest.names]
  have hapart := (body_iff hkeys).mp ((yields_targets_iff hkeys).mp h.fields) (by decide) rfl
  revert hapart
  simp [fourDeep, object, text, forestOf, under, Safe, SafeBelow, Level, Forest.names, leafIn,
    childRoom, doubling, Env.capacity]

end Swazz.Payloads
