import Mathlib.Data.Set.Insert
import Swazz.SchemaHeap

/-! The pruning of the schemas of a parse result, in place, where they share structures. -/
namespace Swazz.Swagger.InHeap

open AtomicCalls AtomicCalls.Calls PointerTrees

/-- `s.Properties = nil`, `s.Items = nil` -/
def SchemaProperty.bare (s : SchemaProperty) : SchemaProperty :=
  { s with properties := none, items := none }

def Heap.propertiesOf (heap : Heap) (a : ℕ) : Pointers :=
  (heap[a]?.bind SchemaProperty.properties).getD []

def Heap.itemsOf (heap : Heap) (a : ℕ) : Option ℕ := heap[a]?.bind SchemaProperty.items

/-- `for _, prop := range s.Properties`, with the keys in the order that they come in. -/
def pruneEach (prune : ℕ → Heap → Ranging Heap) (properties : Pointers) :
    List String → Heap → Ranging Heap
  | [], heap => return heap
  | key :: keys, heap =>
    match properties.lookup key with
    | some prop => do
      let heap ← prune prop heap
      pruneEach prune properties keys heap
    | none => pruneEach prune properties keys heap

/-- `pruneSchema`, with `room` the levels left above the depth limit. -/
def pruneSchema : ℕ → ℕ → Heap → Ranging Heap
  | 0, s, heap => return heap.modify s SchemaProperty.bare
  | room + 1, s, heap => do
    let keys ← perform ((heap.propertiesOf s).map Prod.fst)
    let heap ← pruneEach (pruneSchema room) (heap.propertiesOf s) keys heap
    match heap.itemsOf s with
    | some items => pruneSchema room items heap
    | none => return heap

/-- The schemas of a parse result, each with its `maxDepth`, pruned one after the other. -/
def pruneAll : List (ℤ × ℕ) → Heap → Ranging Heap
  | [], heap => return heap
  | (maxDepth, s) :: schemas, heap => do
    let heap ← pruneSchema maxDepth.toNat s heap
    pruneAll schemas heap

/-- Each schema stands for what it stood for, cut below its own depth. -/
def Pruned (heap heap' : Heap) (schemas : List (ℤ × ℕ)) : Prop :=
  ∀ e ∈ schemas, heap'.graph.expand e.2 = (heap.graph.expand e.2).cut e.1.toNat

/-- The schemas with the levels that they keep. -/
def kept (schemas : List (ℤ × ℕ)) : List (ℕ × ℕ) := schemas.map fun e => (e.1.toNat, e.2)

/-- Some structure with children is met by schemas both above their cuts and on a cut. -/
def Clash (heap : Heap) (schemas : List (ℤ × ℕ)) : Prop :=
  ∃ b, heap.graph.children b ≠ [] ∧ heap.graph.Above (kept schemas) b ∧
    heap.graph.OnCut (kept schemas) b

/-! ### What the pruning has cut -/

/-- The structures of `K` lost their children, and nothing else changed. -/
structure CutAt (heap : Heap) (K : Set ℕ) (heap' : Heap) : Prop where
  bare : ∀ a ∈ K, heap'[a]? = heap[a]?.map SchemaProperty.bare
  same : ∀ a ∉ K, heap'[a]? = heap[a]?

/-- A pruning cuts only structures on the cut, and all of them with children unless one above lost
its children. -/
def Cuts (heap : Heap) (above onCut : ℕ → Prop) (K : Set ℕ) (heap' : Heap) : Prop :=
  ∃ K', CutAt heap K' heap' ∧ K ⊆ K' ∧ (∀ b ∈ K', b ∈ K ∨ onCut b) ∧
    ((∀ b ∈ K', heap.graph.children b ≠ [] → ¬above b) →
      ∀ b, heap.graph.children b ≠ [] → onCut b → b ∈ K')

variable {heap heap' : Heap} {K : Set ℕ} {above above' onCut onCut' : ℕ → Prop}

theorem graph_eq_of_getElem? {a : ℕ} (h : heap'[a]? = heap[a]?) :
    heap'.graph.data a = heap.graph.data a ∧ heap'.graph.children a = heap.graph.children a :=
  ⟨congrArg (Option.map SchemaProperty.data) h,
    congrArg (fun s => (s.map SchemaProperty.children).getD []) h⟩

theorem CutAt.graph (h : CutAt heap K heap') : heap'.graph = heap.graph.without K := by
  have hdata : heap'.graph.data = heap.graph.data := by
    funext a
    by_cases ha : a ∈ K
    · show heap'[a]?.map _ = heap[a]?.map _
      rw [h.bare a ha, Option.map_map]
      rfl
    · exact (graph_eq_of_getElem? (h.same a ha)).1
  have hchildren : heap'.graph.children = (heap.graph.without K).children := by
    funext a
    by_cases ha : a ∈ K
    · rw [children_without_of_mem ha]
      show (heap'[a]?.map _).getD [] = []
      rw [h.bare a ha]
      cases heap[a]? <;> rfl
    · rw [children_without_of_not_mem ha]
      exact (graph_eq_of_getElem? (h.same a ha)).2
  exact congrArg₂ PointerGraph.mk hdata hchildren

theorem cutAt_empty (heap : Heap) : CutAt heap ∅ heap :=
  ⟨fun _ ha => absurd ha (Set.notMem_empty _), fun _ _ => rfl⟩

theorem CutAt.modify (h : CutAt heap K heap') (s : ℕ) :
    CutAt heap (insert s K) (heap'.modify s SchemaProperty.bare) := by
  refine ⟨fun a ha => ?_, fun a ha => ?_⟩
  · by_cases has : s = a
    · subst has
      rw [List.getElem?_modify_eq]
      by_cases hK : s ∈ K
      · rw [h.bare s hK]
        cases heap[s]? <;> rfl
      · rw [h.same s hK]
        rfl
    · rw [List.getElem?_modify_ne _ _ has]
      exact h.bare a (ha.resolve_left (Ne.symm has))
  · rw [Set.mem_insert_iff, not_or] at ha
    rw [List.getElem?_modify_ne _ _ (Ne.symm ha.1)]
    exact h.same a ha.2

theorem CutAt.cuts_nothing (h : CutAt heap K heap') (honCut : ∀ b, ¬onCut b) :
    Cuts heap above onCut K heap' :=
  ⟨K, h, subset_rfl, fun _ hb => Or.inl hb, fun _ b _ hb => absurd hb (honCut b)⟩

/-- One pruning after the other. -/
theorem Cuts.then {p : Ranging Heap} (h : Cuts heap above onCut K heap')
    (hp : ∀ K', CutAt heap K' heap' → (∀ b ∈ K', b ∈ K ∨ onCut b) →
      Yields AnyOrder (Cuts heap above' onCut' K') p) :
    Yields AnyOrder (Cuts heap (fun b => above b ∨ above' b) (fun b => onCut b ∨ onCut' b) K) p := by
  obtain ⟨K', hcut, hgrown, hsound, hfull⟩ := h
  refine (hp K' hcut hsound).imp ?_
  rintro heap'' ⟨K'', hcut', hgrown', hsound', hfull'⟩
  refine ⟨K'', hcut', hgrown.trans hgrown', fun b hb => ?_, fun hkeep b hb honCut => ?_⟩
  · rcases hsound' b hb with hb' | hb'
    · exact (hsound b hb').imp_right Or.inl
    · exact Or.inr (Or.inr hb')
  · rcases honCut with honCut | honCut
    · refine hgrown' (hfull (fun b' hb' hinner habove => ?_) b hb honCut)
      exact hkeep b' (hgrown' hb') hinner (Or.inl habove)
    · exact hfull' (fun b' hb' hinner habove => hkeep b' hb' hinner (Or.inr habove)) b hb honCut

theorem Cuts.congr (h : Cuts heap above onCut K heap') (habove : ∀ b, above b → above' b)
    (honCut : ∀ b, onCut b ↔ onCut' b) : Cuts heap above' onCut' K heap' := by
  obtain ⟨K', hcut, hgrown, hsound, hfull⟩ := h
  refine ⟨K', hcut, hgrown, fun b hb => (hsound b hb).imp_right (honCut b).mp, ?_⟩
  intro hkeep b hb hon
  exact hfull (fun b' hb' hinner h => hkeep b' hb' hinner (habove b' h)) b hb ((honCut b).mpr hon)

/-! ### Pruning one schema -/

/-- What the pruning of a structure at some depth cuts. -/
def Prunes (heap : Heap) (prune : ℕ → Heap → Ranging Heap) (room : ℕ) : Prop :=
  ∀ s K heap', CutAt heap K heap' → Yields AnyOrder
    (Cuts heap (fun b => ∃ d < room, heap.graph.At s d b) (heap.graph.At s room) K) (prune s heap')

theorem prunes_each {prune : ℕ → Heap → Ranging Heap} {room : ℕ} (hprune : Prunes heap prune room)
    (properties : Pointers) (keys : List String) (h : CutAt heap K heap') :
    Yields AnyOrder (Cuts heap
      (fun b => ∃ key ∈ keys, ∃ c, properties.lookup key = some c ∧ ∃ d < room, heap.graph.At c d b)
      (fun b => ∃ key ∈ keys, ∃ c, properties.lookup key = some c ∧ heap.graph.At c room b) K)
      (pruneEach prune properties keys heap') := by
  induction keys generalizing K heap' with
  | nil => exact h.cuts_nothing fun b hb => by simp at hb
  | cons key keys ih =>
    rw [pruneEach]
    cases hkey : properties.lookup key with
    | none =>
      refine (ih h).imp fun heap'' hcuts => hcuts.congr ?_ ?_
      · rintro b ⟨key', hkey', hrest⟩
        exact ⟨key', List.mem_cons_of_mem _ hkey', hrest⟩
      · intro b
        simp [hkey]
    | some c =>
      refine yields_bind (hprune c K heap' h) fun heap'' hcuts => ?_
      refine (hcuts.then fun K' hcut _ => ih hcut).imp fun heap''' hboth => hboth.congr ?_ ?_
      · rintro b (habove | ⟨key', hkey', hrest⟩)
        · exact ⟨key, List.mem_cons_self, c, hkey, habove⟩
        · exact ⟨key', List.mem_cons_of_mem _ hkey', hrest⟩
      · intro b
        simp [hkey]

theorem children_eq (heap : Heap) (a : ℕ) : heap.graph.children a =
    (heap.propertiesOf a).map (fun e => (some e.1, e.2)) ++
      (heap.itemsOf a).toList.map fun c => (none, c) := by
  rw [Heap.propertiesOf, Heap.itemsOf]
  show (heap[a]?.map _).getD [] = _
  cases heap[a]? <;> rfl

theorem exists_child_iff (h : heap.WellFormed) (a : ℕ) (P : ℕ → Prop) :
    (∃ e ∈ heap.graph.children a, P e.2) ↔
      (∃ key ∈ (heap.propertiesOf a).map Prod.fst, ∃ c,
        (heap.propertiesOf a).lookup key = some c ∧ P c) ∨ ∃ c ∈ heap.itemsOf a, P c := by
  have hnodup : ((heap.propertiesOf a).map Prod.fst).Nodup := by
    rw [Heap.propertiesOf]
    cases hs : heap[a]? with
    | none => exact List.nodup_nil
    | some s => exact (h a s hs).keys_nodup
  rw [children_eq]
  constructor
  · rintro ⟨e, he, hP⟩
    rcases List.mem_append.mp he with he | he
    · obtain ⟨e', he', rfl⟩ := List.mem_map.mp he
      exact Or.inl ⟨e'.1, List.mem_map_of_mem he', e'.2,
        (ListIndex.lookup_eq_some_iff_mem hnodup).mpr he', hP⟩
    · obtain ⟨c, hc, rfl⟩ := List.mem_map.mp he
      exact Or.inr ⟨c, Option.mem_toList.mp hc, hP⟩
  · rintro (⟨key, -, c, hlookup, hP⟩ | ⟨c, hc, hP⟩)
    · refine ⟨(some key, c), List.mem_append_left _ ?_, hP⟩
      exact List.mem_map_of_mem (f := fun e : String × ℕ => (some e.1, e.2)) (mem_of_lookup hlookup)
    · refine ⟨(none, c), List.mem_append_right _ ?_, hP⟩
      exact List.mem_map_of_mem (Option.mem_toList.mpr hc)

theorem propertiesOf_bare {a : ℕ} (h : CutAt heap K heap') (ha : a ∈ K) :
    heap'.propertiesOf a = [] ∧ heap'.itemsOf a = none := by
  rw [Heap.propertiesOf, Heap.itemsOf, h.bare a ha]
  cases heap[a]? <;> exact ⟨rfl, rfl⟩

theorem propertiesOf_same {a : ℕ} (h : CutAt heap K heap') (ha : a ∉ K) :
    heap'.propertiesOf a = heap.propertiesOf a ∧ heap'.itemsOf a = heap.itemsOf a := by
  rw [Heap.propertiesOf, Heap.itemsOf, h.same a ha]
  exact ⟨rfl, rfl⟩

theorem prunes_schema (h : heap.WellFormed) (room : ℕ) : Prunes heap (pruneSchema room) room := by
  induction room with
  | zero =>
    intro s K heap' hcut
    refine ⟨insert s K, hcut.modify s, Set.subset_insert s K, fun b hb => ?_, ?_⟩
    · exact (Set.mem_insert_iff.mp hb).symm
    · rintro - b - rfl
      exact Set.mem_insert b K
  | succ room ih =>
    intro s K heap' hcut
    rw [pruneSchema]
    refine (yields_range _ _).mpr fun keys hkeys => ?_
    by_cases hs : s ∈ K
    · -- the structure was cut before: there is nothing to go down to
      obtain ⟨hproperties, hitems⟩ := propertiesOf_bare hcut hs
      rw [hproperties] at hkeys ⊢
      rw [List.perm_nil.mp hkeys]
      show Yields AnyOrder _ (match heap'.itemsOf s with
        | some items => pruneSchema room items heap'
        | none => pure heap')
      rw [hitems]
      refine ⟨K, hcut, subset_rfl, fun _ hb => Or.inl hb, fun hkeep b hb hon => ?_⟩
      have hinner : heap.graph.children s ≠ [] := by
        obtain ⟨e, he, -⟩ := hon
        exact List.ne_nil_of_mem he
      exact absurd ⟨0, Nat.succ_pos room, rfl⟩ (hkeep s hs hinner)
    · obtain ⟨hproperties, hitems⟩ := propertiesOf_same hcut hs
      rw [hproperties] at hkeys ⊢
      refine yields_bind (prunes_each ih (heap.propertiesOf s) keys hcut) fun heap₁ heach => ?_
      have hboth := @Cuts.then heap heap₁ K _
        (fun b => ∃ c ∈ heap.itemsOf s, ∃ d < room, heap.graph.At c d b) _
        (fun b => ∃ c ∈ heap.itemsOf s, heap.graph.At c room b)
        (match heap₁.itemsOf s with
          | some items => pruneSchema room items heap₁
          | none => pure heap₁) heach ?_
      · refine hboth.imp fun heap'' hcuts => hcuts.congr ?_ ?_
        · intro b hb
          have hchild := (exists_child_iff h s fun c => ∃ d < room, heap.graph.At c d b).mpr ?_
          · obtain ⟨e, he, d, hd, hat⟩ := hchild
            exact ⟨d + 1, Nat.succ_lt_succ hd, e, he, hat⟩
          · refine hb.imp_left ?_
            rintro ⟨key, hkey, hrest⟩
            exact ⟨key, hkeys.mem_iff.mp hkey, hrest⟩
        · intro b
          refine Iff.trans ?_ (exists_child_iff h s fun c => heap.graph.At c room b).symm
          refine or_congr_left (exists_congr fun key => and_congr_left' hkeys.mem_iff)
      · intro K' hcut' hsound
        -- the structure itself is not below its own properties
        have hs' : s ∉ K' := by
          intro hmem
          rcases hsound s hmem with hold | ⟨key, -, c, hlookup, hat⟩
          · exact hs hold
          · have hchild : (some key, c) ∈ heap.graph.children s := by
              rw [children_eq]
              refine List.mem_append_left _ ?_
              exact List.mem_map_of_mem (f := fun e : String × ℕ => (some e.1, e.2))
                (mem_of_lookup hlookup)
            have hlt : c < s := h.older s _ hchild
            exact absurd (hat.le h.older) (Nat.not_le.mpr hlt)
        rw [(propertiesOf_same hcut' hs').2]
        cases heap.itemsOf s with
        | none => exact hcut'.cuts_nothing fun b hb => by simp at hb
        | some items =>
          refine (ih items K' heap₁ hcut').imp fun heap'' hcuts => hcuts.congr ?_ ?_
          · exact fun b hb => ⟨items, rfl, hb⟩
          · intro b
            simp

/-! ### Pruning all of them -/

theorem cuts_all (h : heap.WellFormed) (schemas : List (ℤ × ℕ)) (hcut : CutAt heap K heap') :
    Yields AnyOrder
      (Cuts heap (heap.graph.Above (kept schemas)) (heap.graph.OnCut (kept schemas)) K)
      (pruneAll schemas heap') := by
  induction schemas generalizing K heap' with
  | nil => exact hcut.cuts_nothing fun b ⟨e, he, _⟩ => absurd he List.not_mem_nil
  | cons e schemas ih =>
    refine yields_bind (prunes_schema h e.1.toNat e.2 K heap' hcut) fun heap₁ hfirst => ?_
    refine (hfirst.then fun K' hcut' _ => ih hcut').imp fun heap'' hcuts => hcuts.congr ?_ ?_
    · rintro b (⟨d, hd, hat⟩ | ⟨e', he', hrest⟩)
      · exact ⟨_, List.mem_cons_self, d, hd, hat⟩
      · exact ⟨e', List.mem_cons_of_mem _ he', hrest⟩
    · intro b
      exact (List.exists_mem_cons_iff (fun e' : ℕ × ℕ => heap.graph.At e'.2 e'.1 b)
        (e.1.toNat, e.2) (kept schemas)).symm

theorem pruned_iff (h : heap.WellFormed) (schemas : List (ℤ × ℕ)) :
    Yields AnyOrder (fun heap' => Pruned heap heap' schemas ↔ ¬Clash heap schemas)
      (pruneAll schemas heap) := by
  refine (cuts_all h schemas (cutAt_empty heap)).imp ?_
  rintro heap' ⟨K, hcut, -, hsound, hfull⟩
  rw [Clash, ← forall_expand_without_iff h.older
    (fun b hb _ => (hsound b hb).resolve_left (Set.notMem_empty b)) hfull, Pruned, hcut.graph, kept]
  simp only [List.mem_map, forall_exists_index, and_imp, forall_apply_eq_imp_iff₂]

theorem wellFormed_nil : Heap.WellFormed [] := fun _ _ hs => by cases hs

/-- Whatever the parser builds, and in whatever order the maps are ranged over, the pruned schemas
are what they should be when no structure is met both above a cut and on one. -/
theorem parsed_pruned_iff (spec : Members) (maxNodes maxDepth : ℤ) (sources : List Source) :
    Yields AnyOrder (fun r => r.1.graph.Older ∧ ∀ schemas : List (ℤ × ℕ),
      Yields AnyOrder (fun heap' => Pruned r.1 heap' schemas ↔ ¬Clash r.1 schemas)
        (pruneAll schemas r.1)) (parse spec maxNodes maxDepth sources [] []) :=
  (wellFormed_parse spec maxNodes maxDepth sources wellFormed_nil []).imp fun _ h =>
    ⟨h.older, pruned_iff h⟩

/-! ### A user that is met at two depths -/

def users : Members :=
  [("definitions", .obj [("User", .obj [("properties", .obj [("profile",
    .obj [("properties", .obj [("name", .obj [("type", .str "string")])])])])])])]

def userRef : Json := .obj [("$ref", .str "#/definitions/User")]

def orderSchema : Json := .obj [("properties",
  .obj [("order", .obj [("properties", .obj [("buyer", userRef)])]), ("user", userRef)])]

/-- The heap of the schema when maps are ranged over as they are listed. -/
def orderHeap : Heap :=
  ((parse users 50000 64 [.schema orderSchema] [] []).answered fun keys => keys).1

/-- The profile is two levels down through the user, and three through the buyer of the order. -/
theorem clash_orderHeap : Clash orderHeap [(3, 5)] := by
  have hroot : orderHeap.graph.children 5 = [(some "order", 3), (some "user", 4)] := by decide
  have horder : orderHeap.graph.children 3 = [(some "buyer", 2)] := by decide
  have hbuyer : orderHeap.graph.children 2 = [(some "profile", 1)] := by decide
  have huser : orderHeap.graph.children 4 = [(some "profile", 1)] := by decide
  have hprofile : orderHeap.graph.children 1 = [(some "name", 0)] := by decide
  refine ⟨1, by simp [hprofile], ⟨(3, 5), List.mem_cons_self, 2, by decide, ?_⟩,
    ⟨(3, 5), List.mem_cons_self, ?_⟩⟩
  · exact ⟨(some "user", 4), by simp [hroot], (some "profile", 1), by simp [huser], rfl⟩
  · exact ⟨(some "order", 3), by simp [hroot], (some "buyer", 2), by simp [horder],
      (some "profile", 1), by simp [hbuyer], rfl⟩

/-- The user's own profile loses its name. -/
theorem shared_profile_is_cut : ¬∀ (spec : Members) (maxNodes maxDepth : ℤ) (sources : List Source),
    Yields AnyOrder (fun r => ∀ depth : ℤ, Yields AnyOrder
      (fun heap' => Pruned r.1 heap' (r.2.map fun s => (depth, s)))
      (pruneAll (r.2.map fun s => (depth, s)) r.1)) (parse spec maxNodes maxDepth sources [] []) := by
  intro h
  have hwf := @Calls.Yields.answered _ _ _ _ _ _
    (wellFormed_parse users 50000 64 [.schema orderSchema] wellFormed_nil [])
    (fun keys => keys) List.Perm.refl
  have hpruned := @Calls.Yields.answered _ _ _ _ _ _
    (h users 50000 64 [.schema orderSchema]) (fun keys => keys) List.Perm.refl 3
  obtain ⟨heap', hclaimed, hiff⟩ := (hpruned.and (pruned_iff hwf _)).exists_result exists_order
  exact hiff.mp hclaimed clash_orderHeap

end Swazz.Swagger.InHeap
