import Mathlib.Data.Finset.Card
import Swazz.SchemaBudget

/-! Schema resolution and the order of the maps: as long as a reference has one tree wherever it is
met, every order returns the tree of the resolution without the memo. -/
namespace Swazz.Swagger

open AtomicCalls AtomicCalls.Calls

/-! ## Resolution without the memo -/

def propertiesOf (tree : Json → SchemaProperty) (propsRaw : Members) : Properties :=
  (keysOf propsRaw).map fun key => (key, tree ((propsRaw.lookup key).getD .null))

def withOwnProperties (tree : Json → SchemaProperty) (m : Members) (result : SchemaProperty) :
    SchemaProperty :=
  match asMap m "properties" with
  | some propsRaw => withProperties result (propertiesOf tree propsRaw)
  | none => result

def withAllOf (tree : Json → SchemaProperty) (m : Members) (result : SchemaProperty) :
    SchemaProperty :=
  match asList m "allOf" with
  | some allOf =>
    (allOf.map tree).foldl mergeSub (withProperties result (result.properties.getD []))
  | none => result

def withOwnItems (tree : Json → SchemaProperty) (m : Members) (result : SchemaProperty) :
    SchemaProperty :=
  match m.lookup "items" with
  | some items => withItems result (tree items)
  | none => result

/-- An object whose children have these trees. -/
def objectOf (tree : Json → SchemaProperty) (m : Members) : SchemaProperty :=
  withOwnItems tree m (withAllOf tree m
    { withOwnProperties tree m (startResult m) with required := requiredOf m })

/-- The tree of a schema while these references are in progress: a reference is cut only where it
is in progress itself, and resolved again wherever else it is met. -/
inductive Unfolds (spec : Members) : List String → Json → SchemaProperty → Prop
  | leaf {inProgress : List String} {j : Json} (h : ∀ m, j ≠ .obj m) :
    Unfolds spec inProgress j emptyObject
  | cut {inProgress : List String} {m : Members} {ref : String} (h : asString m "$ref" = some ref)
    (hin : ref ∈ inProgress) : Unfolds spec inProgress (.obj m) bareObject
  | missing {inProgress : List String} {m : Members} {ref : String}
    (h : asString m "$ref" = some ref) (hout : ref ∉ inProgress)
    (hnull : resolveRef ref spec = .null) : Unfolds spec inProgress (.obj m) emptyObject
  | ref {inProgress : List String} {m : Members} {ref : String} {t : SchemaProperty}
    (h : asString m "$ref" = some ref) (hout : ref ∉ inProgress)
    (hsome : resolveRef ref spec ≠ .null)
    (ht : Unfolds spec (ref :: inProgress) (resolveRef ref spec) t) :
    Unfolds spec inProgress (.obj m) t
  | object {inProgress : List String} {m : Members} (tree : Json → SchemaProperty)
    (h : asString m "$ref" = none)
    (hchildren : ∀ c ∈ childSchemas m, Unfolds spec inProgress c (tree c)) :
    Unfolds spec inProgress (.obj m) (objectOf tree m)

theorem mem_childSchemas_of_key {m propsRaw : Members} {key : String}
    (hmap : asMap m "properties" = some propsRaw) (hkey : key ∈ keysOf propsRaw) :
    (propsRaw.lookup key).getD .null ∈ childSchemas m := by
  refine List.mem_append_left _ (List.mem_append_left _ ?_)
  rw [propertySchemas, hmap]
  exact List.mem_map_of_mem hkey

theorem mem_childSchemas_of_allOf {m : Members} {allOf : List Json} {sub : Json}
    (hlist : asList m "allOf" = some allOf) (hsub : sub ∈ allOf) : sub ∈ childSchemas m := by
  refine List.mem_append_left _ (List.mem_append_right _ ?_)
  rw [hlist]
  exact hsub

theorem mem_childSchemas_of_items {m : Members} {items : Json}
    (hitems : m.lookup "items" = some items) : items ∈ childSchemas m := by
  refine List.mem_append_right _ ?_
  rw [hitems]
  exact List.mem_cons_self

/-- The tree of an object depends only on the trees of its children. -/
theorem objectOf_congr {tree tree' : Json → SchemaProperty} {m : Members}
    (h : ∀ c ∈ childSchemas m, tree c = tree' c) : objectOf tree m = objectOf tree' m := by
  have hprops : ∀ result, withOwnProperties tree m result = withOwnProperties tree' m result := by
    intro result
    rw [withOwnProperties, withOwnProperties]
    cases hmap : asMap m "properties" with
    | none => rfl
    | some propsRaw =>
      refine congrArg (withProperties result) (List.map_congr_left fun key hkey => ?_)
      rw [h _ (mem_childSchemas_of_key hmap hkey)]
  have hallOf : ∀ result, withAllOf tree m result = withAllOf tree' m result := by
    intro result
    rw [withAllOf, withAllOf]
    cases hlist : asList m "allOf" with
    | none => rfl
    | some allOf =>
      have hmap : allOf.map tree = allOf.map tree' :=
        List.map_congr_left fun sub hsub => h sub (mem_childSchemas_of_allOf hlist hsub)
      simp only [hmap]
  have hitems : ∀ result, withOwnItems tree m result = withOwnItems tree' m result := by
    intro result
    rw [withOwnItems, withOwnItems]
    cases hitems : m.lookup "items" with
    | none => rfl
    | some items => exact congrArg (withItems result) (h items (mem_childSchemas_of_items hitems))
  rw [objectOf, objectOf, hprops, hallOf, hitems]

theorem Unfolds.functional {spec : Members} {inProgress : List String} {j : Json}
    {t t' : SchemaProperty} (h : Unfolds spec inProgress j t) (h' : Unfolds spec inProgress j t') :
    t = t' := by
  induction h generalizing t' with
  | leaf hleaf =>
    cases h' with
    | leaf _ => rfl
    | cut => exact absurd rfl (hleaf _)
    | missing => exact absurd rfl (hleaf _)
    | ref => exact absurd rfl (hleaf _)
    | object => exact absurd rfl (hleaf _)
  | cut href hin =>
    cases h' with
    | leaf hleaf => exact absurd rfl (hleaf _)
    | cut _ _ => rfl
    | missing href' hout => cases href.symm.trans href'; exact absurd hin hout
    | ref href' hout => cases href.symm.trans href'; exact absurd hin hout
    | object _ hnone => cases href.symm.trans hnone
  | missing href hout hnull =>
    cases h' with
    | leaf hleaf => exact absurd rfl (hleaf _)
    | cut href' hin => cases href.symm.trans href'; exact absurd hin hout
    | missing _ _ _ => rfl
    | ref href' _ hsome => cases href.symm.trans href'; exact absurd hnull hsome
    | object _ hnone => cases href.symm.trans hnone
  | ref href hout hsome _ ih =>
    cases h' with
    | leaf hleaf => exact absurd rfl (hleaf _)
    | cut href' hin => cases href.symm.trans href'; exact absurd hin hout
    | missing href' _ hnull => cases href.symm.trans href'; exact absurd hnull hsome
    | ref href' _ _ ht =>
      cases href.symm.trans href'
      exact ih ht
    | object _ hnone => cases href.symm.trans hnone
  | object tree hnone _ ih =>
    cases h' with
    | leaf hleaf => exact absurd rfl (hleaf _)
    | cut href => cases href.symm.trans hnone
    | missing href => cases href.symm.trans hnone
    | ref href => cases href.symm.trans hnone
    | object tree' _ hchildren => exact objectOf_congr fun c hc => ih c hc (hchildren c hc)

/-! ## The trees of a reference -/

/-- In the resolution without the memo, a reference is met and not cut while others are in
progress. -/
inductive Met (spec : Members) : List String → Json → String → List String → Prop
  | here {inProgress : List String} {m : Members} {ref : String} (h : asString m "$ref" = some ref)
    (hout : ref ∉ inProgress) : Met spec inProgress (.obj m) ref inProgress
  | ref {inProgress within : List String} {m : Members} {ref ref' : String}
    (h : asString m "$ref" = some ref) (hout : ref ∉ inProgress)
    (hmet : Met spec (ref :: inProgress) (resolveRef ref spec) ref' within) :
    Met spec inProgress (.obj m) ref' within
  | child {inProgress within : List String} {m : Members} {c : Json} {ref' : String}
    (h : asString m "$ref" = none) (hc : c ∈ childSchemas m)
    (hmet : Met spec inProgress c ref' within) : Met spec inProgress (.obj m) ref' within

/-- `{"$ref": ref}` -/
def refObject (ref : String) : Json := .obj [("$ref", .str ref)]

/-- Wherever a reference is met without being cut, it unfolds to one tree. -/
def SameTrees (spec : Members) (start : List String) (schema : Json) : Prop :=
  ∀ ref within within' t t', Met spec start schema ref within → Met spec start schema ref within' →
    Unfolds spec within (refObject ref) t → Unfolds spec within' (refObject ref) t' → t = t'

theorem asString_refObject (ref : String) : asString [("$ref", .str ref)] "$ref" = some ref := rfl

theorem Unfolds.of_refObject {spec : Members} {inProgress : List String} {m : Members}
    {ref : String} {t : SchemaProperty} (h : asString m "$ref" = some ref)
    (ht : Unfolds spec inProgress (refObject ref) t) : Unfolds spec inProgress (.obj m) t := by
  have hsame := asString_refObject ref
  cases ht with
  | leaf hleaf => exact absurd rfl (hleaf _)
  | cut href hin => cases hsame.symm.trans href; exact .cut h hin
  | missing href hout hnull => cases hsame.symm.trans href; exact .missing h hout hnull
  | ref href hout hsome ht => cases hsame.symm.trans href; exact .ref h hout hsome ht
  | object _ hnone => cases hsame.symm.trans hnone

/-! ## A run of the resolver -/

section

variable {spec : Members} {start : List String} {schema : Json}

/-- The trees that are kept are those that the references unfold to somewhere. -/
def MemoOk (spec : Members) (start : List String) (schema : Json) (resolvedRefs : Properties) :
    Prop :=
  ∀ ref t, resolvedRefs.lookup ref = some t →
    ∃ within, Met spec start schema ref within ∧ Unfolds spec within (refObject ref) t

/-- What a part of the resolution leaves: the same references in progress and, as long as no limit
was hit, a sound memo and a result that is as it should be. -/
structure Ends (spec : Members) (start : List String) (schema : Json) (ctx : Ctx) (good : Prop)
    (ctx' : Ctx) : Prop where
  inProgress : ctx'.inProgress = ctx.inProgress
  memo : ctx'.truncated = false → MemoOk spec start schema ctx'.resolvedRefs
  good : ctx'.truncated = false → ctx.truncated = false ∧ good

/-- The memo is sound unless a limit was hit. -/
def Sound (spec : Members) (start : List String) (schema : Json) (ctx : Ctx) : Prop :=
  ctx.truncated = false → MemoOk spec start schema ctx.resolvedRefs

theorem Ends.same {ctx : Ctx} (h : Sound spec start schema ctx) {good : Prop} (hgood : good) :
    Ends spec start schema ctx good ctx := ⟨rfl, h, fun htrunc => ⟨htrunc, hgood⟩⟩

theorem Ends.trans {ctx ctx' ctx'' : Ctx} {good good' : Prop}
    (h : Ends spec start schema ctx good ctx') (h' : Ends spec start schema ctx' good' ctx'') :
    Ends spec start schema ctx (good ∧ good') ctx'' := by
  refine ⟨h'.inProgress.trans h.inProgress, h'.memo, fun htrunc => ?_⟩
  obtain ⟨hmid, hgood'⟩ := h'.good htrunc
  obtain ⟨hfirst, hgood⟩ := h.good hmid
  exact ⟨hfirst, hgood, hgood'⟩

theorem Ends.imp {ctx ctx' : Ctx} {good good' : Prop} (h : Ends spec start schema ctx good ctx')
    (himp : good → good') : Ends spec start schema ctx good' ctx' :=
  ⟨h.inProgress, h.memo, fun htrunc => (h.good htrunc).imp_right himp⟩

/-- The tree of a schema. -/
noncomputable def treeOf (spec : Members) (inProgress : List String) (j : Json) : SchemaProperty :=
  open Classical in
  if h : ∃ t, Unfolds spec inProgress j t then h.choose else bareObject

/-- A schema has a tree. -/
def HasTree (spec : Members) (inProgress : List String) (j : Json) : Prop :=
  Unfolds spec inProgress j (treeOf spec inProgress j)

theorem Unfolds.eq_treeOf {inProgress : List String} {j : Json} {t : SchemaProperty}
    (h : Unfolds spec inProgress j t) : t = treeOf spec inProgress j ∧
      HasTree spec inProgress j := by
  have hex : ∃ t, Unfolds spec inProgress j t := ⟨t, h⟩
  have htree : treeOf spec inProgress j = hex.choose := dif_pos hex
  rw [HasTree, htree]
  exact ⟨h.functional hex.choose_spec, hex.choose_spec⟩

variable {inProgress : List String} {S : Json → Prop}
  {res : Json → Ctx → Ranging (SchemaProperty × Ctx)}

/-- Resolving such a schema gives its tree. -/
def Right (spec : Members) (start : List String) (schema : Json) (inProgress : List String)
    (S : Json → Prop) (res : Json → Ctx → Ranging (SchemaProperty × Ctx)) : Prop :=
  ∀ j ctx, S j → ctx.inProgress = inProgress → Sound spec start schema ctx →
    Yields AnyOrder (fun r => Ends spec start schema ctx (Unfolds spec inProgress j r.1) r.2)
      (res j ctx)

theorem right_resolveProperties (hres : Right spec start schema inProgress S res)
    (propsRaw : Members) (keys : List String)
    (hS : ∀ key ∈ keys, S ((propsRaw.lookup key).getD .null)) (done : Properties) (ctx : Ctx)
    (hctx : ctx.inProgress = inProgress) (hsound : Sound spec start schema ctx) :
    Yields AnyOrder (fun r => Ends spec start schema ctx
        ((∀ key ∈ keys, HasTree spec inProgress ((propsRaw.lookup key).getD .null)) ∧
          ∀ key, r.1.lookup key = if key ∈ keys then
            some (treeOf spec inProgress ((propsRaw.lookup key).getD .null)) else done.lookup key)
        r.2) (resolveProperties res propsRaw keys done ctx) := by
  induction keys generalizing done ctx with
  | nil => exact Ends.same hsound ⟨nofun, fun key => (if_neg List.not_mem_nil).symm⟩
  | cons key keys ih =>
    rw [resolveProperties]
    refine yields_bind (hres _ ctx (hS key List.mem_cons_self) hctx hsound) ?_
    rintro ⟨resolved, ctx'⟩ hends
    have hrest := ih (fun key hkey => hS key (List.mem_cons_of_mem _ hkey))
      ((key, resolved) :: done) ctx' (hends.inProgress.trans hctx) hends.memo
    refine hrest.imp fun r hr => (hends.trans hr).imp ?_
    rintro ⟨hunfolds, htrees, hlookup⟩
    obtain ⟨heq, htree⟩ := hunfolds.eq_treeOf
    refine ⟨List.forall_mem_cons.mpr ⟨htree, htrees⟩, fun key' => ?_⟩
    rw [hlookup key']
    by_cases hkeys : key' ∈ keys
    · rw [if_pos hkeys, if_pos (List.mem_cons_of_mem _ hkeys)]
    · rw [if_neg hkeys]
      by_cases hkey : key' = key
      · subst hkey
        rw [if_pos List.mem_cons_self, List.lookup_cons_self]
        exact congrArg some heq
      · have hout : key' ∉ key :: keys := fun h => (List.mem_cons.mp h).elim hkey hkeys
        rw [if_neg hout, List.lookup_cons, beq_eq_false_iff_ne.mpr hkey]

theorem right_resolveAllOf (hres : Right spec start schema inProgress S res) (allOf : List Json)
    (hS : ∀ sub ∈ allOf, S sub) (result : SchemaProperty) (ctx : Ctx)
    (hctx : ctx.inProgress = inProgress) (hsound : Sound spec start schema ctx) :
    Yields AnyOrder (fun r => Ends spec start schema ctx
        ((∀ sub ∈ allOf, HasTree spec inProgress sub) ∧
          r.1 = (allOf.map (treeOf spec inProgress)).foldl mergeSub result) r.2)
      (resolveAllOf res allOf result ctx) := by
  induction allOf generalizing result ctx with
  | nil => exact Ends.same hsound ⟨nofun, rfl⟩
  | cons sub allOf ih =>
    rw [resolveAllOf]
    refine yields_bind (hres sub ctx (hS sub List.mem_cons_self) hctx hsound) ?_
    rintro ⟨resolved, ctx'⟩ hends
    have hrest := ih (fun sub hsub => hS sub (List.mem_cons_of_mem _ hsub))
      (mergeSub result resolved) ctx' (hends.inProgress.trans hctx) hends.memo
    refine hrest.imp fun r hr => (hends.trans hr).imp ?_
    rintro ⟨hunfolds, htrees, hmerged⟩
    obtain ⟨rfl, htree⟩ := hunfolds.eq_treeOf
    exact ⟨List.forall_mem_cons.mpr ⟨htree, htrees⟩, hmerged⟩

theorem listed_of_lookup {tree : Json → SchemaProperty} {propsRaw : Members} {done : Properties}
    (h : ∀ key ∈ keysOf propsRaw,
      done.lookup key = some (tree ((propsRaw.lookup key).getD .null))) :
    listed propsRaw done = propertiesOf tree propsRaw := by
  rw [listed, propertiesOf, ← List.filterMap_eq_map]
  refine List.filterMap_congr fun key hkey => ?_
  rw [h key hkey]
  rfl

theorem right_propertiesStep (hres : Right spec start schema inProgress S res) (m : Members)
    (hS : ∀ c ∈ childSchemas m, S c) (result : SchemaProperty) (ctx : Ctx)
    (hctx : ctx.inProgress = inProgress) (hsound : Sound spec start schema ctx) :
    Yields AnyOrder (fun r => Ends spec start schema ctx
        ((∀ c ∈ propertySchemas m, HasTree spec inProgress c) ∧
          r.1 = withOwnProperties (treeOf spec inProgress) m result) r.2)
      (propertiesStep res m result ctx) := by
  rw [propertiesStep, withOwnProperties, propertySchemas]
  cases hmap : asMap m "properties" with
  | none => exact Ends.same hsound ⟨fun _ hc => absurd hc List.not_mem_nil, rfl⟩
  | some propsRaw =>
    refine (yields_range _ _).mpr fun keys hkeys => ?_
    have hkeysS : ∀ key ∈ keys, S ((propsRaw.lookup key).getD .null) := fun key hkey =>
      hS _ (mem_childSchemas_of_key hmap (hkeys.mem_iff.mp hkey))
    refine yields_bind (right_resolveProperties hres propsRaw keys hkeysS [] ctx hctx hsound) ?_
    rintro ⟨done, ctx'⟩ hends
    refine hends.imp ?_
    rintro ⟨htrees, hlookup⟩
    refine ⟨fun c hc => ?_, ?_⟩
    · obtain ⟨key, hkey, rfl⟩ := List.mem_map.mp hc
      exact htrees key (hkeys.mem_iff.mpr hkey)
    · refine congrArg (withProperties result) (listed_of_lookup fun key hkey => ?_)
      rw [hlookup key, if_pos (hkeys.mem_iff.mpr hkey)]

theorem right_allOfStep (hres : Right spec start schema inProgress S res) (m : Members)
    (hS : ∀ c ∈ childSchemas m, S c) (result : SchemaProperty) (ctx : Ctx)
    (hctx : ctx.inProgress = inProgress) (hsound : Sound spec start schema ctx) :
    Yields AnyOrder (fun r => Ends spec start schema ctx
        ((∀ c ∈ (asList m "allOf").getD [], HasTree spec inProgress c) ∧
          r.1 = withAllOf (treeOf spec inProgress) m result) r.2) (allOfStep res m result ctx) := by
  rw [allOfStep, withAllOf]
  cases hlist : asList m "allOf" with
  | none => exact Ends.same hsound ⟨fun _ hc => absurd hc List.not_mem_nil, rfl⟩
  | some allOf =>
    exact right_resolveAllOf hres allOf
      (fun sub hsub => hS sub (mem_childSchemas_of_allOf hlist hsub)) _ ctx hctx hsound

theorem right_itemsStep (hres : Right spec start schema inProgress S res) (m : Members)
    (hS : ∀ c ∈ childSchemas m, S c) (result : SchemaProperty) (ctx : Ctx)
    (hctx : ctx.inProgress = inProgress) (hsound : Sound spec start schema ctx) :
    Yields AnyOrder (fun r => Ends spec start schema ctx
        ((∀ c ∈ (m.lookup "items").toList, HasTree spec inProgress c) ∧
          r.1 = withOwnItems (treeOf spec inProgress) m result) r.2)
      (itemsStep res m result ctx) := by
  rw [itemsStep, withOwnItems]
  cases hitems : m.lookup "items" with
  | none => exact Ends.same hsound ⟨fun _ hc => absurd hc List.not_mem_nil, rfl⟩
  | some items =>
    refine yields_bind (hres items ctx (hS items (mem_childSchemas_of_items hitems)) hctx hsound) ?_
    rintro ⟨resolved, ctx'⟩ hends
    refine hends.imp fun hunfolds => ?_
    obtain ⟨rfl, htree⟩ := hunfolds.eq_treeOf
    exact ⟨List.forall_mem_singleton.mpr htree, rfl⟩

theorem right_resolveObject (hres : Right spec start schema inProgress S res) (m : Members)
    (href : asString m "$ref" = none) (hS : ∀ c ∈ childSchemas m, S c) (ctx : Ctx)
    (hctx : ctx.inProgress = inProgress) (hsound : Sound spec start schema ctx) :
    Yields AnyOrder
      (fun r => Ends spec start schema ctx (Unfolds spec inProgress (.obj m) r.1) r.2)
      (resolveObject res m ctx) := by
  rw [resolveObject]
  refine yields_bind (right_propertiesStep hres m hS _ ctx hctx hsound) ?_
  rintro ⟨result, ctx₁⟩ hends₁
  have hctx₁ := hends₁.inProgress.trans hctx
  refine yields_bind (right_allOfStep hres m hS _ ctx₁ hctx₁ hends₁.memo) ?_
  rintro ⟨result', ctx₂⟩ hends₂
  have hctx₂ := hends₂.inProgress.trans hctx₁
  refine (right_itemsStep hres m hS result' ctx₂ hctx₂ hends₂.memo).imp ?_
  rintro ⟨result'', ctx₃⟩ hends₃
  refine ((hends₁.trans hends₂).trans hends₃).imp ?_
  rintro ⟨⟨⟨htrees₁, rfl⟩, htrees₂, rfl⟩, htrees₃, rfl⟩
  refine .object _ href fun c hc => ?_
  rcases List.mem_append.mp hc with hc | hitems
  · exact (List.mem_append.mp hc).elim (htrees₁ c) (htrees₂ c)
  · exact htrees₃ c hitems
end

/-! ## Every schema has a tree -/

mutual

/-- The references inside a value. -/
def refsOf : Json → Finset String
  | .arr items => refsOfItems items
  | .obj m => (asString m "$ref").toList.toFinset ∪ refsOfMembers m
  | .null => ∅
  | .bool _ => ∅
  | .num _ => ∅
  | .str _ => ∅

def refsOfItems : List Json → Finset String
  | [] => ∅
  | j :: rest => refsOf j ∪ refsOfItems rest

def refsOfMembers : List (String × Json) → Finset String
  | [] => ∅
  | (_, j) :: rest => refsOf j ∪ refsOfMembers rest

end

theorem refsOf_subset_of_mem {items : List Json} {j : Json} (h : j ∈ items) :
    refsOf j ⊆ refsOfItems items := by
  induction items with
  | nil => cases h
  | cons j' rest ih =>
    rw [refsOfItems]
    rcases List.mem_cons.mp h with rfl | hrest
    · exact Finset.subset_union_left
    · exact (ih hrest).trans Finset.subset_union_right

theorem refsOf_subset_of_lookup {m : Members} {key : String} {j : Json}
    (h : m.lookup key = some j) : refsOf j ⊆ refsOfMembers m := by
  induction m with
  | nil => cases h
  | cons e rest ih =>
    obtain ⟨key', j'⟩ := e
    rw [refsOfMembers]
    rw [List.lookup_cons] at h
    split at h
    · cases h
      exact Finset.subset_union_left
    · exact (ih h).trans Finset.subset_union_right

theorem hereditary_refsOf (refs : Finset String) : Hereditary fun j => refsOf j ⊆ refs where
  null := by
    rw [refsOf]
    exact Finset.empty_subset refs
  item hle hj := by
    rw [refsOf] at hle
    exact (refsOf_subset_of_mem hj).trans hle
  member hle hlookup := by
    rw [refsOf] at hle
    exact (refsOf_subset_of_lookup hlookup).trans (Finset.subset_union_right.trans hle)

theorem sizeOf_lt_of_lookup {m : Members} {key : String} {j : Json} (h : m.lookup key = some j) :
    sizeOf j < sizeOf m := by
  obtain ⟨before, after, rfl, -⟩ := List.lookup_eq_some_iff.mp h
  have hmem : (key, j) ∈ before ++ (key, j) :: after := List.mem_append_right _ List.mem_cons_self
  have hlt := List.sizeOf_lt_of_mem hmem
  simp only [Prod.mk.sizeOf_spec] at hlt
  omega

theorem sizeOf_lt_of_child {m : Members} {c : Json} (hc : c ∈ childSchemas m) :
    c = .null ∨ sizeOf c < sizeOf (Json.obj m) := by
  have hinside : Hereditary fun j => j = .null ∨ sizeOf j < sizeOf (Json.obj m) := by
    refine ⟨Or.inl rfl, fun {items j} h hj => Or.inr ?_, fun {m' key j} h hlookup => Or.inr ?_⟩
    · have hlt := List.sizeOf_lt_of_mem hj
      have harr := h.resolve_left nofun
      simp only [Json.arr.sizeOf_spec] at harr
      omega
    · have hlt := sizeOf_lt_of_lookup hlookup
      have hobj := h.resolve_left nofun
      simp only [Json.obj.sizeOf_spec] at hobj ⊢
      omega
  refine hinside.child_of_members (fun hlookup => Or.inr ?_) hc
  have hlt := sizeOf_lt_of_lookup hlookup
  rw [Json.obj.sizeOf_spec]
  omega

theorem exists_unfolds_of_refs {spec : Members} {refs : Finset String}
    (hspec : refsOf (.obj spec) ⊆ refs) (inProgress : List String) (j : Json)
    (hj : refsOf j ⊆ refs) : ∃ t, Unfolds spec inProgress j t := by
  -- on the references that are not in progress, and for the same ones on the size of the schema
  induction hcard : (refs.filter (· ∉ inProgress)).card using Nat.strong_induction_on
    generalizing inProgress j with
  | h n ihrefs =>
  induction hsize : sizeOf j using Nat.strong_induction_on generalizing j with
  | h k ihsize =>
  by_cases hobj : ∃ m, j = .obj m
  · obtain ⟨m, rfl⟩ := hobj
    cases href : asString m "$ref" with
    | none =>
      have hchildren : ∀ c ∈ childSchemas m, ∃ t, Unfolds spec inProgress c t := by
        intro c hc
        rcases sizeOf_lt_of_child hc with rfl | hlt
        · exact ⟨_, .leaf nofun⟩
        · exact ihsize _ (hsize ▸ hlt) c ((hereditary_refsOf refs).child hj hc) rfl
      refine ⟨_, .object (treeOf spec inProgress) href fun c hc => ?_⟩
      obtain ⟨t, ht⟩ := hchildren c hc
      exact ht.eq_treeOf.2
    | some ref =>
      by_cases hin : ref ∈ inProgress
      · exact ⟨_, .cut href hin⟩
      by_cases hnull : resolveRef ref spec = .null
      · exact ⟨_, .missing href hin hnull⟩
      have href_mem : ref ∈ refs := by
        refine hj ?_
        rw [refsOf, href]
        exact Finset.mem_union_left _ (by simp)
      have hfewer : (refs.filter (· ∉ ref :: inProgress)).card < n := by
        rw [← hcard]
        refine Finset.card_lt_card ((Finset.ssubset_iff_of_subset fun r hr => ?_).mpr ?_)
        · obtain ⟨hr, hout⟩ := Finset.mem_filter.mp hr
          exact Finset.mem_filter.mpr ⟨hr, fun h => hout (List.mem_cons_of_mem _ h)⟩
        · refine ⟨ref, Finset.mem_filter.mpr ⟨href_mem, hin⟩, fun h => ?_⟩
          exact (Finset.mem_filter.mp h).2 List.mem_cons_self
      obtain ⟨t, ht⟩ := ihrefs _ hfewer (ref :: inProgress) (resolveRef ref spec)
        ((hereditary_refsOf refs).resolveRef hspec ref) rfl
      exact ⟨t, .ref href hin hnull ht⟩
  · exact ⟨_, .leaf fun m hm => hobj ⟨m, hm⟩⟩

/-- Resolution without the memo and without limits always comes to an end. -/
theorem exists_unfolds (spec : Members) (inProgress : List String) (j : Json) :
    ∃ t, Unfolds spec inProgress j t :=
  @exists_unfolds_of_refs spec (refsOf (.obj spec) ∪ refsOf j) Finset.subset_union_left inProgress j
    Finset.subset_union_right

/-! ## The whole resolution -/

section

variable {spec : Members} {start : List String} {schema : Json}

theorem MemoOk.cons {ref : String} {t : SchemaProperty} {resolvedRefs : Properties}
    (h : MemoOk spec start schema resolvedRefs) {within : List String}
    (hmet : Met spec start schema ref within) (ht : Unfolds spec within (refObject ref) t) :
    MemoOk spec start schema ((ref, t) :: resolvedRefs) := by
  intro ref' t' hlookup
  rw [List.lookup_cons] at hlookup
  split at hlookup
  · rename_i hbeq
    cases hlookup
    cases beq_iff_eq.mp hbeq
    exact ⟨within, hmet, ht⟩
  · exact h ref' t' hlookup

/-- What a schema's resolution may meet is met in the whole. -/
def Part (spec : Members) (start : List String) (schema : Json) (inProgress : List String)
    (j : Json) : Prop :=
  ∀ ref within, Met spec inProgress j ref within → Met spec start schema ref within

theorem right_resolveReference (hsame : SameTrees spec start schema)
    {res : Json → Ctx → Ranging (SchemaProperty × Ctx)}
    (hres : ∀ inProgress,
      Right spec start schema inProgress (Part spec start schema inProgress) res)
    {inProgress : List String} {m : Members} {ref : String} (href : asString m "$ref" = some ref)
    (hpart : Part spec start schema inProgress (.obj m)) (ctx : Ctx)
    (hctx : ctx.inProgress = inProgress) (hsound : Sound spec start schema ctx) :
    Yields AnyOrder
      (fun r => Ends spec start schema ctx (Unfolds spec inProgress (.obj m) r.1) r.2)
      (resolveReference res recallMemo spec ref ctx) := by
  rw [resolveReference]
  by_cases hin : ref ∈ ctx.inProgress
  · rw [if_pos hin]
    exact Ends.same hsound (.cut href (hctx ▸ hin))
  rw [if_neg hin]
  have hout : ref ∉ inProgress := hctx ▸ hin
  have hmet : Met spec start schema ref inProgress := hpart ref inProgress (.here href hout)
  cases hmemo : recallMemo ctx.resolvedRefs ref with
  | some cached =>
    refine ⟨rfl, hsound, fun htrunc => ⟨htrunc, ?_⟩⟩
    obtain ⟨within, hwithin, hcached⟩ := hsound htrunc ref cached hmemo
    obtain ⟨t, ht⟩ := exists_unfolds spec inProgress (refObject ref)
    cases hsame ref within inProgress cached t hwithin hmet hcached ht
    exact ht.of_refObject href
  | none =>
    have htarget : Yields AnyOrder (fun r => Ends spec start schema
        { ctx with inProgress := ref :: ctx.inProgress }
        (Unfolds spec inProgress (refObject ref) r.1) r.2)
        (resolveTarget res ref spec { ctx with inProgress := ref :: ctx.inProgress }) := by
      have hself := asString_refObject ref
      rw [resolveTarget]
      split
      · rename_i hnull
        exact ⟨rfl, hsound, fun htrunc => ⟨htrunc, .missing hself hout hnull⟩⟩
      · rename_i hsome
        refine (hres (ref :: inProgress) _ { ctx with inProgress := ref :: ctx.inProgress }
          (fun ref' within h => ?_) (congrArg (ref :: ·) hctx) hsound).imp ?_
        · exact hpart ref' within (.ref href hout h)
        · exact fun r hr => hr.imp fun ht => .ref hself hout hsome ht
    refine yields_bind htarget ?_
    rintro ⟨result, ctx'⟩ hends
    refine ⟨?_, fun htrunc => ?_, fun htrunc => ?_⟩
    · change ctx'.inProgress.erase ref = ctx.inProgress
      rw [hends.inProgress]
      exact List.erase_cons_head ..
    · exact (hends.memo htrunc).cons hmet (hends.good htrunc).2
    · exact (hends.good htrunc).imp_right fun ht => ht.of_refObject href

theorem right_resolveWith (hsame : SameTrees spec start schema) (maxNodes : ℤ) (room : ℕ)
    (inProgress : List String) :
    Right spec start schema inProgress (Part spec start schema inProgress)
      (resolveWith recallMemo spec maxNodes room) := by
  have hstop : ∀ (ctx : Ctx) (good : Prop), Ends spec start schema ctx good ctx.counted.cut :=
    fun ctx good => ⟨rfl, nofun, nofun⟩
  induction room generalizing inProgress with
  | zero => exact fun j ctx _ _ _ => hstop ctx _
  | succ room ih =>
    intro j ctx hpart hctx hsound
    rw [resolveWith]
    split
    · exact hstop ctx _
    · have hbody : Yields AnyOrder (fun r =>
          Ends spec start schema ctx.counted (Unfolds spec inProgress j r.1) r.2)
          (resolveBody (resolveWith recallMemo spec maxNodes room) recallMemo spec j
            ctx.counted) := by
        refine yields_resolveBody (fun hleaf => ?_) (fun m ref hj href => ?_) fun m hj href => ?_
        · exact ⟨rfl, hsound, fun htrunc => ⟨htrunc, .leaf hleaf⟩⟩
        · subst hj
          exact right_resolveReference hsame ih href hpart ctx.counted hctx hsound
        · subst hj
          refine right_resolveObject (ih inProgress) m href (fun c hc ref within h => ?_)
            ctx.counted hctx hsound
          exact hpart ref within (.child href hc h)
      exact hbody.imp fun r hr => ⟨hr.inProgress, hr.memo, hr.good⟩

end

/-- The schema has one tree, that of the resolution without the memo, and every order of the maps
returns it unless a limit is hit. -/
def OneTree (schema : Json) (spec : Members) (seenRefs : List (String × Bool))
    (maxNodes maxDepth : ℤ) : Prop :=
  ∃ t, Unfolds spec (newResolverCtx seenRefs).inProgress schema t ∧ Yields AnyOrder
    (fun r => r.2.truncated = false → r.1 = t)
    (resolveSchemaWithHint schema spec seenRefs maxNodes maxDepth)

theorem one_tree_of_same_trees {schema : Json} {spec : Members} {seenRefs : List (String × Bool)}
    (hsame : SameTrees spec (newResolverCtx seenRefs).inProgress schema) (maxNodes maxDepth : ℤ) :
    OneTree schema spec seenRefs maxNodes maxDepth := by
  obtain ⟨t, ht⟩ := exists_unfolds spec (newResolverCtx seenRefs).inProgress schema
  refine ⟨t, ht, ?_⟩
  have hright := right_resolveWith hsame maxNodes maxDepth.toNat _ schema (newResolverCtx seenRefs)
    (fun _ _ h => h) rfl fun _ _ _ h => nomatch h
  exact hright.imp fun r hr htrunc => (hr.good htrunc).2.functional ht

/-! ## References that do not lead to each other -/

/-- A schema leads to a reference. -/
def LeadsToRef (spec : Members) (j : Json) (ref : String) : Prop :=
  ∃ m, Relation.ReflTransGen (Leads spec) j (.obj m) ∧ asString m "$ref" = some ref

/-- Only a reference to itself can be part of a cycle. -/
def NoMutual (spec : Members) : Prop :=
  ∀ ref ref', LeadsToRef spec (resolveRef ref spec) ref' →
    LeadsToRef spec (resolveRef ref' spec) ref → ref = ref'

theorem LeadsToRef.head {spec : Members} {j j' : Json} {ref : String} (h : Leads spec j j')
    (hlead : LeadsToRef spec j' ref) : LeadsToRef spec j ref :=
  hlead.imp fun _ hm => ⟨hm.1.head h, hm.2⟩

theorem LeadsToRef.mem {spec : Members} {j : Json} {ref : String} {refs : Finset String}
    (h : LeadsToRef spec j ref) (hj : refsOf j ⊆ refs) (hspec : refsOf (.obj spec) ⊆ refs) :
    ref ∈ refs := by
  obtain ⟨m, hm, href⟩ := h
  have hinside : refsOf (.obj m) ⊆ refs := by
    generalize Json.obj m = j' at hm
    induction hm with
    | refl => exact hj
    | tail _ hstep ih =>
      cases hstep with
      | child hc => exact (hereditary_refsOf refs).child ih hc
      | ref _ => exact (hereditary_refsOf refs).resolveRef hspec _
  refine hinside ?_
  rw [refsOf, href]
  exact Finset.mem_union_left _ (by simp)

/-- Only the references that the schema leads to matter among those in progress. -/
theorem Unfolds.congr {spec : Members} {inProgress within : List String} {j : Json}
    {t : SchemaProperty} (ht : Unfolds spec inProgress j t)
    (h : ∀ ref, LeadsToRef spec j ref → (ref ∈ inProgress ↔ ref ∈ within)) :
    Unfolds spec within j t := by
  induction ht generalizing within with
  | leaf hleaf => exact .leaf hleaf
  | cut href hin => exact .cut href ((h _ ⟨_, .refl, href⟩).mp hin)
  | missing href hout hnull =>
    exact .missing href (fun h' => hout ((h _ ⟨_, .refl, href⟩).mpr h')) hnull
  | ref href hout hsome _ ih =>
    refine .ref href (fun h' => hout ((h _ ⟨_, .refl, href⟩).mpr h')) hsome
      (ih fun ref' hlead => ?_)
    rw [List.mem_cons, List.mem_cons, h ref' (hlead.head (.ref href))]
  | object tree hnone _ ih =>
    exact .object tree hnone fun c hc => ih c hc fun ref' hlead => h ref' (hlead.head (.child hc))

theorem Met.leads {spec : Members} {inProgress within : List String} {j : Json} {ref : String}
    (h : Met spec inProgress j ref within) : LeadsToRef spec j ref ∧ ref ∉ within ∧
      (∀ r ∈ inProgress, r ∈ within) ∧
        ∀ r ∈ within, r ∈ inProgress ∨ LeadsToRef spec (resolveRef r spec) ref := by
  induction h with
  | here href hout => exact ⟨⟨_, .refl, href⟩, hout, fun _ h => h, fun _ h => Or.inl h⟩
  | ref href _ _ ih =>
    obtain ⟨hlead, hout, hsub, hwithin⟩ := ih
    refine ⟨hlead.head (.ref href), hout, fun r hr => hsub r (List.mem_cons_of_mem _ hr),
      fun r hr => ?_⟩
    rcases hwithin r hr with hin | hlead'
    · rcases List.mem_cons.mp hin with rfl | hin
      · exact Or.inr hlead
      · exact Or.inl hin
    · exact Or.inr hlead'
  | child _ hc _ ih => exact ⟨ih.1.head (.child hc), ih.2⟩

/-- Where no two references lead to each other, a reference has one tree. -/
theorem same_trees_of_no_mutual {spec : Members} (h : NoMutual spec) (start : List String)
    (schema : Json) : SameTrees spec start schema := by
  intro ref within within' t t' hmet hmet' ht ht'
  have hmem : ∀ {w w' : List String}, Met spec start schema ref w → Met spec start schema ref w' →
      ∀ r, LeadsToRef spec (refObject ref) r → r ∈ w → r ∈ w' := by
    intro w w' hw hw' r hlead hr
    rcases hw.leads.2.2.2 r hr with hstart | hback
    · exact hw'.leads.2.2.1 r hstart
    · -- such a reference would lead to this one and this one to it
      have hne : ref ≠ r := fun heq => hw.leads.2.1 (heq ▸ hr)
      obtain ⟨m, hm, hself⟩ := hlead
      rcases Relation.ReflTransGen.cases_head hm with heq | ⟨j, hstep, hm'⟩
      · cases heq
        exact absurd (Option.some.inj ((asString_refObject ref).symm.trans hself)) hne
      · cases hstep with
        | child hc => cases hc
        | ref href =>
          cases (asString_refObject ref).symm.trans href
          exact absurd (h ref r ⟨m, hm', hself⟩ hback) hne
  exact (ht.congr fun r hlead => ⟨hmem hmet hmet' r hlead, hmem hmet' hmet r hlead⟩).functional ht'

/-- A tree of nodes, twice. -/
def nodeTree : Members :=
  [("definitions", .obj [("N", .obj [("properties", .obj [("l", refTo "N"), ("r", refTo "N")])])])]

theorem nodeTree_one_tree : OneTree
    (.obj [("properties", .obj [("x", refTo "N"), ("y", refTo "N")])]) nodeTree [] 50000 64 := by
  refine one_tree_of_same_trees (same_trees_of_no_mutual (fun ref ref' h h' => ?_) _ _) 50000 64
  have hspec : refsOf (.obj nodeTree) ⊆ {"#/definitions/N"} := by decide
  have hall := hereditary_refsOf {"#/definitions/N"}
  have hmem := Finset.mem_singleton.mp (h.mem (hall.resolveRef hspec ref) hspec)
  have hmem' := Finset.mem_singleton.mp (h'.mem (hall.resolveRef hspec ref') hspec)
  exact hmem'.trans hmem.symm

/-! ## Two references that lead to each other -/

def twoCycle : Members :=
  [("definitions", .obj [("A", .obj [("properties", .obj [("b", refTo "B")])]),
    ("B", .obj [("properties", .obj [("a", refTo "A")])])])]

def bothRefs : Json := .obj [("properties", .obj [("x", refTo "A"), ("y", refTo "B")])]

/-- The height of the property `x`. -/
def heightOfX (t : SchemaProperty) : ℕ :=
  (((t.properties.getD []).lookup "x").map SchemaProperty.height).getD 0

/-- Whichever of the two is ranged over first is resolved in full, and the other keeps the tree
that was cut inside it. -/
theorem twoCycle_two_trees : ¬ OneTree bothRefs twoCycle [] 50000 64 := by
  rintro ⟨t, -, h⟩
  have hlisted := h.answered List.Perm.refl (by decide)
  have hreverse := h.answered List.reverse_perm (by decide)
  have hheights := congrArg heightOfX (hlisted.trans hreverse.symm)
  revert hheights
  decide

end Swazz.Swagger
