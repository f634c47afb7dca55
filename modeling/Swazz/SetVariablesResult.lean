import Mathlib.Data.Finset.Card
import Mathlib.Data.List.Infix
import Swazz.MonotoneDefinitions
import Swazz.SetVariables

/-! The result of a step's `set_variables`: the same in every order when no template refers to what
the step defines and no function call meets an old value or another call's cached one. -/
namespace Swazz.SetVariables

open AtomicCalls AtomicCalls.Calls MonotoneDefinitions
open TrustedProxy (TrimSpace)

/-! ## What an expression means -/

section

variable (env : Env) (σ : Text → Option Text)

mutual

/-- The value of an expression when the variables have these values, without a cache. -/
def meaning : Node → Option Text
  | .literal name => some name
  | .varRef name => σ name
  | .call name args => (meanings args).bind fun vs => (env.callBuiltin name vs).toOption

def meanings : List Node → Option (List Text)
  | [] => some []
  | a :: args => (meaning a).bind fun v => (meanings args).map fun vs => v :: vs

end

end

mutual

/-- The variables that an expression refers to. -/
def refsOf : Node → List Text
  | .literal _ => []
  | .varRef name => [name]
  | .call _ args => refsOfArgs args

def refsOfArgs : List Node → List Text
  | [] => []
  | a :: args => refsOf a ++ refsOfArgs args

end

mutual

/-- The function calls in an expression. -/
def callsOf : Node → List Node
  | .literal _ => []
  | .varRef _ => []
  | .call name args => .call name args :: callsOfArgs args

def callsOfArgs : List Node → List Node
  | [] => []
  | a :: args => callsOf a ++ callsOfArgs args

end

mutual

theorem meaning_mono (env : Env) {σ τ : Text → Option Text} (h : Extends σ τ) :
    ∀ (n : Node) {v : Text}, meaning env σ n = some v → meaning env τ n = some v
  | .literal name, v, hv => by
    rw [meaning] at hv ⊢
    exact hv
  | .varRef name, v, hv => by
    rw [meaning] at hv ⊢
    exact h name v hv
  | .call name args, v, hv => by
    rw [meaning] at hv ⊢
    obtain ⟨vs, hvs, hcall⟩ := Option.bind_eq_some_iff.mp hv
    rw [meanings_mono env h args hvs]
    exact hcall

theorem meanings_mono (env : Env) {σ τ : Text → Option Text} (h : Extends σ τ) :
    ∀ (args : List Node) {vs : List Text}, meanings env σ args = some vs →
      meanings env τ args = some vs
  | [], vs, hvs => by
    rw [meanings] at hvs ⊢
    exact hvs
  | a :: args, vs, hvs => by
    rw [meanings] at hvs ⊢
    obtain ⟨v, hv, hmap⟩ := Option.bind_eq_some_iff.mp hvs
    obtain ⟨vs', hvs', rfl⟩ := Option.map_eq_some_iff.mp hmap
    rw [meaning_mono env h a hv, meanings_mono env h args hvs']
    rfl

end

/-! ## Evaluation with a cache -/

/-- What is cached for these calls is their value. -/
def CacheOk (env : Env) (calls : List Node) (σ : Text → Option Text) (cache : Map Text) : Prop :=
  ∀ c ∈ calls, ∀ v, cache.lookup (cacheKey c) = some v → meaning env σ c = some v

def Node.name : Node → Text
  | .literal name => name
  | .varRef name => name
  | .call name _ => name

/-- The calls can be told apart by their keys, and all of them are cached. -/
structure Cacheable (calls : List Node) : Prop where
  keys : ∀ c ∈ calls, ∀ c' ∈ calls, cacheKey c = cacheKey c' → c = c'
  deterministic : ∀ c ∈ calls, nondeterministic c.name = false

theorem CacheOk.cons {env : Env} {calls : List Node} {σ : Text → Option Text} {cache : Map Text}
    (h : CacheOk env calls σ cache) (hcalls : Cacheable calls) {c : Node} (hc : c ∈ calls)
    {v : Text} (hv : meaning env σ c = some v) :
    CacheOk env calls σ ((cacheKey c, v) :: cache) := by
  intro c' hc' v' hlookup
  rw [List.lookup_cons] at hlookup
  split at hlookup
  · rename_i hkey
    cases hlookup
    cases hcalls.keys c' hc' c hc (beq_iff_eq.mp hkey)
    exact hv
  · exact h c' hc' v' hlookup

section

variable {env : Env} {vars : Map Value} {σ : Text → Option Text} {calls : List Node}

mutual

theorem evalExpr_meaning (hcalls : Cacheable calls) : ∀ (n : Node) (cache : Map Text),
    (∀ y ∈ refsOf n, lookupVar vars y = σ y) → callsOf n ⊆ calls → CacheOk env calls σ cache →
      (evalExpr env vars n cache).1.toOption = meaning env σ n ∧
        CacheOk env calls σ (evalExpr env vars n cache).2
  | .literal name, cache, _, _, hcache => by
    rw [evalExpr, meaning]
    exact ⟨rfl, hcache⟩
  | .varRef name, cache, hrefs, _, hcache => by
    rw [evalExpr, meaning, ← hrefs name (by rw [refsOf]; exact List.mem_cons_self)]
    cases lookupVar vars name with
    | none => exact ⟨rfl, hcache⟩
    | some v => exact ⟨rfl, hcache⟩
  | .call name args, cache, hrefs, hsub, hcache => by
    rw [refsOf] at hrefs
    rw [callsOf] at hsub
    have hself := hsub List.mem_cons_self
    obtain ⟨hargs, hcache'⟩ := evalArgs_meaning hcalls args name 1 cache hrefs
      (fun c hc => hsub (List.mem_cons_of_mem _ hc)) hcache
    have hname : nondeterministic name = false := hcalls.deterministic _ hself
    rw [evalExpr, hname, if_neg Bool.false_ne_true]
    cases hlookup : cache.lookup (cacheKey (.call name args)) with
    | some v => exact ⟨(hcache _ hself v hlookup).symm, hcache⟩
    | none =>
      rw [meaning, ← hargs]
      dsimp only
      generalize hr : evalArgs env vars args name 1 cache = r at hargs hcache' ⊢
      obtain ⟨e | vs, cache'⟩ := r
      · exact ⟨rfl, hcache'⟩
      · dsimp only at hargs hcache' ⊢
        cases hbuiltin : env.callBuiltin name vs with
        | error e => exact ⟨by simp [Except.toOption, hbuiltin], hcache'⟩
        | ok v =>
          refine ⟨by simp [Except.toOption, hbuiltin], hcache'.cons hcalls hself ?_⟩
          rw [meaning, ← hargs]
          simp [Except.toOption, hbuiltin]

theorem evalArgs_meaning (hcalls : Cacheable calls) : ∀ (args : List Node) (function : Text)
    (i : ℕ) (cache : Map Text), (∀ y ∈ refsOfArgs args, lookupVar vars y = σ y) →
    callsOfArgs args ⊆ calls → CacheOk env calls σ cache →
      (evalArgs env vars args function i cache).1.toOption = meanings env σ args ∧
        CacheOk env calls σ (evalArgs env vars args function i cache).2
  | [], function, i, cache, _, _, hcache => by
    rw [evalArgs, meanings]
    exact ⟨rfl, hcache⟩
  | a :: args, function, i, cache, hrefs, hsub, hcache => by
    rw [refsOfArgs] at hrefs
    rw [callsOfArgs] at hsub
    obtain ⟨harg, hcache'⟩ := evalExpr_meaning hcalls a cache
      (fun y hy => hrefs y (List.mem_append_left _ hy))
      (fun c hc => hsub (List.mem_append_left _ hc)) hcache
    rw [evalArgs, meanings, ← harg]
    generalize evalExpr env vars a cache = r at harg hcache' ⊢
    obtain ⟨e | v, cache'⟩ := r
    · exact ⟨rfl, hcache'⟩
    · dsimp only at hcache' ⊢
      obtain ⟨hrest, hcache''⟩ := evalArgs_meaning hcalls args function (i + 1) cache'
        (fun y hy => hrefs y (List.mem_append_right _ hy))
        (fun c hc => hsub (List.mem_append_right _ hc)) hcache'
      rw [← hrest]
      generalize evalArgs env vars args function (i + 1) cache' = r at hrest hcache'' ⊢
      obtain ⟨e | vs, cache''⟩ := r
      · exact ⟨rfl, hcache''⟩
      · exact ⟨rfl, hcache''⟩

end

end

/-! ## One cache for the expressions of a step -/

def evalAll (env : Env) (vars : Map Value) : List Node → Map Text → List (Except EvalError Text)
  | [], _ => []
  | n :: ns, cache =>
    (evalExpr env vars n cache).1 :: evalAll env vars ns (evalExpr env vars n cache).2

theorem find?_eq_of_unique {α : Type} {l l' : List α} {pred : α → Bool}
    (hunique : ∀ a ∈ l, ∀ b ∈ l, pred a → pred b → a = b)
    (hsame : ∀ a, pred a → (a ∈ l ↔ a ∈ l')) : l.find? pred = l'.find? pred := by
  cases h : l.find? pred with
  | none =>
    refine (List.find?_eq_none.mpr fun a ha hpred => ?_).symm
    exact List.find?_eq_none.mp h a ((hsame a hpred).mpr ha) hpred
  | some a =>
    have hpred := List.find?_some h
    have ha := List.mem_of_find?_eq_some h
    cases h' : l'.find? pred with
    | none => exact absurd hpred (List.find?_eq_none.mp h' a ((hsame a hpred).mp ha))
    | some b =>
      have hpredb := List.find?_some h'
      have hb := (hsame b hpredb).mpr (List.mem_of_find?_eq_some h')
      rw [hunique a ha b hb hpred hpredb]

/-- Only what stands somewhere in the text matters. -/
theorem replaceAfter_congr {pairs pairs' : List (Text × Text)} {text : Text}
    (h : ∀ s, s <:+ text → pairs.find? (fun p => p.1.isPrefixOf s) =
      pairs'.find? fun p => p.1.isPrefixOf s) (k : ℕ) :
    replaceAfter pairs k text = replaceAfter pairs' k text := by
  induction text generalizing k with
  | nil =>
    cases k with
    | zero => rw [replaceAfter, replaceAfter]
    | succ k => rw [replaceAfter, replaceAfter]
  | cons c rest ih =>
    have hrest := ih fun s hs => h s (hs.trans (List.suffix_cons c rest))
    cases k with
    | succ k => rw [replaceAfter, replaceAfter, hrest]
    | zero =>
      rw [replaceAfter, replaceAfter, h (c :: rest) (List.suffix_refl _)]
      split
      · rw [hrest]
      · rw [hrest]

/-! ## The definitions of a step -/

/-- The function call that an expression is. -/
def callNode (expr : Text) : List Node :=
  match formulaOf expr with
  | .call node => [node]
  | _ => []

/-- The template that an expression is. -/
def templateOf (expr : Text) : List Text :=
  match formulaOf expr with
  | .template text => [text]
  | _ => []

theorem mem_callNode {expr : Text} {node : Node} (h : formulaOf expr = .call node) :
    node ∈ callNode expr := by
  rw [callNode, h]
  exact List.mem_cons_self

theorem mem_templateOf {expr text : Text} (h : formulaOf expr = .template text) :
    text ∈ templateOf expr := by
  rw [templateOf, h]
  exact List.mem_cons_self

/-- The calls in all definitions. -/
def allCalls (definitions : Map Text) : List Node :=
  definitions.flatMap fun e => (callNode e.2).flatMap callsOf

/-- The function calls have keys of their own and refer to nothing that the step replaces, and no
template contains what the step defines, or two variables at one place. -/
structure Settled (definitions : Map Text) (vars : Map Value) : Prop where
  cacheable : Cacheable (allCalls definitions)
  fresh : ∀ e ∈ definitions, ∀ node ∈ callNode e.2, ∀ y ∈ refsOf node, y ∈ keysOf definitions →
    lookupVar vars y = none
  unset : ∀ e ∈ definitions, ∀ text ∈ templateOf e.2, ∀ s ∈ text.tails,
    ∀ y ∈ keysOf definitions, ¬ placeholder y <+: s
  apart : ∀ e ∈ definitions, ∀ text ∈ templateOf e.2, ∀ s ∈ text.tails,
    ∀ y ∈ keysOf vars, ∀ y' ∈ keysOf vars, placeholder y <+: s → placeholder y' <+: s → y = y'

/-- The text that a template has with the variables of the start. -/
def templateText (vars : Map Value) (text : Text) : Text :=
  Replace (replacerArgs vars (keysOf vars)) text

def formulaValue (env : Env) (vars : Map Value) (σ : Text → Option Text) : Formula → Option Text
  | .call node => meaning env σ node
  | .template text => some (templateText vars text)
  | .bad _ => none

/-- The value of a definition when the variables have these values. -/
def valueOf (env : Env) (definitions : Map Text) (vars : Map Value) (x : Text)
    (σ : Text → Option Text) : Option Text :=
  (definitions.lookup x).bind fun expr => formulaValue env vars σ (formulaOf expr)

theorem valueOf_mono (env : Env) (definitions : Map Text) (vars : Map Value) :
    Mono (valueOf env definitions vars) := by
  intro x v σ τ hextends hv
  obtain ⟨expr, hx, hv⟩ := Option.bind_eq_some_iff.mp hv
  rw [valueOf, hx]
  change formulaValue env vars τ (formulaOf expr) = some v
  cases hformula : formulaOf expr with
  | call node =>
    rw [hformula] at hv
    exact meaning_mono env hextends node hv
  | template text =>
    rw [hformula] at hv
    exact hv
  | bad e =>
    rw [hformula] at hv
    cases hv

/-- The keys of a map as a set. -/
def keySet {α : Type} (m : Map α) : Finset Text := (keysOf m).toFinset

theorem mem_keySet {α : Type} {m : Map α} {x : Text} : x ∈ keySet m ↔ x ∈ keysOf m :=
  List.mem_toFinset

theorem mem_keysOf {α : Type} {m : Map α} {x : Text} :
    x ∈ keysOf m ↔ ∃ v, m.lookup x = some v := by
  rw [keysOf, List.mem_dedup]
  induction m with
  | nil => simp
  | cons e m ih =>
    rw [List.map_cons, List.mem_cons, ih, List.lookup_cons]
    by_cases hx : x = e.1
    · subst hx
      simp
    · simp only [hx, false_or, beq_eq_false_iff_ne.mpr hx]

theorem mem_of_lookup {α : Type} {m : Map α} {x : Text} {v : α} (h : m.lookup x = some v) :
    (x, v) ∈ m := by
  obtain ⟨before, after, rfl, -⟩ := List.lookup_eq_some_iff.mp h
  exact List.mem_append_right _ List.mem_cons_self

theorem lookup_delete {α : Type} {m : Map α} {x y : Text} (hne : y ≠ x) :
    (delete m x).lookup y = m.lookup y := by
  induction m with
  | nil => rfl
  | cons e m ih =>
    rw [delete] at ih ⊢
    by_cases he : e.1 = x
    · have hye : y ≠ e.1 := fun h => hne (h.trans he)
      rw [List.filter_cons_of_neg (by simp [he]), ih, List.lookup_cons, beq_eq_false_iff_ne.mpr hye]
    · rw [List.filter_cons_of_pos (by simp [he]), List.lookup_cons, List.lookup_cons, ih]

theorem keySet_delete {α : Type} (m : Map α) (x : Text) :
    keySet (delete m x) = (keySet m).erase x := by
  ext y
  rw [Finset.mem_erase, mem_keySet, mem_keySet, keysOf, keysOf, List.mem_dedup, List.mem_dedup,
    List.mem_map, List.mem_map, delete]
  constructor
  · rintro ⟨e, he, rfl⟩
    obtain ⟨hmem, hne⟩ := List.mem_filter.mp he
    exact ⟨of_decide_eq_true hne, e, hmem, rfl⟩
  · rintro ⟨hne, e, he, rfl⟩
    exact ⟨e, List.mem_filter.mpr ⟨he, decide_eq_true hne⟩, rfl⟩

theorem pending_eq_nil {α : Type} {m : Map α} (h : keySet m = ∅) : m = [] := by
  cases m with
  | nil => rfl
  | cons e m =>
    have hmem : e.1 ∈ keySet (e :: m) := by
      rw [mem_keySet, keysOf, List.mem_dedup]
      exact List.mem_cons_self
    rw [h] at hmem
    cases hmem

/-! ## A run of the step -/

theorem yields_range {β : Type} {Q : β → Prop} (keys : List Text) (f : List Text → Asking β) :
    Yields AnyOrder Q (perform keys >>= f) ↔
      ∀ answer : List Text, answer.Perm keys → Yields AnyOrder Q (f answer) := Iff.rfl

/-- What the step sees of the variables while these are pending. -/
def view (vars : Map Value) (pending : Finset Text) (x : Text) : Option Text :=
  if x ∈ pending then none else lookupVar vars x

/-- A state that the step may come to. -/
structure Reached (env : Env) (definitions : Map Text) (vars : Map Value) (s : State) : Prop where
  run : Run (valueOf env definitions vars) (keySet definitions)
    (view vars (keySet definitions)) (keySet s.pending) (view s.Variables (keySet s.pending))
  pending : ∀ x ∈ keySet s.pending, s.pending.lookup x = definitions.lookup x
  kept : ∀ x, (x ∈ keySet definitions → x ∈ keySet s.pending) →
    s.Variables.lookup x = vars.lookup x
  defined : ∀ x ∈ keySet definitions, x ∉ keySet s.pending →
    ∃ v, s.Variables.lookup x = some (.str v)
  replacer : ∃ order, order.Perm (keysOf s.Variables) ∧
    s.varReplacer = replacerArgs s.Variables order
  cache : CacheOk env (allCalls definitions) (view s.Variables (keySet s.pending)) s.cache

section

variable {env : Env} {definitions : Map Text} {vars : Map Value} {s : State}

theorem Reached.start {replacer : List (Text × Text)}
    (h : ∃ order, order.Perm (keysOf vars) ∧ replacer = replacerArgs vars order) :
    Reached env definitions vars ⟨vars, replacer, [], definitions⟩ where
  run := .start
  pending _ _ := rfl
  kept _ _ := rfl
  defined _ hx hout := absurd hx hout
  replacer := h
  cache _ _ _ h := nomatch h

/-- A function call finds what the abstract step finds. -/
theorem Reached.refs (h : Reached env definitions vars s) (hsettled : Settled definitions vars)
    {x expr : Text} (hx : definitions.lookup x = some expr) {node : Node}
    (hnode : formulaOf expr = .call node) :
    ∀ y ∈ refsOf node, lookupVar s.Variables y = view s.Variables (keySet s.pending) y := by
  intro y hy
  rw [view]
  split
  · rename_i hpending
    have hdef := h.run.subset hpending
    have hnone := hsettled.fresh _ (mem_of_lookup hx) node (mem_callNode hnode) y hy
      (mem_keySet.mp hdef)
    rw [lookupVar, h.kept y fun _ => hpending]
    exact hnone
  · rfl

/-- Away from what the step defines, the variables are those of the start. -/
theorem Reached.kept_outside (h : Reached env definitions vars s) {k : Text}
    (hk : k ∉ keysOf definitions) : s.Variables.lookup k = vars.lookup k :=
  h.kept k fun hin => absurd (mem_keySet.mp hin) hk

theorem mem_replacerArgs {vars : Map Value} {order : List Text} {a : Text × Text}
    (ha : a ∈ replacerArgs vars order) : ∃ k ∈ order,
      a = (placeholder k, ((vars.lookup k).map Value.toText).getD []) := by
  obtain ⟨k, hk, rfl⟩ := List.mem_map.mp ha
  exact ⟨k, hk, rfl⟩

/-- A template has the text it has with the variables of the start. -/
theorem Reached.template (h : Reached env definitions vars s) (hsettled : Settled definitions vars)
    {x expr : Text} (hx : definitions.lookup x = some expr) {text : Text}
    (htext : formulaOf expr = .template text) {order : List Text}
    (horder : order.Perm (keysOf s.Variables)) :
    Replace (replacerArgs s.Variables order) text = templateText vars text := by
  refine replaceAfter_congr (fun u hu => ?_) 0
  have hmem := mem_of_lookup hx
  have htails := (List.mem_tails _ _).mpr hu
  have htemplate := mem_templateOf htext
  have hunset := hsettled.unset _ hmem text htemplate u htails
  have hkeys : ∀ k, k ∉ keysOf definitions → (k ∈ order ↔ k ∈ keysOf vars) := by
    intro k hk
    rw [horder.mem_iff, mem_keysOf, mem_keysOf, h.kept_outside hk]
  have hout : ∀ k, (placeholder k).isPrefixOf u = true → k ∉ keysOf definitions :=
    fun k hpre hk => hunset k hk (List.isPrefixOf_iff_prefix.mp hpre)
  refine find?_eq_of_unique (fun a ha b hb hpa hpb => ?_) fun a hpa => ⟨fun ha => ?_, fun ha => ?_⟩
  · obtain ⟨k, hk, rfl⟩ := mem_replacerArgs ha
    obtain ⟨k', hk', rfl⟩ := mem_replacerArgs hb
    have hsame := hsettled.apart _ hmem text htemplate u htails k ((hkeys k (hout k hpa)).mp hk) k'
      ((hkeys k' (hout k' hpb)).mp hk') (List.isPrefixOf_iff_prefix.mp hpa)
      (List.isPrefixOf_iff_prefix.mp hpb)
    rw [hsame]
  · obtain ⟨k, hk, rfl⟩ := mem_replacerArgs ha
    refine List.mem_map.mpr ⟨k, (hkeys k (hout k hpa)).mp hk, ?_⟩
    rw [h.kept_outside (hout k hpa)]
  · obtain ⟨k, hk, rfl⟩ := mem_replacerArgs ha
    refine List.mem_map.mpr ⟨k, (hkeys k (hout k hpa)).mpr hk, ?_⟩
    rw [h.kept_outside (hout k hpa)]

theorem callsOf_subset_allCalls {x expr : Text} (hx : definitions.lookup x = some expr)
    {node : Node} (hnode : formulaOf expr = .call node) : callsOf node ⊆ allCalls definitions := by
  intro c hc
  exact List.mem_flatMap.mpr ⟨_, mem_of_lookup hx,
    List.mem_flatMap.mpr ⟨node, mem_callNode hnode, hc⟩⟩

/-- Evaluating a pending definition gives its value, or no value when it has none yet. -/
def Evaluated (env : Env) (definitions : Map Text) (vars : Map Value) (s : State) (x : Text) :
    Except ParseError (Except EvalError Text × Map Text) → Prop
  | .error _ => ∀ σ, valueOf env definitions vars x σ = none
  | .ok (r, cache) =>
    r.toOption = valueOf env definitions vars x (view s.Variables (keySet s.pending)) ∧
      CacheOk env (allCalls definitions) (view s.Variables (keySet s.pending)) cache

theorem Reached.evaluated (h : Reached env definitions vars s) (hsettled : Settled definitions vars)
    {x expr : Text} (hx : definitions.lookup x = some expr) :
    Evaluated env definitions vars s x (evaluate env expr s) := by
  have hvalue : ∀ σ, valueOf env definitions vars x σ =
      formulaValue env vars σ (formulaOf expr) := by
    intro σ
    rw [valueOf, hx]
    rfl
  rw [evaluate]
  cases hformula : formulaOf expr with
  | bad e => exact fun σ => (hvalue σ).trans (by rw [hformula]; rfl)
  | call node =>
    obtain ⟨hmeaning, hcache⟩ := evalExpr_meaning hsettled.cacheable node s.cache
      (h.refs hsettled hx hformula) (callsOf_subset_allCalls hx hformula) h.cache
    refine ⟨hmeaning.trans ?_, hcache⟩
    rw [hvalue, hformula]
    rfl
  | template text =>
    obtain ⟨order, horder, hreplacer⟩ := h.replacer
    refine ⟨?_, h.cache⟩
    rw [hvalue, hformula, hreplacer, h.template hsettled hx hformula horder]
    rfl

theorem Reached.withCache (h : Reached env definitions vars s) {cache : Map Text}
    (hcache : CacheOk env (allCalls definitions) (view s.Variables (keySet s.pending)) cache) :
    Reached env definitions vars { s with cache := cache } :=
  ⟨h.run, h.pending, h.kept, h.defined, h.replacer, hcache⟩

theorem CacheOk.mono {calls : List Node} {σ τ : Text → Option Text} {cache : Map Text}
    (h : CacheOk env calls σ cache) (hextends : Extends σ τ) : CacheOk env calls τ cache :=
  fun c hc v hv => meaning_mono env hextends c (h c hc v hv)

theorem view_define {vars : Map Value} {pending : Finset Text} {x result : Text} :
    view ((x, .str result) :: vars) (pending.erase x) =
      Function.update (view vars pending) x (some result) := by
  funext y
  rw [view]
  by_cases hy : y = x
  · subst hy
    rw [Function.update_self, if_neg (Finset.notMem_erase _ _), lookupVar, List.lookup_cons_self]
    rfl
  · have hiff : y ∈ pending.erase x ↔ y ∈ pending := by simp [hy]
    have hlookup : lookupVar ((x, .str result) :: vars) y = lookupVar vars y := by
      rw [lookupVar, lookupVar, List.lookup_cons, beq_eq_false_iff_ne.mpr hy]
    rw [Function.update_of_ne hy, view, hlookup]
    simp only [hiff]

/-- A definition that has a value is taken over. -/
theorem Reached.define (h : Reached env definitions vars s) {x result : Text}
    (hx : x ∈ keySet s.pending)
    (hvalue : valueOf env definitions vars x (view s.Variables (keySet s.pending)) = some result) :
    Yields AnyOrder (fun s' => Reached env definitions vars s' ∧
      keySet s'.pending = (keySet s.pending).erase x) (define x result s) := by
  intro order horder
  have hrun := Run.define h.run hx hvalue
  have hstart : ∀ y ∈ keySet definitions, view vars (keySet definitions) y = none :=
    fun y hy => if_pos hy
  have hextends := h.run.extends_define hstart hx result
  rw [← view_define] at hrun hextends
  have hkeys := keySet_delete s.pending x
  refine ⟨⟨?_, ?_, ?_, ?_, ⟨order, horder, rfl⟩, ?_⟩, hkeys⟩
  · change Run _ _ _ (keySet (delete s.pending x)) (view _ (keySet (delete s.pending x)))
    rw [hkeys]
    exact hrun
  · intro y hy
    change y ∈ keySet (delete s.pending x) at hy
    rw [hkeys] at hy
    obtain ⟨hne, hin⟩ := Finset.mem_erase.mp hy
    exact (lookup_delete hne).trans (h.pending y hin)
  · intro y hy
    change (y ∈ keySet definitions → y ∈ keySet (delete s.pending x)) at hy
    rw [hkeys] at hy
    have hne : y ≠ x := by
      rintro rfl
      exact Finset.notMem_erase _ _ (hy (h.run.subset hx))
    change List.lookup y ((x, .str result) :: s.Variables) = _
    rw [List.lookup_cons, beq_eq_false_iff_ne.mpr hne]
    exact h.kept y fun hdef => (Finset.mem_erase.mp (hy hdef)).2
  · intro y hy hout
    change y ∉ keySet (delete s.pending x) at hout
    rw [hkeys] at hout
    change ∃ v, List.lookup y ((x, .str result) :: s.Variables) = _
    by_cases hne : y = x
    · subst hne
      exact ⟨result, List.lookup_cons_self⟩
    · rw [List.lookup_cons, beq_eq_false_iff_ne.mpr hne]
      exact h.defined y hy fun hin => hout (Finset.mem_erase.mpr ⟨hne, hin⟩)
  · change CacheOk env _ (view _ (keySet (delete s.pending x))) s.cache
    rw [hkeys]
    exact h.cache.mono hextends

end

/-! ## All orders -/

/-- No order of the definitions evaluates all of them. -/
def NoComplete (env : Env) (definitions : Map Text) (vars : Map Value) : Prop :=
  ∀ τ, ¬ Run (valueOf env definitions vars) (keySet definitions)
    (view vars (keySet definitions)) ∅ τ

section

variable {env : Env} {definitions : Map Text} {vars : Map Value}

theorem view_start : ∀ x ∈ keySet definitions, view vars (keySet definitions) x = none :=
  fun _ hx => if_pos hx

theorem noComplete_of_bad {x : Text} (hx : x ∈ keySet definitions)
    (h : ∀ σ, valueOf env definitions vars x σ = none) : NoComplete env definitions vars := by
  intro τ hτ
  obtain ⟨v, -, hv⟩ := hτ.value_eq view_start (valueOf_mono env definitions vars) hx
    (Finset.notMem_empty x)
  rw [h τ] at hv
  cases hv

/-- A pass got on, or everything that was tried has no value yet. -/
def PassEnds (env : Env) (definitions : Map Text) (vars : Map Value) (rest : List Text)
    (p : Pass) : Except StepError Pass → Prop
  | .error _ => NoComplete env definitions vars
  | .ok p' => Reached env definitions vars p'.state ∧
    (rest ≠ [] ∨ p.last.isSome = true → p'.progress = true ∨ p'.last.isSome = true) ∧
      (p'.progress = true ∧
          (p.progress = true ∨ keySet p'.state.pending ⊂ keySet p.state.pending) ∧
          keySet p'.state.pending ⊆ keySet p.state.pending ∨
        p'.progress = p.progress ∧ keySet p'.state.pending = keySet p.state.pending ∧
          ∀ x ∈ rest, valueOf env definitions vars x
            (view p.state.Variables (keySet p.state.pending)) = none)

theorem pass_ends (hsettled : Settled definitions vars) (rest : List Text) (p : Pass)
    (hp : Reached env definitions vars p.state) (hnodup : rest.Nodup)
    (hpending : ∀ x ∈ rest, x ∈ keySet p.state.pending) :
    Yields AnyOrder (PassEnds env definitions vars rest p) (pass env rest p) := by
  induction rest generalizing p with
  | nil =>
    exact ⟨hp, fun h => Or.inr (h.resolve_left fun hne => hne rfl),
      Or.inr ⟨rfl, rfl, fun _ hx => absurd hx List.not_mem_nil⟩⟩
  | cons x rest ih =>
    have hx := hpending x List.mem_cons_self
    obtain ⟨expr, hexpr⟩ := mem_keysOf.mp (mem_keySet.mp hx)
    have hdef : definitions.lookup x = some expr := (hp.pending x hx).symm.trans hexpr
    have hevaluated := hp.evaluated hsettled hdef
    obtain ⟨hout, hrest⟩ := List.nodup_cons.mp hnodup
    rw [pass, hexpr]
    simp only [Option.getD_some]
    generalize evaluate env expr p.state = r at hevaluated ⊢
    rcases r with e | ⟨e | result, cache⟩
    · exact noComplete_of_bad (hp.run.subset hx) hevaluated
    · obtain ⟨hvalue, hcache⟩ := hevaluated
      have hcached := hp.withCache hcache
      refine (ih ⟨{ p.state with cache := cache }, p.progress, some (x, e)⟩
        hcached hrest fun y hy => hpending y (List.mem_cons_of_mem _ hy)).imp ?_
      rintro (e' | p') hends
      · exact hends
      · obtain ⟨hreached, hlast, hprogress⟩ := hends
        refine ⟨hreached, fun _ => hlast (Or.inr rfl), hprogress.imp_right ?_⟩
        rintro ⟨hsame, hkeys, hnone⟩
        exact ⟨hsame, hkeys, List.forall_mem_cons.mpr ⟨hvalue.symm, hnone⟩⟩
    · obtain ⟨hvalue, hcache⟩ := hevaluated
      refine yields_bind ((hp.withCache hcache).define hx hvalue.symm) ?_
      rintro s' ⟨hreached', hkeys'⟩
      have hsub : ∀ y ∈ rest, y ∈ keySet s'.pending := by
        intro y hy
        have hne : y ≠ x := fun heq => hout (heq ▸ hy)
        rw [hkeys']
        exact Finset.mem_erase.mpr ⟨hne, hpending y (List.mem_cons_of_mem _ hy)⟩
      have hless : keySet s'.pending ⊂ keySet p.state.pending := by
        rw [hkeys']
        exact Finset.erase_ssubset hx
      refine (ih ⟨s', true, p.last⟩ hreached' hrest hsub).imp ?_
      rintro (e' | p') hends
      · exact hends
      · obtain ⟨hreached, -, hprogress⟩ := hends
        have hkeys : p'.progress = true ∧ keySet p'.state.pending ⊆ keySet s'.pending := by
          rcases hprogress with ⟨h, -, hle⟩ | ⟨h, heq, -⟩
          · exact ⟨h, hle⟩
          · exact ⟨h, heq.subset⟩
        exact ⟨hreached, fun _ => Or.inl hkeys.1, Or.inl ⟨hkeys.1,
          Or.inr (lt_of_le_of_lt hkeys.2 hless), hkeys.2.trans hless.subset⟩⟩

/-- How the step may end. -/
def OutcomeOk (env : Env) (definitions : Map Text) (vars : Map Value) : Outcome → Prop
  | .done s => Reached env definitions vars s ∧ s.pending = []
  | .failed _ => NoComplete env definitions vars
  | .unfinished => False

theorem passes_ends (hsettled : Settled definitions vars) (n : ℕ) (s : State)
    (hs : Reached env definitions vars s) (hn : (keySet s.pending).card ≤ n) :
    Yields AnyOrder (OutcomeOk env definitions vars) (passes env n s) := by
  induction n generalizing s with
  | zero =>
    have hempty := pending_eq_nil (Finset.card_eq_zero.mp (Nat.le_zero.mp hn))
    rw [passes, if_pos hempty]
    exact ⟨hs, hempty⟩
  | succ n ih =>
    rw [passes]
    split
    · rename_i hempty
      exact ⟨hs, hempty⟩
    · rename_i hpending
      refine (yields_range _ _).mpr fun order horder => ?_
      have hnodup : order.Nodup := horder.nodup_iff.mpr (List.nodup_dedup _)
      have hmem : ∀ x, x ∈ order ↔ x ∈ keySet s.pending := fun x =>
        horder.mem_iff.trans mem_keySet.symm
      have hnonempty : (keySet s.pending).Nonempty :=
        Finset.nonempty_iff_ne_empty.mpr fun h => hpending (pending_eq_nil h)
      have hpass := pass_ends hsettled order ⟨s, false, none⟩ hs hnodup fun x hx => (hmem x).mp hx
      refine yields_bind hpass ?_
      rintro (e | p) hends
      · exact hends
      · obtain ⟨hreached, hlast, hprogress⟩ := hends
        obtain ⟨x₀, hx₀⟩ := hnonempty
        have hne : order ≠ [] := List.ne_nil_of_mem ((hmem x₀).mpr hx₀)
        cases hp : p.progress with
        | true =>
          have hless : keySet p.state.pending ⊂ keySet s.pending := by
            rcases hprogress with ⟨-, hfalse | hless, -⟩ | ⟨hfalse, -⟩
            · cases hfalse
            · exact hless
            · cases hp.symm.trans hfalse
          have hcard := Finset.card_lt_card hless
          dsimp only
          rw [if_pos hp]
          exact ih p.state hreached (by omega)
        | false =>
          have hnone : ∀ x ∈ order, valueOf env definitions vars x
              (view s.Variables (keySet s.pending)) = none := by
            rcases hprogress with ⟨htrue, -⟩ | ⟨-, -, hnone⟩
            · cases hp.symm.trans htrue
            · exact hnone
          have hstuck : NoComplete env definitions vars := by
            intro τ hτ
            obtain ⟨x, hx, hready⟩ := hs.run.exists_ready view_start
              (valueOf_mono env definitions vars) hτ ⟨x₀, hx₀⟩
            rw [hnone x ((hmem x).mpr hx)] at hready
            cases hready
          have hsome := (hlast (Or.inl hne)).resolve_left (by rw [hp]; exact Bool.false_ne_true)
          obtain ⟨⟨varName, e⟩, he⟩ := Option.isSome_iff_exists.mp hsome
          dsimp only
          rw [if_neg (by rw [hp]; exact Bool.false_ne_true), he]
          exact hstuck

end

/-! ## The result -/

/-- The final values are those of the expressions. -/
def Evaluates (env : Env) (final : Map Value) (x expr : Text) : Prop :=
  match formulaOf expr with
  | .call node => meaning env (lookupVar final) node = lookupVar final x
  | .template text => ∀ order : List Text, order.Perm (keysOf final) →
    lookupVar final x = some (Replace (replacerArgs final order) text)
  | .bad _ => False

/-- With at most as many passes as there are definitions, the step fails in every order, or ends in
every order with the same variables, each definition equal to its expression with these values. -/
def OneResult (env : Env) (definitions : Map Text) (vars : Map Value) : Prop :=
  Yields AnyOrder (fun o => ∃ e, o = .failed e) (setVariables env definitions vars) ∨
  ∃ final : Map Value,
    (∀ x expr, definitions.lookup x = some expr → Evaluates env final x expr) ∧
    Yields AnyOrder (fun o => ∃ s, o = .done s ∧ ∀ x, s.Variables.lookup x = final.lookup x)
      (setVariables env definitions vars)

section

variable {env : Env} {definitions : Map Text} {vars : Map Value}

theorem Reached.final_lookup {s s' : State} (h : Reached env definitions vars s)
    (hs : s.pending = []) (h' : Reached env definitions vars s') (hs' : s'.pending = [])
    (x : Text) : s.Variables.lookup x = s'.Variables.lookup x := by
  have hkeys : keySet s.pending = ∅ := by rw [hs]; rfl
  have hkeys' : keySet s'.pending = ∅ := by rw [hs']; rfl
  have hrun := h.run
  have hrun' := h'.run
  rw [hkeys] at hrun
  rw [hkeys'] at hrun'
  have hsame := hrun.complete_unique view_start (valueOf_mono env definitions vars) hrun'
  have hview := congrFun hsame x
  by_cases hx : x ∈ keySet definitions
  · obtain ⟨v, hv⟩ := h.defined x hx (hkeys ▸ Finset.notMem_empty x)
    obtain ⟨v', hv'⟩ := h'.defined x hx (hkeys' ▸ Finset.notMem_empty x)
    rw [view, view, if_neg (Finset.notMem_empty x), if_neg (Finset.notMem_empty x), lookupVar,
      lookupVar, hv, hv'] at hview
    rw [hv, hv', Option.some.inj hview]
  · exact (h.kept x fun hin => absurd hin hx).trans (h'.kept x fun hin => absurd hin hx).symm

theorem Reached.evaluates {s : State} (h : Reached env definitions vars s)
    (hsettled : Settled definitions vars) (hs : s.pending = []) {x expr : Text}
    (hx : definitions.lookup x = some expr) : Evaluates env s.Variables x expr := by
  have hkeys : keySet s.pending = ∅ := by rw [hs]; rfl
  have hrun := h.run
  rw [hkeys] at hrun
  obtain ⟨v, hv, hvalue⟩ := hrun.value_eq view_start (valueOf_mono env definitions vars)
    (mem_keySet.mpr (mem_keysOf.mpr ⟨expr, hx⟩)) (Finset.notMem_empty x)
  have hview : view s.Variables ∅ = lookupVar s.Variables :=
    funext fun y => if_neg (Finset.notMem_empty y)
  rw [hview] at hv hvalue
  rw [valueOf, hx] at hvalue
  change formulaValue env vars _ (formulaOf expr) = some v at hvalue
  rw [Evaluates]
  cases hformula : formulaOf expr with
  | call node =>
    rw [hformula] at hvalue
    exact hvalue.trans hv.symm
  | template text =>
    rw [hformula] at hvalue
    intro order horder
    rw [h.template hsettled hx hformula horder]
    exact hv.trans hvalue.symm
  | bad e =>
    rw [hformula] at hvalue
    cases hvalue

theorem setVariables_ends (hsettled : Settled definitions vars) :
    Yields AnyOrder (OutcomeOk env definitions vars) (setVariables env definitions vars) := by
  refine (yields_range _ _).mpr fun order horder => ?_
  exact passes_ends hsettled _ _ (Reached.start ⟨order, horder, rfl⟩) (List.toFinset_card_le _)

/-- A settled step has one result, whatever variables it starts from. -/
theorem one_result_of_settled (hsettled : Settled definitions vars) :
    OneResult env definitions vars := by
  have hends := @setVariables_ends env definitions vars hsettled
  by_cases hcomplete : NoComplete env definitions vars
  · left
    refine hends.imp fun o ho => ?_
    match o, ho with
    | .failed e, _ => exact ⟨e, rfl⟩
    | .done s, ⟨hs, hpending⟩ =>
      have hrun := hs.run
      rw [hpending] at hrun
      exact absurd hrun (hcomplete _)
  · right
    have hdone : Yields AnyOrder (fun o => ∃ s, o = .done s ∧ Reached env definitions vars s ∧
        s.pending = []) (setVariables env definitions vars) := by
      refine hends.imp fun o ho => ?_
      match o, ho with
      | .failed e, ho => exact absurd ho hcomplete
      | .done s, ho => exact ⟨s, rfl, ho⟩
    obtain ⟨_, s₀, rfl, hs₀, hpending₀⟩ := hdone.exists_result fun keys => ⟨keys, .refl keys⟩
    refine ⟨s₀.Variables, fun x expr hx => hs₀.evaluates hsettled hpending₀ hx, hdone.imp ?_⟩
    rintro o ⟨s, rfl, hs, hpending⟩
    exact ⟨s, rfl, hs.final_lookup hpending hs₀ hpending₀⟩

end

/-! ## A settled step and an unsettled one -/

instance (calls : List Node) : Decidable (Cacheable calls) :=
  decidable_of_iff ((∀ c ∈ calls, ∀ c' ∈ calls, cacheKey c = cacheKey c' → c = c') ∧
    ∀ c ∈ calls, nondeterministic c.name = false)
    ⟨fun h => ⟨h.1, h.2⟩, fun h => ⟨h.keys, h.deterministic⟩⟩

local instance instLawfulBEqName : LawfulBEq Text := inferInstance

instance (definitions : Map Text) (vars : Map Value) : Decidable (Settled definitions vars) :=
  decidable_of_iff (Cacheable (allCalls definitions) ∧
    (∀ e ∈ definitions, ∀ node ∈ callNode e.2, ∀ y ∈ refsOf node, y ∈ keysOf definitions →
      lookupVar vars y = none) ∧
    (∀ e ∈ definitions, ∀ text ∈ templateOf e.2, ∀ s ∈ text.tails, ∀ y ∈ keysOf definitions,
      ¬ placeholder y <+: s) ∧
    (∀ e ∈ definitions, ∀ text ∈ templateOf e.2, ∀ s ∈ text.tails, ∀ y ∈ keysOf vars,
      ∀ y' ∈ keysOf vars, placeholder y <+: s → placeholder y' <+: s → y = y'))
    ⟨fun h => ⟨h.1, h.2.1, h.2.2.1, h.2.2.2⟩, fun h => ⟨h.cacheable, h.fresh, h.unset, h.apart⟩⟩

/-- `upper`, of letters without accents, and `concat`. -/
def someBuiltins : Env where
  callBuiltin name args :=
    if name = "upper".toList ∧ args.length = 1 then .ok (args.flatten.map Char.toUpper)
    else if name = "concat".toList then .ok args.flatten
    else .error "unknown function".toList

/-- Set again on re-authentication: the old signature is still there. -/
theorem signature_one_result : OneResult someBuiltins
    [("signature".toList, "upper(nonce)".toList), ("nonce".toList, "concat(\"n-\", seed)".toList),
      ("header".toList, "Bearer {{token}}".toList)]
    [("seed".toList, .str "seven".toList), ("token".toList, .str "t".toList),
      ("signature".toList, .str "OLD".toList)] :=
  one_result_of_settled (by decide +kernel)

/-- A variable that the step ended with. -/
def Outcome.variable (o : Outcome) (name : String) : Option Value :=
  match o with
  | .done s => s.Variables.lookup name.toList
  | _ => none

/-- A template of a variable that the same step defines: it is substituted, or is not, depending on
which of the two comes first. -/
theorem template_two_results : ¬ OneResult someBuiltins
    [("a".toList, "upper(\"x\")".toList), ("b".toList, "{{a}}".toList)] [] := by
  rintro (h | ⟨final, -, h⟩)
  · obtain ⟨e, he⟩ := h.answered List.Perm.refl
    have hb : _ = none := congrArg (fun o => o.variable "b") he
    revert hb
    decide +kernel
  · obtain ⟨s, hs, hfinal⟩ := h.answered List.Perm.refl
    obtain ⟨s', hs', hfinal'⟩ := h.answered List.reverse_perm
    have hb := congrArg (fun o => o.variable "b") hs
    have hb' := congrArg (fun o => o.variable "b") hs'
    have hsame := hb.trans (((hfinal _).trans (hfinal' _).symm).trans hb'.symm)
    revert hsame
    decide +kernel

end Swazz.SetVariables
