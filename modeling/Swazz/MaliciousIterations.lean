import Mathlib.Data.List.Flatten
import Swazz.FuzzIterations
import Swazz.ListIndex

/-! Whether a malicious run has enough iterations for its payloads: for the strings of the body, and
for the security headers, which the iterations after those of the body take in turn. -/
namespace Swazz.Payloads

open AtomicCalls SequentialPicks

/-- The payloads of a malicious run. -/
structure Catalogue where
  lists : Malicious
  headers : List SecurityHeaderDef
  /-- the headers of a category are the keys of a map -/
  distinct : ∀ d ∈ headers, (d.headers.map Prod.fst).Nodup

/-- With the source's own table of security headers. -/
def sourceCatalogue (m : Malicious) : Catalogue := ⟨m, securityHeaderPayloads, by decide⟩

/-- `SecurityHeaderIterations`, and the last part of `MinIterationsNeeded`. -/
def longestHeader (is : String → Bool) (defs : List SecurityHeaderDef) : ℕ :=
  (defs.filter fun d => is d.category).foldl
    (fun n d => d.headers.foldl (fun n h => if h.2.length > n then h.2.length else n) n) 0

/-- The string categories that `MinIterationsNeeded` counts. -/
def Malicious.countedCategories (m : Malicious) : List (String × List Value) :=
  [(catMaliciousEncoding, m.encoding), (catMaliciousSQLi, m.sqli), (catMaliciousXSS, m.xss),
   (catMaliciousPathTraversal, m.pathTraversal), (catOOBInteraction, m.oob),
   (catMaliciousCmdi, m.cmdi), (catMaliciousSSTI, m.ssti), (catMaliciousXXE, m.xxe)]

/-- The string categories that it leaves out. -/
def Malicious.uncountedCategories (m : Malicious) : List (String × List Value) :=
  [(catMaliciousPrototypePollution, m.prototypePollution), (catMaliciousNoSQLi, m.nosqli),
   (catMaliciousSSRF, m.ssrf), (catMaliciousMassAssignment, m.massAssignment),
   (catMaliciousGraphQL, m.graphql)]

/-- Whether a category is enabled in a malicious run. -/
def Settings.enabled (s : Settings) : String → Bool := isEnabled (s.activeCategories .malicious)

def Catalogue.minIterationsNeeded (c : Catalogue) (s : Settings) : ℕ :=
  longestOf s.enabled (countOf s.enabled c.lists.countedCategories) c.lists.otherCategories +
    longestHeader s.enabled c.headers

def Catalogue.calcEffectiveIterations (c : Catalogue) (s : Settings) (ep : Endpoint) : ℤ :=
  let minNeeded : ℤ := c.minIterationsNeeded s
  let n := max minNeeded s.iterationsPerProfile
  if hasFields ep then n else max minNeeded 1

theorem sourceCatalogue_calcEffectiveIterations (m : Malicious) (s : Settings) (ep : Endpoint) :
    (sourceCatalogue m).calcEffectiveIterations s ep =
      Swazz.Payloads.calcEffectiveIterations m .malicious s ep := rfl

/-! ## What a run is long enough for -/

/-- The answers range over each map with all its keys. -/
def Ordered (answer : ℕ → (q : Question) → Reply q) : Prop :=
  ∀ i keys, (answer i (.order keys)).Perm keys

/-- A generator that `New` makes for the malicious profile. -/
def Made (c : Catalogue) (s : Settings) (g : Generator) : Prop :=
  ∃ dictionaries answer,
    g = (run (newGenerator c.lists .gen dictionaries .malicious s) fresh answer).result

/-- The map has a header last set to the value, as it was sent. -/
def SetTo (answer : ℕ → (q : Question) → Reply q) (headers : List (String × String))
    (name value : String) : Prop :=
  ∃ i, headers.reverse.lookup name = some (answer i (.substituted value))

/-- The iterations of an endpoint that send security headers. -/
def securityIterations (g : Generator) (n : ℕ) : List ℕ :=
  (List.range n).filter fun i => isSecurityHeaderIteration g .malicious i

/-- The headers of these iterations, one call after the other. -/
def headerCalls (c : Catalogue) (g : Generator) (n : ℕ)
    (answers : ℕ → ℕ → (q : Question) → Reply q) :
    List (ℕ × ℕ × Outcome String Counter Value (List (String × String))) :=
  walk (fun _ => g.securityHeaders c.headers) answers 0 (securityIterations g n) 0 fresh

structure LongEnough (c : Catalogue) (s : Settings) (ep : Endpoint) : Prop where
  iterations : ∀ g, Made c s g →
    (g.bodyIterations + longestHeader g.isCategoryEnabled c.headers : ℕ) ≤
      c.calcEffectiveIterations s ep
  headers : ∀ g, Made c s g → ∀ answers, (∀ i, Ordered (answers i)) →
    ∀ d ∈ c.headers, g.isCategoryEnabled d.category → ∀ header ∈ d.headers, ∀ value ∈ header.2,
      ∃ r ∈ headerCalls c g (c.calcEffectiveIterations s ep).toNat answers,
        SetTo (answers r.1) r.2.2.result header.1 value
  strings : ∀ g, Made c s g → g.cachedMaliciousStrings.length ≤ g.bodyIterations

/-- The list of a category for a header, unless it is empty. -/
def listOf (headers : List (String × List String)) (name : String) : Option (List String) :=
  (headers.lookup name).filter fun values => !values.isEmpty

/-- The lists of the enabled categories for one header. -/
def listsOf (is : String → Bool) (defs : List SecurityHeaderDef) (name : String) :
    List (List String) :=
  (defs.filter fun d => is d.category).filterMap fun d => listOf d.headers name

/-- The enabled categories leave enough iterations, in one of three ways. -/
def EnoughIterations (c : Catalogue) (s : Settings) : Prop :=
  countOf s.enabled c.lists.uncountedCategories = 0 ∨
    countOf s.enabled c.lists.stringCategories ≤ longestOf s.enabled 0 c.lists.otherCategories ∨
    (max (countOf s.enabled c.lists.stringCategories)
      (longestOf s.enabled 0 c.lists.otherCategories) + longestHeader s.enabled c.headers : ℕ) ≤
        s.iterationsPerProfile

/-- Of the lists for one header only the last one's values are sent, and of these the ones that
the common counter stops at. -/
def HeadersTurn (is : String → Bool) (defs : List SecurityHeaderDef) : Prop :=
  ∀ name, ∀ last ∈ (listsOf is defs name).getLast?, ∀ values ∈ listsOf is defs name,
    ∀ value ∈ values, ∃ p, last[p]? = some value ∧
      Nat.gcd (listsOf is defs name).length last.length ∣ p + 1

/-! ## How many iterations there are -/

variable {c : Catalogue} {s : Settings} {ep : Endpoint} {g : Generator}

theorem countOf_append (is : String → Bool) (ls ls' : List (String × List Value)) :
    countOf is (ls ++ ls') = countOf is ls + countOf is ls' := by
  rw [countOf, List.filter_append, List.map_append, List.sum_append]
  rfl

theorem countOf_stringCategories (is : String → Bool) (m : Malicious) :
    countOf is m.stringCategories = countOf is m.countedCategories +
      countOf is m.uncountedCategories := countOf_append is m.countedCategories m.uncountedCategories

theorem longestOf_eq_max (is : String → Bool) (least : ℕ) (ls : List (String × List Value)) :
    longestOf is least ls = max least (longestOf is 0 ls) := by
  induction ls generalizing least with
  | nil => exact (Nat.max_eq_left (Nat.zero_le least)).symm
  | cons l ls ih =>
    have hcons : ∀ n, longestOf is n (l :: ls) =
        longestOf is (if is l.1 ∧ l.2.length > n then l.2.length else n) ls := fun n => rfl
    rw [hcons, hcons, ih, ih (if is l.1 ∧ l.2.length > 0 then l.2.length else 0)]
    by_cases hl : is l.1
    · simp only [hl, true_and]
      split <;> split <;> omega
    · simp [hl]

/-- What `New` keeps of the settings. -/
theorem made_spec (h : Made c s g) :
    g.profile = .malicious ∧ g.isCategoryEnabled = s.enabled ∧
      g.bodyIterations = max (countOf s.enabled c.lists.stringCategories)
        (longestOf s.enabled 0 c.lists.otherCategories) ∧
      g.cachedMaliciousStrings.length = countOf s.enabled c.lists.stringCategories := by
  obtain ⟨dictionaries, answer, rfl⟩ := h
  refine ⟨rfl, rfl, ?_, ?_⟩
  · exact longestOf_eq_max s.enabled _ _
  · exact List.length_flatMap

/-- The world in which a value is sent as it is. -/
def plainAnswer (_ : ℕ) : (q : Question) → Reply q
  | .chance _ => false
  | .intN _ => 0
  | .order keys => keys
  | .fallbackRandom _ => .null
  | .floatRange _ _ => ""
  | .randomDate => ""
  | .uuid => ""
  | .substituted value => value
  | .semanticValue _ _ => ""
  | .seenHash _ => false

theorem exists_made (c : Catalogue) (s : Settings) : ∃ g, Made c s g := ⟨_, [], plainAnswer, rfl⟩

theorem iterations_iff (hep : hasFields ep) (hg : Made c s g) :
    (g.bodyIterations + longestHeader g.isCategoryEnabled c.headers : ℕ) ≤
        c.calcEffectiveIterations s ep ↔ EnoughIterations c s := by
  obtain ⟨-, henabled, hbody, -⟩ := made_spec hg
  have hsum := countOf_stringCategories s.enabled c.lists
  have hmin := longestOf_eq_max s.enabled (countOf s.enabled c.lists.countedCategories)
    c.lists.otherCategories
  rw [henabled, hbody, Catalogue.calcEffectiveIterations, if_pos hep, EnoughIterations,
    Catalogue.minIterationsNeeded, hmin]
  omega

/-- The iterations left for the headers. -/
theorem length_securityIterations (g : Generator) (n : ℕ) :
    (securityIterations g n).length = n - g.bodyIterations := by
  have hpred : (fun i => isSecurityHeaderIteration g .malicious i) =
      fun i => decide (i ≥ g.bodyIterations) := by
    funext i
    simp [isSecurityHeaderIteration]
  rw [securityIterations, hpred]
  induction n with
  | zero => simp
  | succ n ih =>
    rw [List.range_succ, List.filter_append, List.length_append, ih]
    by_cases hn : g.bodyIterations ≤ n
    · have hone : ([n].filter fun i => decide (i ≥ g.bodyIterations)) = [n] := by simp [hn]
      rw [hone, List.length_singleton]
      omega
    · have hnone : ([n].filter fun i => decide (i ≥ g.bodyIterations)) = [] := by simp [hn]
      rw [hnone, List.length_nil]
      omega

/-! ## The headers of one call -/

section OneCall

variable {is : String → Bool} {defs : List SecurityHeaderDef} {name : String}
  {answer : ℕ → (q : Question) → Reply q} {u : Counter → ℕ}

/-- The counter of a header. -/
def headerCounter (g : Generator) (name : String) : Counter := ⟨g.owner, .mSecHeaderIdxs name⟩

/-- After the lists for a header: its counter has moved by one for each of them, and the last
one's value is set. -/
structure Turned (name : String) (lists : List (List String))
    (answer : ℕ → (q : Question) → Reply q) (n n' : ℕ) (sent : List (String × String)) : Prop where
  counter : n' = n + lists.length
  absent : lists = [] → sent.reverse.lookup name = none
  last : ∀ l ∈ lists.getLast?, ∃ value, turn l (n + (lists.length - 1)) = some value ∧
    SetTo answer sent name value

theorem Turned.none {n : ℕ} : Turned name [] answer n n [] :=
  ⟨rfl, fun _ => rfl, fun _ hl => nomatch hl⟩

theorem Turned.other {n : ℕ} {k sent : String} (h : k ≠ name) :
    Turned name [] answer n n [(k, sent)] :=
  ⟨rfl, fun _ => by simp [List.lookup_cons, beq_eq_false_iff_ne.mpr h.symm], fun _ hl => nomatch hl⟩

theorem Turned.one {n i : ℕ} {values : List String} {value : String}
    (h : turn values n = some value) :
    Turned name [values] answer n (n + 1) [(name, answer i (.substituted value))] := by
  refine ⟨rfl, fun hnil => (List.cons_ne_nil _ _ hnil).elim, fun l hl => ?_⟩
  cases hl
  exact ⟨value, h, i, by simp⟩

theorem Turned.of_shift {lists : List (List String)} {n n' k : ℕ} {sent : List (String × String)}
    (h : Turned name lists (fun i => answer (i + k)) n n' sent) :
    Turned name lists answer n n' sent := by
  refine ⟨h.counter, h.absent, fun l hl => ?_⟩
  obtain ⟨value, hturn, i, hset⟩ := h.last l hl
  exact ⟨value, hturn, i + k, hset⟩

theorem Turned.append {lists lists' : List (List String)} {n n₁ n₂ k : ℕ}
    {sent sent' : List (String × String)} (h : Turned name lists answer n n₁ sent)
    (h' : Turned name lists' (fun i => answer (i + k)) n₁ n₂ sent') :
    Turned name (lists ++ lists') answer n n₂ (sent ++ sent') := by
  have hlookup : (sent ++ sent').reverse.lookup name =
      (sent'.reverse.lookup name).or (sent.reverse.lookup name) := by
    rw [List.reverse_append, List.lookup_append]
  refine ⟨?_, fun hnil => ?_, fun l hl => ?_⟩
  · rw [h'.counter, h.counter, List.length_append]
    omega
  · obtain ⟨hlists, hlists'⟩ := List.append_eq_nil_iff.mp hnil
    rw [hlookup, h.absent hlists, h'.absent hlists']
    rfl
  · cases lists' with
    | nil =>
      rw [List.append_nil] at hl ⊢
      obtain ⟨value, hturn, i, hset⟩ := h.last l hl
      refine ⟨value, hturn, i, ?_⟩
      rw [hlookup, h'.absent rfl]
      exact hset
    | cons first rest =>
      have hl' : l ∈ (first :: rest).getLast? := by
        rw [List.getLast?_append_of_ne_nil _ (List.cons_ne_nil first rest)] at hl
        exact hl
      obtain ⟨value, hturn, i, hset⟩ := h'.last l hl'
      refine ⟨value, ?_, i + k, ?_⟩
      · have hpos : n₁ + ((first :: rest).length - 1) =
            n + ((lists ++ first :: rest).length - 1) := by
          rw [h.counter, List.length_append, List.length_cons]
          omega
        rw [← hpos]
        exact hturn
      · rw [hlookup, hset]
        rfl

/-- A header is taken from its list and sent. -/
theorem run_securityHeadersOf_cons {headers : List (String × List String)} {k : String}
    (names : List String) (answer : ℕ → (q : Question) → Reply q) {values : List String}
    {value : String} (hvalues : headers.lookup k = some values)
    (hturn : turn values (u (headerCounter g k)) = some value) :
    (run (g.securityHeadersOf headers (k :: names)) u answer).result =
        (k, answer 0 (.substituted value)) :: (run (g.securityHeadersOf headers names)
          (Function.update u (headerCounter g k) (u (headerCounter g k) + 1))
          fun i => answer (i + 1)).result ∧
      (run (g.securityHeadersOf headers (k :: names)) u answer).counters =
        (run (g.securityHeadersOf headers names)
          (Function.update u (headerCounter g k) (u (headerCounter g k) + 1))
          fun i => answer (i + 1)).counters := by
  have hne : ¬values.length = 0 := by
    intro hzero
    rw [List.length_eq_zero_iff.mp hzero] at hturn
    simp [turn] at hturn
  have hpick : turn (values.map Value.str) (u (headerCounter g k)) = some (.str value) := by
    rw [turn, List.getElem?_map, List.length_map]
    exact congrArg (Option.map Value.str) hturn
  have hbump : bump u ⟨k, headerCounter g k, values.map Value.str⟩ =
      Function.update u (headerCounter g k) (u (headerCounter g k) + 1) := by
    rw [bump, if_neg (by rwa [List.length_map])]
  obtain ⟨n, hresult, hcounters⟩ := run_bind (g.securityHeadersOf headers names)
    (fun tail => pure ((k, answer 0 (.substituted value)) :: tail))
    (Function.update u (headerCounter g k) (u (headerCounter g k) + 1)) fun i => answer (i + 1)
  rw [Generator.securityHeadersOf]
  simp only [hvalues, Option.getD_some, if_neg hne, Generator.seqPick]
  simp only [Bind.bind, AtomicCalls.Calls.bind, run, hvalues, Option.getD_some]
  simp only [headerCounter] at hpick hbump hresult hcounters ⊢
  rw [hpick, hbump]
  exact ⟨hresult, hcounters⟩

/-- A header without values is passed over. -/
theorem securityHeadersOf_cons_nil {headers : List (String × List String)} {k : String}
    {names : List String} (hvalues : (headers.lookup k).getD [] = []) :
    g.securityHeadersOf headers (k :: names) = g.securityHeadersOf headers names := by
  rw [Generator.securityHeadersOf]
  simp only [hvalues, List.length_nil, if_true]

theorem turned_securityHeadersOf {headers : List (String × List String)} {names : List String}
    (h : names.Nodup) (u : Counter → ℕ) (answer : ℕ → (q : Question) → Reply q) :
    Turned name (if name ∈ names then (listOf headers name).toList else []) answer
      (u (headerCounter g name))
      ((run (g.securityHeadersOf headers names) u answer).counters (headerCounter g name))
      (run (g.securityHeadersOf headers names) u answer).result := by
  induction names generalizing u answer with
  | nil => exact Turned.none
  | cons k names ih =>
    obtain ⟨hk, hnodup⟩ := List.nodup_cons.mp h
    cases hvalues : (headers.lookup k).getD [] with
    | nil =>
      rw [securityHeadersOf_cons_nil hvalues]
      have hsame : (if name ∈ k :: names then (listOf headers name).toList else []) =
          if name ∈ names then (listOf headers name).toList else [] := by
        by_cases hname : name = k
        · subst hname
          have hnone : listOf headers name = none := by
            rw [listOf]
            cases hlookup : headers.lookup name with
            | none => rfl
            | some values =>
              rw [hlookup, Option.getD_some] at hvalues
              rw [hvalues]
              rfl
          rw [hnone]
          simp
        · simp [hname]
      rw [hsame]
      exact ih hnodup u answer
    | cons first others =>
      have hlookup : headers.lookup k = some (first :: others) := by
        cases hlookup : headers.lookup k with
        | none =>
          rw [hlookup] at hvalues
          cases hvalues
        | some values =>
          rw [hlookup] at hvalues
          exact congrArg some hvalues
      have hlt : u (headerCounter g k) % (first :: others).length < (first :: others).length :=
        Nat.mod_lt _ (Nat.succ_pos _)
      obtain ⟨value, hturn⟩ : ∃ value, turn (first :: others) (u (headerCounter g k)) = some value :=
        ⟨_, List.getElem?_eq_getElem hlt⟩
      obtain ⟨hresult, hcounters⟩ := run_securityHeadersOf_cons names answer hlookup hturn
      have hrest := ih hnodup
        (Function.update u (headerCounter g k) (u (headerCounter g k) + 1)) fun i => answer (i + 1)
      rw [hresult, hcounters]
      by_cases hname : name = k
      · subst hname
        rw [if_neg hk, Function.update_self] at hrest
        have hlist : listOf headers name = some (first :: others) := by
          rw [listOf, hlookup]
          rfl
        rw [if_pos List.mem_cons_self, hlist]
        exact (Turned.one hturn).append hrest
      · have hcell : headerCounter g name ≠ headerCounter g k := by
          intro heq
          rw [headerCounter, headerCounter, Counter.mk.injEq, CounterField.mSecHeaderIdxs.injEq]
            at heq
          exact hname heq.2
        rw [Function.update_of_ne hcell] at hrest
        have hmem : (if name ∈ k :: names then (listOf headers name).toList else []) =
            if name ∈ names then (listOf headers name).toList else [] := by
          simp only [List.mem_cons, or_iff_right hname]
        rw [hmem]
        exact (Turned.other (Ne.symm hname)).append hrest

theorem Ordered.shift (h : Ordered answer) (k : ℕ) : Ordered fun i => answer (i + k) :=
  fun i => h (i + k)

/-- A call takes one value from each list for the header. -/
theorem turned_securityHeaders (hdistinct : ∀ d ∈ defs, (d.headers.map Prod.fst).Nodup)
    (u : Counter → ℕ) (h : Ordered answer) :
    Turned name (listsOf g.isCategoryEnabled defs name) answer (u (headerCounter g name))
      ((run (g.securityHeaders defs) u answer).counters (headerCounter g name))
      (run (g.securityHeaders defs) u answer).result := by
  induction defs generalizing u answer with
  | nil => exact Turned.none
  | cons d ds ih =>
    have hds := fun d' hd' => hdistinct d' (List.mem_cons_of_mem d hd')
    rw [Generator.securityHeaders]
    by_cases hd : g.isCategoryEnabled d.category
    · rw [if_pos hd]
      -- the names in the order in which the map is ranged over
      let names : List String := answer 0 (.order (d.headers.map Prod.fst))
      have hperm : names.Perm (d.headers.map Prod.fst) := h 0 _
      have hnames := hperm.nodup_iff.mpr (hdistinct d List.mem_cons_self)
      have hfirst := @turned_securityHeadersOf g name d.headers names hnames u
        fun i => answer (i + 1)
      have hlist : (if name ∈ names then (listOf d.headers name).toList else []) =
          (listOf d.headers name).toList := by
        by_cases hname : name ∈ names
        · rw [if_pos hname]
        · have hnone : d.headers.lookup name = none :=
            List.lookup_eq_none_iff.mpr fun p hp => bne_iff_ne.mpr fun heq =>
              hname (hperm.mem_iff.mpr (heq ▸ List.mem_map_of_mem hp))
          rw [if_neg hname, listOf, hnone]
          rfl
      have hlists : listsOf g.isCategoryEnabled (d :: ds) name =
          (listOf d.headers name).toList ++ listsOf g.isCategoryEnabled ds name := by
        rw [listsOf, List.filter_cons, if_pos hd, List.filterMap_cons]
        cases listOf d.headers name <;> rfl
      rw [hlist] at hfirst
      obtain ⟨k, hresult, hcounters⟩ := run_bind_append (g.securityHeadersOf d.headers names)
        (g.securityHeaders ds) u fun i => answer (i + 1)
      have hrest := ih hds
        (run (g.securityHeadersOf d.headers names) u fun i => answer (i + 1)).counters
        ((h.shift 1).shift k)
      have hrun : run (do
          let names ← ask (.order (d.headers.map Prod.fst))
          let headers ← g.securityHeadersOf d.headers names
          return headers ++ (← g.securityHeaders ds)) u answer =
        run (g.securityHeadersOf d.headers names >>= fun headers =>
          g.securityHeaders ds >>= fun rest => pure (headers ++ rest)) u
          fun i => answer (i + 1) := rfl
      rw [hrun, hlists, hresult, hcounters]
      exact (hfirst.append hrest).of_shift
    · rw [if_neg hd]
      have hskip : listsOf g.isCategoryEnabled (d :: ds) name =
          listsOf g.isCategoryEnabled ds name := by
        simp only [listsOf, List.filter_cons, if_neg hd]
      rw [hskip]
      exact ih hds u h

/-- What the `j`-th call sends of a header. -/
def SentAt (g : Generator) (defs : List SecurityHeaderDef) (name : String)
    (answers : ℕ → ℕ → (q : Question) → Reply q) (j : ℕ)
    (r : ℕ × ℕ × Outcome String Counter Value (List (String × String))) : Prop :=
  ∀ l ∈ (listsOf g.isCategoryEnabled defs name).getLast?, ∃ value,
    turn l (j * (listsOf g.isCategoryEnabled defs name).length +
      ((listsOf g.isCategoryEnabled defs name).length - 1)) = some value ∧
    SetTo (answers r.1) r.2.2.result name value

/-- The calls send the header's values in turn. -/
theorem walk_sentAt (hdistinct : ∀ d ∈ defs, (d.headers.map Prod.fst).Nodup)
    {answers : ℕ → ℕ → (q : Question) → Reply q} (hordered : ∀ i, Ordered (answers i))
    (items : List ℕ) (i j₀ : ℕ)
    (hu : u (headerCounter g name) = j₀ * (listsOf g.isCategoryEnabled defs name).length) :
    (∀ j, j₀ ≤ j → j < j₀ + items.length →
        ∃ r ∈ walk (fun _ => g.securityHeaders defs) answers 0 items i u,
          SentAt g defs name answers j r) ∧
      ∀ r ∈ walk (fun _ => g.securityHeaders defs) answers 0 items i u,
        ∃ j, SentAt g defs name answers j r := by
  induction items generalizing i j₀ u with
  | nil =>
    refine ⟨fun j hle hlt => ?_, fun r hr => nomatch hr⟩
    rw [List.length_nil] at hlt
    omega
  | cons item items ih =>
    have hturned := @turned_securityHeaders g defs name (answers i) hdistinct u (hordered i)
    have hnow : SentAt g defs name answers j₀ (i, item, run (g.securityHeaders defs) u (answers i)) := by
      intro l hl
      rw [← hu]
      exact hturned.last l hl
    have hcounter : (run (g.securityHeaders defs) u (answers i)).counters (headerCounter g name) =
        (j₀ + 1) * (listsOf g.isCategoryEnabled defs name).length := by
      rw [hturned.counter, hu, Nat.succ_mul]
    obtain ⟨hlater, hback⟩ := ih (i + 1) (j₀ + 1) hcounter
    rw [walk_cons]
    constructor
    · intro j hle hlt
      rcases Nat.eq_or_lt_of_le hle with rfl | hgt
      · exact ⟨_, List.mem_cons_self, hnow⟩
      · rw [List.length_cons] at hlt
        obtain ⟨r, hr, hsent⟩ := hlater j hgt (by omega)
        exact ⟨r, List.mem_cons_of_mem _ hr, hsent⟩
    · intro r hr
      rcases List.mem_cons.mp hr with rfl | hr
      · exact ⟨j₀, hnow⟩
      · exact hback r hr

end OneCall

/-! ## The lists of a header -/

section Lists

variable {is : String → Bool} {defs : List SecurityHeaderDef} {name : String}

theorem mem_listsOf {d : SecurityHeaderDef} (hd : d ∈ defs) (his : is d.category)
    (hdistinct : (d.headers.map Prod.fst).Nodup) {header : String × List String}
    (hheader : header ∈ d.headers) (hne : header.2 ≠ []) : header.2 ∈ listsOf is defs header.1 := by
  refine List.mem_filterMap.mpr ⟨d, List.mem_filter.mpr ⟨hd, his⟩, ?_⟩
  have hlookup : d.headers.lookup header.1 = some header.2 :=
    (ListIndex.lookup_eq_some_iff_mem hdistinct).mpr hheader
  rw [listOf, hlookup, Option.filter_some, if_pos (by simpa using hne)]

theorem exists_of_mem_listsOf {values : List String} (h : values ∈ listsOf is defs name) :
    values ≠ [] ∧ ∃ d ∈ defs, is d.category ∧ (name, values) ∈ d.headers := by
  obtain ⟨d, hd, hlist⟩ := List.mem_filterMap.mp h
  obtain ⟨hd, his⟩ := List.mem_filter.mp hd
  rw [listOf, Option.filter_eq_some_iff] at hlist
  obtain ⟨before, after, hsplit, -⟩ := List.lookup_eq_some_iff.mp hlist.1
  have hmem : (name, values) ∈ d.headers := hsplit ▸ List.mem_append_right _ List.mem_cons_self
  exact ⟨by simpa using hlist.2, d, hd, his, hmem⟩

theorem le_longest (n : ℕ) (headers : List (String × List String)) :
    n ≤ headers.foldl (fun n h => if h.2.length > n then h.2.length else n) n ∧
      ∀ header ∈ headers, header.2.length ≤
        headers.foldl (fun n h => if h.2.length > n then h.2.length else n) n := by
  induction headers generalizing n with
  | nil => exact ⟨le_rfl, fun header hheader => nomatch hheader⟩
  | cons first headers ih =>
    obtain ⟨hle, hall⟩ := ih (if first.2.length > n then first.2.length else n)
    have hstart : n ≤ (if first.2.length > n then first.2.length else n) ∧
        first.2.length ≤ if first.2.length > n then first.2.length else n := by
      split <;> omega
    refine ⟨hstart.1.trans hle, fun header hheader => ?_⟩
    rcases List.mem_cons.mp hheader with rfl | hheader
    · exact hstart.2.trans hle
    · exact hall header hheader

/-- The longest header is as long as each of an enabled category. -/
theorem length_le_longestHeader {d : SecurityHeaderDef} (hd : d ∈ defs) (his : is d.category)
    {header : String × List String} (hheader : header ∈ d.headers) :
    header.2.length ≤ longestHeader is defs := by
  have hmem : d ∈ defs.filter fun d => is d.category := List.mem_filter.mpr ⟨hd, his⟩
  have hall : ∀ (ds : List SecurityHeaderDef) (n : ℕ),
      n ≤ ds.foldl (fun n d => d.headers.foldl
          (fun n h => if h.2.length > n then h.2.length else n) n) n ∧
        (d ∈ ds → header.2.length ≤ ds.foldl (fun n d => d.headers.foldl
          (fun n h => if h.2.length > n then h.2.length else n) n) n) := by
    intro ds
    induction ds with
    | nil => exact fun n => ⟨le_rfl, fun hnil => nomatch hnil⟩
    | cons d' ds ih =>
      intro n
      obtain ⟨hle, hlater⟩ := ih (d'.headers.foldl
        (fun n h => if h.2.length > n then h.2.length else n) n)
      obtain ⟨hn, hheaders⟩ := le_longest n d'.headers
      refine ⟨hn.trans hle, fun hin => ?_⟩
      rcases List.mem_cons.mp hin with rfl | hin
      · exact (hheaders header hheader).trans hle
      · exact hlater hin
  exact (hall _ 0).2 hmem

end Lists

/-! ## When a run is long enough -/

/-- With enough iterations, every value is sent exactly when the headers turn through them. -/
theorem headers_iff (g : Generator) (n : ℕ)
    (hn : g.bodyIterations + longestHeader g.isCategoryEnabled c.headers ≤ n) :
    (∀ answers, (∀ i, Ordered (answers i)) → ∀ d ∈ c.headers, g.isCategoryEnabled d.category →
        ∀ header ∈ d.headers, ∀ value ∈ header.2, ∃ r ∈ headerCalls c g n answers,
          SetTo (answers r.1) r.2.2.result header.1 value) ↔
      HeadersTurn g.isCategoryEnabled c.headers := by
  have hstart : ∀ name, fresh (headerCounter g name) =
      0 * (listsOf g.isCategoryEnabled c.headers name).length := fun name =>
    (Nat.zero_mul _).symm
  have hlen := length_securityIterations g n
  constructor
  · intro h name l hl values hvalues value hvalue
    obtain ⟨-, d, hd, his, hheader⟩ := exists_of_mem_listsOf hvalues
    have hplain : ∀ _ : ℕ, Ordered plainAnswer := fun _ _ keys => List.Perm.refl keys
    obtain ⟨r, hr, i, hset⟩ := h (fun _ => plainAnswer) hplain d hd his (name, values) hheader value
      hvalue
    obtain ⟨j, hsent⟩ := (walk_sentAt c.distinct hplain (securityIterations g n) 0 0
      (hstart name)).2 r hr
    obtain ⟨value', hturn, i', hset'⟩ := hsent l hl
    have hsame : some value = some value' := hset.symm.trans hset'
    cases hsame
    have hpos : 0 < l.length := List.length_pos_iff.mpr
      (exists_of_mem_listsOf (List.mem_of_getLast? hl)).1
    refine ⟨_, hturn, (exists_stride_iff ?_ (Nat.mod_lt _ hpos)
      (Nat.le_max_left l.length (j + 1))).mp ⟨j, by omega, rfl⟩⟩
    exact List.length_pos_of_mem hvalues
  · intro h answers hordered d hd his header hheader value hvalue
    have hvalues : header.2 ∈ listsOf g.isCategoryEnabled c.headers header.1 :=
      mem_listsOf hd his (c.distinct d hd) hheader (List.ne_nil_of_mem hvalue)
    have hl := List.getLast?_eq_some_getLast (List.ne_nil_of_mem hvalues)
    let l := (listsOf g.isCategoryEnabled c.headers header.1).getLast (List.ne_nil_of_mem hvalues)
    obtain ⟨p, hp, hdvd⟩ := h header.1 _ hl header.2 hvalues value hvalue
    obtain ⟨-, d', hd', his', hheader'⟩ := exists_of_mem_listsOf (List.mem_of_getLast? hl)
    have hle := length_le_longestHeader hd' his' hheader'
    obtain ⟨hlt, -⟩ := List.getElem?_eq_some_iff.mp hp
    obtain ⟨j, hj, hpos⟩ := (exists_stride_iff (List.length_pos_of_mem hvalues) hlt hle).mpr hdvd
    obtain ⟨r, hr, hsent⟩ := (walk_sentAt c.distinct hordered (securityIterations g n) 0 0
      (hstart header.1)).1 j (Nat.zero_le j) (by omega)
    obtain ⟨value', hturn, hset⟩ := hsent l hl
    rw [turn, hpos, hp] at hturn
    cases hturn
    exact ⟨r, hr, hset⟩

/-- Headers that only one enabled category has always come round to their values. -/
theorem headersTurn_of_nodup {is : String → Bool} {defs : List SecurityHeaderDef}
    (h : ((defs.filter fun d => is d.category).flatMap fun d => d.headers.map Prod.fst).Nodup) :
    HeadersTurn is defs := by
  have hcount : ∀ name (ds : List SecurityHeaderDef),
      (ds.filterMap fun d => listOf d.headers name).length ≤
        (ds.flatMap fun d => d.headers.map Prod.fst).count name := by
    intro name ds
    induction ds with
    | nil => exact le_rfl
    | cons d ds ih =>
      rw [List.flatMap_cons, List.count_append, List.filterMap_cons]
      cases hlist : listOf d.headers name with
      | none => exact ih.trans (Nat.le_add_left _ _)
      | some values =>
        rw [listOf, Option.filter_eq_some_iff] at hlist
        obtain ⟨before, after, hsplit, -⟩ := List.lookup_eq_some_iff.mp hlist.1
        have hname : name ∈ d.headers.map Prod.fst := by
          rw [hsplit]
          simp
        have hpos := List.count_pos_iff.mpr hname
        rw [List.length_cons]
        omega
  intro name l hl values hvalues value hvalue
  have hone : (listsOf is defs name).length = 1 :=
    le_antisymm ((hcount name _).trans (List.nodup_iff_count_le_one.mp h name))
      (List.length_pos_of_mem hvalues)
  obtain ⟨only, honly⟩ := List.length_eq_one_iff.mp hone
  rw [hone, Nat.gcd_one_left]
  rw [honly] at hl hvalues
  cases hl
  rw [List.mem_singleton.mp hvalues] at hvalue
  obtain ⟨p, hp⟩ := List.mem_iff_getElem?.mp hvalue
  exact ⟨p, hp, one_dvd _⟩

/-- In the source's table only `X-Forwarded-For` stands twice. -/
theorem headersTurn_source_iff (is : String → Bool) :
    HeadersTurn is securityHeaderPayloads ↔ ¬(is catIPSpoofing ∧ is catOOBInteraction) := by
  constructor
  · rintro h ⟨hip, hoob⟩
    have hlast : (listsOf is securityHeaderPayloads "X-Forwarded-For").getLast? =
        some ["\x7b\x7bOOB_URL\x7d\x7d"] := by
      have hsplit : listsOf is securityHeaderPayloads "X-Forwarded-For" =
          listsOf is (securityHeaderPayloads.take 4) "X-Forwarded-For" ++
            listsOf is (securityHeaderPayloads.drop 4) "X-Forwarded-For" := by
        rw [listsOf, listsOf, listsOf, ← List.filterMap_append, ← List.filter_append,
          List.take_append_drop]
      have hoobs : listsOf is (securityHeaderPayloads.drop 4) "X-Forwarded-For" =
          [["\x7b\x7bOOB_URL\x7d\x7d"]] := by
        simp only [listsOf, securityHeaderPayloads, List.drop, List.filter_cons, hoob]
        rfl
      rw [hsplit, hoobs]
      exact List.getLast?_concat
    have hdef : (⟨catIPSpoofing, [("X-Forwarded-For", ipSpoofing), ("X-Real-IP", ipSpoofing),
        ("X-Original-URL", ipSpoofing)]⟩ : SecurityHeaderDef) ∈ securityHeaderPayloads := by
      simp [securityHeaderPayloads]
    have hheader : ("X-Forwarded-For", ipSpoofing) ∈ [("X-Forwarded-For", ipSpoofing),
        ("X-Real-IP", ipSpoofing), ("X-Original-URL", ipSpoofing)] := List.mem_cons_self
    have hspoof := mem_listsOf hdef hip (by decide) hheader (by decide)
    obtain ⟨p, hp, -⟩ := h "X-Forwarded-For" _ hlast ipSpoofing hspoof "::1" (by decide)
    have hin := List.mem_of_getElem? hp
    revert hin
    decide
  · intro h
    have hwithout : ∀ category, is category = false →
        ((securityHeaderPayloads.filter fun d => d.category ≠ category).flatMap
          fun d => d.headers.map Prod.fst).Nodup → HeadersTurn is securityHeaderPayloads := by
      intro category hcategory hnodup
      refine headersTurn_of_nodup (hnodup.sublist (List.Sublist.flatMap ?_ _))
      refine List.monotone_filter_right _ fun d hd => ?_
      refine decide_eq_true fun heq => ?_
      rw [heq, hcategory] at hd
      cases hd
    by_cases hip : is catIPSpoofing
    · have hoob : is catOOBInteraction = false := by
        rw [← Bool.not_eq_true]
        exact fun hoob => h ⟨hip, hoob⟩
      exact hwithout _ hoob (by decide)
    · exact hwithout _ (Bool.not_eq_true _ ▸ hip) (by decide)

/-- A malicious run of an endpoint with fields is long enough exactly when the categories that
`MinIterationsNeeded` leaves out do not need more, and each header comes round to its values. -/
theorem malicious_run_long_enough_iff (c : Catalogue) (s : Settings) {ep : Endpoint}
    (hep : hasFields ep) :
    LongEnough c s ep ↔ EnoughIterations c s ∧ HeadersTurn s.enabled c.headers := by
  have hturns : ∀ g, Made c s g → EnoughIterations c s →
      g.bodyIterations + longestHeader g.isCategoryEnabled c.headers ≤
        (c.calcEffectiveIterations s ep).toNat := by
    intro g hg henough
    have hcast := (iterations_iff hep hg).mpr henough
    omega
  constructor
  · intro h
    obtain ⟨g, hg⟩ := exists_made c s
    have henough := (iterations_iff hep hg).mp (h.iterations g hg)
    refine ⟨henough, ?_⟩
    rw [← (made_spec hg).2.1]
    exact (headers_iff g _ (hturns g hg henough)).mp (h.headers g hg)
  · rintro ⟨henough, hheaders⟩
    refine ⟨fun g hg => (iterations_iff hep hg).mpr henough, fun g hg => ?_, fun g hg => ?_⟩
    · rw [← (made_spec hg).2.1] at hheaders
      exact (headers_iff g _ (hturns g hg henough)).mpr hheaders
    · rw [(made_spec hg).2.2.1, (made_spec hg).2.2.2]
      exact Nat.le_max_left _ _

/-- With the host headers alone, five iterations of the profile are lifted to eight. -/
def onlyHosts : Settings := ⟨5, 0, [(.malicious, [catHostInjection])], false, false⟩

/-- A run of the NoSQL strings, 13 as in the source, with too few iterations. -/
def onlyNoSQLi : Settings := ⟨10, 0, [(.malicious, [catMaliciousNoSQLi])], false, false⟩

def nosqliStrings : Malicious :=
  ⟨[], [], [], [], [], [], [], [], [], List.replicate 13 (.str "$ne"), [], [], [], [], [], [], []⟩

def oneField : Endpoint :=
  ⟨"POST", ⟨"object", "", [], some [("a", some ⟨"string", "", [], none, none, []⟩)], none, []⟩,
    [], [], [], none⟩

theorem hosts_long_enough : LongEnough (sourceCatalogue nosqliStrings) onlyHosts oneField :=
  (malicious_run_long_enough_iff (sourceCatalogue nosqliStrings) onlyHosts (by decide)).mpr
    ⟨Or.inl (by decide), (headersTurn_source_iff onlyHosts.enabled).mpr (by decide)⟩

theorem nosqli_cut_short : ¬LongEnough (sourceCatalogue nosqliStrings) onlyNoSQLi oneField := by
  intro h
  obtain ⟨g, hg⟩ := exists_made (sourceCatalogue nosqliStrings) onlyNoSQLi
  have henough := (iterations_iff (by decide) hg).mp (h.iterations g hg)
  revert henough
  simp only [EnoughIterations]
  decide

end Swazz.Payloads
