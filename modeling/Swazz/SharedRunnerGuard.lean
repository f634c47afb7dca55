import Swazz.ConfigForRunner

/-! A shared runner's guard against private addresses stays on, whatever the tenant's
configuration; and when the rest of the configuration reaches the runner unchanged. -/
namespace Swazz.RunnerAccess

open UnicodeCase

/-- The properties of a value that is an object. -/
def Json.entries : Json → Entries
  | .obj entries => entries
  | _ => []

/-- The capital letters that upper case and simple folding agree on, and the low line. -/
def Capital (u : ℕ) : Prop := (65 ≤ u ∧ u ≤ 90 ∨ u = 95) ∧ u ≠ 75

instance (u : ℕ) : Decidable (Capital u) := by
  unfold Capital
  infer_instance

variable {isFinal : JsString → ℕ → Bool} {o : Entries}

theorem matchField_security (key : JsString) :
    matchField cliConfigFields key = some (js "security") ↔
      foldName key = foldName (js "security") := by
  rw [matchField]
  split_ifs with hfield
  · have hfields : ∀ f ∈ cliConfigFields, foldName f = foldName (js "security") →
        f = js "security" := by decide
    exact ⟨fun h => congrArg foldName (Option.some.inj h),
      fun h => congrArg some (hfields key hfield h)⟩
  · constructor
    · intro h
      have hfound := List.find?_some h
      exact (of_decide_eq_true hfound).symm
    · intro h
      rw [h]
      decide

theorem matchField_allow (key : JsString) :
    matchField securityConfigFields key = some (js "allow_private_ips") ↔
      foldName key = foldName (js "allow_private_ips") := by
  rw [matchField]
  split_ifs with hfield
  · rw [List.mem_singleton.mp hfield]
    exact ⟨fun _ => rfl, fun _ => rfl⟩
  · constructor
    · intro h
      have hfound := List.find?_some h
      exact (of_decide_eq_true hfound).symm
    · intro h
      rw [h]
      decide

/-- The upper case of a key that Go folds to capitals is these capitals. -/
theorem toUpperCase_of_foldName {key us : JsString} (h : foldName (goString key) = us)
    (hus : ∀ u ∈ us, Capital u) : toUpperCase key = us := by
  induction key generalizing us with
  | nil => exact h
  | cons c key ih =>
    subst h
    obtain ⟨hc, hrest⟩ := List.forall_mem_cons.mp hus
    have hgo : goRune c = c := by
      apply if_neg
      intro hsurrogate
      -- The character that replaces a surrogate is folded to itself.
      rw [show goRune c = 0xFFFD from if_pos hsurrogate] at hc
      exact absurd hc (by decide)
    rw [hgo] at hc
    have hupper : upper c = [foldRune c] := upper_of_foldRune rfl hc.1 hc.2
    have htail : toUpperCase key = foldName (goString key) := ih rfl hrest
    calc toUpperCase (c :: key) = upper c ++ toUpperCase key := List.flatMap_cons
      _ = foldRune (goRune c) :: foldName (goString key) := by
        rw [hupper, htail, hgo]
        rfl

theorem toLowerCase_of_no_sigma {s : JsString} (h : 0x3A3 ∉ s) :
    toLowerCase isFinal s = s.flatMap lower := by
  have hpairs : toLowerCase isFinal s = s.zipIdx.flatMap fun p => lower p.1 := by
    rw [toLowerCase]
    apply List.flatMap_congr
    intro p hp
    have hc : p.1 ≠ 0x3A3 := fun hc => h (hc ▸ List.fst_mem_of_mem_zipIdx hp)
    exact if_neg fun hand => hc hand.1
  have hfst : (s.zipIdx.map Prod.fst).flatMap lower = s.zipIdx.flatMap fun p => lower p.1 := by
    rw [List.flatMap_map]
  rw [hpairs, ← hfst, List.zipIdx_map_fst]

/-- Whatever Go reads as `security` JavaScript folds to it. -/
theorem goJsonFold_security {key : JsString} (h : goFolds key (js "security") = true) :
    goJsonFold isFinal key = js "security" := by
  have hupper := toUpperCase_of_foldName (of_decide_eq_true h) (by decide)
  rw [goJsonFold, hupper, toLowerCase_of_no_sigma (by decide)]
  decide

theorem goJsonFold_allow {key : JsString} (h : goFolds key (js "allow_private_ips") = true) :
    goJsonFold isFinal key = js "allow_private_ips" := by
  have hupper := toUpperCase_of_foldName (of_decide_eq_true h) (by decide)
  rw [goJsonFold, hupper, toLowerCase_of_no_sigma (by decide)]
  decide

theorem define_new {key : JsString} {value : Json} (h : key ∉ o.map (·.1)) :
    define o key value = o ++ [(key, value)] := if_neg h

/-- Copying different properties into an object that has none of them. -/
theorem spread_append (acc : Entries) (h : ((acc ++ o).map (·.1)).Nodup) :
    spread acc o = acc ++ o := by
  induction o generalizing acc with
  | nil => exact (List.append_nil acc).symm
  | cons p o ih =>
    have hsplit : acc ++ p :: o = (acc ++ [p]) ++ o := by simp
    have hnew : p.1 ∉ acc.map (·.1) := by
      rw [List.map_append, List.map_cons] at h
      intro hmem
      exact (List.nodup_append.mp h).2.2 _ hmem _ List.mem_cons_self rfl
    calc spread acc (p :: o) = spread (define acc p.1 p.2) o := rfl
      _ = spread (acc ++ [p]) o := by rw [define_new hnew]
      _ = (acc ++ [p]) ++ o := ih (acc ++ [p]) (hsplit ▸ h)
      _ = acc ++ p :: o := hsplit.symm

theorem spread_nil (h : (o.map (·.1)).Nodup) : spread [] o = o := spread_append [] h

/-- Assignment creates at most the property it names. -/
theorem assign_cases {key : JsString} {value : Json} (h : key ∉ o.map (·.1)) :
    assign o key value = if key = proto then o else o ++ [(key, value)] := by
  rw [assign]
  by_cases hproto : key = proto
  · rw [if_pos ⟨hproto, h⟩, if_pos hproto]
  · rw [if_neg fun hand => hproto hand.1, if_neg hproto, define_new h]

/-- What of the configuration goes into `rest`: each property that is not folded to `security`,
apart from one named `__proto__`. -/
theorem splitSecurity_rest (entries : Entries) (acc : Entries × Entries)
    (h : ((acc.2 ++ entries).map (·.1)).Nodup) :
    (splitSecurity isFinal entries acc).2 = acc.2 ++ entries.filter fun p =>
      goJsonFold isFinal p.1 ≠ js "security" ∧ p.1 ≠ proto := by
  induction entries generalizing acc with
  | nil => exact (List.append_nil acc.2).symm
  | cons p entries ih =>
    have hnew : p.1 ∉ acc.2.map (·.1) := by
      rw [List.map_append, List.map_cons] at h
      intro hmem
      exact (List.nodup_append.mp h).2.2 _ hmem _ List.mem_cons_self rfl
    have hskip : ((acc.2 ++ entries).map (·.1)).Nodup :=
      h.sublist (((List.sublist_cons_self _ entries).append_left acc.2).map _)
    by_cases hfold : goJsonFold isFinal p.1 = js "security"
    · rw [List.filter_cons_of_neg (by simp [hfold]), splitSecurity, if_pos hfold]
      exact ih (mergeSecurity acc.1 p.2, acc.2) hskip
    · rw [splitSecurity, if_neg hfold, assign_cases hnew]
      by_cases hproto : p.1 = proto
      · rw [if_pos hproto, List.filter_cons_of_neg (by simp [hproto])]
        exact ih acc hskip
      · have hsplit : acc.2 ++ p :: entries = (acc.2 ++ [p]) ++ entries := by simp
        rw [if_neg hproto, List.filter_cons_of_pos (by simp [hfold, hproto])]
        rw [hsplit] at h
        rw [ih (acc.1, acc.2 ++ [p]) h, List.append_assoc]
        rfl

/-- No property that is left in `security` is folded to `allow_private_ips`. -/
theorem guardedEntries_spec (isFinal : JsString → ℕ → Bool) (security : Entries) :
    (∀ p ∈ guardedEntries isFinal security, goJsonFold isFinal p.1 ≠ js "allow_private_ips") ∧
      ((guardedEntries isFinal security).map (·.1)).Nodup := by
  let Guarded (o : Entries) : Prop :=
    (∀ p ∈ o, goJsonFold isFinal p.1 ≠ js "allow_private_ips") ∧ (o.map (·.1)).Nodup
  have hstep (o : Entries) (ho : Guarded o) (p : JsString × Json) :
      Guarded (if goJsonFold isFinal p.1 ≠ js "allow_private_ips" then assign o p.1 p.2 else o) := by
    split_ifs with hfold
    · by_cases hmem : p.1 ∈ o.map (·.1)
      · -- The property is there already, and has its value replaced.
        have hassign : assign o p.1 p.2 = o.map fun q => if q.1 = p.1 then (p.1, p.2) else q := by
          rw [assign, if_neg fun hand => hand.2 hmem, define, if_pos hmem]
        have hkeys : (assign o p.1 p.2).map (·.1) = o.map (·.1) := by
          rw [hassign, List.map_map]
          apply List.map_congr_left
          intro q _
          simp only [Function.comp]
          split_ifs with hq
          · exact hq.symm
          · rfl
        refine ⟨fun q hq => ?_, hkeys ▸ ho.2⟩
        have hkey : q.1 ∈ o.map (·.1) := hkeys ▸ List.mem_map.mpr ⟨q, hq, rfl⟩
        obtain ⟨q', hq', hsame⟩ := List.mem_map.mp hkey
        exact hsame ▸ ho.1 q' hq'
      · rw [assign_cases hmem]
        split_ifs
        · exact ho
        · constructor
          · intro q hq
            rcases List.mem_append.mp hq with hold | hnew
            · exact ho.1 q hold
            · rw [List.mem_singleton.mp hnew]
              exact hfold
          · rw [List.map_append]
            exact List.Nodup.append ho.2 (List.nodup_singleton _) (List.disjoint_singleton.mpr hmem)
    · exact ho
  have hfoldl (l o : Entries) (ho : Guarded o) : Guarded (l.foldl (fun guarded p =>
      if goJsonFold isFinal p.1 ≠ js "allow_private_ips" then assign guarded p.1 p.2
      else guarded) o) := by
    induction l generalizing o with
    | nil => exact ho
    | cons p l ih => exact ih _ (hstep o ho p)
  exact hfoldl security [] ⟨fun _ hp => absurd hp List.not_mem_nil, List.nodup_nil⟩

/-- Of the last entry, and of those before it when the decoder ignores them, the last decides. -/
theorem foldl_concat_ignored {σ : Type} (f : σ → JsString × Json → σ) (s : σ) {l : Entries}
    (p : JsString × Json) (h : ∀ q ∈ l, ∀ s, f s q = s) : (l ++ [p]).foldl f s = f s p := by
  have hl : l.foldl f s = s := by
    induction l with
    | nil => rfl
    | cons q l ih =>
      rw [List.foldl_cons, h q List.mem_cons_self]
      exact ih fun q' hq' => h q' (List.mem_cons_of_mem q hq')
  rw [List.foldl_append, hl]
  rfl

/-- Without a key that JavaScript folds to `allow_private_ips`, only the forced value is read. -/
theorem decodeSecurity_forced {guarded : Entries} (security : SecurityConfig)
    (h : ∀ p ∈ guarded, goJsonFold isFinal p.1 ≠ js "allow_private_ips") :
    (decodeSecurity security
      (.obj (guarded ++ [(js "allow_private_ips", .bool false)]))).allowPrivateIPs = false := by
  rw [decodeSecurity, foldl_concat_ignored]
  · have hmatch : matchField securityConfigFields (goString (js "allow_private_ips")) =
        some (js "allow_private_ips") := (matchField_allow _).mpr (by decide)
    rw [if_pos hmatch]
    rfl
  · intro q hq security
    apply if_neg
    intro hmatch
    exact h q hq (goJsonFold_allow (decide_eq_true ((matchField_allow _).mp hmatch)))

theorem decodeConfig_forced (isFinal : JsString → ℕ → Bool) {rest : Entries} (security : Json)
    (h : ∀ p ∈ rest, goJsonFold isFinal p.1 ≠ js "security") :
    decodeConfig (.obj (rest ++ [(js "security", security)])) =
      ⟨decodeSecurity ⟨false⟩ security⟩ := by
  rw [decodeConfig, foldl_concat_ignored]
  · have hmatch : matchField cliConfigFields (goString (js "security")) = some (js "security") :=
      (matchField_security _).mpr (by decide)
    rw [if_pos hmatch]
  · intro q hq config
    apply if_neg
    intro hmatch
    exact h q hq (goJsonFold_security (decide_eq_true ((matchField_security _).mp hmatch)))

/-- What a shared runner is sent. -/
theorem configForRunner_shared (isFinal : JsString → ℕ → Bool) {entries : Entries}
    {tags : List String} {env : Option String} (hshared : isSharedRunnerTags tags = true) (henv : env ≠ some "true")
    (hkeys : (entries.map (·.1)).Nodup) :
    ∃ guarded : Entries, (∀ p ∈ guarded, goJsonFold isFinal p.1 ≠ js "allow_private_ips") ∧
      configForRunner isFinal (.obj entries) tags env =
        .obj (entries.filter (fun p => goJsonFold isFinal p.1 ≠ js "security" ∧ p.1 ≠ proto) ++
          [(js "security", .obj (guarded ++ [(js "allow_private_ips", .bool false)]))]) := by
  let split := splitSecurity isFinal entries ([], [])
  let guarded := guardedEntries isFinal split.1
  obtain ⟨hguarded, hdistinct⟩ := guardedEntries_spec isFinal split.1
  have hrest : split.2 = entries.filter fun p =>
      goJsonFold isFinal p.1 ≠ js "security" ∧ p.1 ≠ proto := splitSecurity_rest entries ([], []) hkeys
  have hrestKeys : (split.2.map (·.1)).Nodup := by
    rw [hrest]
    exact hkeys.sublist (List.filter_sublist.map _)
  have hself : goJsonFold isFinal (js "security") = js "security" :=
    goJsonFold_security (by decide)
  have hselfAllow : goJsonFold isFinal (js "allow_private_ips") = js "allow_private_ips" :=
    goJsonFold_allow (by decide)
  have hnew : js "security" ∉ split.2.map (·.1) := by
    intro hmem
    obtain ⟨p, hp, hkey⟩ := List.mem_map.mp hmem
    rw [hrest] at hp
    have hnot := (of_decide_eq_true (List.mem_filter.mp hp).2).1
    exact hnot (hkey ▸ hself)
  have hnewAllow : js "allow_private_ips" ∉ guarded.map (·.1) := by
    intro hmem
    obtain ⟨p, hp, hkey⟩ := List.mem_map.mp hmem
    exact hguarded p hp (hkey ▸ hselfAllow)
  have hcond : ¬(isSharedRunnerTags tags = false ∨ env = some "true") := by
    rintro (hnot | htrue)
    · rw [hshared] at hnot
      cases hnot
    · exact henv htrue
  refine ⟨guarded, hguarded, ?_⟩
  rw [configForRunner, if_neg hcond, ← hrest]
  simp only
  rw [spread_nil hrestKeys, spread_nil hdistinct, define_new hnew, define_new hnewAllow]

/-- Entries that are left out by one of two filters only. -/
theorem filter_eq_filter_iff {l : Entries} {p q : JsString × Json → Bool}
    (h : ∀ a ∈ l, p a = true → q a = true) :
    l.filter p = l.filter q ↔ ∀ a ∈ l, q a = true → p a = true := by
  constructor
  · intro hsame a ha hq
    have hmem : a ∈ l.filter q := List.mem_filter.mpr ⟨ha, hq⟩
    rw [← hsame] at hmem
    exact (List.mem_filter.mp hmem).2
  · intro hback
    apply List.filter_congr
    intro a ha
    exact Bool.eq_iff_iff.mpr ⟨h a ha, hback a ha⟩

/-- A shared runner never reads that private addresses are allowed. The properties that its
decoder does not take for `security` reach it as they are if and only if none of them is named
`__proto__` or is folded to `security` in JavaScript alone. -/
theorem shared_runner_guard (isFinal : JsString → ℕ → Bool) (entries : Entries)
    (tags : List String) (env : Option String) (hkeys : (entries.map (·.1)).Nodup)
    (hshared : isSharedRunnerTags tags = true) (henv : env ≠ some "true") :
    (decodeConfig (configForRunner isFinal (.obj entries) tags env)).security.allowPrivateIPs =
        false ∧
      ((configForRunner isFinal (.obj entries) tags env).entries.filter
            (fun p => !goFolds p.1 (js "security")) =
          entries.filter (fun p => !goFolds p.1 (js "security")) ↔
        ∀ p ∈ entries, p.1 ≠ proto ∧
          (goJsonFold isFinal p.1 = js "security" → goFolds p.1 (js "security") = true)) := by
  obtain ⟨guarded, hguarded, hconfig⟩ := configForRunner_shared isFinal hshared henv hkeys
  rw [hconfig]
  constructor
  · rw [decodeConfig_forced isFinal]
    · exact decodeSecurity_forced _ hguarded
    · intro p hp
      exact (of_decide_eq_true (List.mem_filter.mp hp).2).1
  · have hproto : goFolds proto (js "security") = false := by decide
    have hself : goFolds (js "security") (js "security") = true := by decide
    -- Behind the filter there is what has been kept, without `security` itself.
    rw [Json.entries, List.filter_append, List.filter_filter,
      List.filter_cons_of_neg (by simp [hself]), List.filter_nil, List.append_nil,
      filter_eq_filter_iff (fun a _ h => (Bool.and_eq_true_iff.mp h).1)]
    apply forall₂_congr
    intro p _
    constructor
    · intro h
      have hkept (hnot : goFolds p.1 (js "security") = false) :
          goJsonFold isFinal p.1 ≠ js "security" ∧ p.1 ≠ proto :=
        of_decide_eq_true (Bool.and_eq_true_iff.mp (h (by simp [hnot]))).2
      constructor
      · intro hp
        exact (hkept (hp ▸ hproto)).2 hp
      · intro hfold
        by_contra hnot
        exact (hkept (by simpa using hnot)).1 hfold
    · rintro ⟨hp, hfold⟩ hnot
      refine Bool.and_eq_true_iff.mpr ⟨hnot, decide_eq_true ⟨fun hsecurity => ?_, hp⟩⟩
      rw [hfold hsecurity] at hnot
      cases hnot

/-- A configuration of properties that all reach the runner. -/
theorem shared_runner_guard_plain :
    (configForRunner (fun _ _ => false)
        (.obj [(js "Security", .obj [(js "ALLOW_PRIVATE_IPS", .bool true)]),
          (js "base_url", .str (js "http://test"))]) ["shared"] none).entries.filter
        (fun p => !goFolds p.1 (js "security")) =
      [(js "Security", .obj [(js "ALLOW_PRIVATE_IPS", .bool true)]),
        (js "base_url", .str (js "http://test"))].filter
          (fun p => !goFolds p.1 (js "security")) := by
  have hguard := shared_runner_guard (fun _ _ => false)
    [(js "Security", .obj [(js "ALLOW_PRIVATE_IPS", .bool true)]),
      (js "base_url", .str (js "http://test"))] ["shared"] none (by decide)
    (by decide) (by decide)
  apply hguard.2.mpr
  intro p hp
  rcases List.mem_cons.mp hp with rfl | hp
  · exact ⟨by decide, fun _ => by decide⟩
  · rw [List.mem_singleton.mp hp]
    exact ⟨by decide, by decide⟩

/-- Two keys that the decoder does not take for `security` and that do not reach the runner:
`__proto__`, and `securıty` with a dotless i. -/
theorem keys_lost_on_the_way :
    ((configForRunner (fun _ _ => false)
          (.obj [(proto, .obj []), (js "base_url", .str (js "http://test"))])
          ["shared"] none).entries.map (·.1) = [js "base_url", js "security"] ∧
        goFolds proto (js "security") = false) ∧
      (configForRunner (fun _ _ => false) (.obj [(js "securıty", .str (js "kept"))])
          ["shared"] none).entries.map (·.1) = [js "security"] ∧
        goFolds (js "securıty") (js "security") = false := by
  decide

end Swazz.RunnerAccess
