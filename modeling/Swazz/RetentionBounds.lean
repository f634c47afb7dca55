import Swazz.Retention

/-! A run keeps within its bounds, and of what it may keep the first that arrive. -/
namespace Swazz.Retention

variable {β γ : Type}

/-! ### Each step -/

@[simp] theorem stored_plain (c : Call β γ) : stored c .plain = some c.result := rfl

@[simp] theorem stored_whole (c : Call β γ) : stored c .whole = some c.result := rfl

@[simp] theorem stored_slim (c : Call β γ) : stored c .slim = some (slimResult c.result) := rfl

@[simp] theorem stored_dropped (c : Call β γ) : stored c .dropped = none := rfl

/-- The kinds of steps. -/
inductive Step (r : Runner β γ) (c : Call β γ) : Fate → Runner β γ → Prop where
  | full (key : PlainKey) (hkey : plainKey c = some key)
      (room : plainLimit r.retained ≤ r.retained.plainPer key) :
      Step r c .dropped
        { r with retained := { r.retained with notRetained := r.retained.notRetained + 1 } }
  | plain (key : PlainKey) (hkey : plainKey c = some key)
      (room : r.retained.plainPer key < plainLimit r.retained) :
      Step r c .plain
        ⟨r.allResults ++ [c.result], { r.retained with
          plainPer := Function.update r.retained.plainPer key (r.retained.plainPer key + 1)
          plain := r.retained.plain + 1 }⟩
  | whole (hkey : plainKey c = none) (room : (countDefects r.retained c.result).2) :
      Step r c .whole
        ⟨r.allResults ++ [c.result], { r.retained with
          defectPer := (countDefects r.retained c.result).1
          full := r.retained.full + 1 }⟩
  | slim (hkey : plainKey c = none) (whole : ¬ (countDefects r.retained c.result).2)
      (room : r.retained.slim < maxSlimFindings) :
      Step r c .slim
        ⟨r.allResults ++ [slimResult c.result], { r.retained with
          defectPer := (countDefects r.retained c.result).1
          slim := r.retained.slim + 1 }⟩
  | dropped (hkey : plainKey c = none) (whole : ¬ (countDefects r.retained c.result).2)
      (room : maxSlimFindings ≤ r.retained.slim) :
      Step r c .dropped
        { r with retained := { r.retained with
          defectPer := (countDefects r.retained c.result).1
          notRetained := r.retained.notRetained + 1
          droppedFindings := r.retained.droppedFindings + c.result.analyzerFindings.length } }

theorem retain_step (r : Runner β γ) (c : Call β γ) :
    Step r c (fate r c) (retain r c.result c.active) := by
  by_cases hf : c.result.analyzerFindings = []
  · have hkey : plainKey c = some ⟨c.result.method, c.result.endpoint, c.result.profile,
        c.active⟩ := if_pos hf
    by_cases room : plainLimit r.retained ≤ r.retained.plainPer
        ⟨c.result.method, c.result.endpoint, c.result.profile, c.active⟩
    · have hr := Step.full (r := r) _ hkey room
      simpa [fate, retain, hf, retainPlain, room] using hr
    · have hr := Step.plain (r := r) _ hkey (Nat.lt_of_not_le room)
      simpa [fate, retain, hf, retainPlain, room] using hr
  · have hkey : plainKey c = none := if_neg hf
    by_cases whole : (countDefects r.retained c.result).2
    · have hr := Step.whole (r := r) hkey whole
      simpa [fate, retain, hf, retainDefect, whole] using hr
    · by_cases room : maxSlimFindings ≤ r.retained.slim
      · have hr := Step.dropped (r := r) hkey whole room
        simpa [fate, retain, hf, retainDefect, whole, room] using hr
      · have hr := Step.slim (r := r) hkey whole (Nat.lt_of_not_le room)
        simpa [fate, retain, hf, retainDefect, whole, room] using hr

/-! ### The loop over the findings -/

section

variable {method endpoint : Bytes} (fs : List AnalysisFinding)

/-- Whether a rule of these findings counts for a key. -/
def Counts (method endpoint : Bytes) (seen : List Bytes) (fs : List AnalysisFinding)
    (key : DefectKey) : Prop :=
  key.method = method ∧ key.endpoint = endpoint ∧ key.rule ∉ seen ∧ ∃ f ∈ fs, f.ruleID = key.rule

theorem countRules_other (seen : List Bytes) (per : DefectKey → ℕ) {key : DefectKey}
    (h : ¬ Counts method endpoint seen fs key) :
    (countRules method endpoint seen fs per).1 key = per key := by
  induction fs generalizing seen per with
  | nil => rfl
  | cons f fs ih =>
    have hrest : ¬ Counts method endpoint (f.ruleID :: seen) fs key := by
      rintro ⟨hm, he, hs, g, hg, hr⟩
      exact h ⟨hm, he, fun hk => hs (List.mem_cons_of_mem _ hk), g, List.mem_cons_of_mem _ hg, hr⟩
    rw [countRules]
    split
    · exact ih _ _ hrest
    · rename_i hf
      simp only
      split
      · have hne : key ≠ ⟨f.ruleID, method, endpoint⟩ := by
          rintro rfl
          exact h ⟨rfl, rfl, hf, f, List.mem_cons_self, rfl⟩
        rw [ih _ _ hrest, Function.update_of_ne hne]
      · exact ih _ _ hrest

/-- A key counts once at most. -/
theorem countRules_le (seen : List Bytes) (per : DefectKey → ℕ) (key : DefectKey) :
    (countRules method endpoint seen fs per).1 key ≤ per key + 1 := by
  induction fs generalizing seen per with
  | nil => exact Nat.le_succ _
  | cons f fs ih =>
    rw [countRules]
    split
    · exact ih _ _
    · simp only
      split
      · by_cases hk : key = ⟨f.ruleID, method, endpoint⟩
        · have hrest : ¬ Counts method endpoint (f.ruleID :: seen) fs key := by
            rintro ⟨-, -, hs, -⟩
            exact hs (by rw [hk]; exact List.mem_cons_self)
          rw [countRules_other _ _ _ hrest, hk, Function.update_self]
        · have := ih (f.ruleID :: seen) (Function.update per ⟨f.ruleID, method, endpoint⟩
            (per ⟨f.ruleID, method, endpoint⟩ + 1))
          rwa [Function.update_of_ne hk] at this
      · exact ih _ _

/-- A result is whole exactly if one of its rules has room. -/
theorem countRules_whole (seen : List Bytes) (per : DefectKey → ℕ) :
    (countRules method endpoint seen fs per).2 ↔
      ∃ f ∈ fs, f.ruleID ∉ seen ∧ per ⟨f.ruleID, method, endpoint⟩ < maxFullPerDefect := by
  induction fs generalizing seen per with
  | nil => simp [countRules]
  | cons f fs ih =>
    rw [countRules]
    by_cases hf : f.ruleID ∈ seen
    · rw [if_pos hf, ih]
      constructor
      · rintro ⟨g, hg, hs, hroom⟩
        exact ⟨g, List.mem_cons_of_mem _ hg, fun h => hs (List.mem_cons_of_mem _ h), hroom⟩
      · rintro ⟨g, hg, hs, hroom⟩
        have hne : g.ruleID ≠ f.ruleID := fun h => hs (h ▸ hf)
        rcases List.mem_cons.mp hg with rfl | hg
        · exact absurd rfl hne
        · exact ⟨g, hg, by simp [hne, hs], hroom⟩
    · rw [if_neg hf]
      simp only
      split
      · rename_i hroom
        exact ⟨fun _ => ⟨f, List.mem_cons_self, hf, hroom⟩, fun _ => rfl⟩
      · rename_i hfull
        rw [ih]
        constructor
        · rintro ⟨g, hg, hs, hroom⟩
          exact ⟨g, List.mem_cons_of_mem _ hg, fun h => hs (List.mem_cons_of_mem _ h), hroom⟩
        · rintro ⟨g, hg, hs, hroom⟩
          -- a rule without room is none that has some
          have hne : g.ruleID ≠ f.ruleID := fun h => hfull (h ▸ hroom)
          rcases List.mem_cons.mp hg with rfl | hg
          · exact absurd rfl hne
          · exact ⟨g, hg, by simp [hne, hs], hroom⟩

theorem countRules_none (seen : List Bytes) (per : DefectKey → ℕ)
    (h : ¬ (countRules method endpoint seen fs per).2) :
    (countRules method endpoint seen fs per).1 = per := by
  induction fs generalizing seen with
  | nil => rfl
  | cons f fs ih =>
    rw [countRules] at h ⊢
    split
    · rename_i hf
      rw [if_pos hf] at h
      exact ih _ h
    · rename_i hf
      rw [if_neg hf] at h
      simp only at h ⊢
      split
      · rename_i hroom
        rw [if_pos hroom] at h
        exact absurd rfl h
      · rename_i hroom
        rw [if_neg hroom] at h
        exact ih _ h

end

/-! ### Along a run -/

/-- What a run keeps up as the results arrive that `h` tells of. -/
structure Kept (h : List (Call β γ × Fate)) (r : Runner β γ) : Prop where
  results : r.allResults = h.filterMap fun p => stored p.1 p.2
  plain_eq : r.retained.plain = h.countP (·.2 = .plain)
  full_eq : r.retained.full = h.countP (·.2 = .whole)
  slim_eq : r.retained.slim = h.countP (·.2 = .slim)
  full_le : r.retained.full ≤ maxFullResults
  slim_le : r.retained.slim ≤ maxSlimFindings
  perKey : ∀ key, ∃ rest, (arrivals key h).map (·.2) =
    List.replicate (r.retained.plainPer key) .plain ++ List.replicate rest .dropped ∧
      (rest ≠ 0 → plainLimit r.retained ≤ r.retained.plainPer key)
  perKey_le : ∀ key, r.retained.plainPer key ≤ maxRetainedPerEndpoint
  /-- Past its bound the run keeps plain results only of keys that have few. -/
  late : r.retained.plain ≤ maxRetainedResults +
    ∑ key ∈ (h.filterMap fun p => plainKey p.1).toFinset,
      min (r.retained.plainPer key) minRetainedPerEndpoint
  defects : ∀ key, r.retained.defectPer key ≤ wholeResults key h

theorem kept_start : Kept [] (Runner.start β γ) where
  results := rfl
  plain_eq := rfl
  full_eq := rfl
  slim_eq := rfl
  full_le := Nat.zero_le _
  slim_le := Nat.zero_le _
  perKey _ := ⟨0, rfl, fun h => absurd rfl h⟩
  perKey_le _ := Nat.zero_le _
  late := Nat.zero_le _
  defects _ := Nat.zero_le _

section

variable {h : List (Call β γ × Fate)} {r : Runner β γ} {c : Call β γ}

theorem plainLimit_pos (k : RetainedResults) :
    minRetainedPerEndpoint ≤ plainLimit k ∧ plainLimit k ≤ maxRetainedPerEndpoint := by
  rw [plainLimit]
  split
  · exact ⟨Nat.le_refl _, by decide⟩
  · exact ⟨by decide, Nat.le_refl _⟩

theorem countDefects_le (k : RetainedResults) (key : DefectKey) :
    (countDefects k c.result).1 key ≤
      k.defectPer key + (if hasDefect key c then 1 else 0) := by
  rw [countDefects]
  split
  · split
    · exact countRules_le _ _ _ _
    · rename_i hno
      rw [countRules_other]
      · exact Nat.le_refl _
      · rintro ⟨hm, he, -, f, hf, hr⟩
        exact hno ⟨hm.symm, he.symm, f, hf, hr⟩
  · exact Nat.le_add_right _ _

theorem countDefects_none (k : RetainedResults) (hw : ¬ (countDefects k c.result).2) :
    (countDefects k c.result).1 = k.defectPer := by
  rw [countDefects] at hw ⊢
  split
  · rename_i hfull
    rw [if_pos hfull] at hw
    exact countRules_none _ _ _ hw
  · rfl

theorem countDefects_full (k : RetainedResults) (hw : (countDefects k c.result).2) :
    k.full < maxFullResults := by
  by_contra hfull
  rw [countDefects, if_neg hfull] at hw
  exact Bool.false_ne_true hw

@[simp] theorem arrivals_append (key : PlainKey) (h' : List (Call β γ × Fate)) :
    arrivals key (h ++ h') = arrivals key h ++ arrivals key h' := List.filter_append _ _

@[simp] theorem wholeResults_append (key : DefectKey) (h' : List (Call β γ × Fate)) :
    wholeResults key (h ++ h') = wholeResults key h + wholeResults key h' := List.countP_append

theorem arrivals_singleton (key : PlainKey) (f : Fate) :
    arrivals key [(c, f)] = if plainKey c = some key then [(c, f)] else [] := by
  by_cases hk : plainKey c = some key <;> simp [arrivals, hk]

theorem wholeResults_singleton (key : DefectKey) (f : Fate) :
    wholeResults key [(c, f)] = if f = .whole ∧ hasDefect key c then 1 else 0 := by
  by_cases hk : f = .whole ∧ hasDefect key c <;> simp [wholeResults, hk]

/-- The keys of a history grow. -/
theorem late_mono {f g : PlainKey → ℕ} (x : Call β γ × Fate) (hfg : ∀ key, f key ≤ g key) :
    ∑ key ∈ (h.filterMap fun p => plainKey p.1).toFinset, f key ≤
      ∑ key ∈ ((h ++ [x]).filterMap fun p => plainKey p.1).toFinset, g key := by
  have hsub : (h.filterMap fun p => plainKey p.1).toFinset ⊆
      ((h ++ [x]).filterMap fun p => plainKey p.1).toFinset := by
    intro key hkey
    rw [List.mem_toFinset, List.filterMap_append]
    exact List.mem_append_left _ (List.mem_toFinset.mp hkey)
  calc ∑ key ∈ (h.filterMap fun p => plainKey p.1).toFinset, f key
      ≤ ∑ key ∈ (h.filterMap fun p => plainKey p.1).toFinset, g key :=
        Finset.sum_le_sum fun key _ => hfg key
    _ ≤ ∑ key ∈ ((h ++ [x]).filterMap fun p => plainKey p.1).toFinset, g key :=
        Finset.sum_le_sum_of_subset hsub

theorem late_lt {f g : PlainKey → ℕ} {key : PlainKey} (x : Fate) (hkey : plainKey c = some key)
    (hfg : ∀ key, f key ≤ g key) (hlt : f key < g key) :
    ∑ key ∈ (h.filterMap fun p => plainKey p.1).toFinset, f key <
      ∑ key ∈ ((h ++ [(c, x)]).filterMap fun p => plainKey p.1).toFinset, g key := by
  have hmem : key ∈ ((h ++ [(c, x)]).filterMap fun p => plainKey p.1).toFinset := by
    simp [hkey]
  calc ∑ key ∈ (h.filterMap fun p => plainKey p.1).toFinset, f key
      ≤ ∑ key ∈ ((h ++ [(c, x)]).filterMap fun p => plainKey p.1).toFinset, f key :=
        late_mono _ fun _ => Nat.le_refl _
    _ < ∑ key ∈ ((h ++ [(c, x)]).filterMap fun p => plainKey p.1).toFinset, g key :=
        Finset.sum_lt_sum (fun key _ => hfg key) ⟨key, hmem, hlt⟩

/-- What stays as it is when no plain result is kept. -/
theorem Kept.keys_same (hk : Kept h r) {f : Fate} (hkey : plainKey c = none) (key : PlainKey) :
    ∃ rest, (arrivals key (h ++ [(c, f)])).map (·.2) =
      List.replicate (r.retained.plainPer key) .plain ++ List.replicate rest .dropped ∧
        (rest ≠ 0 → plainLimit r.retained ≤ r.retained.plainPer key) := by
  obtain ⟨rest, he, hrest⟩ := hk.perKey key
  refine ⟨rest, ?_, hrest⟩
  rw [arrivals_append, arrivals_singleton, if_neg (by simp [hkey]), List.append_nil, he]

theorem Kept.defects_same (hk : Kept h r) (f : Fate) (key : DefectKey) :
    r.retained.defectPer key ≤ wholeResults key (h ++ [(c, f)]) := by
  rw [wholeResults_append]
  exact (hk.defects key).trans (Nat.le_add_right _ _)

theorem Kept.full (hk : Kept h r) {key : PlainKey} (hkey : plainKey c = some key)
    (room : plainLimit r.retained ≤ r.retained.plainPer key) : Kept (h ++ [(c, .dropped)])
      { r with retained := { r.retained with notRetained := r.retained.notRetained + 1 } } where
  results := by simp [hk.results]
  plain_eq := by simp [hk.plain_eq]
  full_eq := by simp [hk.full_eq]
  slim_eq := by simp [hk.slim_eq]
  full_le := hk.full_le
  slim_le := hk.slim_le
  perKey key' := by
    obtain ⟨rest, he, hrest⟩ := hk.perKey key'
    by_cases hkk : plainKey c = some key'
    · obtain rfl : key = key' := Option.some.inj (hkey.symm.trans hkk)
      refine ⟨rest + 1, ?_, fun _ => room⟩
      rw [arrivals_append, arrivals_singleton, if_pos hkk, List.map_append, he,
        List.append_assoc, List.replicate_succ']
      rfl
    · refine ⟨rest, ?_, hrest⟩
      rw [arrivals_append, arrivals_singleton, if_neg hkk, List.append_nil, he]
  perKey_le := hk.perKey_le
  late := hk.late.trans (Nat.add_le_add_left (late_mono _ fun _ => Nat.le_refl _) _)
  defects := hk.defects_same _

theorem Kept.plain (hk : Kept h r) {key : PlainKey} (hkey : plainKey c = some key)
    (room : r.retained.plainPer key < plainLimit r.retained) : Kept (h ++ [(c, .plain)])
      ⟨r.allResults ++ [c.result], { r.retained with
        plainPer := Function.update r.retained.plainPer key (r.retained.plainPer key + 1)
        plain := r.retained.plain + 1 }⟩ where
  results := by simp [hk.results]
  plain_eq := by simp [hk.plain_eq]
  full_eq := by simp [hk.full_eq]
  slim_eq := by simp [hk.slim_eq]
  full_le := hk.full_le
  slim_le := hk.slim_le
  perKey key' := by
    obtain ⟨rest, he, hrest⟩ := hk.perKey key'
    by_cases hkk : plainKey c = some key'
    · obtain rfl : key = key' := Option.some.inj (hkey.symm.trans hkk)
      -- none of this key was dropped, as it has room even now
      obtain rfl : rest = 0 := by
        by_contra hne
        exact absurd room (Nat.not_lt.mpr (hrest hne))
      refine ⟨0, ?_, fun h => absurd rfl h⟩
      rw [arrivals_append, arrivals_singleton, if_pos hkk, List.map_append, he]
      simp [List.replicate_succ']
    · have hne : key' ≠ key := fun h => hkk (h ▸ hkey)
      refine ⟨rest, ?_, fun h0 => ?_⟩
      · rw [arrivals_append, arrivals_singleton, if_neg hkk, List.append_nil, he]
        simp [hne]
      · refine Nat.le_trans ?_ ((hrest h0).trans (by simp [hne]))
        simp only [plainLimit]
        split
        · split
          · exact Nat.le_refl _
          · decide
        · rw [if_neg (by omega)]
  perKey_le key' := by
    by_cases hne : key' = key
    · subst hne
      simp only [Function.update_self]
      exact Nat.lt_of_lt_of_le room (plainLimit_pos _).2
    · simp only [Function.update_of_ne hne]
      exact hk.perKey_le key'
  late := by
    have hle : ∀ key', min (r.retained.plainPer key') minRetainedPerEndpoint ≤
        min (Function.update r.retained.plainPer key (r.retained.plainPer key + 1) key')
          minRetainedPerEndpoint := by
      intro key'
      by_cases hne : key' = key
      · rw [hne, Function.update_self]
        omega
      · rw [Function.update_of_ne hne]
    by_cases hfew : maxRetainedResults ≤ r.retained.plain
    · -- past the bound this key was short of its few, and now has one more of them
      rw [plainLimit, if_pos hfew] at room
      have hlt := late_lt (h := h) (c := c) .plain hkey hle (by
        rw [Function.update_self]
        omega)
      exact Nat.lt_of_le_of_lt hk.late (Nat.add_lt_add_left hlt _)
    · exact Nat.le_trans (Nat.lt_of_not_le hfew) (Nat.le_add_right _ _)
  defects := hk.defects_same _

theorem Kept.whole (hk : Kept h r) (hkey : plainKey c = none)
    (room : (countDefects r.retained c.result).2) : Kept (h ++ [(c, .whole)])
      ⟨r.allResults ++ [c.result], { r.retained with
        defectPer := (countDefects r.retained c.result).1
        full := r.retained.full + 1 }⟩ where
  results := by simp [hk.results]
  plain_eq := by simp [hk.plain_eq]
  full_eq := by simp [hk.full_eq]
  slim_eq := by simp [hk.slim_eq]
  full_le := countDefects_full _ room
  slim_le := hk.slim_le
  perKey := hk.keys_same hkey
  perKey_le := hk.perKey_le
  late := hk.late.trans (Nat.add_le_add_left (late_mono _ fun _ => Nat.le_refl _) _)
  defects key := by
    rw [wholeResults_append, wholeResults_singleton]
    have hc := countDefects_le (c := c) r.retained key
    have hd := hk.defects key
    simp only [true_and]
    omega

theorem Kept.slim (hk : Kept h r) (hkey : plainKey c = none)
    (whole : ¬ (countDefects r.retained c.result).2) (room : r.retained.slim < maxSlimFindings) :
    Kept (h ++ [(c, .slim)])
      ⟨r.allResults ++ [slimResult c.result], { r.retained with
        defectPer := (countDefects r.retained c.result).1
        slim := r.retained.slim + 1 }⟩ where
  results := by simp [hk.results]
  plain_eq := by simp [hk.plain_eq]
  full_eq := by simp [hk.full_eq]
  slim_eq := by simp [hk.slim_eq]
  full_le := hk.full_le
  slim_le := room
  perKey := hk.keys_same hkey
  perKey_le := hk.perKey_le
  late := hk.late.trans (Nat.add_le_add_left (late_mono _ fun _ => Nat.le_refl _) _)
  defects := by
    rw [countDefects_none _ whole]
    exact hk.defects_same _

theorem Kept.dropped (hk : Kept h r) (hkey : plainKey c = none)
    (whole : ¬ (countDefects r.retained c.result).2) :
    Kept (h ++ [(c, .dropped)])
      { r with retained := { r.retained with
        defectPer := (countDefects r.retained c.result).1
        notRetained := r.retained.notRetained + 1
        droppedFindings := r.retained.droppedFindings + c.result.analyzerFindings.length } } where
  results := by simp [hk.results]
  plain_eq := by simp [hk.plain_eq]
  full_eq := by simp [hk.full_eq]
  slim_eq := by simp [hk.slim_eq]
  full_le := hk.full_le
  slim_le := hk.slim_le
  perKey := hk.keys_same hkey
  perKey_le := hk.perKey_le
  late := hk.late.trans (Nat.add_le_add_left (late_mono _ fun _ => Nat.le_refl _) _)
  defects := by
    rw [countDefects_none _ whole]
    exact hk.defects_same _

theorem Kept.step (hk : Kept h r) :
    Kept (h ++ [(c, fate r c)]) (retain r c.result c.active) := by
  have hstep := retain_step r c
  generalize fate r c = f, retain r c.result c.active = r' at hstep
  cases hstep with
  | full key hkey room => exact hk.full hkey room
  | plain key hkey room => exact hk.plain hkey room
  | whole hkey room => exact hk.whole hkey room
  | slim hkey whole room => exact hk.slim hkey whole room
  | dropped hkey whole room => exact hk.dropped hkey whole

end

theorem history_append (r : Runner β γ) (cs : List (Call β γ)) (c : Call β γ) :
    history r (cs ++ [c]) = history r cs ++ [(c, fate (run r cs) c)] := by
  induction cs generalizing r with
  | nil => rfl
  | cons d cs ih => exact congrArg _ (ih _)

theorem history_map (r : Runner β γ) (cs : List (Call β γ)) : (history r cs).map (·.1) = cs := by
  induction cs generalizing r with
  | nil => rfl
  | cons d cs ih => exact congrArg _ (ih _)

theorem run_append (r : Runner β γ) (cs : List (Call β γ)) (c : Call β γ) :
    run r (cs ++ [c]) = retain (run r cs) c.result c.active := List.foldl_concat _ _ _ _

theorem kept_run (calls : List (Call β γ)) :
    Kept (history (.start β γ) calls) (run (.start β γ) calls) := by
  induction calls using List.reverseRecOn with
  | nil => exact kept_start
  | append_singleton cs c ih =>
    rw [history_append, run_append]
    exact ih.step

theorem Kept.length_eq {h : List (Call β γ × Fate)} {r : Runner β γ} (hk : Kept h r) :
    r.allResults.length = r.retained.plain + r.retained.full + r.retained.slim := by
  rw [hk.results, hk.plain_eq, hk.full_eq, hk.slim_eq]
  clear hk
  induction h with
  | nil => rfl
  | cons p h ih =>
    obtain ⟨c, f⟩ := p
    cases f with
    | plain =>
      simp [ih]
      omega
    | whole =>
      simp [ih]
      omega
    | slim =>
      simp [ih]
      omega
    | dropped =>
      rw [List.filterMap_cons_none rfl, ih]
      simp

theorem Kept.plain_le {h : List (Call β γ × Fate)} {r : Runner β γ} (hk : Kept h r) :
    r.retained.plain ≤ maxRetainedResults +
      minRetainedPerEndpoint * (h.filterMap fun p => plainKey p.1).dedup.length := by
  refine hk.late.trans (Nat.add_le_add_left ?_ _)
  calc ∑ key ∈ (h.filterMap fun p => plainKey p.1).toFinset,
        min (r.retained.plainPer key) minRetainedPerEndpoint
      ≤ ∑ _key ∈ (h.filterMap fun p => plainKey p.1).toFinset, minRetainedPerEndpoint :=
        Finset.sum_le_sum fun _ _ => Nat.min_le_right _ _
    _ = minRetainedPerEndpoint * (h.filterMap fun p => plainKey p.1).dedup.length := by
        rw [Finset.sum_const_nat fun _ _ => rfl, List.card_toFinset, Nat.mul_comm]

/-- Whatever results arrive, in whatever order, the run keeps within its bounds. -/
theorem keepsWithinBounds (calls : List (Call β γ)) : KeepsWithinBounds calls := by
  have hk := kept_run calls
  refine ⟨hk.results, hk.length_eq, ?_, hk.full_le, hk.slim_le, ?_, ?_, ?_⟩
  · have hkeys : (history (.start β γ) calls).filterMap (fun p => plainKey p.1) =
        calls.filterMap plainKey := by
      conv_rhs => rw [← history_map (.start β γ) calls, List.filterMap_map]
      rfl
    rw [← hkeys]
    exact hk.plain_le
  · intro key
    obtain ⟨rest, he, hrest⟩ := hk.perKey key
    refine ⟨_, rest, he, ?_, hk.perKey_le key⟩
    -- a key of which some was dropped has its few
    have hfew := (plainLimit_pos (run (.start β γ) calls).retained).1
    by_cases h0 : rest = 0
    · omega
    · have := hrest h0
      omega
  · rintro before c after rfl hf hfate
    have hb := kept_run before
    have hstep := retain_step (run (.start β γ) before) c
    have hkey : plainKey c = none := if_neg hf
    rw [hfate] at hstep
    generalize retain (run (.start β γ) before) c.result c.active = r' at hstep
    cases hstep with
    | full key hkey' room => simp [hkey] at hkey'
    | dropped hkey whole room => exact Nat.le_antisymm hb.slim_le room
  · rintro before c after rfl hfull ⟨f, hf, hroom⟩
    have hb := kept_run before
    have hkey : plainKey c = none := by
      refine if_neg ?_
      intro hnil
      rw [hnil] at hf
      exact absurd hf List.not_mem_nil
    have hwhole : (countDefects (run (.start β γ) before).retained c.result).2 := by
      rw [countDefects, if_pos hfull, countRules_whole]
      exact ⟨f, hf, List.not_mem_nil, Nat.lt_of_le_of_lt (hb.defects _) hroom⟩
    have hstep := retain_step (run (.start β γ) before) c
    generalize fate (run (.start β γ) before) c = x,
      retain (run (.start β γ) before) c.result c.active = r' at hstep
    cases hstep with
    | full key hkey' room => simp [hkey] at hkey'
    | plain key hkey' room => simp [hkey] at hkey'
    | whole hkey room => rfl
    | slim hkey whole room => exact absurd hwhole whole
    | dropped hkey whole room => exact absurd hwhole whole

end Swazz.Retention
