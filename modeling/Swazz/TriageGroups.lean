import Swazz.ListIndex
import Swazz.Triage

/-! When the groups of the triage are the classes of the findings by rule, method and endpoint,
and what the workers return. -/
namespace Swazz.Triage

open Utf8 ClassFold StepSystem

/-- What a defect is. -/
def defect (item : Item) : Text × Text × Text :=
  (item.finding.RuleID, item.res.Method, item.res.Endpoint)

/-- The representative is a member whose result is kept whole if one is, and has the longest
evidence among the members of that kind; it is the earliest of them. -/
def Represents (members : List Item) (finding : AnalysisFinding) (res : FuzzResult) : Prop :=
  ∃ before item after, members = before ++ item :: after ∧ finding = item.finding ∧
    res = item.res ∧ (item.res.Slim = true → ∀ m ∈ members, m.res.Slim = true) ∧
    (∀ m ∈ members, m.res.Slim = item.res.Slim →
      m.finding.Evidence.length ≤ item.finding.Evidence.length) ∧
    ∀ m ∈ before, m.res.Slim = item.res.Slim →
      m.finding.Evidence.length < item.finding.Evidence.length

/-- The group of a defect. -/
structure IsGroup (members : List Item) (group : GroupFinding) : Prop where
  key : ∀ m ∈ members, group.DefectKey = defectKey m
  ids : group.AffectedFindingIDs = members.map findingID
  representative : Represents members group.Representative group.Result

/-- The groups are the classes of the findings by their defects, and no id occurs twice. -/
structure Partitions (results : List (Option FuzzResult)) (groups : List GroupFinding) : Prop where
  covers : ∀ item ∈ items results,
    ∃ group ∈ groups, IsGroup (members defect (defect item) (items results)) group
  only : ∀ group ∈ groups, ∃ item ∈ items results,
    IsGroup (members defect (defect item) (items results)) group
  once : (groups.map GroupFinding.DefectKey).Nodup
  ids : (groups.flatMap GroupFinding.AffectedFindingIDs).Nodup

/-- Different defects are written differently. -/
def KeysApart (results : List (Option FuzzResult)) : Prop :=
  ∀ a ∈ items results, ∀ b ∈ items results, defectKey a = defectKey b → defect a = defect b

/-- The id that is made up for a finding without one. -/
def madeUp (item : Item) : Text := defectKey item ++ ascii "-" ++ decimal item.i

/-- Two findings get different ids: their own differ, or neither has one and they differ in the
defect or in the index, or the made up one is not the other's. -/
def IdsApart (a b : Item) : Prop :=
  if a.finding.ID = [] then
    if b.finding.ID = [] then defect a ≠ defect b ∨ a.i ≠ b.i else b.finding.ID ≠ madeUp a
  else if b.finding.ID = [] then a.finding.ID ≠ madeUp b
  else a.finding.ID ≠ b.finding.ID

/-! Ids. -/

theorem digit_bounds {c : Char} (h : c.isDigit = true) : 48 ≤ c.toNat ∧ c.toNat ≤ 57 := by
  rw [Char.isDigit, Bool.and_eq_true, decide_eq_true_eq, decide_eq_true_eq, ge_iff_le,
    UInt32.le_iff_toNat_le, UInt32.le_iff_toNat_le] at h
  exact h

theorem isDigit_of_mem {c : Char} {n : ℕ} (h : c ∈ Nat.toDigits 10 n) :
    48 ≤ c.toNat ∧ c.toNat ≤ 57 :=
  digit_bounds (Nat.isDigit_of_mem_toDigits (by decide) (by decide) h)

theorem decimal_injective {m n : ℕ} (h : decimal m = decimal n) : m = n := by
  have hback : ∀ k, (decimal k).map (fun b => Char.ofNat b.val) = Nat.toDigits 10 k := by
    intro k
    rw [decimal, List.map_map]
    conv_rhs => rw [← List.map_id (Nat.toDigits 10 k)]
    refine List.map_congr_left fun c hc => ?_
    have hbounds := isDigit_of_mem hc
    have hval : (Fin.ofNat 256 c.toNat).val = c.toNat := Nat.mod_eq_of_lt (by omega)
    rw [Function.comp_apply, hval, Char.ofNat_toNat, id]
  have hdigits : Nat.toDigits 10 m = Nat.toDigits 10 n := by
    rw [← hback, h, hback]
  have hnat := congrArg (fun cs => Nat.ofDigitChars 10 cs 0) hdigits
  simpa only [Nat.ofDigitChars_ten_toDigits] using hnat

theorem minus_notMem_decimal (n : ℕ) : (45 : Byte) ∉ decimal n := by
  intro h
  obtain ⟨c, hc, heq⟩ := List.mem_map.mp h
  have hbounds := isDigit_of_mem hc
  have hval : (Fin.ofNat 256 c.toNat).val = c.toNat := Nat.mod_eq_of_lt (by omega)
  rw [heq] at hval
  have h45 : ((45 : Byte) : ℕ) = 45 := rfl
  omega

theorem madeUp_eq_iff {a b : Item} :
    madeUp a = madeUp b ↔ defectKey a = defectKey b ∧ a.i = b.i := by
  constructor
  · intro h
    rw [madeUp, madeUp, List.append_assoc, List.append_assoc] at h
    obtain ⟨hkey, hi⟩ := ListIndex.last_separator (minus_notMem_decimal a.i)
      (minus_notMem_decimal b.i) h
    exact ⟨hkey, decimal_injective hi⟩
  · rintro ⟨hkey, hi⟩
    rw [madeUp, madeUp, hkey, hi]

theorem findingID_of_nil {item : Item} (h : item.finding.ID = []) :
    findingID item = madeUp item := if_pos h

theorem findingID_of_ne {item : Item} (h : item.finding.ID ≠ []) :
    findingID item = item.finding.ID := if_neg h

theorem findingID_ne_iff {a b : Item} (h : defectKey a = defectKey b ↔ defect a = defect b) :
    findingID a ≠ findingID b ↔ IdsApart a b := by
  by_cases ha : a.finding.ID = []
  · by_cases hb : b.finding.ID = []
    · rw [IdsApart, if_pos ha, if_pos hb, findingID_of_nil ha, findingID_of_nil hb, Ne,
        madeUp_eq_iff, h, not_and_or]
    · rw [IdsApart, if_pos ha, if_neg hb, findingID_of_nil ha, findingID_of_ne hb]
      exact ne_comm
  · by_cases hb : b.finding.ID = []
    · rw [IdsApart, if_neg ha, if_pos hb, findingID_of_ne ha, findingID_of_nil hb]
    · rw [IdsApart, if_neg ha, if_neg hb, findingID_of_ne ha, findingID_of_ne hb]

/-! Groups. -/

theorem exists_of_mem_right {α β : Type} {R : α → β → Prop} {l : List α} {m : List β}
    (h : List.Forall₂ R l m) {b : β} (hb : b ∈ m) : ∃ a ∈ l, R a b := by
  induction h with
  | nil => cases hb
  | cons hR _ ih =>
    rcases List.mem_cons.mp hb with rfl | hb
    · exact ⟨_, List.mem_cons_self, hR⟩
    · obtain ⟨a, ha, hRa⟩ := ih hb
      exact ⟨a, List.mem_cons_of_mem _ ha, hRa⟩

theorem exists_of_mem_left {α β : Type} {R : α → β → Prop} {l : List α} {m : List β}
    (h : List.Forall₂ R l m) {a : α} (ha : a ∈ l) : ∃ b ∈ m, R a b :=
  exists_of_mem_right h.flip ha

theorem defectKey_of_defect {a b : Item} (h : defect a = defect b) : defectKey a = defectKey b := by
  obtain ⟨hrule, hmethod, hendpoint⟩ : a.finding.RuleID = b.finding.RuleID ∧
      a.res.Method = b.res.Method ∧ a.res.Endpoint = b.res.Endpoint := by
    simpa [defect] using h
  rw [defectKey, defectKey, hrule, hmethod, hendpoint]

theorem represents_singleton (item : Item) : Represents [item] item.finding item.res := by
  refine ⟨[], item, [], rfl, rfl, rfl, fun h m hm => ?_, fun m hm _ => ?_, fun m hm => ?_⟩
  · rw [List.mem_singleton.mp hm]
    exact h
  · rw [List.mem_singleton.mp hm]
  · cases hm

/-- The representative is chosen again with each member. -/
theorem represents_concat {ms : List Item} {group : GroupFinding} {x : Item}
    (h : Represents ms group.Representative group.Result) :
    Represents (ms ++ [x]) (group.add x).Representative (group.add x).Result := by
  obtain ⟨before, item, after, hsplit, hfinding, hres, hslim, hlongest, hfirst⟩ := h
  have hitem : item ∈ ms := by
    rw [hsplit]
    simp
  rw [GroupFinding.add]
  simp only
  split
  · rename_i hbetter
    rw [hfinding, hres] at hbetter
    refine ⟨ms, x, [], rfl, rfl, rfl, fun hx m hm => ?_, fun m hm hsame => ?_, fun m hm hsame => ?_⟩
    · rcases List.mem_append.mp hm with hm | hm
      · rcases hbetter with ⟨-, hwhole⟩ | ⟨-, hsame⟩
        · exact absurd hx hwhole
        · exact hslim (hsame ▸ hx) m hm
      · rw [List.mem_singleton.mp hm]
        exact hx
    · rcases List.mem_append.mp hm with hm | hm
      · rcases hbetter with ⟨hold, hwhole⟩ | ⟨hlonger, hkind⟩
        · exact absurd (hsame ▸ hslim hold m hm) hwhole
        · exact (hlongest m hm (hsame.trans hkind)).trans hlonger.le
      · rw [List.mem_singleton.mp hm]
    · rcases hbetter with ⟨hold, hwhole⟩ | ⟨hlonger, hkind⟩
      · exact absurd (hsame ▸ hslim hold m hm) hwhole
      · exact (hlongest m hm (hsame.trans hkind)).trans_lt hlonger
  · rename_i hkeep
    rw [hfinding, hres, not_or, not_and_or, not_and_or, not_not] at hkeep
    obtain ⟨hkind, hlonger⟩ := hkeep
    refine ⟨before, item, after ++ [x], by rw [hsplit]; simp, hfinding, hres, fun hi m hm => ?_,
      fun m hm hsame => ?_, hfirst⟩
    · rcases List.mem_append.mp hm with hm | hm
      · exact hslim hi m hm
      · rw [List.mem_singleton.mp hm]
        rcases hkind with hnot | hx
        · exact absurd hi hnot
        · exact hx
    · rcases List.mem_append.mp hm with hm | hm
      · exact hlongest m hm hsame
      · rw [List.mem_singleton.mp hm] at hsame ⊢
        rcases hlonger with hshort | hdiff
        · exact Nat.le_of_not_lt hshort
        · exact absurd hsame hdiff

theorem add_eq (group : GroupFinding) (x : Item) : (group.add x).DefectKey = group.DefectKey ∧
    (group.add x).AffectedFindingIDs = group.AffectedFindingIDs ++ [findingID x] := by
  rw [GroupFinding.add]
  simp only
  split
  · exact ⟨rfl, rfl⟩
  · exact ⟨rfl, rfl⟩

/-- What is made of a class: its first member's key, the ids of all, the best of them. -/
theorem classFold_spec {ms : List Item} {k : Text} {group : GroupFinding}
    (hkeys : ∀ m ∈ ms, defectKey m = k) (h : classFold newGroup GroupFinding.add ms = some group) :
    group.DefectKey = k ∧ IsGroup ms group := by
  suffices hspec : group.DefectKey = k ∧ group.AffectedFindingIDs = ms.map findingID ∧
      Represents ms group.Representative group.Result from
    ⟨hspec.1, fun m hm => hspec.1.trans (hkeys m hm).symm, hspec.2.1, hspec.2.2⟩
  induction ms using List.reverseRecOn generalizing group with
  | nil => cases h
  | append_singleton ms x ih =>
    rw [classFold_concat] at h
    cases hms : classFold newGroup GroupFinding.add ms with
    | none =>
      rw [hms] at h
      cases h
      cases ms with
      | nil => exact ⟨hkeys x (by simp), rfl, represents_singleton x⟩
      | cons y ys => cases hms
    | some g =>
      rw [hms] at h
      cases h
      obtain ⟨hkey, hids, hrep⟩ := ih (fun m hm => hkeys m (List.mem_append_left _ hm)) hms
      obtain ⟨hsame, hnext⟩ := add_eq g x
      refine ⟨hsame.trans hkey, ?_, represents_concat hrep⟩
      rw [Option.elim_some, hnext, hids, List.map_append]
      rfl

/-- The groups of the code: one for each text that findings have as their defect. -/
theorem groupFindings_spec (results : List (Option FuzzResult)) :
    ∃ order : List Text, order.Nodup ∧ (∀ k, k ∈ order ↔ ∃ x ∈ items results, defectKey x = k) ∧
      List.Forall₂ (fun k group => group.DefectKey = k ∧
        IsGroup (members defectKey k (items results)) group) order (GroupFindings results) := by
  obtain ⟨-, hnodup, hmem⟩ := collect_spec defectKey newGroup GroupFinding.add (items results)
  refine ⟨_, hnodup, hmem, ?_⟩
  refine (entries_spec defectKey newGroup GroupFinding.add (items results)).imp fun k group h => ?_
  exact classFold_spec (fun m hm => of_decide_eq_true (List.mem_filter.mp hm).2) h

/-- The ids of all groups are those of all findings. -/
theorem ids_perm (results : List (Option FuzzResult)) :
    ((GroupFindings results).flatMap GroupFinding.AffectedFindingIDs).Perm
      ((items results).map findingID) := by
  obtain ⟨order, hnodup, hmem, hgroups⟩ := groupFindings_spec results
  have hflat : (GroupFindings results).flatMap GroupFinding.AffectedFindingIDs =
      (order.flatMap fun k => members defectKey k (items results)).map findingID := by
    clear hnodup hmem
    generalize GroupFindings results = groups at hgroups ⊢
    induction hgroups with
    | nil => rfl
    | cons hgroup _ ih =>
      rw [List.flatMap_cons, List.flatMap_cons, List.map_append, ← ih, hgroup.2.ids]
  rw [hflat]
  exact (flatMap_members_of_forall defectKey hnodup fun x hx =>
    (hmem _).mpr ⟨x, hx, rfl⟩).map findingID

theorem ids_nodup_iff {results : List (Option FuzzResult)} (h : KeysApart results) :
    ((GroupFindings results).flatMap GroupFinding.AffectedFindingIDs).Nodup ↔
      (items results).Pairwise IdsApart := by
  rw [(ids_perm results).nodup_iff, List.Nodup, List.pairwise_map]
  refine List.Pairwise.iff_of_mem fun {a b} ha hb => ?_
  exact findingID_ne_iff ⟨h a ha b hb, defectKey_of_defect⟩

/-- A class by key is a class by defect when different defects have different keys. -/
theorem members_eq {results : List (Option FuzzResult)} (h : KeysApart results) {item : Item}
    (hitem : item ∈ items results) :
    members defectKey (defectKey item) (items results) =
      members defect (defect item) (items results) := by
  refine List.filter_congr fun x hx => decide_eq_decide.mpr ⟨h x hx item hitem, defectKey_of_defect⟩

theorem keysApart_of_covers {results : List (Option FuzzResult)}
    (h : ∀ item ∈ items results, ∃ group ∈ GroupFindings results,
      IsGroup (members defect (defect item) (items results)) group) : KeysApart results := by
  intro a ha b hb hkey
  obtain ⟨group, hgroup, hclass⟩ := h a ha
  obtain ⟨order, -, -, hgroups⟩ := groupFindings_spec results
  obtain ⟨k, -, hk, hcode⟩ := exists_of_mem_right hgroups hgroup
  have hself : a ∈ members defect (defect a) (items results) :=
    List.mem_filter.mpr ⟨ha, decide_eq_true rfl⟩
  have hka : k = defectKey a := hk.symm.trans (hclass.key a hself)
  subst hka
  -- the class by the key holds as many findings as the class by the defect, which is part of it
  have hlen : (members defect (defect a) (items results)).length =
      (members defectKey (defectKey a) (items results)).length := by
    have hids := hclass.ids.symm.trans hcode.ids
    simpa using congrArg List.length hids
  have hsub : (members defect (defect a) (items results)).Sublist
      (members defectKey (defectKey a) (items results)) := by
    refine List.monotone_filter_right _ fun x hx => ?_
    simp only [decide_eq_true_eq] at hx ⊢
    exact defectKey_of_defect hx
  have hsame := hsub.eq_of_length hlen
  have hmember : b ∈ members defectKey (defectKey a) (items results) :=
    List.mem_filter.mpr ⟨hb, decide_eq_true hkey.symm⟩
  rw [← hsame] at hmember
  exact (of_decide_eq_true (List.mem_filter.mp hmember).2).symm

theorem partitions_iff (results : List (Option FuzzResult)) :
    Partitions results (GroupFindings results) ↔
      KeysApart results ∧ (items results).Pairwise IdsApart := by
  constructor
  · intro h
    have hkeys := keysApart_of_covers h.covers
    exact ⟨hkeys, (ids_nodup_iff hkeys).mp h.ids⟩
  · rintro ⟨hkeys, hids⟩
    obtain ⟨order, hnodup, hmem, hgroups⟩ := groupFindings_spec results
    refine ⟨fun item hitem => ?_, fun group hgroup => ?_, ?_, (ids_nodup_iff hkeys).mpr hids⟩
    · obtain ⟨group, hgroup, -, hclass⟩ :=
        exists_of_mem_left hgroups ((hmem _).mpr ⟨item, hitem, rfl⟩)
      exact ⟨group, hgroup, members_eq hkeys hitem ▸ hclass⟩
    · obtain ⟨k, hk, -, hclass⟩ := exists_of_mem_right hgroups hgroup
      obtain ⟨item, hitem, rfl⟩ := (hmem k).mp hk
      exact ⟨item, hitem, members_eq hkeys hitem ▸ hclass⟩
    · have hkeys : (GroupFindings results).map GroupFinding.DefectKey = order := by
        clear hnodup hmem
        generalize GroupFindings results = groups at hgroups ⊢
        induction hgroups with
        | nil => rfl
        | cons hgroup _ ih => rw [List.map_cons, ih, hgroup.1]
      rw [hkeys]
      exact hnodup

/-! The workers. -/

/-- What a result says of its group. -/
def label (group : GroupFinding) : Text × List Text := (group.DefectKey, group.AffectedFindingIDs)

def resultLabel (res : TriageResult) : Text × List Text := (res.DefectKey, res.FindingIDs)

/-- What is left to do: each group is taken and finished. -/
def Pool.work (s : Pool) : ℕ := 2 * s.jobs.length + (s.workers.filterMap id).length

/-- Every group is waiting, with a worker or has its result. -/
def Pool.labels (s : Pool) : List (Text × List Text) :=
  s.jobs.map label ++ (s.workers.filterMap id).map label ++ s.results.map resultLabel

theorem resultLabel_triage (group : GroupFinding) (outcome : Outcome) :
    resultLabel (triageSingleGroup group outcome) = label group := by
  cases outcome <;> rfl

/-- A worker that takes a group, and one that is left without it. -/
theorem filterMap_set (workers : List (Option GroupFinding)) (w : ℕ) (group : GroupFinding) :
    (workers[w]? = some none →
        ((workers.set w (some group)).filterMap id).Perm (group :: workers.filterMap id)) ∧
      (workers[w]? = some (some group) →
        (workers.filterMap id).Perm (group :: (workers.set w none).filterMap id)) := by
  induction workers generalizing w with
  | nil => simp
  | cons worker workers ih =>
    cases w with
    | zero =>
      constructor
      · intro h
        cases h
        exact List.Perm.refl _
      · intro h
        cases h
        exact List.Perm.refl _
    | succ w =>
      obtain ⟨htake, hfinish⟩ := ih w
      constructor
      · intro h
        have hrest := htake h
        cases worker with
        | none => exact hrest
        | some g => exact (hrest.cons g).trans (List.Perm.swap group g _)
      · intro h
        have hrest := hfinish h
        cases worker with
        | none => exact hrest
        | some g => exact (hrest.cons g).trans (List.Perm.swap group g _)

/-- A step moves one group on, and the work gets less. -/
theorem step_labels {s t : Pool} {m : Move} (h : step s m = some t) :
    t.labels.Perm s.labels ∧ t.workers.length = s.workers.length ∧
      (t.work < s.work ∨ m = .cancel) := by
  cases m with
  | cancel =>
    cases h
    exact ⟨List.Perm.refl _, rfl, Or.inr rfl⟩
  | take w =>
    rw [step] at h
    split at h
    · rename_i group jobs hjobs hw
      split at h
      · cases h
        refine ⟨?_, rfl, Or.inl ?_⟩
        · have hone : [failed group (ascii "Triage context cancelled")].map resultLabel =
              [label group] := rfl
          simp only [Pool.labels, hjobs]
          rw [List.map_append, hone, ← List.append_assoc, List.map_cons, List.cons_append,
            List.cons_append]
          exact List.perm_append_singleton _ _
        · simp only [Pool.work, hjobs, List.length_cons]
          omega
      · cases h
        have hperm := (filterMap_set _ _ group).1 hw
        refine ⟨?_, List.length_set, Or.inl ?_⟩
        · simp only [Pool.labels, hjobs]
          refine List.Perm.append_right _ ?_
          rw [List.map_cons, List.cons_append]
          exact ((hperm.map label).append_left _).trans List.perm_middle
        · have hlen := hperm.length_eq
          rw [List.length_cons] at hlen
          simp only [Pool.work, hjobs, List.length_cons, hlen]
          omega
    · cases h
  | finish w outcome =>
    rw [step] at h
    split at h
    · rename_i group hw
      cases h
      have hperm := (filterMap_set _ _ group).2 hw
      refine ⟨?_, List.length_set, Or.inl ?_⟩
      · have hone : [triageSingleGroup group outcome].map resultLabel = [label group] :=
          congrArg (fun x => [x]) (resultLabel_triage group outcome)
        simp only [Pool.labels]
        rw [List.map_append, hone, ← List.append_assoc]
        refine (List.perm_append_singleton _ _).trans ?_
        rw [← List.cons_append]
        refine List.Perm.append_right _ ?_
        exact List.perm_middle.symm.trans ((hperm.map label).symm.append_left _)
      · have hlen := hperm.length_eq
        rw [List.length_cons] at hlen
        simp only [Pool.work, hlen]
        omega
    · cases h

/-- Some worker can go on until all have left. -/
theorem exists_step {s : Pool} (hlen : s.workers.length = workerCount) (h : ¬s.done) :
    ∃ m t, m ≠ .cancel ∧ step s m = some t := by
  by_cases hbusy : ∃ w ∈ s.workers, w ≠ none
  · obtain ⟨worker, hworker, hne⟩ := hbusy
    obtain ⟨w, hw⟩ := List.mem_iff_getElem?.mp hworker
    cases worker with
    | none => exact absurd rfl hne
    | some group =>
      have hstep : (step s (.finish w (.gatewayError []))).isSome := by
        rw [step, hw]
        rfl
      obtain ⟨t, ht⟩ := Option.isSome_iff_exists.mp hstep
      exact ⟨_, t, by simp, ht⟩
  · have hidle : ∀ w ∈ s.workers, w = none := by
      intro w hw
      by_contra hne
      exact hbusy ⟨w, hw, hne⟩
    have hfirst : s.workers[0]? = some none := by
      cases hworkers : s.workers with
      | nil =>
        rw [hworkers] at hlen
        cases hlen
      | cons w ws =>
        rw [hidle w (by rw [hworkers]; exact List.mem_cons_self)]
        rfl
    cases hjobs : s.jobs with
    | nil => exact absurd ⟨hjobs, hidle⟩ h
    | cons group jobs =>
      have hstep : (step s (.take 0)).isSome := by
        rw [step, hjobs, hfirst]
        simp only
        split
        · rfl
        · rfl
      obtain ⟨t, ht⟩ := Option.isSome_iff_exists.mp hstep
      exact ⟨_, t, by simp, ht⟩

/-- `Run` returns one result for each group up to the quota: the workers go on until they have
left, each step leaves less to do, and what is returned then is the groups in some order. -/
structure OneResultEach (o : Orchestrator) (results : List (Option FuzzResult)) : Prop where
  returned : ∀ s, Reaches step (o.start results) s → s.done →
    (s.results.map resultLabel).Perm (((GroupFindings results).take o.maxTriage).map label)
  goes : ∀ s, Reaches step (o.start results) s → ¬s.done → ∃ m t, m ≠ .cancel ∧ step s m = some t
  ends : ∀ s m t, Reaches step (o.start results) s → step s m = some t → m ≠ .cancel →
    t.work < s.work

theorem oneResultEach_iff (o : Orchestrator) (results : List (Option FuzzResult)) :
    OneResultEach o results ↔ o.client = true ∨ (GroupFindings results).take o.maxTriage = [] := by
  have hstart : (o.start results).labels =
      (if o.client then (GroupFindings results).take o.maxTriage else []).map label := by
    rw [Pool.labels]
    exact (List.append_nil _).trans (List.append_nil _)
  have hinvariant : ∀ s, Reaches step (o.start results) s →
      s.labels.Perm (o.start results).labels ∧ s.workers.length = workerCount := by
    intro s hs
    refine ReachesUnder.invariant (I := fun s => s.labels.Perm (o.start results).labels ∧
      s.workers.length = workerCount) ⟨List.Perm.refl _, rfl⟩ ?_ hs
    intro t m u ht _ hu
    obtain ⟨hlabels, hlen, -⟩ := step_labels hu
    exact ⟨hlabels.trans ht.1, hlen.trans ht.2⟩
  have hdone : ∀ s : Pool, s.done → s.labels = s.results.map resultLabel := by
    rintro s ⟨hjobs, hidle⟩
    have hnone : s.workers.filterMap id = [] := List.filterMap_eq_nil_iff.mpr hidle
    rw [Pool.labels, hjobs, hnone]
    rfl
  constructor
  · intro h
    by_cases hclient : o.client = true
    · exact Or.inl hclient
    · right
      rw [if_neg hclient] at hstart
      have hleft : (o.start results).done := by
        refine ⟨if_neg hclient, fun w hw => List.eq_of_mem_replicate hw⟩
      have hperm := h.returned _ Relation.ReflTransGen.refl hleft
      have hnil := List.nil_perm.mp hperm
      exact List.map_eq_nil_iff.mp hnil
  · intro h
    have hjobs : (if o.client then (GroupFindings results).take o.maxTriage else []) =
        (GroupFindings results).take o.maxTriage := by
      rcases h with h | h
      · exact if_pos h
      · rw [h]
        exact ite_self []
    rw [hjobs] at hstart
    refine ⟨fun s hs hleft => ?_, fun s hs hleft => ?_, fun s m t hs ht hm => ?_⟩
    · rw [← hdone s hleft, ← hstart]
      exact (hinvariant s hs).1
    · exact exists_step (hinvariant s hs).2 hleft
    · exact (step_labels ht).2.2.resolve_right hm

theorem groupFindings_eq_nil_iff (results : List (Option FuzzResult)) :
    GroupFindings results = [] ↔ items results = [] := by
  obtain ⟨order, -, hmem, hgroups⟩ := groupFindings_spec results
  generalize GroupFindings results = groups at hgroups
  constructor
  · rintro rfl
    cases hgroups
    refine List.eq_nil_iff_forall_not_mem.mpr fun x hx => ?_
    exact List.not_mem_nil ((hmem _).mpr ⟨x, hx, rfl⟩)
  · intro h
    have horder : order = [] := by
      refine List.eq_nil_iff_forall_not_mem.mpr fun k hk => ?_
      obtain ⟨x, hx, -⟩ := (hmem k).mp hk
      rw [h] at hx
      cases hx
    rw [horder] at hgroups
    cases hgroups
    rfl

/-- The triage groups and judges all findings exactly when their defects are written apart, their
ids are different, and there is a client or nothing to judge. -/
theorem triage_partitions_iff (client : Bool) (maxTriage : ℤ) (results : List (Option FuzzResult)) :
    Partitions results (GroupFindings results) ∧
        OneResultEach (NewOrchestrator client maxTriage) results ↔
      KeysApart results ∧ (items results).Pairwise IdsApart ∧
        (client = true ∨ items results = []) := by
  have hpos : (NewOrchestrator client maxTriage).maxTriage ≠ 0 := by
    rw [NewOrchestrator]
    simp only
    split <;> omega
  have htake : (GroupFindings results).take (NewOrchestrator client maxTriage).maxTriage = [] ↔
      items results = [] := by
    rw [List.take_eq_nil_iff, or_iff_right hpos, groupFindings_eq_nil_iff]
  rw [partitions_iff, oneResultEach_iff, htake, and_assoc]
  exact Iff.rfl

/-- Two results of one endpoint whose findings have no ids. -/
def withoutIds : List (Option FuzzResult) :=
  [some ⟨ascii "GET", ascii "/a", [⟨[], ascii "r", []⟩], false⟩,
    some ⟨ascii "GET", ascii "/a", [⟨[], ascii "r", []⟩], false⟩]

theorem same_id_twice : ¬Partitions withoutIds (GroupFindings withoutIds) := by
  intro h
  have hids := (partitions_iff withoutIds).mp h
  have hpair : (items withoutIds).Pairwise IdsApart := hids.2
  have hitems : items withoutIds = [⟨⟨ascii "GET", ascii "/a", [⟨[], ascii "r", []⟩], false⟩, 0,
      ⟨[], ascii "r", []⟩⟩, ⟨⟨ascii "GET", ascii "/a", [⟨[], ascii "r", []⟩], false⟩, 0,
      ⟨[], ascii "r", []⟩⟩] := by
    decide
  rw [hitems, List.pairwise_pair, IdsApart, if_pos rfl, if_pos rfl] at hpair
  rcases hpair with hne | hne
  · exact hne rfl
  · exact hne rfl

end Swazz.Triage
