import Swazz.FirstOfEach
import Swazz.Classifying

/-! What a collector keeps of a sequence of results. -/
namespace Swazz.Classifying

open Utf8
open FirstOfEach

def defectKey (f : Finding) : DefectKey := ⟨f.ruleID, f.method, f.endpoint⟩

/-- All findings of a result: that of its status, and those of the analyzers. -/
def listed (t : Tables) (c : Classifier) (r : FuzzResult) : List Finding :=
  (Classify t c r).toList ++ r.analyzerFindings.map (analyzerFinding t r)

/-- All findings that no ignore rule matches. -/
def reported (t : Tables) (c : Classifier) (results : List FuzzResult) : List Finding :=
  (results.flatMap (listed t c)).filter fun f => !IsIgnored f c.ignoreRules

theorem defectKey_cutBody (f : Finding) : defectKey (cutBody f) = defectKey f := by
  rw [cutBody]
  split
  · split <;> rfl
  · rfl

theorem defectKey_status {t : Tables} {c : Classifier} {r : FuzzResult} {f : Finding}
    (h : Classify t c r = some f) : defectKey f = ⟨RuleIDForResult r, r.method, r.endpoint⟩ := by
  rw [Classify] at h
  dsimp only at h
  split at h
  · cases h
  · rw [← Option.some.inj h]
    rfl

/-- The collector holds the first findings of each defect among those seen. -/
structure Holds (seen : List Finding) (col : Collector) : Prop where
  tells : Tells maxFindingsPerDefect defectKey col.defectCounts seen
  findings : col.findings = (firsts maxFindingsPerDefect defectKey seen).map cutBody

theorem holds_new : Holds [] newCollector := ⟨tells_nil, rfl⟩

theorem Holds.keep {seen : List Finding} {col : Collector} (h : Holds seen col) {f : Finding}
    (hroom : col.defectCounts (defectKey f) < maxFindingsPerDefect) :
    Holds (seen ++ [f]) (col.keep f) := by
  obtain ⟨htells, hfirsts⟩ := h.tells.count hroom
  have hkey : defectKey (cutBody f) = defectKey f := defectKey_cutBody f
  constructor
  · rw [← hkey] at htells
    exact htells
  · rw [hfirsts, List.map_append, ← h.findings]
    rfl

theorem Holds.skip {seen : List Finding} {col : Collector} (h : Holds seen col) {f : Finding}
    (hfull : maxFindingsPerDefect ≤ col.defectCounts (defectKey f)) :
    Holds (seen ++ [f]) col := by
  obtain ⟨htells, hfirsts⟩ := h.tells.skip hfull
  exact ⟨htells, h.findings.trans (congrArg _ hfirsts.symm)⟩

theorem full_iff (col : Collector) (rule method endpoint : Text) :
    col.full rule method endpoint ↔
      maxFindingsPerDefect ≤ col.defectCounts ⟨rule, method, endpoint⟩ := by
  rw [Collector.full, decide_eq_true_eq, ge_iff_le]

variable {t : Tables} {c : Classifier} {seen : List Finding} {col : Collector}

/-- A finding is kept where it is not ignored and its defect has room. -/
theorem Holds.offer (h : Holds seen col) {f : Finding} {rule method endpoint : Text}
    (hkey : defectKey f = ⟨rule, method, endpoint⟩) (rules : List IgnoreRule) :
    Holds (seen ++ [f].filter fun f => !IsIgnored f rules)
      (if col.full rule method endpoint then col
        else if IsIgnored f rules then col else col.keep f) := by
  by_cases hignored : IsIgnored f rules
  · have hnone : ([f].filter fun f => !IsIgnored f rules) = [] := by simp [hignored]
    rw [hnone, List.append_nil, if_pos hignored, ite_self]
    exact h
  · have hone : ([f].filter fun f => !IsIgnored f rules) = [f] := by simp [hignored]
    rw [hone, if_neg hignored]
    by_cases hfull : col.full rule method endpoint
    · rw [if_pos hfull]
      exact h.skip (hkey ▸ (full_iff ..).mp hfull)
    · rw [if_neg hfull]
      refine h.keep ?_
      rw [full_iff, Nat.not_le] at hfull
      exact hkey ▸ hfull

/-- The test before classification is that of the finding which comes of it. -/
theorem Holds.addStatus (h : Holds seen col) (r : FuzzResult) :
    Holds (seen ++ (Classify t c r).toList.filter fun f => !IsIgnored f c.ignoreRules)
      (col.addStatus t c r) := by
  rw [Collector.addStatus]
  cases hclassify : Classify t c r with
  | none =>
    rw [Option.toList_none, List.filter_nil, List.append_nil, ite_self]
    exact h
  | some f => exact h.offer (defectKey_status hclassify) c.ignoreRules

theorem Holds.addAnalyzer (h : Holds seen col) (r : FuzzResult) (af : AnalysisFinding) :
    Holds (seen ++ [analyzerFinding t r af].filter fun f => !IsIgnored f c.ignoreRules)
      (Collector.addAnalyzer t c r col af) :=
  h.offer rfl c.ignoreRules

theorem Holds.addAnalyzers (h : Holds seen col) (r : FuzzResult) (afs : List AnalysisFinding) :
    Holds (seen ++ (afs.map (analyzerFinding t r)).filter fun f => !IsIgnored f c.ignoreRules)
      (afs.foldl (Collector.addAnalyzer t c r) col) := by
  induction afs generalizing seen col with
  | nil => simpa using h
  | cons af afs ih =>
    have hstep := ih (h.addAnalyzer (t := t) (c := c) r af)
    rw [List.append_assoc, ← List.filter_append] at hstep
    exact hstep

theorem Holds.add (h : Holds seen col) (r : FuzzResult) :
    Holds (seen ++ (listed t c r).filter fun f => !IsIgnored f c.ignoreRules)
      (col.add t c r) := by
  rw [listed, List.filter_append, ← List.append_assoc]
  exact (h.addStatus r).addAnalyzers r r.analyzerFindings

theorem Holds.addAll (h : Holds seen col) (results : List FuzzResult) :
    Holds (seen ++ reported t c results) (results.foldl (Collector.add t c) col) := by
  induction results generalizing seen col with
  | nil => simpa [reported] using h
  | cons r results ih =>
    have hstep := ih (h.add (t := t) (c := c) r)
    rw [List.append_assoc, reported, ← List.filter_append] at hstep
    rw [reported, List.flatMap_cons]
    exact hstep

/-- Adding results one at a time keeps the first findings of each defect among those that are not
ignored, each with its body cut. -/
theorem collector_exact (t : Tables) (c : Classifier) (results : List FuzzResult) :
    ClassifyAll t c results =
      (firsts maxFindingsPerDefect defectKey (reported t c results)).map cutBody :=
  (holds_new.addAll results).findings

/-- The level of an analyzer's finding is not one of those that a classifier resolves: `ignore`
stays. -/
theorem ignore_level_kept :
    let t : Tables := ⟨fun _ => [], fun _ _ _ _ => [], fun _ _ _ _ => [], fun _ => none⟩
    let af : AnalysisFinding := ⟨ascii "swazz/rce-leak", SeverityIgnore, [], [], [], []⟩
    let r : FuzzResult := ⟨[], ascii "/a", [], ascii "GET", [], 200, 0, .nil, .nil, [], 0, [af]⟩
    ClassifyAll t (new t none) [r] ≠ (firsts maxFindingsPerDefect defectKey
      ((reported t (new t none) [r]).filter fun f => f.level ≠ SeverityIgnore)).map cutBody := by
  decide

end Swazz.Classifying
