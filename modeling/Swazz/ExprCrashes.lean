import Swazz.ExprCalls

/-! What an expression can crash on: a negative group number that is given to `regexExtract`. -/
namespace Swazz.Expressions

open GoSlices
open SetVariables (Text Map Node Value cacheKey nondeterministic lookupVar)

/-! ### Indices and bounds -/

theorem IndexByte_of_nonneg {s : Text} {c : Char} (h : 0 ≤ IndexByte s c) :
    IndexByte s c < s.length := by
  unfold IndexByte at h ⊢
  split_ifs at h ⊢ with hc
  · exact_mod_cast List.idxOf_lt_length_of_mem hc
  · omega

theorem safe_pathPart (part : Text) : Safe (pathPart part) := by
  unfold pathPart
  dsimp only
  split_ifs with hstart hstop
  · have hlo := IndexByte_of_nonneg hstart
    have hhi : IndexByte part ']' < part.length :=
      IndexByte_of_nonneg (le_of_lt (lt_of_le_of_lt hstart hstop))
    refine Safe.bind (safe_slice (by omega) (by omega) (by omega)) fun inner _ => ?_
    split
    · exact Safe.bind (safe_slice (Int.le_refl 0) hstart (by omega)) fun _ _ => safe_ok _
    · exact safe_ok _
  · exact safe_ok _
  · exact safe_ok _

theorem safe_index {α ε : Type} {l : List α} {i : ℤ} (h0 : 0 ≤ i) (h : i < l.length) :
    Safe (index l i : Run ε α) := by
  intro hpanic
  rcases index_eq_panic.mp hpanic with hneg | hover <;> omega

theorem safe_elementAt (current : Any) (arrIdx : ℤ) : Safe (elementAt current arrIdx) := by
  unfold elementAt
  split
  · exact safe_ok _
  · split_ifs with h0
    · split
      · split_ifs with hlt
        · exact safe_index h0 hlt
        · exact safe_ok _
      · exact safe_ok _
    · exact safe_ok _

theorem safe_extractParts (parts : List Text) (current : Any) :
    Safe (extractParts parts current) := by
  induction parts generalizing current with
  | nil => exact safe_ok _
  | cons part rest ih =>
    rw [extractParts]
    refine Safe.bind (safe_pathPart part) fun p _ => ?_
    obtain ⟨key, arrIdx⟩ := p
    cases current with
    | obj m =>
      refine Safe.bind (safe_elementAt _ _) fun next _ => ?_
      cases next with
      | nil => exact safe_ok _
      | _ =>
        dsimp only
        split_ifs
        · exact safe_ok _
        · exact ih _
    | _ => exact safe_ok _

/-- A path is followed within the bounds of its parts and of the arrays. -/
theorem safe_extractJSONPath (data : List (Text × Any)) (path : Text) :
    Safe (extractJSONPath data path) :=
  safe_extractParts _ _

theorem safe_zeroBytes {hash : List ℕ} {left i : ℕ} (h : left + i ≤ hash.length) :
    Safe (zeroBytes hash left i) := by
  induction left generalizing i with
  | zero => exact safe_ok _
  | succ left ih =>
    rw [zeroBytes]
    refine Safe.bind (safe_index (by omega) (by omega)) fun b _ => ?_
    split_ifs
    · exact safe_ok _
    · exact ih (by omega)

/-- 64 digits are the 32 bytes, and with an odd number of them the last is within the bytes. -/
theorem safe_hasZeros {hash : List ℕ} {difficulty : ℕ} (hlen : hash.length = 32)
    (h : difficulty ≤ 64) : Safe (hasZeros hash difficulty) := by
  rw [hasZeros]
  refine Safe.bind (safe_zeroBytes (by omega)) fun matched _ => ?_
  split_ifs with hodd
  · exact Safe.bind (safe_index (by omega) (by omega)) fun b _ => safe_ok _
  · exact safe_ok _

theorem safe_searchNonce (lib : Library) (challenge : Text) {difficulty : ℕ}
    (h : difficulty ≤ 64) (left nonce : ℕ) :
    Safe (searchNonce lib challenge difficulty left nonce) := by
  induction left generalizing nonce with
  | zero => exact safe_error _
  | succ left ih =>
    rw [searchNonce]
    refine Safe.bind (safe_hasZeros (lib.Sum256 _).2 h) fun matched _ => ?_
    split_ifs
    · exact safe_ok _
    · exact ih _

theorem safe_solvePoW (lib : Library) (challenge : Text) (difficulty : ℤ) :
    Safe (solvePoW lib challenge difficulty) := by
  unfold solvePoW
  split_ifs with hneg hzero hover
  · exact safe_error _
  · exact safe_ok _
  · exact safe_error _
  · exact safe_searchNonce lib challenge (by omega) _ _

theorem safe_atoiOr (name arg : Text) : Safe (atoiOr name arg) := by
  unfold atoiOr
  split
  · exact safe_ok _
  · exact safe_error _

/-- The bounds are cut to the string before it is sliced, whatever integers they are. -/
theorem safe_substring (args : List Text) : Safe (substring args) := by
  unfold substring
  dsimp only
  split
  · refine Safe.bind (safe_atoiOr _ _) fun start _ => ?_
    refine Safe.bind (safe_atoiOr _ _) fun stop _ => ?_
    split_ifs <;> first | exact safe_ok _ | exact safe_slice (by omega) (by omega) (by omega)
  · exact safe_error _

theorem safe_takesOne {name : Text} {args : List Text} {f : Text → Evaluated Text}
    (h : ∀ a, Safe (f a)) : Safe (takesOne name args f) := by
  unfold takesOne
  split
  · exact h _
  · exact safe_error _

theorem safe_takesTwo {name : Text} {args : List Text} {f : Text → Text → Evaluated Text}
    (h : ∀ a b, Safe (f a b)) : Safe (takesTwo name args f) := by
  unfold takesTwo
  split
  · exact h _ _
  · exact safe_error _

theorem safe_jsonPath (lib : Library) (json path : Text) : Safe (jsonPath lib json path) := by
  unfold jsonPath
  split
  · exact safe_error _
  · refine Safe.bind (safe_extractJSONPath _ _) fun val _ => ?_
    split
    · exact safe_error _
    · exact safe_ok _

/-! ### The one call that crashes -/

/-- `regexExtract` with a negative group number, a pattern that compiles and a string that it
matches. -/
def NegativeGroup (lib : Library) (name : Text) (args : List Text) : Prop :=
  name = "regexExtract".toList ∧ ∃ s pattern group, args = [s, pattern, group] ∧
    ∃ find, lib.compile pattern = some find ∧ find s ≠ [] ∧ ∃ n < 0, Atoi group = some n

theorem extractGroup_panics (lib : Library) (s pattern : Text) (group : Option Text) :
    extractGroup lib s pattern group = .error .panic ↔
      ∃ find, lib.compile pattern = some find ∧ find s ≠ [] ∧ ∃ n < 0, group.bind Atoi = some n := by
  unfold extractGroup
  cases hre : lib.compile pattern with
  | none => exact iff_of_false nofun (by simp)
  | some find =>
    dsimp only
    by_cases hms : find s = []
    · rw [if_pos hms]
      exact iff_of_false nofun (by simp [hms])
    · rw [if_neg hms]
      have hpos : 0 < (find s).length := List.length_pos_of_ne_nil hms
      have hgroup : (∃ find', some find = some find' ∧ find' s ≠ [] ∧
          ∃ n < 0, group.bind Atoi = some n) ↔ (group.bind Atoi).getD 1 < 0 := by
        cases group.bind Atoi <;> simp [hms]
      rw [hgroup]
      split_ifs with hlt
      · rw [index_eq_panic]
        omega
      · rw [index_eq_panic]
        omega

theorem regexExtract_panics (lib : Library) (args : List Text) :
    regexExtract lib args = .error .panic ↔ NegativeGroup lib "regexExtract".toList args := by
  unfold regexExtract NegativeGroup
  split
  · rw [extractGroup_panics]
    simp
  · rw [extractGroup_panics]
    simp
  · rename_i hargs
    refine iff_of_false nofun ?_
    rintro ⟨-, s, pattern, group, heq, -⟩
    exact hargs s pattern group heq

theorem safe_ite {c : Prop} [Decidable c] {a b : Evaluated Text} (ha : c → Safe a)
    (hb : Safe b) : Safe (if c then a else b) := by
  by_cases hc : c
  · rw [if_pos hc]
    exact ha hc
  · rw [if_neg hc]
    exact hb

theorem safe_callBuiltin {lib : Library} {name : Text} (drawn : ℕ) (args : List Text)
    (hname : name ≠ "regexExtract".toList) : Safe (callBuiltin lib drawn name args) := by
  have hone : ∀ f : Text → Text, Safe (takesOne name args fun a => return f a) :=
    fun _ => safe_takesOne fun _ => safe_ok _
  unfold callBuiltin
  -- the functions stand in the order of the source
  refine safe_ite (fun _ => safe_ite (fun _ => safe_error _) (safe_ok _)) ?_
  refine safe_ite (fun _ => safe_ite (fun _ => safe_error _) ?_) ?_
  · cases lib.entropy drawn with
    | none => exact safe_error _
    | some b => exact safe_ok _
  refine safe_ite (fun _ => hone _) ?_
  refine safe_ite (fun _ => hone _) ?_
  refine safe_ite (fun _ => safe_takesTwo fun _ _ => safe_ok _) ?_
  refine safe_ite (fun _ => hone _) ?_
  refine safe_ite (fun _ => hone _) ?_
  refine safe_ite (fun _ => safe_ok _) ?_
  refine safe_ite (fun _ => hone _) ?_
  refine safe_ite (fun _ => hone _) ?_
  refine safe_ite (fun _ => hone _) ?_
  refine safe_ite (fun _ => safe_substring args) ?_
  refine safe_ite (fun _ => safe_takesTwo fun u param => ?_) ?_
  · cases lib.parseURL u with
    | none => exact safe_error _
    | some get => exact safe_ok _
  refine safe_ite (fun h => absurd h hname) ?_
  refine safe_ite (fun _ => safe_takesTwo (safe_jsonPath lib)) ?_
  refine safe_ite (fun _ => safe_takesTwo fun challenge difficulty => ?_) (safe_error _)
  exact Safe.bind (safe_atoiOr _ _) fun n _ => safe_solvePoW lib challenge n

/-- Of all calls of all built-in functions this one alone crashes. -/
theorem callBuiltin_panics (lib : Library) (drawn : ℕ) (name : Text) (args : List Text) :
    callBuiltin lib drawn name args = .error .panic ↔ NegativeGroup lib name args := by
  by_cases hname : name = "regexExtract".toList
  · subst hname
    exact regexExtract_panics lib args
  · refine iff_of_false (safe_callBuiltin drawn args hname) ?_
    exact fun h => hname h.1

/-! ### Evaluation -/

/-- An evaluation that began in `s` crashed if one of the calls that it made is of this kind. -/
def CrashesBy {α : Type} (lib : Library) (s : State) (r : Evaluated α × State) : Prop :=
  ∃ made, r.2.calls = s.calls ++ made ∧
    (r.1 = .error .panic ↔ ∃ c ∈ made, NegativeGroup lib c.1 c.2)

section

variable (lib : Library) (vars : Map Value)

theorem crashesBy_done {α : Type} {s : State} {r : Evaluated α} (h : Safe r) :
    CrashesBy lib s (r, s) := by
  refine ⟨[], (List.append_nil _).symm, iff_of_false h ?_⟩
  rintro ⟨c, hc, -⟩
  cases hc

theorem crashesBy_call {s s' : State} {made : List (Text × List Text)}
    (hcalls : s'.calls = s.calls ++ made) (hmade : ¬ ∃ c ∈ made, NegativeGroup lib c.1 c.2)
    (name : Text) (args : List Text) (key : Text) :
    CrashesBy lib s (s'.call lib name args key) := by
  refine ⟨made ++ [(name, args)], ?_, ?_⟩
  · rw [State.call, hcalls, List.append_assoc]
  · rw [State.call, callBuiltin_panics]
    constructor
    · exact fun h => ⟨(name, args), by simp, h⟩
    · rintro ⟨c, hc, h⟩
      rcases List.mem_append.mp hc with hc | hc
      · exact absurd ⟨c, hc, h⟩ hmade
      · rw [List.mem_singleton.mp hc] at h
        exact h

mutual

theorem evalExpr_panics : ∀ (node : Node) (s : State),
    CrashesBy lib s (evalExpr lib vars node s)
  | .literal name, s => by
    rw [evalExpr]
    exact crashesBy_done lib (safe_ok _)
  | .varRef name, s => by
    rw [evalExpr]
    split
    · exact crashesBy_done lib (safe_error _)
    · exact crashesBy_done lib (safe_ok _)
  | .call name args, s => by
    rw [evalExpr]
    split
    · exact crashesBy_done lib (safe_ok _)
    · obtain ⟨made, hcalls, hpanic⟩ := evalArgs_panics args name 1 s
      generalize evalArgs lib vars args name 1 s = r at hcalls hpanic ⊢
      obtain ⟨e | vs, s'⟩ := r
      · refine ⟨made, hcalls, ?_⟩
        rw [← hpanic]
        simp
      · exact crashesBy_call lib hcalls (fun h => safe_ok vs (hpanic.mpr h)) name vs _

theorem evalArgs_panics : ∀ (args : List Node) (function : Text) (i : ℕ) (s : State),
    CrashesBy lib s (evalArgs lib vars args function i s)
  | [], function, i, s => by
    rw [evalArgs]
    exact crashesBy_done lib (safe_ok _)
  | a :: args, function, i, s => by
    rw [evalArgs]
    obtain ⟨made, hcalls, hpanic⟩ := evalExpr_panics a s
    generalize evalExpr lib vars a s = r at hcalls hpanic ⊢
    obtain ⟨(e | _) | v, s'⟩ := r
    · refine ⟨made, hcalls, ?_⟩
      rw [← hpanic]
      simp
    · exact ⟨made, hcalls, iff_of_true rfl (hpanic.mp rfl)⟩
    · dsimp only at hcalls ⊢
      obtain ⟨made', hcalls', hpanic'⟩ := evalArgs_panics args function (i + 1) s'
      generalize evalArgs lib vars args function (i + 1) s' = r at hcalls' hpanic' ⊢
      have hmade : ¬ ∃ c ∈ made, NegativeGroup lib c.1 c.2 :=
        fun h => safe_ok v (hpanic.mpr h)
      have hboth : (∃ c ∈ made ++ made', NegativeGroup lib c.1 c.2) ↔
          ∃ c ∈ made', NegativeGroup lib c.1 c.2 := by
        simp only [List.mem_append, or_and_right, exists_or, hmade, false_or]
      obtain ⟨rest, s''⟩ := r
      have hall : s''.calls = s.calls ++ (made ++ made') := by
        rw [hcalls', hcalls, List.append_assoc]
      refine ⟨made ++ made', ?_, ?_⟩
      · cases rest <;> exact hall
      · rw [hboth, ← hpanic']
        cases rest <;> simp

end

/-- No text crashes the parser, and what it reads crashes the evaluation exactly if one of the
calls made is `regexExtract` with a negative group number, where its pattern matches. -/
theorem expression_crashes_iff (src : Text) (s : State) :
    (∃ e, parseExpression src = .error (.error e)) ∨
      ∃ node, parseExpression src = .ok node ∧ CrashesBy lib s (evalExpr lib vars node s) := by
  rw [parseExpression_eq]
  cases SetVariables.parseExpression src with
  | error e => exact Or.inl ⟨e, rfl⟩
  | ok node => exact Or.inr ⟨node, rfl, evalExpr_panics lib vars node s⟩

end

end Swazz.Expressions
