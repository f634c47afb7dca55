import Mathlib.Data.List.GetD
import Swazz.Prefilter

/-! The filter by bigrams rejects no needle that occurs, whenever the index was built. -/
namespace Swazz.Analyzer

open Utf8 AnalysisInput

variable {a b c d : Byte} {s n body haystack needle : Text}

/-! Case. -/

theorem foldl_lower (done dst s : Text) (h : dst.length = s.length) :
    (s.zipIdx done.length).foldl (fun out p => out.set p.2 (lowerByte p.1)) (done ++ dst) =
      done ++ s.map lowerByte := by
  induction s generalizing done dst with
  | nil =>
    rw [List.length_nil] at h
    rw [List.length_eq_zero_iff.mp h]
    rfl
  | cons c s ih =>
    obtain ⟨d, dst, rfl⟩ := List.exists_cons_of_length_pos (by rw [h]; exact Nat.succ_pos _)
    have hnext := ih (done ++ [lowerByte c]) dst (Nat.succ.inj h)
    rw [List.length_append, List.length_singleton] at hnext
    rw [List.zipIdx_cons, List.foldl_cons, List.set_append_right _ _ (Nat.le_refl _), Nat.sub_self,
      List.set_cons_zero, List.append_cons, hnext, List.map_cons, List.append_assoc,
      List.singleton_append]

theorem lowerASCIIInto_eq {dst : Text} (h : dst.length = s.length) :
    lowerASCIIInto dst s = s.map lowerByte := foldl_lower [] dst s h

theorem lowerNeedle_eq (needle : Text) : lowerNeedle needle = needle.map lowerByte := by
  rw [lowerNeedle]
  split
  · exact lowerASCIIInto_eq rfl
  · rename_i hnone
    have hid : needle.map lowerByte = needle.map id := by
      refine List.map_congr_left fun c hc => if_neg fun hupper => hnone ?_
      exact List.any_eq_true.mpr ⟨c, hc, hupper⟩
    rw [hid, List.map_id]

theorem length_getLoweredBuf (pooled : Text) (n : ℕ) : (getLoweredBuf pooled n).length = n := by
  rw [getLoweredBuf]
  split
  · exact List.length_replicate
  · exact List.length_take_of_le (by omega)

/-! The plain search. -/

theorem equalFold_iff : equalFold c d = true ↔ lowerByte c = lowerByte d := by
  rw [equalFold, ← lowerByte, ← lowerByte, Bool.or_eq_true, beq_iff_eq, beq_iff_eq]
  constructor
  · rintro (rfl | h)
    · rfl
    · exact h
  · exact Or.inr

/-- The first byte is compared with the two cases of a letter. -/
theorem first_iff : (c == if isUpperASCII d then d + 32 else d) ||
      (c == if isLowerASCII d then d - 32 else d) ↔ lowerByte c = lowerByte d := by
  simp only [lowerByte, isUpperASCII, isLowerASCII, Bool.or_eq_true, beq_iff_eq, Bool.and_eq_true,
    decide_eq_true_eq, Fin.ext_iff, Fin.le_def, apply_ite Fin.val, Fin.val_add, Fin.sub_def]
  have hc := c.isLt
  have hd := d.isLt
  have h65 : ((65 : Byte) : ℕ) = 65 := rfl
  have h90 : ((90 : Byte) : ℕ) = 90 := rfl
  have h97 : ((97 : Byte) : ℕ) = 97 := rfl
  have h122 : ((122 : Byte) : ℕ) = 122 := rfl
  have h32 : ((32 : Byte) : ℕ) = 32 := rfl
  rw [h65, h90, h97, h122, h32]
  split <;> split <;> split <;> omega

theorem infix_iff_getD : n <:+: s ↔ ∃ k, n.length + k ≤ s.length ∧
    ∀ i < n.length, s.getD (k + i) 0 = n.getD i 0 := by
  rw [List.infix_iff_getElem?]
  refine exists_congr fun k => and_congr_right fun hk => forall_congr' fun i => ?_
  refine forall_congr' fun hi => ?_
  rw [List.getElem?_eq_getElem (by omega : i + k < s.length), List.getD_eq_getElem _ _ hi,
    List.getD_eq_getElem _ _ (by omega : k + i < s.length), Option.some_inj]
  simp only [Nat.add_comm i k]

theorem getD_lower {i : ℕ} (h : i < s.length) :
    (s.map lowerByte).getD i 0 = lowerByte (s.getD i 0) := by
  rw [List.getD_eq_getElem _ _ (by rwa [List.length_map]), List.getD_eq_getElem _ _ h,
    List.getElem_map]

theorem containsFoldASCII_eq (haystack needle : Text) : containsFoldASCII haystack needle =
    Contains (haystack.map lowerByte) (needle.map lowerByte) := by
  rw [Bool.eq_iff_iff, Contains, decide_eq_true_eq, infix_iff_getD, containsFoldASCII,
    List.length_map, List.length_map]
  split
  · rename_i hzero
    simp only [true_iff]
    exact ⟨0, by omega, fun i hi => by omega⟩
  · rename_i hpos
    split
    · rename_i hshort
      constructor
      · intro h
        cases h
      · rintro ⟨k, hk, -⟩
        omega
    · rename_i hlong
      simp only [List.any_eq_true, List.mem_range, Bool.and_eq_true, List.all_eq_true,
        List.mem_range'_1, first_iff, equalFold_iff]
      constructor
      · rintro ⟨k, hk, hfirst, hrest⟩
        refine ⟨k, by omega, fun i hi => ?_⟩
        rw [getD_lower (by omega), getD_lower hi]
        cases i with
        | zero => exact hfirst
        | succ i => exact hrest (i + 1) ⟨by omega, by omega⟩
      · rintro ⟨k, hk, hall⟩
        refine ⟨k, by omega, ?_, fun j hj => ?_⟩
        · have hfirst := hall 0 (by omega)
          rw [getD_lower (by omega), getD_lower (by omega)] at hfirst
          exact hfirst
        · have hj := hall j (by omega)
          rw [getD_lower (by omega), getD_lower (by omega)] at hj
          exact hj

/-! The index. -/

theorem bit_iff (x : BitVec 64) (i : ℕ) :
    (x &&& 1#64 <<< i != 0#64) = (x.getLsbD i && decide (i < 64)) := by
  have htwo : 1#64 <<< i = BitVec.twoPow 64 i := rfl
  rw [htwo, BitVec.and_twoPow]
  by_cases hi : i < 64
  · cases x.getLsbD i with
    | false => simp
    | true =>
      have hne : BitVec.twoPow 64 i ≠ 0#64 := by
        intro h
        have hbit := congrArg (fun y => y.getLsbD i) h
        simp [hi] at hbit
      simp [hi, hne]
  · have hout : x.getLsbD i = false := BitVec.getLsbD_of_ge x i (by omega)
    simp [hout]

theorem has_set (bg : bigramIndex) :
    (bg.set a b).has c d = (bg.has c d || (decide (a = c) && decide (b = d))) := by
  have hmod : ∀ x y : Byte, pair x y % 64 < 64 := fun x y => Nat.mod_lt _ (by decide)
  have hword : (bg.set a b).word c d = if pair a b / 64 = pair c d / 64 then
      bg.word a b ||| 1#64 <<< (pair a b % 64) else bg.word c d := by
    rw [bigramIndex.word, bigramIndex.set]
    exact Vector.getElem_set (pair_lt a b) (pair_lt c d)
  have hpair : a = c ∧ b = d ↔
      pair a b / 64 = pair c d / 64 ∧ pair a b % 64 = pair c d % 64 := by
    simp only [pair, Fin.ext_iff]
    omega
  have hdecide : decide (a = c ∧ b = d) = decide (pair a b / 64 = pair c d / 64 ∧
      pair a b % 64 = pair c d % 64) := decide_eq_decide.mpr hpair
  rw [bigramIndex.has, bigramIndex.has, bit_iff, bit_iff, hword, decide_eq_true (hmod c d),
    Bool.and_true, Bool.and_true, ← Bool.decide_and, hdecide]
  by_cases hsame : pair a b / 64 = pair c d / 64
  · have hw : bg.word a b = bg.word c d := by
      simp only [bigramIndex.word, hsame]
    have htwo : 1#64 <<< (pair a b % 64) = BitVec.twoPow 64 (pair a b % 64) := rfl
    rw [if_pos hsame, hw, BitVec.getLsbD_or, htwo, BitVec.getLsbD_twoPow,
      decide_eq_true (hmod a b)]
    simp [hsame]
  · simp [hsame]

/-- What was set, and what was there. -/
theorem has_foldl (bigrams : List ℕ) (f g : ℕ → Byte) (bg : bigramIndex) :
    (bigrams.foldl (fun bg i => bg.set (f i) (g i)) bg).has a b =
      (bg.has a b || bigrams.any fun i => decide (f i = a) && decide (g i = b)) := by
  induction bigrams generalizing bg with
  | nil => rw [List.foldl_nil, List.any_nil, Bool.or_false]
  | cons i bigrams ih => rw [List.foldl_cons, ih, has_set, List.any_cons, Bool.or_assoc]

/-- The index of a body holds its bigrams and no others. -/
def Indexes (bg : bigramIndex) (body : Text) : Prop :=
  ∀ a b, bg.has a b = true ↔ ∃ i, i + 1 < body.length ∧ body.getD i 0 = a ∧ body.getD (i + 1) 0 = b

theorem has_cleared (bg : bigramIndex) : (bigramIndex.mk (bg.words.map fun _ => 0#64)).has a b =
    false := by
  have hzero : (bigramIndex.mk (bg.words.map fun _ => 0#64)).word a b = 0#64 := by
    rw [bigramIndex.word]
    exact Vector.getElem_map _ (pair_lt a b)
  rw [bigramIndex.has, hzero, BitVec.zero_and]
  rfl

theorem indexes_foldl (bg : bigramIndex) (body : Text) :
    Indexes ((List.range (body.length - 1)).foldl
      (fun bg i => bg.set (body.getD i 0) (body.getD (i + 1) 0))
      ⟨bg.words.map fun _ => 0#64⟩) body := by
  intro a b
  rw [has_foldl, has_cleared, Bool.false_or]
  simp only [List.any_eq_true, List.mem_range, Bool.and_eq_true, decide_eq_true_eq]
  constructor
  · rintro ⟨i, hi, hab⟩
    exact ⟨i, by omega, hab⟩
  · rintro ⟨i, hi, hab⟩
    exact ⟨i, by omega, hab⟩

/-- Each pair of neighbours of a text that occurs is in the index. -/
theorem has_of_occurs {bg : bigramIndex} (h : Indexes bg body) (hn : n <:+: body) {i : ℕ}
    (hi : i + 1 < n.length) : bg.has (n.getD i 0) (n.getD (i + 1) 0) = true := by
  obtain ⟨k, hk, hall⟩ := infix_iff_getD.mp hn
  exact (h _ _).mpr ⟨k + i, by omega, hall i (by omega), hall (i + 1) hi⟩

theorem mayContain_of_occurs {bg : bigramIndex} (h : Indexes bg body) (hn : n <:+: body) :
    mayContain bg n = true := by
  rw [mayContain]
  split
  · rename_i htwo
    have hfirst := has_of_occurs h hn (i := 0) (by omega)
    rw [Nat.zero_add] at hfirst
    rw [hfirst]
    simp only [Bool.not_true, Bool.false_eq_true, if_false]
    split
    · have hlast := has_of_occurs h hn (i := n.length - 2) (by omega)
      have hminus : n.length - 2 + 1 = n.length - 1 := by omega
      have hminus' : n.length - 1 - 1 = n.length - 2 := by omega
      rw [hminus] at hlast
      rw [hminus', hlast]
      simp only [Bool.not_true, Bool.false_eq_true, if_false]
      split
      · have hmid := has_of_occurs h hn (i := n.length / 2 - 1) (by omega)
        have hplus : n.length / 2 - 1 + 1 = n.length / 2 := by omega
        rw [hplus] at hmid
        exact hmid
      · rfl
    · rfl
  · rfl

/-! Runs. -/

/-- The views of an input are those of its body. -/
structure Cached (input : AnalysisInput) : Prop where
  lowered : input.loweredDone → input.lowered = some (input.ResponseBody.map lowerByte)
  bigrams : input.bigramsDone →
    ∃ bg, input.bigrams = some bg ∧ Indexes bg (input.ResponseBody.map lowerByte)

variable {input : AnalysisInput} (pools : Pools)

theorem lowerBody_spec (h : Cached input) :
    (input.lowerBody pools).1 = input.ResponseBody.map lowerByte ∧
      Cached (input.lowerBody pools).2 ∧
      (input.lowerBody pools).2.ResponseBody = input.ResponseBody := by
  rw [lowerBody]
  by_cases hdone : input.loweredDone = true
  · simp only [hdone, if_true]
    rw [h.lowered hdone]
    exact ⟨rfl, h, trivial⟩
  · have hlower := lowerASCIIInto_eq (s := input.ResponseBody)
      (length_getLoweredBuf pools.lowered input.ResponseBody.length)
    simp only [hdone, if_false, hlower, Bool.false_eq_true]
    exact ⟨rfl, ⟨fun _ => rfl, h.bigrams⟩, trivial⟩

theorem bodyBigrams_spec (h : Cached input) :
    Indexes (input.bodyBigrams pools).1 (input.ResponseBody.map lowerByte) ∧
      Cached (input.bodyBigrams pools).2 ∧
      (input.bodyBigrams pools).2.ResponseBody = input.ResponseBody := by
  rw [bodyBigrams]
  by_cases hdone : input.bigramsDone = true
  · obtain ⟨bg, hbg, hindexes⟩ := h.bigrams hdone
    simp only [hdone, if_true]
    rw [hbg]
    exact ⟨hindexes, h, trivial⟩
  · obtain ⟨hbody, hcached, hsame⟩ := lowerBody_spec pools h
    have hindexes := indexes_foldl pools.bigrams (input.ResponseBody.map lowerByte)
    simp only [hdone, if_false, Bool.false_eq_true, hbody]
    refine ⟨hindexes, ⟨hcached.lowered, fun _ => ⟨_, rfl, ?_⟩⟩, hsame⟩
    simp only [hsame]
    exact hindexes

theorem containsAnyLower_spec (h : Cached input) (needles : List Text) :
    (input.containsAnyLower pools needles).1 = containsAnyFoldASCII input.ResponseBody needles ∧
      Cached (input.containsAnyLower pools needles).2 ∧
      (input.containsAnyLower pools needles).2.ResponseBody = input.ResponseBody := by
  obtain ⟨hbody, hcached, hsame⟩ := lowerBody_spec pools h
  have hcounted : Cached { (input.lowerBody pools).2 with
      needleChecks := (input.lowerBody pools).2.needleChecks + needles.length } :=
    ⟨hcached.lowered, hcached.bigrams⟩
  have hplain : (needles.any fun needle =>
      Contains (input.ResponseBody.map lowerByte) (lowerNeedle needle)) =
        containsAnyFoldASCII input.ResponseBody needles := by
    rw [containsAnyFoldASCII]
    refine congrArg needles.any (funext fun needle => ?_)
    rw [lowerNeedle_eq, containsFoldASCII_eq]
  rw [AnalysisInput.containsAnyLower]
  simp only [hbody]
  split
  · obtain ⟨hindexes, hcached', hsame'⟩ := bodyBigrams_spec pools hcounted
    refine ⟨?_, hcached', hsame'.trans hsame⟩
    rw [← hplain]
    refine congrArg needles.any (funext fun needle => ?_)
    by_cases hcontains : lowerNeedle needle <:+: input.ResponseBody.map lowerByte
    · have hoccurs : lowerNeedle needle <:+:
          (input.lowerBody pools).2.ResponseBody.map lowerByte := by
        rw [hsame]
        exact hcontains
      rw [mayContain_of_occurs hindexes hoccurs, Bool.true_and]
    · rw [Contains, decide_eq_false hcontains, Bool.and_false]
  · exact ⟨hplain, hcounted, hsame⟩

theorem cached_of_empty (h : input.loweredDone = false) (h' : input.bigramsDone = false) :
    Cached input := by
  constructor
  · intro hdone
    rw [h] at hdone
    cases hdone
  · intro hdone
    rw [h'] at hdone
    cases hdone

/-- The answers of a run are those of the plain search, whatever was called before. -/
theorem run_eq (h : Cached input) (calls : List (Pools × Call)) :
    input.run calls = calls.filterMap fun call =>
      match call.2 with
      | .containsAnyLower needles => some (containsAnyFoldASCII input.ResponseBody needles)
      | _ => none := by
  induction calls generalizing input with
  | nil => rfl
  | cons call calls ih =>
    obtain ⟨pools, call⟩ := call
    cases call with
    | containsAnyLower needles =>
      obtain ⟨hanswer, hcached, hsame⟩ := containsAnyLower_spec pools h needles
      rw [run, hanswer, ih hcached, hsame]
      rfl
    | lowerBody =>
      obtain ⟨-, hcached, hsame⟩ := lowerBody_spec pools h
      rw [run, ih hcached, hsame]
      rfl
    | bodyBigrams =>
      obtain ⟨-, hcached, hsame⟩ := bodyBigrams_spec pools h
      rw [run, ih hcached, hsame]
      rfl
    | release =>
      rw [run, ih (cached_of_empty rfl rfl)]
      rfl

/-- The prefilter answers every call like the plain search that ignores ASCII case. -/
theorem containsAnyLower_exact (ResponseBody : Text) (calls : List (Pools × Call)) :
    (newInput ResponseBody).run calls = calls.filterMap fun call =>
      match call.2 with
      | .containsAnyLower needles => some (containsAnyFoldASCII ResponseBody needles)
      | _ => none :=
  run_eq (cached_of_empty rfl rfl) calls

end Swazz.Analyzer
