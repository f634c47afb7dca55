import Swazz.AnchoredSearch
import Swazz.PrefilterExact

/-! The anchored searches find what the plain patterns find. -/
namespace Swazz.Analyzer

open Utf8 GoStrings Regexes GoRegexp AnalysisInput

variable {body s w : Text} {b first : Byte} {r : Option ℕ} {canStart : ℕ → Bool}
variable {p : Regex RuneClass} {left : Option Chunk}

/-! ### The scan -/

theorem IndexByte_cons (b : Byte) (s : Text) (first : Byte) : IndexByte (b :: s) first =
    if b = first then some 0 else (IndexByte s first).map (· + 1) := by
  rw [IndexByte, List.findIdx?_cons]
  simp only [decide_eq_true_eq]
  rfl

def shift (n : ℕ) (loc : ℕ × ℕ) : ℕ × ℕ := (n + loc.1, n + loc.2)

theorem findFromAt_end (anchored : Regex RuneClass) :
    findFromAt body anchored first canStart body.length = none := by
  rw [findFromAt, if_neg (Nat.lt_irrefl _)]

/-- One byte of the scan: the pattern is tried, or the byte is passed over. -/
theorem findFromAt_step {pre : Text} (anchored : Regex RuneClass) (hbody : body = pre ++ b :: s) :
    findFromAt body anchored first canStart pre.length =
      if b = first then
        (if canStart pre.length then (FindIndex anchored (b :: s)).map (shift pre.length)
          else none).or (findFromAt body anchored first canStart (pre.length + 1))
      else findFromAt body anchored first canStart (pre.length + 1) := by
  have hlength : body.length = pre.length + (s.length + 1) := by
    rw [hbody, List.length_append, List.length_cons]
  have hdrop : body.drop pre.length = b :: s := by rw [hbody, List.drop_left]
  have htail : body.drop (pre.length + 1) = s := by
    rw [← List.drop_drop, hdrop, List.drop_one, List.tail_cons]
  rw [findFromAt, if_pos (by omega), hdrop, IndexByte_cons]
  by_cases hb : b = first
  · rw [if_pos hb, if_pos hb]
    dsimp only
    rw [Nat.add_zero, hdrop]
    cases canStart pre.length with
    | false => rfl
    | true =>
      rw [if_pos rfl, if_pos rfl]
      cases FindIndex anchored (b :: s) with
      | none => rfl
      | some loc => rfl
  · rw [if_neg hb, if_neg hb, findFromAt, htail]
    cases s with
    | nil =>
      rw [List.length_nil] at hlength
      rw [if_neg (by omega)]
      rfl
    | cons c s =>
      rw [List.length_cons] at hlength
      rw [if_pos (by omega)]
      cases IndexByte (c :: s) first with
      | none => rfl
      | some j =>
        have hadd : pre.length + (j + 1) = pre.length + 1 + j := by omega
        rw [Option.map_some]
        dsimp only
        rw [hadd]

theorem findFromAt_skip {pre : Text} (anchored : Regex RuneClass) (hbody : body = pre ++ w ++ s)
    (hw : ∀ c ∈ w, c ≠ first) : findFromAt body anchored first canStart pre.length =
      findFromAt body anchored first canStart (pre ++ w).length := by
  induction w generalizing pre with
  | nil => rw [List.append_nil]
  | cons c w ih =>
    obtain ⟨hc, hw⟩ := List.forall_mem_cons.mp hw
    have hnext : body = pre ++ c :: (w ++ s) := by
      rw [hbody, List.append_assoc, List.cons_append]
    have hmoved : body = pre ++ [c] ++ w ++ s := by
      rw [hnext, List.append_assoc, List.append_assoc, List.singleton_append]
    have hlength : (pre ++ [c]).length = pre.length + 1 := by
      rw [List.length_append, List.length_singleton]
    rw [findFromAt_step anchored hnext, if_neg hc, ← hlength, ih hmoved hw, List.append_assoc,
      List.singleton_append]

/-! ### Where a pattern can begin -/

/-- The last rune read and the last byte read belong to a word together. -/
def Behind (pre : Text) (left : Option Chunk) : Prop :=
  left.any alphabet.word = pre.getLast?.any isWordASCII

theorem isWordASCII_eq (c : Byte) : isWordASCII c = word.holds c.val := by
  revert c
  decide +kernel

theorem not_word {c : ℕ} (h : 128 ≤ c) : word.holds c = false := by
  simp only [word, RuneClass.holds, inRanges, List.any_cons, List.any_nil, Bool.or_eq_false_iff,
    Bool.and_eq_false_iff, decide_eq_false_iff_not, and_true]
  omega

theorem behind_code (h : Code b w r) (pre : Text) : Behind (pre ++ b :: w) (some (r, b :: w)) := by
  have hlast : (pre ++ b :: w).getLast? = some ((b :: w).getLast (List.cons_ne_nil b w)) := by
    rw [List.getLast?_append, List.getLast?_eq_getLast_of_ne_nil (List.cons_ne_nil b w),
      Option.some_or]
  rw [Behind, hlast, Option.any_some, Option.any_some, isWordASCII_eq]
  by_cases hb : b < 0x80
  · obtain ⟨rfl, rfl⟩ := h.of_ascii hb
    rfl
  · have hbyte : 128 ≤ ((b :: w).getLast (List.cons_ne_nil b w)).val := by
      rcases List.mem_cons.mp (List.getLast_mem (List.cons_ne_nil b w)) with hhead | htail
      · rw [hhead]
        exact Nat.le_of_not_lt hb
      · exact (isTail_iff.mp (h.tails _ htail)).1
    rw [not_word hbyte]
    cases r with
    | none => rfl
    | some c =>
      refine not_word (Nat.le_of_not_lt fun hc => hb ?_)
      have hval : b.val < 128 := by
        rw [(h.of_rune.1 hc).1]
        exact hc
      exact hval

/-- Each match begins with a byte, at a place that is let through, and is found there without
the text before it. -/
def Begins (p : Regex RuneClass) (body : Text) (first : Byte) (canStart : ℕ → Bool) : Prop :=
  ∀ {pre s : Text} {left : Option Chunk}, body = pre ++ s → Behind pre left →
    (alphabet.spans p left (chunks s) ≠ [] → s.head? = some first ∧ canStart pre.length) ∧
    (canStart pre.length → alphabet.spans p left (chunks s) = alphabet.spans p none (chunks s))

theorem findFrom_eq (hfirst : first < 0x80) (hbegins : Begins p body first canStart) :
    findFrom body (anchoredRegexp p) first canStart = FindIndex p body := by
  have hmain (s pre : Text) (left : Option Chunk) (hbody : body = pre ++ s)
      (hleft : Behind pre left) : findFromAt body (anchoredRegexp p) first canStart pre.length =
        (alphabet.find p left (chunks s)).map
          fun m => (pre.length + width m.1, pre.length + (width m.1 + width m.2)) := by
    induction s using induction_chunks generalizing pre left with
    | nil =>
      have hnone : alphabet.spans p left (chunks []) = [] := by
        by_contra hne
        cases ((hbegins hbody hleft).1 hne).1
      have hend : body.length = pre.length := by rw [hbody, List.append_nil]
      rw [← hend, findFromAt_end]
      change none = (((alphabet.spans p left (chunks [])).head?.map _).map _)
      rw [hnone]
      rfl
    | cons hcode hchunks ih =>
      rename_i b w s r
      have hmoved : body = (pre ++ b :: w) ++ s := by
        rw [hbody, List.append_assoc, List.cons_append]
      have hrest := ih (pre ++ b :: w) (some (r, b :: w)) hmoved (behind_code hcode pre)
      have hpassed : findFromAt body (anchoredRegexp p) first canStart (pre.length + 1) =
          (alphabet.find p (some (r, b :: w)) (chunks s)).map fun m =>
            (pre.length + width ((r, b :: w) :: m.1),
              pre.length + (width ((r, b :: w) :: m.1) + width m.2)) := by
        have hbytes : body = (pre ++ [b]) ++ w ++ s := by
          rw [hmoved, ← List.singleton_append, ← List.append_assoc pre]
        have hforeign : ∀ c ∈ w, c ≠ first := by
          rintro c hc rfl
          have htail := (isTail_iff.mp (hcode.tails c hc)).1
          have hval : c.val < 128 := hfirst
          omega
        have hskip : findFromAt body (anchoredRegexp p) first canStart (pre ++ [b]).length = _ :=
          findFromAt_skip (anchoredRegexp p) hbytes hforeign
        rw [List.append_assoc, List.singleton_append, hrest, List.length_append,
          List.length_singleton] at hskip
        rw [hskip]
        refine congrArg (Option.map · _) (funext fun m => ?_)
        rw [width, width, width, List.flatMap_cons]
        simp only [List.length_append, List.length_cons]
        refine Prod.ext ?_ ?_ <;> dsimp only <;> omega
      obtain ⟨hstarts, hsame⟩ := hbegins hbody hleft
      rw [findFromAt_step _ hbody, hpassed, hchunks, Alphabet.find, ← hchunks]
      by_cases hb : b = first
      · rw [if_pos hb]
        by_cases hcan : canStart pre.length = true
        · rw [if_pos hcan, FindIndex, anchoredRegexp, Alphabet.find_begin, ← hsame hcan]
          cases (alphabet.spans p left (chunks (b :: (w ++ s)))).head? with
          | none =>
            rw [Option.map_none, Option.map_none, Option.map_none, Option.none_or, Option.none_or,
              Option.map_map]
            rfl
          | some u => rfl
        · have hnone : alphabet.spans p left (chunks (b :: (w ++ s))) = [] := by
            by_contra hne
            exact hcan (hstarts hne).2
          rw [if_neg hcan, hnone, List.head?_nil, Option.map_none, Option.none_or, Option.none_or,
            Option.map_map]
          rfl
      · have hnone : alphabet.spans p left (chunks (b :: (w ++ s))) = [] := by
          by_contra hne
          exact hb (Option.some.inj (hstarts hne).1)
        rw [if_neg hb, hnone, List.head?_nil, Option.map_none, Option.none_or, Option.map_map]
        rfl
  have hstart := hmain body [] none rfl rfl
  rw [findFrom, FindIndex]
  rw [List.length_nil] at hstart
  rw [hstart]
  refine congrArg (Option.map · _) (funext fun m => ?_)
  rw [Nat.zero_add, Nat.zero_add]

/-! ### Literals -/

/-- The byte of each ASCII rune. -/
def exact : Literals (β := Byte) alphabet where
  literal
    | .rune d => if d < 128 then some (Fin.ofNat 256 d) else none
    | _ => none
  units c := c.2
  plain := Proper
  units_eq := by
    intro k b c hproper hliteral hholds
    cases k with
    | rune d =>
      obtain ⟨hd, hb⟩ := Option.ite_none_right_eq_some.mp hliteral
      obtain rfl := Option.some.inj hb
      exact hproper.units hd (of_decide_eq_true hholds)
    | _ => cases hliteral

def loweredByte (d : ℕ) : Byte := lowerByte (Fin.ofNat 256 d)

theorem loweredByte_sub : ∀ d < 128,
    loweredByte (if 97 ≤ d ∧ d ≤ 122 then d - 32 else d) = loweredByte d := by
  decide

theorem fold_ascii {d : ℕ} (hd : d < 128) : UnicodeCase.foldRune d < 128 ∧
    loweredByte (UnicodeCase.foldRune d) = loweredByte d := by
  rw [UnicodeCase.foldRune_ascii hd]
  refine ⟨?_, loweredByte_sub d hd⟩
  split <;> omega

theorem loweredByte_add : ∀ u < 128, 65 ≤ u ∧ u ≤ 90 → loweredByte (u + 32) = loweredByte u := by
  decide

/-- A rune that folds to an ASCII rune is that in one case or the other, or one of two others. -/
theorem units_fold {c : Chunk} (h : Proper c) {d : ℕ} (hd : d < 128)
    (hc : UnicodeCase.foldRune (c.1.getD 0xFFFD) = UnicodeCase.foldRune d) :
    c.2.map lowerByte = [loweredByte d] ∨
      (c.1 = some 0x17F ∧ UnicodeCase.foldRune d = 83) ∨
      (c.1 = some 0x212A ∧ UnicodeCase.foldRune d = 75) := by
  obtain ⟨hlt, hlower⟩ := fold_ascii hd
  have hsome {e : ℕ} (he : c.1.getD 0xFFFD = e) (hne : e ≠ 0xFFFD) : c.1 = some e := by
    cases hr : c.1 with
    | none =>
      rw [hr] at he
      exact absurd he.symm hne
    | some r =>
      rw [hr] at he
      exact congrArg some he
  rcases UnicodeCase.of_foldRune hc hlt with hu | ⟨hu, hletter⟩ | ⟨hlong, hs⟩ | ⟨hkelvin, hk⟩
  · rw [h.units hlt hu, ← hlower]
    exact Or.inl rfl
  · rw [h.units (by omega) hu, ← hlower, ← loweredByte_add _ hlt hletter]
    exact Or.inl rfl
  · exact Or.inr (Or.inl ⟨hsome hlong (by decide), hs⟩)
  · exact Or.inr (Or.inr ⟨hsome hkelvin (by decide), hk⟩)

/-- A rune that a pattern cannot take for an ASCII letter. -/
def Plain (c : Chunk) : Prop := Proper c ∧ c.1 ≠ some 0x17F ∧ c.1 ≠ some 0x212A

/-- The byte of each ASCII rune, in lower case. -/
def lowered : Literals (β := Byte) alphabet where
  literal
    | .rune d | .fold d => if d < 128 then some (loweredByte d) else none
    | _ => none
  units c := c.2.map lowerByte
  plain := Plain
  units_eq := by
    intro k b c hplain hliteral hholds
    cases k with
    | rune d =>
      obtain ⟨hd, hb⟩ := Option.ite_none_right_eq_some.mp hliteral
      obtain rfl := Option.some.inj hb
      rw [hplain.1.units hd (of_decide_eq_true hholds)]
      rfl
    | fold d =>
      obtain ⟨hd, hb⟩ := Option.ite_none_right_eq_some.mp hliteral
      obtain rfl := Option.some.inj hb
      rcases units_fold hplain.1 hd (of_decide_eq_true hholds) with h | ⟨h, -⟩ | ⟨h, -⟩
      · exact h
      · exact absurd h hplain.2.1
      · exact absurd h hplain.2.2
    | _ => cases hliteral

theorem flatMap_lowered (s : Text) : (chunks s).flatMap lowered.units = s.map lowerByte := by
  conv_rhs => rw [← flatMap_chunks s, List.map_flatMap]
  rfl

theorem plain_of_mem (h : (newInput body).hasUnicodeFoldRunes = false) (hs : s <:+: body)
    {c : Chunk} (hc : c ∈ chunks s) : Plain c := by
  obtain ⟨hlong, hkelvin⟩ := Bool.or_eq_false_iff.mp h
  have hproper := proper_of_mem hc
  obtain ⟨b, w, hbytes, hcode⟩ := proper_of_mem hc
  have hin := (infix_of_mem hc).trans hs
  refine ⟨hproper, fun hr => ?_, fun hr => ?_⟩
  · rw [hr] at hcode
    rw [hbytes, hcode.of_rune.2.1 rfl] at hin
    exact of_decide_eq_false hlong hin
  · rw [hr] at hcode
    rw [hbytes, hcode.of_rune.2.2 rfl] at hin
    exact of_decide_eq_false hkelvin hin

/-! ### Each search -/

theorem starts_of_spans (L : Literals (β := Byte) alphabet) (hplain : ∀ c ∈ chunks s, L.plain c)
    (hne : alphabet.spans p left (chunks s) ≠ []) (needles : List Text)
    (hopens : Literals.opens L.literal p needles) :
    ∃ needle ∈ needles, needle <+: (chunks s).flatMap L.units := by
  obtain ⟨⟨u, v⟩, hmem⟩ := List.exists_mem_of_ne_nil _ hne
  obtain ⟨hs, hreads⟩ := Alphabet.mem_spans.mp hmem
  rw [hs] at hplain ⊢
  obtain ⟨needle, hneedle, hin⟩ :=
    L.starts_of_reads needles hopens (List.forall_mem_append.mp hplain).1 hreads
  refine ⟨needle, hneedle, hin.trans ?_⟩
  rw [List.flatMap_append]
  exact List.prefix_append _ _

theorem head_chunks (hs : s.head? = some b) (hb : b < 0x80) :
    (chunks s).head? = some (some b.val, [b]) := by
  obtain ⟨t, rfl⟩ := List.head?_eq_some_iff.mp hs
  obtain ⟨w, s', r, -, hcode, hchunks⟩ := chunks_cons b t
  obtain ⟨rfl, rfl⟩ := hcode.of_ascii hb
  rw [hchunks]
  rfl

theorem begins_internalIP (body : Text) : Begins internalIPPattern body 49 fun i =>
    if 0 < i && isWordASCII (body.getD (i - 1) 0) then false
    else internalIPStarts.any fun start => start.isPrefixOf (body.drop i) := by
  intro pre s left hbody hleft
  have hbehind : (0 < pre.length && isWordASCII (body.getD (pre.length - 1) 0)) =
      left.any alphabet.word := by
    rw [hleft]
    cases pre.eq_nil_or_concat' with
    | inl hnil =>
      rw [hnil]
      rfl
    | inr hconcat =>
      obtain ⟨pre, b, rfl⟩ := hconcat
      rw [hbody]
      simp
  have hdrop : body.drop pre.length = s := by rw [hbody, List.drop_left]
  dsimp only
  rw [hbehind, hdrop]
  constructor
  · intro hne
    obtain ⟨start, hstart, hin⟩ := starts_of_spans exact (fun c hc => proper_of_mem hc) hne
      internalIPStarts (by decide)
    rw [exact, flatMap_chunks] at hin
    have hhead : s.head? = some 49 := by
      have hall : ∀ start ∈ internalIPStarts, start.head? = some 49 := by decide
      obtain ⟨t, rfl⟩ := hin
      rw [Alphabet.head_append, hall start hstart, Option.some_or]
    refine ⟨hhead, ?_⟩
    split
    · rename_i hword
      refine absurd (Alphabet.spans_boundary ?_) hne
      rw [hword, head_chunks hhead (by decide)]
      rfl
    · exact List.any_eq_true.mpr ⟨start, hstart, List.isPrefixOf_iff_prefix.mpr hin⟩
  · intro hcan
    refine Alphabet.spans_congr rfl fun _ => ?_
    split at hcan
    · cases hcan
    · rename_i hword
      rw [Bool.not_eq_true] at hword
      exact hword

theorem opens_massAssignment :
    Literals.opens lowered.literal massAssignmentRx (massAssignmentKeys.map (34 :: ·)) := by
  refine Literals.opens_seq _ (Literals.opens_seq _ (Literals.opens_seq _
    (Literals.opens_seq _ ?_)))
  decide

theorem begins_massAssignment (hplain : (newInput body).hasUnicodeFoldRunes = false) :
    Begins massAssignmentRx body 34 fun i =>
      massAssignmentKeys.any fun k => k.isPrefixOf ((body.map lowerByte).drop (i + 1)) := by
  intro pre s left hbody hleft
  have hsuffix : s <:+: body := by
    rw [hbody]
    exact (List.suffix_append pre s).isInfix
  constructor
  · intro hne
    obtain ⟨start, hstart, hin⟩ := starts_of_spans lowered
      (fun c hc => plain_of_mem hplain hsuffix hc) hne (massAssignmentKeys.map (34 :: ·))
      opens_massAssignment
    rw [flatMap_lowered] at hin
    obtain ⟨key, hkey, rfl⟩ := List.mem_map.mp hstart
    cases s with
    | nil => cases List.prefix_nil.mp hin
    | cons b s =>
      rw [List.map_cons, List.cons_prefix_cons] at hin
      have hquote : ∀ b : Byte, 34 = lowerByte b → b = 34 := by decide +kernel
      refine ⟨congrArg some (hquote b hin.1), ?_⟩
      have hdrop : (body.map lowerByte).drop (pre.length + 1) = s.map lowerByte := by
        rw [hbody, List.map_append, ← List.drop_drop, ← List.length_map lowerByte, List.drop_left]
        rfl
      dsimp only
      rw [hdrop]
      exact List.any_eq_true.mpr ⟨key, hkey, List.isPrefixOf_iff_prefix.mpr hin.2⟩
  · intro _
    refine Alphabet.spans_congr rfl fun hbounded => ?_
    cases hbounded

theorem containsAnyFoldASCII_of_matches
    (hplain : (newInput body).hasUnicodeFoldRunes = false) (h : Matches p body)
    (needles : List Text) (hspells : Literals.spells lowered.literal p needles)
    (hlower : ∀ needle ∈ needles, needle.map lowerByte = needle) :
    containsAnyFoldASCII body needles := by
  obtain ⟨needle, hneedle, hin⟩ := lowered.holds_of_occurs needles hspells
    (fun c hc => plain_of_mem hplain List.infix_rfl hc) h
  rw [flatMap_lowered] at hin
  refine List.any_eq_true.mpr ⟨needle, hneedle, ?_⟩
  rw [containsFoldASCII_eq, hlower needle hneedle]
  exact decide_eq_true hin

theorem findUnixID_eq (body : Text) : findUnixID body = Find unixIdRegex body := by
  rw [findUnixID]
  split
  · rename_i hnone
    symm
    rw [Find, Option.map_eq_none_iff, FindIndex_eq_none]
    intro hmatches
    obtain ⟨needle, hneedle, hin⟩ := exact.holds_of_occurs unixIdLiterals
      (by decide) (fun c hc => proper_of_mem hc) hmatches
    rw [exact, flatMap_chunks] at hin
    rw [Bool.not_eq_true', containsAnyLiteral, if_neg (by decide)] at hnone
    rw [List.any_eq_false] at hnone
    exact hnone needle hneedle (decide_eq_true hin)
  · rfl

/-! ### Inputs that were used before -/

/-- What a run of calls leaves of an input. -/
def AnalysisInput.after (input : AnalysisInput) : List (Pools × Call) → AnalysisInput
  | [] => input
  | (pools, .containsAnyLower needles) :: calls =>
    (input.containsAnyLower pools needles).2.after calls
  | (pools, .lowerBody) :: calls => (input.lowerBody pools).2.after calls
  | (pools, .bodyBigrams) :: calls => (input.bodyBigrams pools).2.after calls
  | (_, .release) :: calls => input.release.after calls

theorem cached_after {input : AnalysisInput} (h : Cached input) (calls : List (Pools × Call)) :
    Cached (input.after calls) ∧ (input.after calls).ResponseBody = input.ResponseBody := by
  induction calls generalizing input with
  | nil => exact ⟨h, rfl⟩
  | cons call calls ih =>
    obtain ⟨pools, call⟩ := call
    cases call with
    | containsAnyLower needles =>
      obtain ⟨-, hcached, hsame⟩ := containsAnyLower_spec pools h needles
      rw [AnalysisInput.after, ← hsame]
      exact ih hcached
    | lowerBody =>
      obtain ⟨-, hcached, hsame⟩ := lowerBody_spec pools h
      rw [AnalysisInput.after, ← hsame]
      exact ih hcached
    | bodyBigrams =>
      obtain ⟨-, hcached, hsame⟩ := bodyBigrams_spec pools h
      rw [AnalysisInput.after, ← hsame]
      exact ih hcached
    | release => exact ih (cached_of_empty rfl rfl)

theorem findMassAssignment_eq {input : AnalysisInput} (h : Cached input) (pools : Pools) :
    (findMassAssignment pools input).1 = FindIndex massAssignmentRx input.ResponseBody := by
  rw [findMassAssignment]
  split
  · rfl
  · rename_i hplain
    obtain ⟨hlower, -, hsame⟩ := lowerBody_spec pools h
    dsimp only
    rw [hlower, hsame]
    exact findFrom_eq (by decide) (begins_massAssignment (Bool.eq_false_of_not_eq_true hplain))

theorem findORMError_eq {input : AnalysisInput} (h : Cached input) (pools : Pools) :
    (findORMError pools input).1 = FindIndex ormErrorRx input.ResponseBody := by
  rw [findORMError]
  split
  · rename_i hplain
    obtain ⟨hanswer, -, hsame⟩ := containsAnyLower_spec pools h ormErrorLiterals
    dsimp only
    split
    · rename_i hnone
      symm
      rw [FindIndex_eq_none]
      intro hmatches
      have hfound := containsAnyFoldASCII_of_matches (Bool.not_eq_true' _ |>.mp hplain) hmatches
        ormErrorLiterals (by decide) (by decide)
      rw [hanswer, hfound] at hnone
      cases hnone
    · dsimp only
      rw [hsame]
  · rfl

/-- The searches find what the plain patterns find, on every body and whatever the input was
used for before. -/
theorem searches_exact (ResponseBody : Text) (calls : List (Pools × Call)) (pools : Pools) :
    findInternalIP ResponseBody = FindIndex internalIPPattern ResponseBody ∧
      (findMassAssignment pools ((newInput ResponseBody).after calls)).1 =
        FindIndex massAssignmentRx ResponseBody ∧
      (findORMError pools ((newInput ResponseBody).after calls)).1 =
        FindIndex ormErrorRx ResponseBody ∧
      findUnixID ResponseBody = Find unixIdRegex ResponseBody := by
  obtain ⟨hcached, hsame⟩ :=
    cached_after (cached_of_empty rfl rfl : Cached (newInput ResponseBody)) calls
  have hmass := findMassAssignment_eq hcached pools
  have horm := findORMError_eq hcached pools
  rw [hsame] at hmass horm
  exact ⟨findFrom_eq (by decide) (begins_internalIP ResponseBody), hmass, horm,
    findUnixID_eq ResponseBody⟩

end Swazz.Analyzer
