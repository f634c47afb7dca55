import Swazz.AnchoredSearchExact
import Swazz.SignatureGuards

/-! When a signature is found although none of its guards is, and what the analyzers then leave
out. -/
namespace Swazz.Analyzer

open Utf8 GoStrings Regexes GoRegexp AnalysisInput

variable {body : Text}

/-! ### Usual spellings -/

/-- The two cases of an ASCII letter. -/
def letterCases (d : ℕ) : List (ℕ × ℕ) :=
  if 65 ≤ d ∧ d ≤ 90 then [(d, d), (d + 32, d + 32)]
  else if 97 ≤ d ∧ d ≤ 122 then [(d - 32, d - 32), (d, d)]
  else [(d, d)]

theorem foldRune_foreign : UnicodeCase.foldRune 0x17F = 83 ∧ UnicodeCase.foldRune 0x212A = 75 := by
  decide +kernel

/-- Under a flag `(?i)` a letter is written in one of its cases; an S can also be the long s, and
a K the Kelvin sign. -/
theorem foldRune_eq_iff {c d : ℕ} (hd : d < 128) :
    UnicodeCase.foldRune c = UnicodeCase.foldRune d ↔ inRanges (letterCases d) c ∨
      c = 0x17F ∧ (d = 83 ∨ d = 115) ∨ c = 0x212A ∧ (d = 75 ∨ d = 107) := by
  have hcases : inRanges (letterCases d) c ↔
      c < 128 ∧ (if 97 ≤ c ∧ c ≤ 122 then c - 32 else c) =
        if 97 ≤ d ∧ d ≤ 122 then d - 32 else d := by
    rw [letterCases]
    split
    · simp only [inRanges, List.any_cons, List.any_nil, Bool.or_false, Bool.or_eq_true,
        Bool.and_eq_true, decide_eq_true_eq]
      split <;> split <;> omega
    · split
      · simp only [inRanges, List.any_cons, List.any_nil, Bool.or_false, Bool.or_eq_true,
          Bool.and_eq_true, decide_eq_true_eq]
        split <;> omega
      · simp only [inRanges, List.any_cons, List.any_nil, Bool.or_false, Bool.and_eq_true,
          decide_eq_true_eq]
        split <;> omega
  rw [hcases, UnicodeCase.foldRune_ascii hd]
  constructor
  · intro h
    have hlt : (if 97 ≤ d ∧ d ≤ 122 then d - 32 else d) < 128 := by split <;> omega
    have hsmall (hc : c < 128) := (UnicodeCase.foldRune_ascii hc).symm.trans h
    rcases UnicodeCase.of_foldRune h hlt with hu | ⟨hu, hletter⟩ | ⟨hu, hs⟩ | ⟨hu, hk⟩
    · have hc : c < 128 := by omega
      exact Or.inl ⟨hc, hsmall hc⟩
    · have hc : c < 128 := by omega
      exact Or.inl ⟨hc, hsmall hc⟩
    · right
      left
      refine ⟨hu, ?_⟩
      split at hs <;> omega
    · right
      right
      refine ⟨hu, ?_⟩
      split at hk <;> omega
  · rintro (⟨hc, h⟩ | ⟨rfl, rfl | rfl⟩ | ⟨rfl, rfl | rfl⟩)
    · rw [UnicodeCase.foldRune_ascii hc, h]
    · exact foldRune_foreign.1
    · exact foldRune_foreign.1
    · exact foldRune_foreign.2
    · exact foldRune_foreign.2

variable {left right : Option Chunk} {u : List Chunk}

theorem reads_fold {d : ℕ} (hd : d < 128) : alphabet.Reads (.one (.fold d)) left u right ↔
    alphabet.Reads (.one (.set (letterCases d))) left u right ∨
      ∃ q ∈ if d = 83 ∨ d = 115 then [.one (.rune 0x17F)]
        else if d = 75 ∨ d = 107 then [.one (.rune 0x212A)] else [],
        alphabet.Reads q left u right := by
  simp only [Alphabet.Reads, alphabet, RuneClass.holds, decide_eq_true_eq, foldRune_eq_iff hd,
    or_and_right, exists_or]
  refine or_congr_right ?_
  by_cases hs : d = 83 ∨ d = 115
  · have hk : ¬ (d = 75 ∨ d = 107) := by omega
    simp [hs, hk, Alphabet.Reads]
  · by_cases hk : d = 75 ∨ d = 107
    · simp [hs, hk, Alphabet.Reads]
    · simp [hs, hk]

theorem space_holds (c : ℕ) : space.holds c ↔
    (RuneClass.rune 32).holds c ∨ (RuneClass.set [(9, 10), (12, 13)]).holds c := by
  simp only [space, RuneClass.holds, inRanges, List.any_cons, List.any_nil, Bool.or_false,
    Bool.or_eq_true, Bool.and_eq_true, decide_eq_true_eq]
  omega

theorem reads_spaces : alphabet.Reads spaces left u right ↔
    alphabet.Reads (.one (.rune 32)) left u right ∨
      ∃ q ∈ [.one (.set [(9, 10), (12, 13)]), .one space ++ spaces],
        alphabet.Reads q left u right := by
  simp only [List.mem_cons, List.not_mem_nil, or_false, exists_eq_or_imp, exists_eq_left]
  constructor
  · rintro ⟨hall, hlength, -⟩
    cases u with
    | nil => cases hlength
    | cons a u =>
      obtain ⟨ha, hu⟩ := List.forall_mem_cons.mp hall
      cases u with
      | nil =>
        rcases (space_holds _).mp ha with hblank | hother
        · exact Or.inl ⟨a, hblank, rfl⟩
        · exact Or.inr (Or.inl ⟨a, hother, rfl⟩)
      | cons b u =>
        refine Or.inr (Or.inr ⟨[a], b :: u, rfl, ⟨a, ha, rfl⟩, hu, ?_, fun m hm => nomatch hm⟩)
        exact Nat.succ_le_succ (Nat.zero_le _)
  · have hone {a : Chunk} (ha : space.holds (a.1.getD 0xFFFD)) :
        alphabet.Reads spaces left [a] right :=
      ⟨List.forall_mem_singleton.mpr ha, le_rfl, fun m hm => nomatch hm⟩
    rintro (⟨a, ha, rfl⟩ | ⟨a, ha, rfl⟩ | ⟨v, w, rfl, ⟨a, ha, rfl⟩, hw, -, -⟩)
    · exact hone ((space_holds _).mpr (Or.inl ha))
    · exact hone ((space_holds _).mpr (Or.inr ha))
    · refine ⟨List.forall_mem_cons.mpr ⟨ha, hw⟩, ?_, fun m hm => nomatch hm⟩
      exact Nat.succ_le_succ (Nat.zero_le _)

/-- Letters are usually ASCII, and words are usually apart by one blank. -/
def spelling : Usage alphabet where
  usual
    | .one (.fold d) => if d < 128 then .one (.set (letterCases d)) else .one (.fold d)
    | .many k least most =>
      if k = space ∧ least = 1 ∧ most = none then .one (.rune 32) else .many k least most
    | r => r
  unusual
    | .one (.fold d) =>
      if d = 83 ∨ d = 115 then [.one (.rune 0x17F)]
      else if d = 75 ∨ d = 107 then [.one (.rune 0x212A)] else []
    | .many k least most =>
      if k = space ∧ least = 1 ∧ most = none then
        [.one (.set [(9, 10), (12, 13)]), .one space ++ plus space]
      else []
    | _ => []
  reads_iff := by
    intro r left u right
    cases r with
    | one k =>
      cases k with
      | fold d =>
        dsimp only
        by_cases hd : d < 128
        · rw [if_pos hd]
          exact reads_fold hd
        · rw [if_neg hd, if_neg (by omega), if_neg (by omega)]
          simp
      | _ => simp
    | many k least most =>
      dsimp only
      split
      · rename_i hspace
        obtain ⟨rfl, rfl, rfl⟩ := hspace
        exact reads_spaces
      · simp
    | _ => simp

/-! ### Which readings the guards miss -/

/-- The lower case of a class of one letter. -/
def setLiteral : List (ℕ × ℕ) → Option Byte
  | [] => none
  | range :: ranges =>
    if range.1 = range.2 ∧ range.1 < 128 ∧ ranges.all fun other =>
      other.1 = other.2 && other.1 < 128 && loweredByte other.1 = loweredByte range.1 then
      some (loweredByte range.1)
    else none

theorem Proper.units_set {c : Chunk} (h : Proper c) {ranges : List (ℕ × ℕ)} {b : Byte}
    (hliteral : setLiteral ranges = some b) (hc : inRanges ranges (c.1.getD 0xFFFD)) :
    c.2.map lowerByte = [b] := by
  cases ranges with
  | nil => cases hliteral
  | cons range ranges =>
    obtain ⟨⟨hone, hlt, hothers⟩, hb⟩ := Option.ite_none_right_eq_some.mp hliteral
    obtain rfl := Option.some.inj hb
    have hall : ∀ other ∈ range :: ranges, other.1 = other.2 ∧ other.1 < 128 ∧
        loweredByte other.1 = loweredByte range.1 := by
      refine List.forall_mem_cons.mpr ⟨⟨hone, hlt, rfl⟩, fun other hother => ?_⟩
      have h := List.all_eq_true.mp hothers other hother
      simp only [Bool.and_eq_true, decide_eq_true_eq] at h
      exact ⟨h.1.1, h.1.2, h.2⟩
    obtain ⟨other, hother, hin⟩ := List.any_eq_true.mp hc
    obtain ⟨hsame, hsmall, hlower⟩ := hall other hother
    simp only [Bool.and_eq_true, decide_eq_true_eq] at hin
    rw [GoRegexp.Proper.units h hsmall (by omega), ← hlower]
    rfl

/-- The byte of each ASCII rune in lower case, for letters that are always ASCII. -/
def certain : Literals (β := Byte) alphabet where
  literal
    | .rune d => if d < 128 then some (loweredByte d) else none
    | .fold d =>
      if d < 128 ∧ d ∉ [75, 83, 107, 115] then some (loweredByte d) else none
    | .set ranges => setLiteral ranges
    | _ => none
  units c := c.2.map lowerByte
  plain := Proper
  units_eq := by
    intro k b c hproper hliteral hholds
    cases k with
    | rune d =>
      obtain ⟨hd, hb⟩ := Option.ite_none_right_eq_some.mp hliteral
      obtain rfl := Option.some.inj hb
      rw [hproper.units hd (of_decide_eq_true hholds)]
      rfl
    | fold d =>
      obtain ⟨⟨hd, hletter⟩, hb⟩ := Option.ite_none_right_eq_some.mp hliteral
      obtain rfl := Option.some.inj hb
      have hfold := UnicodeCase.foldRune_ascii hd
      simp only [List.mem_cons, List.not_mem_nil, or_false] at hletter
      rcases units_fold hproper hd (of_decide_eq_true hholds) with h | ⟨-, h⟩ | ⟨-, h⟩
      · exact h
      · rw [hfold] at h
        split at h <;> omega
      · rw [hfold] at h
        split at h <;> omega
    | set ranges => exact Proper.units_set hproper hliteral hholds
    | _ => cases hliteral

/-- The readings of a pattern with an unusual spelling that holds none of the guards itself. -/
def escapes (pattern : Regex RuneClass) (guards : List Text) : List (Regex RuneClass) :=
  (spelling.loose pattern).filter fun q => !Literals.spells certain.literal q guards

/-- The usual spellings hold a guard. -/
def Guards (guards : List Text) (pattern : Regex RuneClass) : Bool :=
  Literals.spells certain.literal (spelling.tight pattern) guards &&
    guards.all fun guard => guard.map lowerByte = guard

/-- A pattern is never found without a guard if its unusual spellings without one are not. -/
theorem holds_iff {pattern : Regex RuneClass} {guards : List Text} (h : Guards guards pattern) :
    (Matches pattern body → containsAnyFoldASCII body guards) ↔
      ∀ q ∈ escapes pattern guards, Matches q body → containsAnyFoldASCII body guards := by
  obtain ⟨htight, hlower⟩ := Bool.and_eq_true_iff.mp h
  have hholds {q : Regex RuneClass} (hspells : Literals.spells certain.literal q guards)
      (hq : Matches q body) : containsAnyFoldASCII body guards := by
    obtain ⟨guard, hguard, hin⟩ := certain.holds_of_occurs guards hspells
      (fun c hc => proper_of_mem hc) hq
    have hbytes : (chunks body).flatMap certain.units = body.map lowerByte := flatMap_lowered body
    rw [hbytes] at hin
    refine List.any_eq_true.mpr ⟨guard, hguard, ?_⟩
    rw [containsFoldASCII_eq, of_decide_eq_true (List.all_eq_true.mp hlower guard hguard)]
    exact decide_eq_true hin
  constructor
  · intro hcovers q hq hmatches
    refine hcovers (spelling.occurs_tight.mpr (Or.inr ⟨q, ?_, hmatches⟩))
    exact (List.mem_filter.mp hq).1
  · intro hcovers hmatches
    rcases spelling.occurs_tight.mp hmatches with hmatches | ⟨q, hq, hmatches⟩
    · exact hholds htight hmatches
    · by_cases hspells : Literals.spells certain.literal q guards = true
      · exact hholds hspells hmatches
      · refine hcovers q (List.mem_filter.mpr ⟨hq, ?_⟩) hmatches
        rw [Bool.not_eq_true', Bool.eq_false_iff]
        exact hspells

-- one signature at a time
theorem guards_stack : ∀ sig ∈ nullPointerSignatures ++ stackSignatures,
    Guards sig.guards sig.pattern := by
  refine List.forall_mem_append.mpr ⟨?_, ?_⟩
  · simp only [nullPointerSignatures, List.forall_mem_cons]
    refine ⟨?_, ?_, ?_, ?_, ?_, ?_, ?_, fun _ h => nomatch h⟩ <;> decide +kernel
  · simp only [stackSignatures, List.forall_mem_cons]
    refine ⟨?_, ?_, ?_, ?_, ?_, ?_, ?_, fun _ h => nomatch h⟩ <;> decide +kernel

theorem guards_secret : ∀ sig ∈ secretSignatures, ∀ guards ∈ secretGuards sig.category,
    Guards guards sig.pattern := by
  have hgeneric : Guards (["key", "secret", "token"].map ascii) genericSecret := by
    refine Bool.and_eq_true_iff.mpr ⟨?_, by decide +kernel⟩
    iterate 6 refine Literals.spells_seq _ ?_
    decide +kernel
  simp only [secretSignatures, List.forall_mem_cons, secretGuards, Option.mem_def,
    Option.some.injEq, forall_eq']
  refine ⟨?_, ?_, ?_, ?_, ?_, ?_, ?_, hgeneric, fun _ h => nomatch h⟩ <;> decide +kernel

/-- The texts that hold none of the guards. -/
def escapingTexts (patterns guards : List Text) : List Text :=
  patterns.filter fun pattern =>
    !guards.any fun guard => Contains (pattern.map lowerByte) (guard.map lowerByte)

example : (dbSignatures.flatMap fun sig =>
    escapingTexts sig.patterns ((dbGuards sig.name).getD [])) =
      [ascii "near ", ascii "Microsoft OLE DB"] := by
  decide +kernel

theorem indexFoldASCII_isSome (haystack needle : Text) :
    (indexFoldASCII haystack needle).isSome = containsFoldASCII haystack needle := by
  rw [indexFoldASCII, containsFoldASCII]
  split
  · rfl
  · split
    · rfl
    · rw [Bool.eq_iff_iff, List.find?_isSome, List.any_eq_true]

theorem firstPattern_eq_none {patterns : List Text} : firstPattern body patterns = none ↔
    ∀ pattern ∈ patterns, containsFoldASCII body pattern = false := by
  rw [firstPattern, List.findSome?_eq_none_iff]
  refine forall₂_congr fun pattern _ => ?_
  rw [Option.map_eq_none_iff, ← indexFoldASCII_isSome, Option.isSome_eq_false_iff,
    Option.isNone_iff_eq_none]

theorem holds_texts_iff {patterns guards : List Text} :
    (firstPattern body patterns ≠ none → containsAnyFoldASCII body guards) ↔
      ∀ pattern ∈ escapingTexts patterns guards, containsFoldASCII body pattern →
        containsAnyFoldASCII body guards := by
  rw [ne_eq, firstPattern_eq_none]
  constructor
  · intro hcovers pattern hpattern hfound
    refine hcovers fun hnone => ?_
    rw [hnone pattern (List.mem_filter.mp hpattern).1] at hfound
    cases hfound
  · intro hcovers hsome
    simp only [not_forall, Bool.not_eq_false] at hsome
    obtain ⟨pattern, hpattern, hfound⟩ := hsome
    by_cases hescapes : pattern ∈ escapingTexts patterns guards
    · exact hcovers pattern hescapes hfound
    · have hguards : (guards.any fun guard =>
          Contains (pattern.map lowerByte) (guard.map lowerByte)) = true := by
        by_contra hnone
        refine hescapes (List.mem_filter.mpr ⟨hpattern, ?_⟩)
        rw [Bool.not_eq_true', Bool.eq_false_iff]
        exact hnone
      obtain ⟨guard, hguard, hin⟩ := List.any_eq_true.mp hguards
      rw [containsFoldASCII_eq] at hfound
      refine List.any_eq_true.mpr ⟨guard, hguard, ?_⟩
      rw [containsFoldASCII_eq]
      exact decide_eq_true ((of_decide_eq_true hin).trans (of_decide_eq_true hfound))

/-! ### What the analyzers report -/

/-- A check answers as a test of the body does, and leaves the input usable. -/
structure Answers (check : Check) (pass : Text → List Text → Bool) : Prop where
  spec : ∀ {input : AnalysisInput}, Cached input → ∀ guards : List Text,
    (check input guards).1 = pass input.ResponseBody guards ∧
      Cached (check input guards).2 ∧ (check input guards).2.ResponseBody = input.ResponseBody

theorem answers_guarded (pools : AnalysisInput → Pools) :
    Answers (guarded pools) containsAnyFoldASCII where
  spec h guards := containsAnyLower_spec _ h guards

theorem answers_unguarded : Answers unguarded fun _ _ => true where
  spec h _ := ⟨rfl, h, rfl⟩

variable {check : Check} {pass : Text → List Text → Bool} {input : AnalysisInput}

theorem Answers.checked (ha : Answers check pass) (h : Cached input)
    (guards : Option (List Text)) :
    (checked check input guards).1 = guards.all (pass input.ResponseBody) ∧
      Cached (checked check input guards).2 ∧
      (checked check input guards).2.ResponseBody = input.ResponseBody := by
  cases guards with
  | none => exact ⟨rfl, h, rfl⟩
  | some guards => exact ha.spec h guards

theorem firstMatch_eq (ha : Answers check pass) (h : Cached input)
    {sigs : List stackSignature} (hpass : ∀ sig ∈ sigs,
      FindIndex sig.pattern input.ResponseBody ≠ none → pass input.ResponseBody sig.guards) :
    (firstMatch check sigs input).1 = sigs.findSome? (fun sig =>
        (FindIndex sig.pattern input.ResponseBody).map (sig, ·)) ∧
      Cached (firstMatch check sigs input).2 ∧
      (firstMatch check sigs input).2.ResponseBody = input.ResponseBody := by
  induction sigs generalizing input with
  | nil => exact ⟨rfl, h, rfl⟩
  | cons sig sigs ih =>
    obtain ⟨hanswer, hcached, hsame⟩ := ha.spec h sig.guards
    obtain ⟨hsig, hsigs⟩ := List.forall_mem_cons.mp hpass
    have hrest := ih hcached (by rwa [hsame])
    rw [hsame] at hrest
    rw [firstMatch, List.findSome?_cons]
    dsimp only
    rw [hsame, hanswer]
    cases hfind : FindIndex sig.pattern input.ResponseBody with
    | none =>
      dsimp only
      rw [ite_self]
      exact hrest
    | some loc =>
      rw [hsig (by rw [hfind]; exact Option.some_ne_none _)]
      exact ⟨rfl, hcached, hsame⟩

theorem sqlFindings_eq (quote : Text → Text) (ha : Answers check pass) (h : Cached input)
    {sigs : List dbSignature} (hpass : ∀ sig ∈ sigs, ∀ guards ∈ dbGuards sig.name,
      firstPattern input.ResponseBody sig.patterns ≠ none → pass input.ResponseBody guards) :
    (sqlFindings quote check sigs input).1 = (sigs.findSome? fun sig =>
      (firstPattern input.ResponseBody sig.patterns).map
        (sqlFinding quote input.ResponseBody sig)).toList := by
  induction sigs generalizing input with
  | nil => rfl
  | cons sig sigs ih =>
    obtain ⟨hanswer, hcached, hsame⟩ := ha.checked h (dbGuards sig.name)
    obtain ⟨hsig, hsigs⟩ := List.forall_mem_cons.mp hpass
    have hrest := ih hcached (by rwa [hsame])
    rw [hsame] at hrest
    rw [sqlFindings, List.findSome?_cons]
    dsimp only
    rw [hsame, hanswer]
    cases hfind : firstPattern input.ResponseBody sig.patterns with
    | none =>
      dsimp only
      rw [ite_self]
      exact hrest
    | some loc =>
      have hall : (dbGuards sig.name).all (pass input.ResponseBody) = true := by
        cases hguards : dbGuards sig.name with
        | none => rfl
        | some guards => exact hsig guards hguards (by rw [hfind]; exact Option.some_ne_none _)
      rw [hall]
      rfl

/-- Where a signature is found. -/
def secretAt (body : Text) (sig : secretSignature) : Option (ℕ × ℕ) :=
  if sig.category = "Internal IP" then findInternalIP body else FindIndex sig.pattern body

theorem secretAt_eq : ∀ sig ∈ secretSignatures, secretAt body sig = FindIndex sig.pattern body := by
  have hip : findInternalIP body = FindIndex internalIPPattern body :=
    findFrom_eq (by decide) (begins_internalIP body)
  simp only [secretSignatures, List.forall_mem_cons, secretAt, String.reduceEq, if_true, if_false,
    hip]
  simp

theorem secretFindings_eq (ha : Answers check pass) (h : Cached input)
    {sigs : List secretSignature} (hpass : ∀ sig ∈ sigs, ∀ guards ∈ secretGuards sig.category,
      secretAt input.ResponseBody sig ≠ none → pass input.ResponseBody guards) :
    (secretFindings check sigs input).1 = sigs.flatMap fun sig =>
      ((secretAt input.ResponseBody sig).map (secretFinding input.ResponseBody sig)).toList := by
  induction sigs generalizing input with
  | nil => rfl
  | cons sig sigs ih =>
    obtain ⟨hanswer, hcached, hsame⟩ := ha.checked h (secretGuards sig.category)
    obtain ⟨hsig, hsigs⟩ := List.forall_mem_cons.mp hpass
    have hrest := ih hcached (by rwa [hsame])
    rw [hsame] at hrest
    rw [secretFindings, List.flatMap_cons]
    dsimp only
    rw [hsame, hanswer, ← secretAt]
    cases hfind : secretAt input.ResponseBody sig with
    | none =>
      split
      · exact hrest
      · exact hrest
    | some loc =>
      have hall : (secretGuards sig.category).all (pass input.ResponseBody) = true := by
        cases hguards : secretGuards sig.category with
        | none => rfl
        | some guards => exact hsig guards hguards (by rw [hfind]; exact Option.some_ne_none _)
      rw [hall, if_neg (by decide)]
      dsimp only
      rw [hrest]

/-- The finding of the first signature that is found, the null pointers first. -/
def stackReport (quote : Text → Text) (body : Text) : List AnalysisFinding :=
  if body.length = 0 then []
  else
    match nullPointerSignatures.findSome? fun sig => (FindIndex sig.pattern body).map (sig, ·) with
    | some (sig, loc) => [nullPointerFinding quote body sig loc]
    | none =>
      match stackSignatures.findSome? fun sig => (FindIndex sig.pattern body).map (sig, ·) with
      | some (sig, loc) => [stackTraceFinding quote body sig loc]
      | none => []

theorem StackTraceAnalyzer.Analyze_eq (quote : Text → Text) (ha : Answers check pass)
    (h : Cached input) (hpass : ∀ sig ∈ nullPointerSignatures ++ stackSignatures,
      FindIndex sig.pattern input.ResponseBody ≠ none → pass input.ResponseBody sig.guards) :
    (StackTraceAnalyzer.Analyze quote check input).1 = stackReport quote input.ResponseBody := by
  obtain ⟨hnull, htrace⟩ := List.forall_mem_append.mp hpass
  obtain ⟨hfirst, hcached, hsame⟩ := firstMatch_eq ha h hnull
  have hsecond := firstMatch_eq ha hcached (by rwa [hsame])
  rw [hsame] at hsecond
  obtain ⟨hsecond, -, hsame'⟩ := hsecond
  rw [StackTraceAnalyzer.Analyze, stackReport, ← hfirst]
  split
  · rfl
  · rcases hmatch : firstMatch check nullPointerSignatures input with ⟨found, input'⟩
    rw [hmatch] at hsame hsecond hsame'
    dsimp only at hsame hsecond hsame' ⊢
    cases found with
    | some found =>
      dsimp only
      rw [hsame]
    | none =>
      dsimp only
      rw [← hsecond]
      rcases hmatch' : firstMatch check stackSignatures input' with ⟨found, input''⟩
      rw [hmatch'] at hsame'
      dsimp only at hsame' ⊢
      cases found with
      | some found =>
        dsimp only
        rw [hsame']
      | none => rfl

theorem SQLiAnalyzer.Analyze_eq (quote : Text → Text) (ha : Answers check pass)
    (h : Cached input) (hpass : ∀ sig ∈ dbSignatures, ∀ guards ∈ dbGuards sig.name,
      firstPattern input.ResponseBody sig.patterns ≠ none → pass input.ResponseBody guards) :
    (SQLiAnalyzer.Analyze quote check input).1 =
      if input.ResponseBody.length = 0 then []
      else (dbSignatures.findSome? fun sig =>
        (firstPattern input.ResponseBody sig.patterns).map
          (sqlFinding quote input.ResponseBody sig)).toList := by
  rw [SQLiAnalyzer.Analyze, ← sqlFindings_eq quote ha h hpass]
  split <;> rfl

theorem SensitiveAnalyzer.Analyze_eq (ha : Answers check pass) (h : Cached input)
    (hpass : ∀ sig ∈ secretSignatures, ∀ guards ∈ secretGuards sig.category,
      FindIndex sig.pattern input.ResponseBody ≠ none → pass input.ResponseBody guards) :
    (SensitiveAnalyzer.Analyze check input).1 =
      if input.ResponseBody.length = 0 then []
      else secretSignatures.flatMap fun sig =>
        ((secretAt input.ResponseBody sig).map (secretFinding input.ResponseBody sig)).toList := by
  have hpass' : ∀ sig ∈ secretSignatures, ∀ guards ∈ secretGuards sig.category,
      secretAt input.ResponseBody sig ≠ none → pass input.ResponseBody guards := by
    intro sig hsig
    rw [secretAt_eq sig hsig]
    exact hpass sig hsig
  rw [SensitiveAnalyzer.Analyze, ← secretFindings_eq ha h hpass']
  split <;> rfl

/-- No finding is left out for want of a guard, and every signature that is found has one. -/
structure HidesNothing (quote : Text → Text) (pools : AnalysisInput → Pools)
    (input : AnalysisInput) : Prop where
  stackTraces : (StackTraceAnalyzer.Analyze quote (guarded pools) input).1 =
    (StackTraceAnalyzer.Analyze quote unguarded input).1
  databaseErrors : (SQLiAnalyzer.Analyze quote (guarded pools) input).1 =
    (SQLiAnalyzer.Analyze quote unguarded input).1
  secrets : (SensitiveAnalyzer.Analyze (guarded pools) input).1 =
    (SensitiveAnalyzer.Analyze unguarded input).1
  stackGuards : ∀ sig ∈ nullPointerSignatures ++ stackSignatures,
    FindIndex sig.pattern input.ResponseBody ≠ none → (guarded pools input sig.guards).1
  dbGuards : ∀ sig ∈ dbSignatures, ∀ guards ∈ dbGuards sig.name,
    firstPattern input.ResponseBody sig.patterns ≠ none → (guarded pools input guards).1
  secretGuards : ∀ sig ∈ secretSignatures, ∀ guards ∈ secretGuards sig.category,
    FindIndex sig.pattern input.ResponseBody ≠ none → (guarded pools input guards).1

/-- Where a signature is written in an unusual way, or as one of the texts without a guard, the
body holds one of its guards elsewhere. -/
structure Covered (body : Text) : Prop where
  stack : ∀ sig ∈ nullPointerSignatures ++ stackSignatures,
    ∀ q ∈ escapes sig.pattern sig.guards, Matches q body → containsAnyFoldASCII body sig.guards
  db : ∀ sig ∈ dbSignatures, ∀ guards ∈ dbGuards sig.name,
    ∀ pattern ∈ escapingTexts sig.patterns guards, containsFoldASCII body pattern →
      containsAnyFoldASCII body guards
  secret : ∀ sig ∈ secretSignatures, ∀ guards ∈ secretGuards sig.category,
    ∀ q ∈ escapes sig.pattern guards, Matches q body → containsAnyFoldASCII body guards

/-- The analyzers leave nothing out exactly where unusual spellings come with a guard. -/
theorem hidesNothing_iff (quote : Text → Text) (pools : AnalysisInput → Pools)
    (ResponseBody : Text) (calls : List (Pools × Call)) :
    HidesNothing quote pools ((newInput ResponseBody).after calls) ↔ Covered ResponseBody := by
  obtain ⟨hcached, hsame⟩ :=
    cached_after (cached_of_empty rfl rfl : Cached (newInput ResponseBody)) calls
  generalize (newInput ResponseBody).after calls = input at hcached hsame ⊢
  obtain rfl : input.ResponseBody = ResponseBody := hsame
  have hanswer (guards : List Text) : (guarded pools input guards).1 =
      containsAnyFoldASCII input.ResponseBody guards :=
    ((answers_guarded pools).spec hcached guards).1
  have hmatches (re : Regex RuneClass) : FindIndex re input.ResponseBody ≠ none ↔
      Matches re input.ResponseBody := by rw [ne_eq, FindIndex_eq_none, not_not]
  constructor
  · intro h
    refine ⟨fun sig hsig => ?_, fun sig hsig guards hguards => ?_,
      fun sig hsig guards hguards => ?_⟩
    · refine (holds_iff (guards_stack sig hsig)).mp fun hfound => ?_
      rw [← hanswer]
      exact h.stackGuards sig hsig ((hmatches _).mpr hfound)
    · refine holds_texts_iff.mp fun hfound => ?_
      rw [← hanswer]
      exact h.dbGuards sig hsig guards hguards hfound
    · refine (holds_iff (guards_secret sig hsig guards hguards)).mp fun hfound => ?_
      rw [← hanswer]
      exact h.secretGuards sig hsig guards hguards ((hmatches _).mpr hfound)
  · intro h
    have hstack : ∀ sig ∈ nullPointerSignatures ++ stackSignatures,
        FindIndex sig.pattern input.ResponseBody ≠ none →
          containsAnyFoldASCII input.ResponseBody sig.guards := fun sig hsig hfound =>
      (holds_iff (guards_stack sig hsig)).mpr (h.stack sig hsig) ((hmatches _).mp hfound)
    have hdb : ∀ sig ∈ dbSignatures, ∀ guards ∈ dbGuards sig.name,
        firstPattern input.ResponseBody sig.patterns ≠ none →
          containsAnyFoldASCII input.ResponseBody guards := fun sig hsig guards hguards =>
      holds_texts_iff.mpr (h.db sig hsig guards hguards)
    have hsecret : ∀ sig ∈ secretSignatures, ∀ guards ∈ secretGuards sig.category,
        FindIndex sig.pattern input.ResponseBody ≠ none →
          containsAnyFoldASCII input.ResponseBody guards := fun sig hsig guards hguards hfound =>
      (holds_iff (guards_secret sig hsig guards hguards)).mpr (h.secret sig hsig guards hguards)
        ((hmatches _).mp hfound)
    refine ⟨?_, ?_, ?_, fun sig hsig hfound => ?_, fun sig hsig guards hguards hfound => ?_,
      fun sig hsig guards hguards hfound => ?_⟩
    · rw [StackTraceAnalyzer.Analyze_eq quote (answers_guarded pools) hcached hstack,
        StackTraceAnalyzer.Analyze_eq quote answers_unguarded hcached fun _ _ _ => rfl]
    · rw [SQLiAnalyzer.Analyze_eq quote (answers_guarded pools) hcached hdb,
        SQLiAnalyzer.Analyze_eq quote answers_unguarded hcached fun _ _ _ _ _ => rfl]
    · rw [SensitiveAnalyzer.Analyze_eq (answers_guarded pools) hcached hsecret,
        SensitiveAnalyzer.Analyze_eq answers_unguarded hcached fun _ _ _ _ _ => rfl]
    · rw [hanswer]
      exact hstack sig hsig hfound
    · rw [hanswer]
      exact hdb sig hsig guards hguards hfound
    · rw [hanswer]
      exact hsecret sig hsig guards hguards hfound

/-- `Microsoft OLE DB` stands behind a guard that is written without the blank. -/
theorem oleDb_hidden : ¬ HidesNothing id (fun _ => ⟨[], bigramIndex.empty⟩)
    (newInput (ascii "Microsoft OLE DB Provider error '80040e14'")) := by
  intro h
  have hlength := congrArg List.length h.databaseErrors
  revert hlength
  decide +kernel

end Swazz.Analyzer
