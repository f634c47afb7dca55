import Swazz.Globs

/-! Where the three translations of an endpoint glob agree. -/
namespace Swazz.Globs

open RunnerAccess (JsString js)
open UnicodeCase
open Wildcards

/-! ### What a glob means -/

section

variable {α : Type*} [DecidableEq α]

/-- Two stars are a wide stretch, one that is left is a narrow one. -/
def globParts (star : α) : List α → List (PatternPart α)
  | [] => []
  | [c] => [if c = star then .narrow else .item c]
  | c :: d :: s =>
    if c ≠ star then .item c :: globParts star (d :: s)
    else if d = star then .wide :: globParts star s
    else .narrow :: globParts star (d :: s)

theorem globParts_item {star c : α} (h : c ≠ star) (s : List α) :
    globParts star (c :: s) = .item c :: globParts star s := by
  cases s with
  | nil => simp only [globParts, if_neg h]
  | cons d s => rw [globParts, if_pos h]

theorem globParts_wide (star : α) (s : List α) :
    globParts star (star :: star :: s) = .wide :: globParts star s := by
  rw [globParts, if_neg (not_not.mpr rfl), if_pos rfl]

theorem globParts_narrow (star : α) {s : List α} (h : s.head? ≠ some star) :
    globParts star (star :: s) = .narrow :: globParts star s := by
  cases s with
  | nil => simp only [globParts, if_true]
  | cons d s =>
    rw [globParts, if_neg (not_not.mpr rfl), if_neg]
    rintro rfl
    exact h rfl

theorem globParts_plain {star : α} {s : List α} (h : star ∉ s) :
    globParts star s = s.map .item := by
  induction s with
  | nil => rw [globParts, List.map_nil]
  | cons c s ih =>
    rw [List.mem_cons, not_or] at h
    rw [globParts_item (Ne.symm h.1), ih h.2, List.map_cons]

end

/-- The documented rules: a star is no slash, two stars are anything, and the rest is itself up to
letter case. -/
def globRules : Rules Char where
  same c d := foldRune c.toNat = foldRune d.toNat
  narrow c := c ≠ '/'
  wide _ := true

def Means (p s : List Char) : Prop := globRules.Reads (globParts '*' p) s

/-! ### What the translations are compiled to -/

theorem compileParts_meta {c : ℕ} (hc : c ∈ metaCharacters) (s : JsString) :
    compileParts (92 :: c :: s) = (compileParts s).map (.item c :: ·) := by
  rw [compileParts, if_pos hc]

theorem compileParts_plain {c : ℕ} (hc : c ∉ metaCharacters) (s : JsString) :
    compileParts (c :: s) = (compileParts s).map (.item c :: ·) := by
  have hne (d : ℕ) (hd : d ∈ metaCharacters) (h : c = d) : False := hc (h ▸ hd)
  rw [compileParts.eq_def]
  split
  · exact (hne 36 (by decide) (List.cons.inj ‹_›).1).elim
  · exact (hne 46 (by decide) (List.cons.inj ‹_›).1).elim
  · exact (hne 91 (by decide) (List.cons.inj ‹_›).1).elim
  · exact (hne 92 (by decide) (List.cons.inj ‹_›).1).elim
  · obtain ⟨rfl, rfl⟩ := List.cons.inj ‹c :: s = _›
    rw [if_neg hc]
  · cases ‹c :: s = []›

theorem compileParts_quoteMeta (c : ℕ) (s : JsString) :
    compileParts (quoteMeta c ++ s) = (compileParts s).map (.item c :: ·) := by
  rw [quoteMeta]
  split
  · exact compileParts_meta ‹_› s
  · exact compileParts_plain ‹_› s

theorem compileParts_globItems (p : JsString) :
    compileParts (globItems p ++ js "$") = some (globParts 42 p) := by
  fun_induction globItems p with
  | case1 s ih =>
    have htext : js ".*" ++ globItems s ++ js "$" = 46 :: 42 :: (globItems s ++ js "$") := rfl
    rw [globParts_wide, htext, compileParts, ih]
    rfl
  | case2 s hs ih =>
    have htext : js "[^/]*" ++ globItems s ++ js "$" =
      91 :: 94 :: 47 :: 93 :: 42 :: (globItems s ++ js "$") := rfl
    rw [htext, compileParts, ih, globParts_narrow]
    · rfl
    · intro h
      cases s with
      | nil => cases h
      | cons d s => exact hs s (congrArg (· :: s) (Option.some.inj h))
  | case3 c s hc hs ih =>
    rw [List.append_assoc, compileParts_quoteMeta, ih, globParts_item hs]
    rfl
  | case4 => rfl

theorem mem_syntaxCharacters {c : ℕ} (hc : c ≠ 42) :
    c ∈ syntaxCharacters ↔ c ∈ metaCharacters := by
  simp [syntaxCharacters, metaCharacters, js]
  omega

theorem replaceStars_plain {c : ℕ} (hc : c ≠ 42) (s : JsString) :
    replaceStars (c :: s) = c :: replaceStars s := by
  rw [replaceStars]
  · exact fun _ h => (hc h).elim
  · exact hc

theorem head_escapeSyntax {s : JsString} (h : s.head? ≠ some 42) :
    (escapeSyntax s).head? ≠ some 42 := by
  cases s with
  | nil => exact h
  | cons c s =>
    rw [escapeSyntax, List.flatMap_cons]
    split
    · simp
    · exact h

/-- The dashboard writes the items that the runner writes. -/
theorem replaceStars_escapeSyntax (p : JsString) :
    replaceStars (escapeSyntax p) = globItems p := by
  fun_induction globItems p with
  | case1 s ih =>
    rw [← ih]
    rfl
  | case2 s hs ih =>
    have hhead : (escapeSyntax s).head? ≠ some 42 := by
      refine head_escapeSyntax fun h => ?_
      cases s with
      | nil => cases h
      | cons d s => exact hs s (congrArg (· :: s) (Option.some.inj h))
    have htext : escapeSyntax (42 :: s) = 42 :: escapeSyntax s := rfl
    rw [htext, replaceStars, ih]
    intro s' h
    rw [h] at hhead
    exact hhead rfl
  | case3 c s _ hc ih =>
    have hsplit : escapeSyntax (c :: s) =
      (if c ∈ syntaxCharacters then [92, c] else [c]) ++ escapeSyntax s := rfl
    rw [hsplit, quoteMeta, ← ih]
    simp only [mem_syntaxCharacters hc]
    split
    · rw [List.cons_append, List.cons_append, replaceStars_plain (by decide),
        List.nil_append, replaceStars_plain hc]
      rfl
    · rw [List.singleton_append, replaceStars_plain hc]
      rfl
  | case4 => rfl

/-! ### Characters as runes and as units -/

def codePoints : Encoding Char ℕ where
  lead := Char.toNat
  follow _ := []
  follows _ := False
  follows_of_mem := by simp
  not_follows := by simp

def utf16 : Encoding Char ℕ where
  lead c := if c.toNat < 0x10000 then c.toNat else 0xD800 + (c.toNat - 0x10000) / 0x400
  follow c := if c.toNat < 0x10000 then [] else [0xDC00 + (c.toNat - 0x10000) % 0x400]
  follows u := 0xDC00 ≤ u ∧ u < 0xE000
  follows_of_mem c x hx := by
    split at hx
    · cases hx
    · rw [List.mem_singleton.mp hx]
      omega
  not_follows c := by
    have hc := c.valid
    have hn : c.toNat < 0xD800 ∨ 0xDFFF < c.toNat ∧ c.toNat < 0x110000 := c.valid
    split <;> omega

def runes (s : List Char) : JsString := s.flatMap codePoints.encode

def units (s : List Char) : JsString := s.flatMap utf16.encode

/-- Letter for letter, and no line feed in two stars. -/
def exactRules : Rules Char where
  same c d := c = d
  narrow c := c ≠ '/'
  wide c := c ≠ '\n'

/-- Up to letter case, and no line feed in two stars. -/
def lineRules : Rules Char where
  same c d := foldRune c.toNat = foldRune d.toNat
  narrow c := c ≠ '/'
  wide c := c ≠ '\n'

/-- Up to the upper case of single units, and no end of a line in two stars. -/
def dashboardRules : Rules Char where
  same c d := (utf16.encode c).map canonicalize = (utf16.encode d).map canonicalize
  narrow c := c ≠ '/'
  wide c := c ∉ ['\n', '\r', '\u2028', '\u2029']

theorem toNat_ne (c d : Char) : c.toNat ≠ d.toNat ↔ c ≠ d := not_congr Char.toNat_inj

theorem codePoints_exact : codePoints.Respects exactRules (goRules false) where
  follows_of_same _ _ _ h := h
  length_eq _ _ _ := rfl
  same_iff c d := by
    simp [exactRules, goRules, Encoding.encode, codePoints, Char.toNat_inj]
  narrow_iff c x hx := by
    rw [List.mem_singleton.mp hx]
    simpa [goRules, exactRules, codePoints] using toNat_ne c '/'
  wide_iff c x hx := by
    rw [List.mem_singleton.mp hx]
    simpa [goRules, exactRules, codePoints] using toNat_ne c '\n'

theorem codePoints_line : codePoints.Respects lineRules (goRules true) where
  follows_of_same _ _ _ h := h
  length_eq _ _ _ := rfl
  same_iff c d := by
    simp [lineRules, goRules, Encoding.encode, codePoints]
  narrow_iff c x hx := by
    rw [List.mem_singleton.mp hx]
    simpa [goRules, lineRules, codePoints] using toNat_ne c '/'
  wide_iff c x hx := by
    rw [List.mem_singleton.mp hx]
    simpa [goRules, lineRules, codePoints] using toNat_ne c '\n'

/-- No upper case leads to a surrogate or from one. -/
theorem upperRuns_outside : ∀ r ∈ upperRuns, (r.last < 0xD800 ∨ 0xE000 ≤ r.first) ∧
    (r.image + (r.last - r.first) < 0xD800 ∨ 0xE000 ≤ r.image) := by
  decide +kernel

theorem upperSeveral_length : ∀ e ∈ upperSeveral, e.2.length ≠ 1 := by
  decide

theorem canonicalize_cases (u : ℕ) : canonicalize u = u ∨
    (u < 0xD800 ∨ 0xE000 ≤ u) ∧ (canonicalize u < 0xD800 ∨ 0xE000 ≤ canonicalize u) := by
  rw [canonicalize, upper]
  cases hlookup : upperSeveral.lookup u with
  | some vs =>
    have hmem : (u, vs) ∈ upperSeveral := by
      obtain ⟨before, after, hsplit, -⟩ := List.lookup_eq_some_iff.mp hlookup
      rw [hsplit]
      simp
    have hlength := upperSeveral_length _ hmem
    left
    rw [Option.getD_some]
    split
    · exact absurd rfl hlength
    · rfl
  | none =>
    simp only [Option.getD_none]
    split
    · exact Or.inl rfl
    · rcases mapped_cases upperRuns u with h | ⟨r, hr, hfirst, hlast, h⟩
      · exact Or.inl h
      · obtain ⟨hfrom, hto⟩ := upperRuns_outside r hr
        rw [h]
        omega

theorem follows_of_canonicalize {x y : ℕ} (h : canonicalize x = canonicalize y)
    (hy : 0xD800 ≤ y ∧ y < 0xE000) : x = y := by
  have hx := canonicalize_cases x
  have hy := canonicalize_cases y
  omega

theorem toNat_valid (c : Char) : c.toNat < 0xD800 ∨ 0xDFFF < c.toNat ∧ c.toNat < 0x110000 :=
  c.valid

/-- A character below the surrogates is its own unit, and no other has it. -/
theorem mem_encode_utf16 (c d : Char) (hd : d.toNat < 0xD800) {x : ℕ}
    (hx : x ∈ utf16.encode c) : x ≠ d.toNat ↔ c ≠ d := by
  rw [← toNat_ne]
  have hc := toNat_valid c
  simp only [Encoding.encode, utf16] at hx
  split at hx
  · rw [List.mem_singleton.mp hx]
  · have hcd : c.toNat ≠ d.toNat := by omega
    rcases List.mem_pair.mp hx with h | h
    · exact iff_of_true (by omega) hcd
    · exact iff_of_true (by omega) hcd

theorem utf16_dashboard : utf16.Respects dashboardRules jsRules where
  follows_of_same x y hsame hy := by
    have hcanon : canonicalize x = canonicalize y := by
      simpa only [jsRules, decide_eq_true_eq] using hsame
    simp only [utf16] at hy ⊢
    have hlow : 0xD800 ≤ y := by omega
    have hxy : x = y := follows_of_canonicalize hcanon ⟨hlow, hy.2⟩
    rw [hxy]
    exact hy
  length_eq c d hsame := by
    have hc := toNat_valid c
    have hd := toNat_valid d
    simp only [jsRules, decide_eq_true_eq, utf16] at hsame ⊢
    by_cases hshort : c.toNat < 0x10000
    · by_cases hshort' : d.toNat < 0x10000
      · rw [if_pos hshort, if_pos hshort']
      · rw [if_pos hshort, if_neg hshort'] at hsame
        have := follows_of_canonicalize hsame (by omega)
        omega
    · by_cases hshort' : d.toNat < 0x10000
      · rw [if_neg hshort, if_pos hshort'] at hsame
        have := follows_of_canonicalize hsame.symm (by omega)
        omega
      · rw [if_neg hshort, if_neg hshort', List.length_singleton, List.length_singleton]
  same_iff c d := by
    simp only [dashboardRules, jsRules, decide_eq_true_eq]
    rw [← List.forall₂_eq_eq_eq, List.forall₂_map_left_iff, List.forall₂_map_right_iff]
  narrow_iff c x hx := by
    have hslash : x ≠ 47 ↔ c ≠ '/' := mem_encode_utf16 c '/' (by decide) hx
    simpa only [jsRules, dashboardRules, decide_eq_true_eq] using hslash
  wide_iff c x hx := by
    have hn : x ≠ 10 ↔ c ≠ '\n' := mem_encode_utf16 c '\n' (by decide) hx
    have hr : x ≠ 13 ↔ c ≠ '\r' := mem_encode_utf16 c '\r' (by decide) hx
    have hl : x ≠ 0x2028 ↔ c ≠ '\u2028' := mem_encode_utf16 c '\u2028' (by decide) hx
    have hp : x ≠ 0x2029 ↔ c ≠ '\u2029' := mem_encode_utf16 c '\u2029' (by decide) hx
    simp only [jsRules, dashboardRules, decide_eq_true_eq, List.mem_cons, List.not_mem_nil,
      or_false, not_or]
    exact and_congr hn (and_congr hr (and_congr hl hp))

/-! ### What the tests decide -/

theorem head_encode (e : Encoding Char ℕ) (c : Char) (s : List Char) :
    ((c :: s).flatMap e.encode).head? = some (e.lead c) := rfl

theorem globParts_encode_item {e : Encoding Char ℕ} (hother : ∀ c ≠ '*', 42 ∉ e.encode c)
    {c : Char} (hc : c ≠ '*') (s : JsString) :
    globParts 42 (e.encode c ++ s) = (e.encode c).map .item ++ globParts 42 s := by
  have hall : ∀ u : JsString, 42 ∉ u → globParts 42 (u ++ s) = u.map .item ++ globParts 42 s := by
    intro u hu
    induction u with
    | nil => rfl
    | cons x u ih =>
      rw [List.mem_cons, not_or] at hu
      rw [List.cons_append, globParts_item (Ne.symm hu.1), ih hu.2]
      rfl
  exact hall _ (hother c hc)

/-- The parts of an encoded glob. -/
theorem globParts_encode {e : Encoding Char ℕ} (hstar : e.encode '*' = [42])
    (hother : ∀ c ≠ '*', 42 ∉ e.encode c) (p : List Char) :
    globParts 42 (p.flatMap e.encode) = (globParts '*' p).flatMap e.encodePart := by
  fun_induction globParts '*' p with
  | case1 => rfl
  | case2 c =>
    split
    · rename_i h
      rw [h, List.flatMap_singleton, hstar]
      rfl
    · rename_i h
      rw [List.flatMap_cons, globParts_encode_item hother h]
      rfl
  | case3 c d s hc ih =>
    rw [List.flatMap_cons, globParts_encode_item hother hc, ih, List.flatMap_cons]
    rfl
  | case4 c s hc ih =>
    rw [not_not.mp hc, List.flatMap_cons, List.flatMap_cons, hstar, List.flatMap_cons, ← ih]
    exact globParts_wide 42 _
  | case5 c d s hc hd ih =>
    have hhead : ((d :: s).flatMap e.encode).head? ≠ some 42 := by
      rw [head_encode]
      intro h
      exact hother d hd (Option.some.inj h ▸ List.mem_cons_self)
    rw [not_not.mp hc, List.flatMap_cons, hstar, List.singleton_append,
      globParts_narrow 42 hhead, ih]
    rfl

theorem globParts_runes (p : List Char) :
    globParts 42 (runes p) = (globParts '*' p).flatMap codePoints.encodePart := by
  refine globParts_encode rfl (fun c hc h => hc ?_) p
  exact Char.toNat_inj.mp (List.mem_singleton.mp h).symm

theorem globParts_units (p : List Char) :
    globParts 42 (units p) = (globParts '*' p).flatMap utf16.encodePart := by
  refine globParts_encode rfl (fun c hc h => ?_) p
  exact (mem_encode_utf16 c '*' (by decide) h).mpr hc rfl

theorem matchString_endpoint (p s : List Char) :
    matchString (endpointGlobToRegex (runes p)) (runes s) ↔
      exactRules.Reads (globParts '*' p) s := by
  have hcompile : compile (endpointGlobToRegex (runes p)) =
      some ⟨false, globParts 42 (runes p)⟩ := by
    have htext : endpointGlobToRegex (runes p) = 94 :: (globItems (runes p) ++ js "$") := rfl
    rw [htext, compile, compileParts_globItems]
    rfl
  rw [matchString, hcompile]
  dsimp only
  rw [Rules.accepts_iff, globParts_runes]
  exact codePoints_exact.encode_iff _ _

theorem matchString_runner (p s : List Char) :
    matchString (globToRegex (runes p)) (runes s) ↔ lineRules.Reads (globParts '*' p) s := by
  have hcompile : compile (globToRegex (runes p)) =
      some ⟨true, globParts 42 (runes p)⟩ := by
    have htext : globToRegex (runes p) =
      40 :: 63 :: 105 :: 41 :: 94 :: (globItems (runes p) ++ js "$") := rfl
    rw [htext, compile, compileParts_globItems]
    rfl
  rw [matchString, hcompile]
  dsimp only
  rw [Rules.accepts_iff, globParts_runes]
  exact codePoints_line.encode_iff _ _

theorem regexTest_getRegex (p s : List Char) :
    regexTest (getRegex (units p)) (units s) ↔ dashboardRules.Reads (globParts '*' p) s := by
  have hcompile : compile (getRegex (units p)) = some ⟨false, globParts 42 (units p)⟩ := by
    have htext : getRegex (units p) =
      94 :: (replaceStars (escapeSyntax (units p)) ++ js "$") := rfl
    rw [htext, compile, replaceStars_escapeSyntax, compileParts_globItems]
    rfl
  rw [regexTest, hcompile]
  dsimp only
  rw [Rules.accepts_iff, globParts_units]
  exact utf16_dashboard.encode_iff _ _

theorem runes_eq_map (s : List Char) : runes s = s.map Char.toNat := by
  rw [List.map_eq_flatMap]
  rfl

theorem star_mem_runes (p : List Char) : 42 ∈ runes p ↔ '*' ∈ p := by
  rw [runes_eq_map, List.mem_map]
  constructor
  · rintro ⟨c, hc, h⟩
    have hstar : c = '*' := Char.toNat_inj.mp h
    exact hstar ▸ hc
  · exact fun h => ⟨'*', h, rfl⟩

theorem equalFold_runes {p : List Char} (hp : '*' ∉ p) (s : List Char) :
    equalFold (runes p) (runes s) ↔ Means p s := by
  rw [Means, globParts_plain hp, Rules.reads_items, equalFold, decide_eq_true_eq, runes_eq_map,
    runes_eq_map, List.map_map, List.map_map, ← List.forall₂_eq_eq_eq,
    List.forall₂_map_left_iff, List.forall₂_map_right_iff]
  simp [globRules]

/-- Without a star nothing depends on the ends of lines. -/
theorem lineRules_plain {p : List Char} (hp : '*' ∉ p) (s : List Char) :
    lineRules.Reads (globParts '*' p) s ↔ Means p s := by
  rw [Means, globParts_plain hp, Rules.reads_items, Rules.reads_items]
  rfl

theorem endpointMatches_iff (p s : List Char) :
    endpointMatches (runes p) (runes s) ↔
      if '*' ∈ p then exactRules.Reads (globParts '*' p) s else Means p s := by
  rw [endpointMatches]
  simp only [star_mem_runes]
  by_cases hp : '*' ∈ p
  · rw [if_neg (not_not.mpr hp), if_pos hp, matchString_endpoint]
  · rw [if_pos hp, if_neg hp, equalFold_runes hp]

theorem matchesAny_iff (key path : List Char) (patterns : List (List Char)) :
    matchesAny (runes key) (runes path) (patterns.map runes) ↔
      ∃ p ∈ patterns, lineRules.Reads (globParts '*' p) key ∨
        lineRules.Reads (globParts '*' p) path := by
  rw [matchesAny, List.any_map, List.any_eq_true]
  refine exists_congr fun p => and_congr_right fun _ => ?_
  simp only [Function.comp_apply, star_mem_runes]
  by_cases hp : '*' ∈ p
  · rw [if_neg (not_not.mpr hp), Bool.or_eq_true, matchString_runner, matchString_runner]
  · rw [if_pos hp, Bool.or_eq_true, equalFold_runes hp, equalFold_runes hp, lineRules_plain hp,
      lineRules_plain hp]

def methodPath (method path : List Char) : List Char := method ++ ' ' :: path

theorem matchesPattern_iff (method path : List Char) (patterns : List (List Char)) :
    matchesPattern (units method) (units path) (patterns.map units) ↔
      ∃ p ∈ patterns, dashboardRules.Reads (globParts '*' p) (methodPath method path) ∨
        ¬ hasMethodPrefix (units p) ∧ dashboardRules.Reads (globParts '*' p) path := by
  have hkey : units method ++ js " " ++ units path = units (methodPath method path) := by
    rw [units, units, units, methodPath, List.flatMap_append, List.flatMap_cons,
      List.append_assoc]
    rfl
  rw [matchesPattern, List.any_map, List.any_eq_true]
  refine exists_congr fun p => and_congr_right fun _ => ?_
  rw [Function.comp_apply, hkey]
  by_cases hp : hasMethodPrefix (units p)
  · rw [if_pos hp, regexTest_getRegex]
    simp [hp]
  · rw [if_neg hp, Bool.or_eq_true, regexTest_getRegex, regexTest_getRegex]
    simp [hp, or_comm]

/-! ### The claim -/

/-- What the dashboard tests a pattern on. -/
def tested (method path p : List Char) : List (List Char) :=
  if hasMethodPrefix (units p) then [methodPath method path]
  else [path, methodPath method path]

/-- On each string that they test the three engines do what the pattern means, and the dashboard
shows as excluded what the runner leaves out. -/
structure Agree (method path : List Char) (patterns : List (List Char)) : Prop where
  endpoint : ∀ p ∈ patterns, endpointMatches (runes p) (runes path) ↔ Means p path
  runner : ∀ p ∈ patterns, ∀ s ∈ [methodPath method path, path],
    matchesAny (runes s) (runes s) [runes p] ↔ Means p s
  dashboard : ∀ p ∈ patterns, ∀ s ∈ tested method path p,
    regexTest (getRegex (units p)) (units s) ↔ Means p s
  excluded : matchesPattern (units method) (units path) (patterns.map units) =
    matchesAny (runes (methodPath method path)) (runes path) (patterns.map runes)

/-- What has a reading has one that the engines find: letter for letter in an ignore rule with a
star, without a line feed in two stars, and in the dashboard by the units it folds. -/
structure Settled (method path : List Char) (patterns : List (List Char)) : Prop where
  letters : ∀ p ∈ patterns, '*' ∈ p → Means p path → exactRules.Reads (globParts '*' p) path
  lines : ∀ p ∈ patterns, ∀ s ∈ [methodPath method path, path], Means p s →
    lineRules.Reads (globParts '*' p) s
  folded : ∀ p ∈ patterns, ∀ s ∈ tested method path p,
    (dashboardRules.Reads (globParts '*' p) s ↔ Means p s)
  prefixed : ∀ p ∈ patterns, hasMethodPrefix (units p) → Means p path → ∃ q ∈ patterns,
    Means q (methodPath method path) ∨ ¬ hasMethodPrefix (units q) ∧ Means q path

theorem exactRules_means {ps : List (PatternPart Char)} {s : List Char}
    (h : exactRules.Reads ps s) : globRules.Reads ps s := by
  refine h.mono (fun c d hsame => ?_) (fun _ hc => hc) fun _ _ => rfl
  simp only [exactRules, decide_eq_true_eq] at hsame
  simp [globRules, hsame]

theorem lineRules_means {ps : List (PatternPart Char)} {s : List Char} (h : lineRules.Reads ps s) :
    globRules.Reads ps s :=
  h.mono (fun _ _ hsame => hsame) (fun _ hc => hc) fun _ _ => rfl

theorem endpoint_agrees (p s : List Char) :
    (endpointMatches (runes p) (runes s) ↔ Means p s) ↔
      ('*' ∈ p → Means p s → exactRules.Reads (globParts '*' p) s) := by
  rw [endpointMatches_iff]
  by_cases hp : '*' ∈ p
  · rw [if_pos hp]
    exact ⟨fun h _ hmeans => h.mpr hmeans, fun h => ⟨exactRules_means, h hp⟩⟩
  · rw [if_neg hp]
    exact ⟨fun _ hin => absurd hin hp, fun _ => Iff.rfl⟩

theorem runner_agrees (p s : List Char) :
    (matchesAny (runes s) (runes s) [runes p] ↔ Means p s) ↔
      (Means p s → lineRules.Reads (globParts '*' p) s) := by
  have htest := matchesAny_iff s s [p]
  simp only [List.map_cons, List.map_nil, List.mem_singleton, exists_eq_left, or_self] at htest
  rw [htest]
  exact ⟨fun h => h.mpr, fun h => ⟨lineRules_means, h⟩⟩

theorem key_tested (method path p : List Char) : methodPath method path ∈ tested method path p := by
  rw [tested]
  split <;> simp

theorem excluded_runner {method path : List Char} {patterns : List (List Char)}
    (h : ∀ p ∈ patterns, ∀ s ∈ [methodPath method path, path], Means p s →
      lineRules.Reads (globParts '*' p) s) :
    matchesAny (runes (methodPath method path)) (runes path) (patterns.map runes) ↔
      ∃ p ∈ patterns, Means p (methodPath method path) ∨ Means p path := by
  rw [matchesAny_iff]
  refine exists_congr fun p => and_congr_right fun hp => or_congr ?_ ?_
  · exact ⟨lineRules_means, h p hp _ (by simp)⟩
  · exact ⟨lineRules_means, h p hp _ (by simp)⟩

theorem excluded_dashboard {method path : List Char} {patterns : List (List Char)}
    (h : ∀ p ∈ patterns, ∀ s ∈ tested method path p,
      (dashboardRules.Reads (globParts '*' p) s ↔ Means p s)) :
    matchesPattern (units method) (units path) (patterns.map units) ↔
      ∃ p ∈ patterns, Means p (methodPath method path) ∨
        ¬ hasMethodPrefix (units p) ∧ Means p path := by
  rw [matchesPattern_iff]
  refine exists_congr fun p => and_congr_right fun hp => or_congr ?_ ?_
  · exact h p hp _ (key_tested method path p)
  · refine and_congr_right fun hplain => h p hp path ?_
    rw [tested, if_neg hplain]
    exact List.mem_cons_self

/-- The engines agree with each other and with the meaning of the patterns where each string that
has a reading has one that the engines find, and only there. -/
theorem agree_iff (method path : List Char) (patterns : List (List Char)) :
    Agree method path patterns ↔ Settled method path patterns := by
  constructor
  · intro h
    have hlines (p) (hp : p ∈ patterns) (s) (hs : s ∈ [methodPath method path, path]) :=
      (runner_agrees p s).mp (h.runner p hp s hs)
    have hfolded (p) (hp : p ∈ patterns) (s) (hs : s ∈ tested method path p) :
        dashboardRules.Reads (globParts '*' p) s ↔ Means p s :=
      (regexTest_getRegex p s).symm.trans (h.dashboard p hp s hs)
    refine ⟨fun p hp => (endpoint_agrees p path).mp (h.endpoint p hp), hlines, hfolded, ?_⟩
    intro p hp _ hmeans
    refine (excluded_dashboard hfolded).mp (h.excluded.trans ?_)
    exact (excluded_runner hlines).mpr ⟨p, hp, Or.inr hmeans⟩
  · intro h
    refine ⟨fun p hp => (endpoint_agrees p path).mpr (h.letters p hp),
      fun p hp s hs => (runner_agrees p s).mpr (h.lines p hp s hs),
      fun p hp s hs => (regexTest_getRegex p s).trans (h.folded p hp s hs), ?_⟩
    rw [Bool.eq_iff_iff, excluded_dashboard h.folded, excluded_runner h.lines]
    constructor
    · rintro ⟨p, hp, hkey | ⟨-, hpath⟩⟩
      · exact ⟨p, hp, Or.inl hkey⟩
      · exact ⟨p, hp, Or.inr hpath⟩
    · rintro ⟨p, hp, hkey | hpath⟩
      · exact ⟨p, hp, Or.inl hkey⟩
      · by_cases hmethod : hasMethodPrefix (units p)
        · exact h.prefixed p hp hmethod hpath
        · exact ⟨p, hp, Or.inr ⟨hmethod, hpath⟩⟩

/-- An ignore rule for `/api/*` leaves out `/API/users`, which the other two engines match. -/
theorem letters_differ : ¬ Agree "GET".toList "/API/users".toList ["/api/*".toList] := by
  intro h
  have hendpoint := h.endpoint "/api/*".toList (by simp)
  revert hendpoint
  rw [Means]
  decide

end Swazz.Globs
