import Mathlib.Data.List.Infix
import Swazz.GoStrings
import Swazz.GoUrl
import Swazz.TextRewriting

/-! The headers that a payload tries to inject. -/
namespace Swazz.Crlf

open Utf8
open TextRewriting

/-! ### Replacers -/

/-- How long the first key is that stands here, in the order of the pairs. -/
def keyLength (pairs : List (Text × Text)) (s : Text) : ℕ :=
  ((pairs.find? fun p => p.1.isPrefixOf s).map (·.1.length)).getD 0

/-- `strings.NewReplacer` -/
def replacer (pairs : List (Text × Text)) (s : Text) : Text :=
  replaceAll (keyLength pairs) (fun key => (pairs.lookup key).getD key) s

/-- U+560D and U+560A end in the bytes of a carriage return and a line feed. -/
def payloadNormalizePairs : List (Text × Text) :=
  ([("%u000d", "%0d"), ("%u000D", "%0D"), ("%u000a", "%0a"), ("%u000A", "%0A"),
    ("%E5%98%8D", "%0D"), ("%e5%98%8d", "%0d"), ("%E5%98%8A", "%0A"),
    ("%e5%98%8a", "%0a")].map fun p => (ascii p.1, ascii p.2)) ++
  [([0xE5, 0x98, 0x8D], ascii "\r"), ([0xE5, 0x98, 0x8A], ascii "\n")]

/-- One byte of a key, or two where the first is not ASCII. -/
def keyPrefix (key : Text) : Text :=
  if 0x80 ≤ key.headD 0 ∧ 2 ≤ key.length then key.take 2 else key.take 1

def payloadNormalizePrefixes : List Text :=
  (((payloadNormalizePairs.map (·.1)).filter (· ≠ [])).map keyPrefix).eraseDups

def crlfPairs : List (Text × Text) := [(ascii "\r\n", ascii "\n"), (ascii "\r", ascii "\n")]

def needsPayloadNormalize (s : Text) : Bool :=
  payloadNormalizePrefixes.any fun start => decide (start <:+: s)

/-! ### Lines and headers -/

structure InjectedHeader where
  name : Text
  value : Text
  deriving DecidableEq

/-- `\s` -/
def isBlank (c : Byte) : Bool := c ∈ [9, 10, 12, 13, 32]

/-- The longest match of `(?i)[A-Za-z0-9][A-Za-z0-9\-_]*`, and the rest: the long s and the Kelvin
sign are letters here. -/
def takeName (isFirst : Bool) : Text → Text × Text
  | 0xC5 :: 0xBF :: s => let r := takeName false s; (0xC5 :: 0xBF :: r.1, r.2)
  | 0xE2 :: 0x84 :: 0xAA :: s => let r := takeName false s; (0xE2 :: 0x84 :: 0xAA :: r.1, r.2)
  | c :: s =>
    if GoUrl.isLetter c || GoUrl.isDigit c || (!isFirst && (c = 45 || c = 95)) then
      let r := takeName false s
      (c :: r.1, r.2)
    else ([], c :: s)
  | [] => ([], [])

/-- `(?i)^([A-Za-z0-9][A-Za-z0-9\-_]*)\s*:\s*(.+)$` -/
def headerInjectionRe (line : Text) : Option InjectedHeader :=
  let (name, rest) := takeName true line
  if name = [] then none
  else
    match rest.dropWhile isBlank with
    | 58 :: rest =>
      -- the last blank is given back where nothing else is left
      let value := if rest.dropWhile isBlank = [] then rest.getLast?.toList
        else rest.dropWhile isBlank
      if value = [] ∨ 10 ∈ value then none else some ⟨name, value⟩
    | _ => none

def parseHeadersFromLines (lines : List Text) : List InjectedHeader :=
  (lines.map GoStrings.trimSpace).filterMap fun line =>
    if line = [] then none else headerInjectionRe line

def splitOnCRLF (s : Text) : List Text :=
  let hasCR := decide (13 ∈ s)
  if !hasCR ∧ 10 ∉ s then []
  else
    let normalized := if hasCR then replacer crlfPairs s else s
    let parts := normalized.splitOn 10
    if parts.length ≤ 1 then [] else parts.tail

def headerKey (h : InjectedHeader) : List ℕ :=
  (GoStrings.runes h.name).map GoStrings.lowerRune ++ 58 ::
    (GoStrings.runes h.value).map GoStrings.lowerRune

local instance instLawfulBEqKey : LawfulBEq (List ℕ) := inferInstance

/-- The first of each name and value, up to letter case. -/
def deduplicateHeaders (headers : List InjectedHeader) : List InjectedHeader :=
  (headers.foldl (fun (seen, unique) h =>
    if headerKey h ∈ seen then (seen, unique) else (headerKey h :: seen, unique ++ [h]))
    (([], []) : List (List ℕ) × List InjectedHeader)).2

/-! ### Decodings -/

/-- `url.PathUnescape` -/
def pathUnescape (s : Text) : Option Text := GoUrl.unescape .pathSegment s

/-- `url.QueryUnescape`: a plus is a blank. -/
def queryUnescape (s : Text) : Option Text :=
  GoUrl.unescape .pathSegment (s.map fun c => if c = 43 then 32 else c)

/-- The headers of what a payload is decoded to, and of what that is decoded to. -/
def decodedHeaders (split : Text → List Text) (unescape : Text → Option Text) (s : Text) :
    List InjectedHeader :=
  match unescape s with
  | none => []
  | some decoded =>
    if decoded = s then []
    else parseHeadersFromLines (split decoded) ++
      match unescape decoded with
      | none => []
      | some doubleDecoded =>
        if doubleDecoded = decoded then [] else parseHeadersFromLines (split doubleDecoded)

def extractInjectedHeaders (payload : Text) : List InjectedHeader :=
  let normalizedPayload :=
    if needsPayloadNormalize payload then replacer payloadNormalizePairs payload else payload
  if 37 ∉ normalizedPayload ∧ 13 ∉ normalizedPayload ∧ 10 ∉ normalizedPayload then []
  else deduplicateHeaders <|
    parseHeadersFromLines (splitOnCRLF normalizedPayload) ++
      decodedHeaders splitOnCRLF pathUnescape normalizedPayload ++
      decodedHeaders splitOnCRLF queryUnescape normalizedPayload

/-! ### The version of the tests -/

def refSplitOnCRLF (s : Text) : List Text :=
  let parts := (replacer crlfPairs s).splitOn 10
  if parts.length ≤ 1 then [] else parts.tail

def refExtractInjectedHeaders (payload : Text) : List InjectedHeader :=
  let normalizedPayload := replacer payloadNormalizePairs payload
  deduplicateHeaders <|
    parseHeadersFromLines (refSplitOnCRLF normalizedPayload) ++
      decodedHeaders refSplitOnCRLF pathUnescape normalizedPayload ++
      decodedHeaders refSplitOnCRLF queryUnescape normalizedPayload

/-! ### They agree -/

theorem piecesFrom_plain {pattern : Text → ℕ} {s : Text}
    (h : ∀ t, t <:+ s → pattern t = 0) : pieces pattern s = s.map .plain := by
  induction s with
  | nil => rfl
  | cons c s ih =>
    rw [pieces, piecesFrom, if_pos (h _ (List.suffix_refl _)), List.map_cons]
    exact congrArg _ (ih fun t ht => h t (ht.trans (List.suffix_cons c s)))

/-- A replacer leaves a text alone in which no key occurs. -/
theorem replacer_eq_self {pairs : List (Text × Text)} {s : Text}
    (h : ∀ p ∈ pairs, ¬ p.1 <:+: s) : replacer pairs s = s := by
  have hnone (t : Text) (ht : t <:+ s) : keyLength pairs t = 0 := by
    have hfind : pairs.find? (fun p => p.1.isPrefixOf t) = none := by
      rw [List.find?_eq_none]
      intro p hp hstart
      exact h p hp ((List.isPrefixOf_iff_prefix.mp hstart).isInfix.trans ht.isInfix)
    rw [keyLength, hfind]
    rfl
  rw [replacer, replaceAll, piecesFrom_plain hnone, render_plains]

theorem prefix_of_key : ∀ p ∈ payloadNormalizePairs,
    ∃ start ∈ payloadNormalizePrefixes, start <+: p.1 := by
  decide

theorem normalized_eq (payload : Text) :
    (if needsPayloadNormalize payload then replacer payloadNormalizePairs payload
      else payload) = replacer payloadNormalizePairs payload := by
  by_cases h : needsPayloadNormalize payload
  · rw [if_pos h]
  · rw [if_neg h, replacer_eq_self]
    intro p hp hin
    obtain ⟨start, hstart, hkey⟩ := prefix_of_key p hp
    refine h (List.any_eq_true.mpr ⟨start, hstart, ?_⟩)
    exact decide_eq_true (hkey.isInfix.trans hin)

theorem not_infix_of_not_mem {c : Byte} {w s : Text} (hc : c ∈ w) (h : c ∉ s) : ¬ w <:+: s :=
  fun hin => h (hin.subset hc)

theorem crlf_eq_self {s : Text} (h : 13 ∉ s) : replacer crlfPairs s = s := by
  refine replacer_eq_self fun p hp => ?_
  have hcr : ∀ p ∈ crlfPairs, 13 ∈ p.1 := by decide
  exact not_infix_of_not_mem (hcr p hp) h

theorem refSplitOnCRLF_plain {s : Text} (hcr : 13 ∉ s) (hlf : 10 ∉ s) :
    refSplitOnCRLF s = [] := by
  rw [refSplitOnCRLF, crlf_eq_self hcr]
  have hone : s.splitOn 10 = [s] := by
    refine List.splitOnP_eq_singleton fun c hc => ?_
    rw [beq_eq_false_iff_ne]
    rintro rfl
    exact hlf hc
  rw [hone]
  rfl

theorem splitOnCRLF_eq (s : Text) : splitOnCRLF s = refSplitOnCRLF s := by
  rw [splitOnCRLF]
  by_cases hcr : 13 ∈ s
  · simp only [hcr, decide_true, refSplitOnCRLF]
    simp
  · by_cases hlf : 10 ∈ s
    · simp [hcr, hlf, refSplitOnCRLF, crlf_eq_self hcr]
    · rw [refSplitOnCRLF_plain hcr hlf]
      simp [hcr, hlf]

theorem unescape_plain {s : Text} (h : 37 ∉ s) : GoUrl.unescape .pathSegment s = some s := by
  induction s with
  | nil => rfl
  | cons c s ih =>
    rw [List.mem_cons, not_or] at h
    have hc : c ≠ GoUrl.percent := Ne.symm h.1
    rw [GoUrl.unescape.eq_def]
    dsimp only
    rw [if_neg hc, ih h.2]
    rfl

theorem parse_nil : parseHeadersFromLines [] = [] := rfl

/-- A text without percent signs and ends of lines decodes to texts without them. -/
theorem decodedHeaders_plain {unescape : Text → Option Text} {s decoded : Text}
    (hfirst : unescape s = some decoded) (hsecond : unescape decoded = some decoded)
    (hcr : 13 ∉ decoded) (hlf : 10 ∉ decoded) : decodedHeaders refSplitOnCRLF unescape s = [] := by
  rw [decodedHeaders, hfirst]
  dsimp only
  rw [hsecond, refSplitOnCRLF_plain hcr hlf, parse_nil]
  simp

def blanked (s : Text) : Text := s.map fun c => if c = 43 then 32 else c

theorem not_mem_blanked {c : Byte} {s : Text} (hc : c ≠ 32) (h : c ∉ s) : c ∉ blanked s := by
  intro hin
  obtain ⟨d, hd, hdc⟩ := List.mem_map.mp hin
  split at hdc
  · exact hc hdc.symm
  · exact h (hdc ▸ hd)

theorem blanked_blanked (s : Text) : blanked (blanked s) = blanked s := by
  rw [blanked, blanked, List.map_map]
  refine List.map_congr_left fun c _ => ?_
  rw [Function.comp_apply]
  split <;> simp_all

theorem refHeaders_plain {s : Text} (hpercent : 37 ∉ s) (hcr : 13 ∉ s) (hlf : 10 ∉ s) :
    parseHeadersFromLines (refSplitOnCRLF s) ++ decodedHeaders refSplitOnCRLF pathUnescape s ++
      decodedHeaders refSplitOnCRLF queryUnescape s = [] := by
  have hpath : pathUnescape s = some s := unescape_plain hpercent
  have hb : 37 ∉ blanked s := not_mem_blanked (by decide) hpercent
  have hquery : queryUnescape s = some (blanked s) := unescape_plain hb
  have hagain : queryUnescape (blanked s) = some (blanked s) := by
    have hb' : 37 ∉ blanked (blanked s) := not_mem_blanked (by decide) hb
    exact (unescape_plain hb').trans (congrArg some (blanked_blanked s))
  rw [refSplitOnCRLF_plain hcr hlf, parse_nil, decodedHeaders_plain hpath hpath hcr hlf,
    decodedHeaders_plain hquery hagain (not_mem_blanked (by decide) hcr)
      (not_mem_blanked (by decide) hlf)]
  rfl

/-- The shortcuts change nothing. -/
theorem extractInjectedHeaders_eq (payload : Text) :
    extractInjectedHeaders payload = refExtractInjectedHeaders payload := by
  have hsplit : splitOnCRLF = refSplitOnCRLF := funext splitOnCRLF_eq
  rw [extractInjectedHeaders, refExtractInjectedHeaders, normalized_eq]
  by_cases h : 37 ∉ replacer payloadNormalizePairs payload ∧
      13 ∉ replacer payloadNormalizePairs payload ∧ 10 ∉ replacer payloadNormalizePairs payload
  · rw [if_pos h, refHeaders_plain h.1 h.2.1 h.2.2]
    rfl
  · rw [if_neg h, hsplit]

example : extractInjectedHeaders (ascii "%250d%250aX-Test: 1") =
    [⟨ascii "X-Test", ascii "1"⟩] := by
  decide +kernel

end Swazz.Crlf
