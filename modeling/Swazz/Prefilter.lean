import Mathlib.Data.List.Infix
import Swazz.Utf8

/-! The search in a response body that the analyzers of a fuzzing result start with. -/
namespace Swazz.Analyzer

open Utf8

def isUpperASCII (c : Byte) : Bool := 65 ≤ c && c ≤ 90

def isLowerASCII (c : Byte) : Bool := 97 ≤ c && c ≤ 122

def lowerByte (c : Byte) : Byte := if isUpperASCII c then c + 32 else c

/-- Writes byte by byte; the two texts may share their memory. -/
def lowerASCIIInto (dst b : Text) : Text :=
  b.zipIdx.foldl (fun out p => out.set p.2 (lowerByte p.1)) dst

def lowerNeedle (needle : Text) : Text :=
  if needle.any isUpperASCII then lowerASCIIInto needle needle else needle

/-! The bigrams of a body, as a set of 65536 bits. -/

structure bigramIndex where
  words : Vector (BitVec 64) 1024

def bigramIndex.empty : bigramIndex := ⟨Vector.replicate 1024 0#64⟩

def pair (a b : Byte) : ℕ := a.val * 256 + b.val

theorem pair_lt (a b : Byte) : pair a b / 64 < 1024 := by
  unfold pair
  omega

def bigramIndex.word (bg : bigramIndex) (a b : Byte) : BitVec 64 :=
  bg.words.get ⟨pair a b / 64, pair_lt a b⟩

def bigramIndex.set (bg : bigramIndex) (a b : Byte) : bigramIndex :=
  ⟨bg.words.set (pair a b / 64) (bg.word a b ||| 1#64 <<< (pair a b % 64)) (pair_lt a b)⟩

def bigramIndex.has (bg : bigramIndex) (a b : Byte) : Bool :=
  bg.word a b &&& 1#64 <<< (pair a b % 64) != 0#64

/-- The views that the analyzers of one response share. -/
structure AnalysisInput where
  ResponseBody : Text
  lowered : Option Text
  loweredDone : Bool
  bigrams : Option bigramIndex
  bigramsDone : Bool
  needleChecks : ℕ

/-- What the pools hand out: whatever was left there. -/
structure Pools where
  lowered : Text
  bigrams : bigramIndex

def newInput (ResponseBody : Text) : AnalysisInput := ⟨ResponseBody, none, false, none, false, 0⟩

def getLoweredBuf (pooled : Text) (n : ℕ) : Text :=
  if pooled.length < n then List.replicate n 0 else pooled.take n

namespace AnalysisInput

def lowerBody (pools : Pools) (input : AnalysisInput) : Text × AnalysisInput :=
  let input :=
    if input.loweredDone then input
    else
      { input with
        lowered := some (lowerASCIIInto (getLoweredBuf pools.lowered input.ResponseBody.length)
          input.ResponseBody)
        loweredDone := true }
  (input.lowered.getD [], input)

def bodyBigrams (pools : Pools) (input : AnalysisInput) : bigramIndex × AnalysisInput :=
  let input :=
    if input.bigramsDone then input
    else
      -- the index of the pool is cleared first
      let bg : bigramIndex := ⟨pools.bigrams.words.map fun _ => 0#64⟩
      let (body, input) := input.lowerBody pools
      let bg := (List.range (body.length - 1)).foldl
        (fun bg i => bg.set (body.getD i 0) (body.getD (i + 1) 0)) bg
      { input with bigrams := some bg, bigramsDone := true }
  (input.bigrams.getD bigramIndex.empty, input)

def release (input : AnalysisInput) : AnalysisInput :=
  { input with
    lowered := none
    loweredDone := false
    bigrams := none
    bigramsDone := false
    needleChecks := 0 }

def minBigramBodyLen : ℕ := 2048

def minBigramNeedles : ℕ := 4

/-- `bytes.Contains` -/
def Contains (body n : Text) : Bool := decide (n <:+: body)

/-- The tests of a needle before the search: its first, its last and its middle bigram. -/
def mayContain (bg : bigramIndex) (n : Text) : Bool :=
  if 2 ≤ n.length then
    if !bg.has (n.getD 0 0) (n.getD 1 0) then false
    else if 2 < n.length then
      let last := n.length - 1
      if !bg.has (n.getD (last - 1) 0) (n.getD last 0) then false
      else if 4 ≤ n.length then
        let mid := n.length / 2
        bg.has (n.getD (mid - 1) 0) (n.getD mid 0)
      else true
    else true
  else true

def containsAnyLower (pools : Pools) (input : AnalysisInput) (needles : List Text) :
    Bool × AnalysisInput :=
  let (body, input) := input.lowerBody pools
  let input := { input with needleChecks := input.needleChecks + needles.length }
  if minBigramBodyLen ≤ body.length ∧
      (input.bigramsDone ∨ minBigramNeedles ≤ input.needleChecks) then
    let (bg, input) := input.bodyBigrams pools
    (needles.any fun needle =>
      mayContain bg (lowerNeedle needle) && Contains body (lowerNeedle needle), input)
  else (needles.any fun needle => Contains body (lowerNeedle needle), input)

end AnalysisInput

/-! The plain search. -/

/-- The comparison of two bytes behind the first. -/
def equalFold (hc nc : Byte) : Bool :=
  hc == nc ||
    (if isUpperASCII hc then hc + 32 else hc) == (if isUpperASCII nc then nc + 32 else nc)

def containsFoldASCII (haystack needle : Text) : Bool :=
  if needle.length = 0 then true
  else if haystack.length < needle.length then false
  else
    let first := needle.getD 0 0
    let firstUpper := if isLowerASCII first then first - 32 else first
    let firstLower := if isUpperASCII first then first + 32 else first
    (List.range (haystack.length - needle.length + 1)).any fun i =>
      (haystack.getD i 0 == firstLower || haystack.getD i 0 == firstUpper) &&
        (List.range' 1 (needle.length - 1)).all fun j =>
          equalFold (haystack.getD (i + j) 0) (needle.getD j 0)

def containsAnyFoldASCII (haystack : Text) (needles : List Text) : Bool :=
  needles.any fun needle => containsFoldASCII haystack needle

/-! Runs of calls on one input. -/

inductive Call where
  | containsAnyLower (needles : List Text)
  | lowerBody
  | bodyBigrams
  | release

def AnalysisInput.run (input : AnalysisInput) : List (Pools × Call) → List Bool
  | [] => []
  | (pools, .containsAnyLower needles) :: calls =>
    (input.containsAnyLower pools needles).1 :: (input.containsAnyLower pools needles).2.run calls
  | (pools, .lowerBody) :: calls => (input.lowerBody pools).2.run calls
  | (pools, .bodyBigrams) :: calls => (input.bodyBigrams pools).2.run calls
  | (_, .release) :: calls => input.release.run calls

end Swazz.Analyzer
