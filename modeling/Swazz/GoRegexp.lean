import Swazz.GoStrings
import Swazz.Regexes

/-! Go's regular expressions on bytes: they read runes, and a byte that is part of none as
U+FFFD. -/
namespace GoRegexp

open Utf8 GoStrings Regexes UnicodeCase

/-- A rune and its bytes. -/
abbrev Chunk := Option ℕ × Text

/-! ### Runes and their bytes -/

/-- What a byte and the bytes behind it stand for. -/
inductive Code : Byte → Text → Option ℕ → Prop where
  | ascii {b : Byte} (h : b < 0x80) : Code b [] (some b.val)
  | broken {b : Byte} (h : ¬ b < 0x80) : Code b [] none
  | two {b c : Byte} (hb : 0xC2 ≤ b ∧ b ≤ 0xDF) (hc : isTail c) :
    Code b [c] (some ((b.val - 0xC0) * 64 + tailBits c))
  | three {b c d : Byte} (hb : 0xE0 ≤ b ∧ b ≤ 0xEF) (hlow : b = 0xE0 → 0xA0 ≤ c) (hc : isTail c)
    (hd : isTail d) :
    Code b [c, d] (some (((b.val - 0xE0) * 64 + tailBits c) * 64 + tailBits d))
  | four {b c d e : Byte} (hb : 0xF0 ≤ b ∧ b ≤ 0xF4) (hlow : b = 0xF0 → 0x90 ≤ c)
    (hc : isTail c) (hd : isTail d) (he : isTail e) :
    Code b [c, d, e]
      (some ((((b.val - 0xF0) * 64 + tailBits c) * 64 + tailBits d) * 64 + tailBits e))

theorem next_code (b : Byte) (s : Text) :
    ∃ w, s = w ++ (next b s).2 ∧ Code b w (next b s).1 := by
  by_cases hascii : b < 0x80
  · rw [next.eq_def, if_pos hascii]
    exact ⟨[], rfl, .ascii hascii⟩
  have hbroken : ∃ w, s = w ++ s ∧ Code b w none := ⟨[], rfl, .broken hascii⟩
  rw [next.eq_def, if_neg hascii]
  split
  · rename_i htwo
    split
    · split
      · exact ⟨[_], rfl, .two htwo ‹_›⟩
      · exact hbroken
    · exact hbroken
  · split
    · rename_i hthree
      split
      · rename_i c d s'
        dsimp only
        generalize hlow : (if b = 0xE0 then 0xA0 else 0x80 : Byte) = low
        generalize hhigh : (if b = 0xED then 0x9F else 0xBF : Byte) = high
        split
        · rename_i htails
          obtain ⟨hfirst, hlast, hd⟩ := htails
          refine ⟨[c, d], rfl, .three hthree (fun hb => ?_) ?_ hd⟩
          · rwa [← hlow, if_pos hb] at hfirst
          · subst hlow hhigh
            rw [isTail, Bool.and_eq_true, decide_eq_true_eq, decide_eq_true_eq]
            refine ⟨Fin.le_trans ?_ hfirst, Fin.le_trans hlast ?_⟩ <;> split <;> decide
        · exact hbroken
      · exact hbroken
    · split
      · rename_i hfour
        split
        · rename_i c d e s'
          dsimp only
          generalize hlow : (if b = 0xF0 then 0x90 else 0x80 : Byte) = low
          generalize hhigh : (if b = 0xF4 then 0x8F else 0xBF : Byte) = high
          split
          · rename_i htails
            obtain ⟨hfirst, hlast, hd, he⟩ := htails
            refine ⟨[c, d, e], rfl, .four hfour (fun hb => ?_) ?_ hd he⟩
            · rwa [← hlow, if_pos hb] at hfirst
            · subst hlow hhigh
              rw [isTail, Bool.and_eq_true, decide_eq_true_eq, decide_eq_true_eq]
              refine ⟨Fin.le_trans ?_ hfirst, Fin.le_trans hlast ?_⟩ <;> split <;> decide
          · exact hbroken
        · exact hbroken
      · exact hbroken

variable {b : Byte} {w s : Text} {r : Option ℕ}

theorem isTail_iff {c : Byte} : isTail c ↔ 128 ≤ c.val ∧ c.val ≤ 191 := by
  rw [isTail, Bool.and_eq_true, decide_eq_true_eq, decide_eq_true_eq, Fin.le_def, Fin.le_def]
  rfl

/-- Only the first byte of a rune can be ASCII, and then it is the rune. -/
theorem Code.of_ascii (h : Code b w r) (hb : b < 0x80) : w = [] ∧ r = some b.val := by
  have hval : b.val < 128 := hb
  cases h with
  | ascii h => exact ⟨rfl, rfl⟩
  | broken h => exact absurd hb h
  | two htwo | three htwo | four htwo =>
    have hlow : _ ≤ b.val := htwo.1
    have : (0xC2 : Byte).val = 194 := rfl
    have : (0xE0 : Byte).val = 224 := rfl
    have : (0xF0 : Byte).val = 240 := rfl
    omega

theorem Code.tails (h : Code b w r) : ∀ c ∈ w, isTail c := by
  cases h <;> simp_all

/-- Which bytes an ASCII rune, the long s and the Kelvin sign are. -/
theorem Code.of_rune {c : ℕ} (h : Code b w (some c)) :
    (c < 128 → b.val = c ∧ w = []) ∧ (c = 0x17F → b :: w = [0xC5, 0xBF]) ∧
      (c = 0x212A → b :: w = [0xE2, 0x84, 0xAA]) := by
  have hFin {x y : Byte} (hxy : x.val = y.val) : x = y := Fin.ext hxy
  generalize hr : some c = r at h
  cases h with
  | ascii hb =>
    have hval : b.val < 128 := hb
    cases hr
    refine ⟨fun _ => ⟨rfl, rfl⟩, fun hc => ?_, fun hc => ?_⟩ <;> omega
  | broken hb => cases hr
  | two hb hc =>
    rename_i d
    have hlow : 194 ≤ b.val := hb.1
    have hhigh : b.val ≤ 223 := hb.2
    have hd := isTail_iff.mp hc
    have hbits : c = (b.val - 192) * 64 + (d.val - 128) := Option.some.inj hr
    refine ⟨fun hc => ?_, fun hc => ?_, fun hc => ?_⟩
    · omega
    · rw [hFin (show b.val = (0xC5 : Byte).val from by change b.val = 197; omega),
        hFin (show d.val = (0xBF : Byte).val from by change d.val = 191; omega)]
    · omega
  | three hb hfirst hc hd =>
    rename_i d e
    have hlow : 224 ≤ b.val := hb.1
    have hhigh : b.val ≤ 239 := hb.2
    have hd' := isTail_iff.mp hc
    have he := isTail_iff.mp hd
    have hbits : c = ((b.val - 224) * 64 + (d.val - 128)) * 64 + (e.val - 128) :=
      Option.some.inj hr
    have hover : b.val = 224 → 160 ≤ d.val := fun h => hfirst (hFin h)
    refine ⟨fun hc => ?_, fun hc => ?_, fun hc => ?_⟩
    · omega
    · omega
    · rw [hFin (show b.val = (0xE2 : Byte).val from by change b.val = 226; omega),
        hFin (show d.val = (0x84 : Byte).val from by change d.val = 132; omega),
        hFin (show e.val = (0xAA : Byte).val from by change e.val = 170; omega)]
  | four hb hfirst hc hd he =>
    rename_i d e f
    have hlow : 240 ≤ b.val := hb.1
    have hd' := isTail_iff.mp hc
    have hbits : c = (((b.val - 240) * 64 + (d.val - 128)) * 64 + (e.val - 128)) * 64 +
      (f.val - 128) := Option.some.inj hr
    have hover : b.val = 240 → 144 ≤ d.val := fun h => hfirst (hFin h)
    refine ⟨fun hc => ?_, fun hc => ?_, fun hc => ?_⟩ <;> omega

/-! ### The runes of a text -/

theorem chunksFrom_eq {n m : ℕ} (hn : s.length ≤ n) (hm : s.length ≤ m) :
    chunksFrom n s = chunksFrom m s := by
  induction n generalizing s m with
  | zero =>
    obtain rfl : s = [] := List.length_eq_zero_iff.mp (Nat.le_zero.mp hn)
    cases m <;> rfl
  | succ n ih =>
    cases s with
    | nil => cases m <;> rfl
    | cons b s =>
      cases m with
      | zero => cases hm
      | succ m =>
        obtain ⟨w, hw, -⟩ := next_code b s
        have hlength : (next b s).2.length ≤ s.length := by
          conv_rhs => rw [hw, List.length_append]
          exact Nat.le_add_left _ _
        rw [List.length_cons] at hn hm
        rw [chunksFrom, chunksFrom, ih (m := m) (by omega) (by omega)]

/-- The first rune, and those behind it. -/
theorem chunks_cons (b : Byte) (s : Text) : ∃ w s' r, s = w ++ s' ∧ Code b w r ∧
    chunks (b :: s) = (r, b :: w) :: chunks s' := by
  obtain ⟨w, hw, hcode⟩ := next_code b s
  refine ⟨w, (next b s).2, (next b s).1, hw, hcode, ?_⟩
  have hlength : s.length = w.length + (next b s).2.length := by
    conv_lhs => rw [hw, List.length_append]
  have htake : s.take (s.length - (next b s).2.length) = w := by
    rw [hlength, Nat.add_sub_cancel]
    conv_lhs => rw [hw]
    exact List.take_left
  rw [chunks, List.length_cons, chunksFrom]
  rw [htake, chunks, chunksFrom_eq (by omega) le_rfl]

/-- A property of texts that passes from what is behind the first rune to the text. -/
theorem induction_chunks {P : Text → Prop} (nil : P [])
    (cons : ∀ {b : Byte} {w s : Text} {r : Option ℕ}, Code b w r →
      chunks (b :: (w ++ s)) = (r, b :: w) :: chunks s → P s → P (b :: (w ++ s))) (s : Text) :
    P s := by
  induction hn : s.length using Nat.strong_induction_on generalizing s with
  | _ n ih =>
    cases s with
    | nil => exact nil
    | cons b s =>
      obtain ⟨w, s', r, rfl, hcode, hchunks⟩ := chunks_cons b s
      refine cons hcode hchunks (ih s'.length ?_ s' rfl)
      rw [← hn, List.length_cons, List.length_append]
      omega

theorem flatMap_chunks (s : Text) : (chunks s).flatMap (·.2) = s := by
  induction s using induction_chunks with
  | nil => rfl
  | cons hcode hchunks ih => rw [hchunks, List.flatMap_cons, ih, List.cons_append]

/-- A chunk holds the bytes of its rune. -/
def Proper (c : Chunk) : Prop := ∃ b w, c.2 = b :: w ∧ Code b w c.1

theorem proper_of_mem {c : Chunk} (h : c ∈ chunks s) : Proper c := by
  induction s using induction_chunks with
  | nil => cases h
  | cons hcode hchunks ih =>
    rw [hchunks] at h
    rcases List.mem_cons.mp h with rfl | h
    · exact ⟨_, _, rfl, hcode⟩
    · exact ih h

theorem infix_of_mem {c : Chunk} (h : c ∈ chunks s) : c.2 <:+: s := by
  obtain ⟨as, bs, hsplit⟩ := List.append_of_mem h
  have hbytes := flatMap_chunks s
  rw [hsplit, List.flatMap_append, List.flatMap_cons, ← List.append_assoc] at hbytes
  exact ⟨_, _, hbytes⟩

/-! ### Expressions -/

/-- The classes of runes. The folding ones stand for a flag `(?i)`. -/
inductive RuneClass where
  | rune (c : ℕ)
  | fold (c : ℕ)
  | set (ranges : List (ℕ × ℕ))
  | foldSet (ranges : List (ℕ × ℕ))
  | outside (ranges : List (ℕ × ℕ))
  deriving DecidableEq

def inRanges (ranges : List (ℕ × ℕ)) (c : ℕ) : Bool :=
  ranges.any fun range => range.1 ≤ c && c ≤ range.2

def RuneClass.holds : RuneClass → ℕ → Bool
  | .rune d, c => c = d
  | .fold d, c => foldRune c = foldRune d
  | .set ranges, c => inRanges ranges c
  | .foldSet ranges, c => ranges.any fun range =>
    (List.range' range.1 (range.2 + 1 - range.1)).any fun d => foldRune c = foldRune d
  | .outside ranges, c => !inRanges ranges c

/-- `\d` -/
def digit : RuneClass := .set [(48, 57)]

/-- `\s` -/
def space : RuneClass := .set [(9, 10), (12, 13), (32, 32)]

/-- `\w` -/
def word : RuneClass := .set [(48, 57), (65, 90), (95, 95), (97, 122)]

/-- `.` -/
def dot : RuneClass := .outside [(10, 10)]

/-- A literal text. -/
def lit (s : String) : Regex RuneClass := .text (s.toList.map fun c => .rune c.toNat)

/-- A literal text under a flag `(?i)`. -/
def foldLit (s : String) : Regex RuneClass := .text (s.toList.map fun c => .fold c.toNat)

/-- `x*` -/
def star (k : RuneClass) : Regex RuneClass := .many k 0 none

/-- `x+` -/
def plus (k : RuneClass) : Regex RuneClass := .many k 1 none

def alphabet : Alphabet RuneClass Chunk where
  holds k c := k.holds (c.1.getD 0xFFFD)
  word c := c.1.any word.holds

def width (cs : List Chunk) : ℕ := (cs.flatMap (·.2)).length

/-- `Regexp.FindIndex` -/
def FindIndex (re : Regex RuneClass) (b : Text) : Option (ℕ × ℕ) :=
  (alphabet.find re none (chunks b)).map fun p => (width p.1, width p.1 + width p.2)

/-- `Regexp.Find` -/
def Find (re : Regex RuneClass) (b : Text) : Option Text :=
  (FindIndex re b).map fun loc => (b.take loc.2).drop loc.1

/-- The expression has a match in a text. -/
def Matches (re : Regex RuneClass) (b : Text) : Prop := alphabet.Occurs re none (chunks b)

theorem FindIndex_eq_none {re : Regex RuneClass} : FindIndex re s = none ↔ ¬ Matches re s := by
  rw [FindIndex, Option.map_eq_none_iff, Alphabet.find_eq_none, Matches]

/-- An ASCII rune is its byte, and no other rune is. -/
theorem Code.holds_iff {c : ℕ} (h : Code b w r) (hc : c < 128) :
    r.getD 0xFFFD = c ↔ b.val = c ∧ w = [] := by
  constructor
  · intro hr
    cases r with
    | none =>
      have : (0xFFFD : ℕ) = c := hr
      omega
    | some d =>
      obtain rfl : d = c := hr
      exact h.of_rune.1 hc
  · rintro ⟨rfl, rfl⟩
    obtain ⟨-, rfl⟩ := h.of_ascii hc
    rfl

theorem Proper.units {c : Chunk} (h : Proper c) {d : ℕ} (hd : d < 128)
    (hc : c.1.getD 0xFFFD = d) : c.2 = [Fin.ofNat 256 d] := by
  obtain ⟨b, w, hbytes, hcode⟩ := h
  obtain ⟨rfl, rfl⟩ := (hcode.holds_iff hd).mp hc
  rw [hbytes]
  exact congrArg (fun b => [b]) (Fin.ofNat_val_eq_self b).symm

end GoRegexp
