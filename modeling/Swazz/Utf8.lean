import Mathlib.Algebra.GroupWithZero.Nat
import Mathlib.Data.List.Basic

/-! Bytes, and the code points of a text in UTF-8. -/
namespace Utf8

abbrev Byte := Fin 256

abbrev Text := List Byte

instance instNeZeroByte : NeZero 256 := ⟨by decide⟩

instance instLawfulBEqByte : LawfulBEq Byte := inferInstance

instance instLawfulBEqText : LawfulBEq Text := inferInstance

/-- The bytes of an ASCII text. -/
def ascii (s : String) : Text := s.toList.map fun c => Fin.ofNat 256 c.toNat

def isTail (b : Byte) : Bool := 0x80 ≤ b && b ≤ 0xBF

/-- The six bits of a byte that continues a code point. -/
def tailBits (b : Byte) : ℕ := b.val - 0x80

/-- The code point that starts with a byte, and what follows it. A byte that starts none stands
alone. -/
def next (b : Byte) (rest : Text) : Option ℕ × Text :=
  if b < 0x80 then (some b.val, rest)
  else if 0xC2 ≤ b ∧ b ≤ 0xDF then
    match rest with
    | b₁ :: rest' =>
      if isTail b₁ then (some ((b.val - 0xC0) * 64 + tailBits b₁), rest') else (none, rest)
    | [] => (none, rest)
  else if 0xE0 ≤ b ∧ b ≤ 0xEF then
    match rest with
    | b₁ :: b₂ :: rest' =>
      -- no overlong forms, no surrogates
      let low : Byte := if b = 0xE0 then 0xA0 else 0x80
      let high : Byte := if b = 0xED then 0x9F else 0xBF
      if low ≤ b₁ ∧ b₁ ≤ high ∧ isTail b₂ then
        (some (((b.val - 0xE0) * 64 + tailBits b₁) * 64 + tailBits b₂), rest')
      else (none, rest)
    | _ => (none, rest)
  else if 0xF0 ≤ b ∧ b ≤ 0xF4 then
    match rest with
    | b₁ :: b₂ :: b₃ :: rest' =>
      let low : Byte := if b = 0xF0 then 0x90 else 0x80
      let high : Byte := if b = 0xF4 then 0x8F else 0xBF
      if low ≤ b₁ ∧ b₁ ≤ high ∧ isTail b₂ ∧ isTail b₃ then
        (some ((((b.val - 0xF0) * 64 + tailBits b₁) * 64 + tailBits b₂) * 64 + tailBits b₃), rest')
      else (none, rest)
    | _ => (none, rest)
  else (none, rest)

def runesFrom : ℕ → Text → List (Option ℕ)
  | 0, _ => []
  | _ + 1, [] => []
  | fuel + 1, b :: rest => (next b rest).1 :: runesFrom fuel (next b rest).2

/-- The code points of a text, none for each byte that is not part of one. -/
def runes (s : Text) : List (Option ℕ) := runesFrom s.length s

end Utf8
