import Swazz.BitGroups
import Swazz.UnicodeCase

/-! Base32 as the secrets of one-time passwords are written in it. -/
namespace Swazz.Totp

open BitGroups

def ALPHABET : List Char := "ABCDEFGHIJKLMNOPQRSTUVWXYZ234567".toList

/-- `String.prototype.toUpperCase`. -/
def toUpperCase (s : List Char) : List Char :=
  s.flatMap fun c => (UnicodeCase.upper c.toNat).map Char.ofNat

/-- What is left when the signs at the end are taken off. -/
def stripPadding (s : List Char) : List Char := (s.reverse.dropWhile (· = '=')).reverse

/-- The variables of the decoder. -/
structure Decoder where
  bits : ℕ
  value : BitVec 32
  index : ℕ
  buffer : List (BitVec 8)

/-- A write beyond the end of the buffer is lost. -/
def Decoder.read (d : Decoder) (idx : ℕ) : Decoder :=
  let value := d.value <<< 5 ||| BitVec.ofNat 32 idx
  let bits := d.bits + 5
  if 8 ≤ bits then
    { bits := bits - 8
      value := value
      index := d.index + 1
      buffer := d.buffer.set d.index (((value >>> (bits - 8)) &&& 0xff#32).setWidth 8) }
  else { d with bits := bits, value := value }

def Decoder.readChar (d : Decoder) (c : Char) : Except String Decoder :=
  match ALPHABET.idxOf? c with
  | some idx => .ok (d.read idx)
  | none => .error ("Invalid Base32 character: " ++ String.singleton c)

def base32Decode (input : List Char) : Except String (List (BitVec 8)) :=
  let cleanInput := stripPadding (toUpperCase input)
  let buffer := List.replicate (cleanInput.length * 5 / 8) 0
  (cleanInput.foldlM Decoder.readChar ⟨0, 0, 0, buffer⟩).map Decoder.buffer

/-- The variables of the encoder. -/
structure Encoder where
  bits : ℕ
  value : BitVec 32
  output : List Char

/-- The inner loop. -/
def Encoder.write (e : Encoder) : Encoder :=
  if _ : 5 ≤ e.bits then
    Encoder.write
      { bits := e.bits - 5
        value := e.value
        output := e.output ++ [ALPHABET.getD ((e.value >>> (e.bits - 5)) &&& 31#32).toNat ' '] }
  else e
termination_by e.bits

def Encoder.read (e : Encoder) (b : BitVec 8) : Encoder :=
  Encoder.write { e with bits := e.bits + 8, value := e.value <<< 8 ||| b.setWidth 32 }

def base32Encode (buffer : List (BitVec 8)) : List Char :=
  let e := buffer.foldl Encoder.read ⟨0, 0, []⟩
  if 0 < e.bits then
    e.output ++ [ALPHABET.getD ((e.value <<< (5 - e.bits)) &&& 31#32).toNat ' ']
  else e.output

end Swazz.Totp
