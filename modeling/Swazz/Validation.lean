import Mathlib.Order.Nat

/-! Checks on strings that the coordinator and the services share. -/
namespace Swazz

/-- The character class of the id and exec patterns. -/
def isIdChar (c : Char) : Bool := c.isAlphanum || c == '_' || c == '-'

/-- `^[A-Za-z0-9_-]{1,max}$` -/
def matchesId (max : ℕ) (s : String) : Bool :=
  decide (1 ≤ s.length) && decide (s.length ≤ max) && s.toList.all isIdChar

/-- `ID_PATTERN` -/
def isValidId (v : String) : Bool := matchesId 64 v

/-- What `String.prototype.trim` strips: white space and line terminators. -/
def isSpace (c : Char) : Bool :=
  (decide (9 ≤ c.toNat) && decide (c.toNat ≤ 13)) ||
    (decide (0x2000 ≤ c.toNat) && decide (c.toNat ≤ 0x200A)) ||
    [0x20, 0xA0, 0x1680, 0x2028, 0x2029, 0x202F, 0x205F, 0x3000, 0xFEFF].contains c.toNat

def trim (s : String) : String :=
  String.ofList ((s.toList.dropWhile isSpace).reverse.dropWhile isSpace).reverse

/-- `s.trim() === ''` -/
def isBlank (s : String) : Bool := (trim s).isEmpty

end Swazz
