import Mathlib.Data.Nat.Bitwise
import Mathlib.Tactic.Ring

/-! Blocks of numbers that share their leading bits, and the masks that decide them on a
number written as bytes, the most significant first. -/
namespace AddressBlocks

/-- The numbers that agree with `base` above their last `free` bits. -/
structure Block where
  base : ℕ
  free : ℕ
  deriving DecidableEq

def Block.Mem (b : Block) (a : ℕ) : Prop := a / 2 ^ b.free = b.base / 2 ^ b.free

instance (b : Block) (a : ℕ) : Decidable (b.Mem a) :=
  inferInstanceAs (Decidable (a / 2 ^ b.free = b.base / 2 ^ b.free))

/-- A mask of leading ones clears the bits below it. -/
theorem and_leadingOnes {n k x : ℕ} (hx : x < 2 ^ n) (hk : k ≤ n) :
    x &&& (2 ^ n - 2 ^ k) = x / 2 ^ k * 2 ^ k := by
  have hmask : 2 ^ n - 2 ^ k = 2 ^ k * (2 ^ (n - k) - 1) := by
    rw [Nat.mul_sub, ← Nat.pow_add, Nat.add_sub_cancel' hk, Nat.mul_one]
  apply Nat.eq_of_testBit_eq
  intro i
  rw [hmask, Nat.mul_comm (x / 2 ^ k), Nat.testBit_land, Nat.testBit_two_pow_mul,
    Nat.testBit_two_pow_sub_one, Nat.testBit_two_pow_mul, Nat.testBit_div_two_pow]
  by_cases hi : k ≤ i
  · have hsplit : i - k + k = i := by omega
    by_cases hn : i < n
    · have hin : i - k < n - k := by omega
      simp [hi, hsplit, hin]
    · -- Above the width there is no bit to keep.
      have hzero : x.testBit i = false :=
        Nat.testBit_lt_two_pow (lt_of_lt_of_le hx (Nat.pow_le_pow_right (by omega) (by omega)))
      simp [hsplit, hzero]
  · simp [hi]

/-- Under a mask of leading ones, two numbers agree when their quotients do. -/
theorem and_leadingOnes_inj {n k x y : ℕ} (hx : x < 2 ^ n) (hy : y < 2 ^ n) (hk : k ≤ n) :
    x &&& (2 ^ n - 2 ^ k) = y &&& (2 ^ n - 2 ^ k) ↔ x / 2 ^ k = y / 2 ^ k := by
  rw [and_leadingOnes hx hk, and_leadingOnes hy hk]
  exact Nat.mul_left_inj (Nat.two_pow_pos k).ne'

/-- The last `k` bytes of a number. -/
def bytes : ℕ → ℕ → List (BitVec 8)
  | 0, _ => []
  | k + 1, a => BitVec.ofNat 8 (a / 256 ^ k) :: bytes k a

def value : List (BitVec 8) → ℕ
  | [] => 0
  | x :: xs => x.toNat * 256 ^ xs.length + value xs

@[simp] theorem length_bytes (k a : ℕ) : (bytes k a).length = k := by
  induction k with
  | zero => rfl
  | succ k ih => simp [bytes, ih]

theorem value_bytes (k a : ℕ) : value (bytes k a) = a % 256 ^ k := by
  induction k with
  | zero => simp [bytes, value, Nat.mod_one]
  | succ k ih =>
    calc value (bytes (k + 1) a)
        = a / 256 ^ k % 256 * 256 ^ k + a % 256 ^ k := by simp [bytes, value, ih]
      _ = a % 256 ^ (k + 1) := by
        rw [Nat.pow_succ, Nat.mod_mul]
        ring

theorem value_lt (xs : List (BitVec 8)) : value xs < 256 ^ xs.length := by
  induction xs with
  | nil => simp [value]
  | cons x xs ih =>
    have hx : x.toNat + 1 ≤ 256 := x.isLt
    calc value (x :: xs) < (x.toNat + 1) * 256 ^ xs.length := by
          rw [value, Nat.add_mul, Nat.one_mul]
          omega
      _ ≤ 256 * 256 ^ xs.length := Nat.mul_le_mul_right _ hx
      _ = 256 ^ (x :: xs).length := by rw [List.length_cons, Nat.pow_succ, Nat.mul_comm]

/-- Quotient and remainder by the place of a byte. -/
theorem mul_add_inj {q x y a b : ℕ} (ha : a < q) (hb : b < q) :
    x * q + a = y * q + b ↔ x = y ∧ a = b := by
  constructor
  · intro h
    have hquot : (x * q + a) / q = (y * q + b) / q := congrArg (· / q) h
    have hq : 0 < q := by omega
    rw [Nat.mul_comm x, Nat.mul_comm y, Nat.mul_add_div hq, Nat.mul_add_div hq,
      Nat.div_eq_of_lt ha, Nat.div_eq_of_lt hb] at hquot
    have hxy : x = y := by omega
    subst hxy
    exact ⟨rfl, by omega⟩
  · rintro ⟨rfl, rfl⟩
    rfl

/-- The digits before a digit and the digit itself are a quotient of the number. -/
theorem digit_step {a b k c d : ℕ} (hd : d < b) :
    a / b ^ (k + 1) = c ∧ a / b ^ k % b = d ↔ a / b ^ k = c * b + d := by
  have hb : 0 < b := by omega
  rw [Nat.pow_succ, ← Nat.div_div_eq_div_mul, Nat.div_mod_unique hb, Nat.mul_comm b c]
  constructor
  · rintro ⟨heq, -⟩
    omega
  · intro heq
    exact ⟨by omega, hd⟩

/-- The mask of `k` bytes whose first bits are ones. -/
def leadingOnes : ℕ → ℕ → List (BitVec 8)
  | _, 0 => []
  | ones, k + 1 =>
    if 8 ≤ ones then 0xff#8 :: leadingOnes (ones - 8) k
    else ~~~(0xff#8 >>> ones) :: leadingOnes 0 k

@[simp] theorem length_leadingOnes (ones k : ℕ) : (leadingOnes ones k).length = k := by
  induction k generalizing ones with
  | zero => rfl
  | succ k ih =>
    rw [leadingOnes]
    split_ifs <;> simp [ih]

theorem and_byte_inj {ones : ℕ} (hones : ones < 8) (x y : BitVec 8) :
    x &&& ~~~(0xff#8 >>> ones) = y &&& ~~~(0xff#8 >>> ones) ↔
      x.toNat / 2 ^ (8 - ones) = y.toNat / 2 ^ (8 - ones) := by
  have hmasks : ∀ n < 8, (~~~(0xff#8 >>> n)).toNat = 2 ^ 8 - 2 ^ (8 - n) := by decide
  have hmask := hmasks ones hones
  rw [← and_leadingOnes_inj x.isLt y.isLt (Nat.sub_le 8 ones), ← hmask, ← BitVec.toNat_and,
    ← BitVec.toNat_and]
  exact BitVec.toNat_inj.symm

/-- The quotient of a number by a power of two below the place of its first byte. -/
theorem value_cons_div {x : BitVec 8} {xs : List (BitVec 8)} {e : ℕ}
    (he : e ≤ 8 * xs.length) : value (x :: xs) / 2 ^ e =
      x.toNat * 2 ^ (8 * xs.length - e) + value xs / 2 ^ e := by
  have hplace : 256 ^ xs.length = 2 ^ e * 2 ^ (8 * xs.length - e) := by
    rw [← Nat.pow_add, Nat.add_sub_cancel' he, Nat.pow_mul]
  rw [value, hplace, Nat.mul_left_comm, Nat.mul_add_div (Nat.two_pow_pos e)]

theorem value_div_lt {xs : List (BitVec 8)} {e : ℕ} (he : e ≤ 8 * xs.length) :
    value xs / 2 ^ e < 2 ^ (8 * xs.length - e) := by
  apply Nat.div_lt_of_lt_mul
  rw [← Nat.pow_add, Nat.add_sub_cancel' he, Nat.pow_mul]
  exact value_lt xs

/-- Two addresses agree under a mask of leading ones when they agree above its zeros. -/
theorem masked_eq_iff {ones k : ℕ} {xs ys : List (BitVec 8)} (hones : ones ≤ 8 * k)
    (hxs : xs.length = k) (hys : ys.length = k) :
    List.zipWith (· &&& ·) xs (leadingOnes ones k) =
        List.zipWith (· &&& ·) ys (leadingOnes ones k) ↔
      value xs / 2 ^ (8 * k - ones) = value ys / 2 ^ (8 * k - ones) := by
  induction k generalizing ones xs ys with
  | zero =>
    rw [List.length_eq_zero_iff.mp hxs, List.length_eq_zero_iff.mp hys]
    simp
  | succ k ih =>
    obtain ⟨x, xs, rfl⟩ := List.exists_cons_of_length_eq_add_one hxs
    obtain ⟨y, ys, rfl⟩ := List.exists_cons_of_length_eq_add_one hys
    have hxlen : xs.length = k := Nat.succ.inj hxs
    have hylen : ys.length = k := Nat.succ.inj hys
    rw [leadingOnes]
    split_ifs with h8
    · -- A byte of ones: the first bytes are equal and the rest agrees.
      have he : 8 * (k + 1) - ones = 8 * k - (ones - 8) := by omega
      have hx : 8 * k - (ones - 8) ≤ 8 * xs.length := by omega
      have hy : 8 * k - (ones - 8) ≤ 8 * ys.length := by omega
      have hltx := value_div_lt hx
      have hlty := value_div_lt hy
      have hff (b : BitVec 8) : b &&& 0xff#8 = b := BitVec.and_allOnes
      rw [he, value_cons_div hx, value_cons_div hy]
      rw [hxlen] at hltx ⊢
      rw [hylen] at hlty ⊢
      rw [mul_add_inj hltx hlty, List.zipWith_cons_cons, List.zipWith_cons_cons, hff, hff,
        List.cons.injEq, ih (by omega) hxlen hylen, BitVec.toNat_inj]
    · -- The byte where the ones end: the rest of the mask is zero.
      have hrest := (ih (Nat.zero_le _) hxlen hylen).mpr (by
        have hvx := value_lt xs
        have hvy := value_lt ys
        rw [hxlen] at hvx
        rw [hylen] at hvy
        have hplace : 2 ^ (8 * k - 0) = 256 ^ k := by
          rw [Nat.sub_zero, Nat.pow_mul]
        rw [hplace, Nat.div_eq_of_lt hvx, Nat.div_eq_of_lt hvy])
      have hdiv (b : BitVec 8) (bs : List (BitVec 8)) (hb : bs.length = k) :
          value (b :: bs) / 2 ^ (8 * (k + 1) - ones) = b.toNat / 2 ^ (8 - ones) := by
        have hlt := value_lt bs
        have he : 2 ^ (8 * (k + 1) - ones) = 256 ^ k * 2 ^ (8 - ones) := by
          have hexp : 8 * (k + 1) - ones = 8 * k + (8 - ones) := by omega
          rw [hexp, Nat.pow_add, Nat.pow_mul]
        have hpos : 0 < 256 ^ k := Nat.pow_pos (by decide)
        rw [hb] at hlt
        rw [value, hb, he, ← Nat.div_div_eq_div_mul, Nat.mul_comm b.toNat,
          Nat.mul_add_div hpos, Nat.div_eq_of_lt hlt, Nat.add_zero]
      rw [hdiv x xs hxlen, hdiv y ys hylen, ← and_byte_inj (by omega), List.zipWith_cons_cons,
        List.zipWith_cons_cons, List.cons.injEq]
      exact and_iff_left hrest

end AddressBlocks
