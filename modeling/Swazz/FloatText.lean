import Mathlib.Algebra.Order.Floor.Semiring
import Mathlib.Algebra.Order.Ring.Rat
import Mathlib.Data.Int.Log
import Mathlib.Data.List.TakeWhile
import Mathlib.Data.Nat.Log
import Mathlib.Data.Rat.Floor
import Mathlib.Tactic.FieldSimp
import Mathlib.Tactic.Linarith
import Mathlib.Tactic.Positivity
import Mathlib.Tactic.Ring

/-! Double precision numbers and their shortest decimal texts. A text is read back as the number
that it is the text of, so that it determines the number. -/
namespace FloatText

/-- A number of units of the last place of the smallest doubles, with 53 significant bits. -/
def Representable (units : ℕ) : Prop := ∃ m e, units = m * 2 ^ e ∧ m < 2 ^ 53

/-- A finite double: its sign, and its magnitude as a multiple of `2 ^ (-1074)`. Large exponents
are not bounded. -/
structure Float64 where
  negative : Bool
  units : ℕ
  representable : Representable units

/-- To the nearest integer, and to the even one of two that are equally near. -/
def roundHalfEven (q : ℚ) : ℕ :=
  let below := ⌊q⌋₊
  if q - below < 1 / 2 then below
  else if 1 / 2 < q - below then below + 1
  else if below % 2 = 0 then below
  else below + 1

/-- To 53 significant bits. -/
def roundUnits (q : ℚ) : ℕ :=
  let e := Nat.log 2 ⌊q⌋₊ - 52
  roundHalfEven (q / 2 ^ e) * 2 ^ e

theorem roundHalfEven_natCast (n : ℕ) : roundHalfEven n = n := by
  simp [roundHalfEven]

theorem roundHalfEven_le {q : ℚ} {n : ℕ} (hq : 0 ≤ q) (h : q < n) : roundHalfEven q ≤ n := by
  have hbelow : ⌊q⌋₊ < n := (Nat.floor_lt hq).mpr h
  simp only [roundHalfEven]
  split_ifs <;> omega

theorem roundUnits_of_representable {units : ℕ} (h : Representable units) :
    roundUnits units = units := by
  obtain ⟨m, e, rfl, hm⟩ := h
  have hfloor : ⌊((m * 2 ^ e : ℕ) : ℚ)⌋₊ = m * 2 ^ e := Nat.floor_natCast _
  simp only [roundUnits, hfloor]
  have hle : Nat.log 2 (m * 2 ^ e) - 52 ≤ e := by
    have hlt : m * 2 ^ e < 2 ^ (53 + e) := by
      rw [pow_add]
      exact Nat.mul_lt_mul_of_pos_right hm (Nat.two_pow_pos e)
    have hlog : Nat.log 2 (m * 2 ^ e) < 53 + e := Nat.log_lt_of_lt_pow' (by omega) hlt
    omega
  generalize Nat.log 2 (m * 2 ^ e) - 52 = k at hle
  have hsplit : m * 2 ^ e = m * 2 ^ (e - k) * 2 ^ k := by
    rw [mul_assoc, ← pow_add, Nat.sub_add_cancel hle]
  have hquotient : ((m * 2 ^ e : ℕ) : ℚ) / 2 ^ k = ((m * 2 ^ (e - k) : ℕ) : ℚ) := by
    rw [hsplit]
    push_cast
    field_simp
  rw [hquotient, roundHalfEven_natCast, ← hsplit]

theorem representable_roundUnits {q : ℚ} (hq : 0 ≤ q) : Representable (roundUnits q) := by
  simp only [roundUnits]
  generalize he : Nat.log 2 ⌊q⌋₊ - 52 = e
  have hlt : q < 2 ^ (53 + e) := by
    have hfloor : ⌊q⌋₊ < 2 ^ (53 + e) := by
      apply Nat.lt_pow_of_log_lt (by decide)
      omega
    exact_mod_cast (Nat.floor_lt hq).mp hfloor
  have hquotient : q / 2 ^ e < ((2 ^ 53 : ℕ) : ℚ) := by
    rw [div_lt_iff₀ (by positivity)]
    calc q < 2 ^ (53 + e) := hlt
      _ = ((2 ^ 53 : ℕ) : ℚ) * 2 ^ e := by rw [pow_add]; norm_num
  have hle := roundHalfEven_le (by positivity) hquotient
  rcases Nat.lt_or_eq_of_le hle with hsmall | hfull
  · exact ⟨_, e, rfl, hsmall⟩
  · -- the carry into a 54th bit
    refine ⟨2 ^ 52, e + 1, ?_, by decide⟩
    rw [hfull]
    ring

theorem roundUnits_le {q : ℚ} {k : ℕ} (hq : 0 ≤ q) (h : q ≤ 2 ^ k) : roundUnits q ≤ 2 ^ k := by
  rcases h.eq_or_lt with rfl | hlt
  · have hexact : roundUnits ((2 ^ k : ℕ) : ℚ) = 2 ^ k :=
      roundUnits_of_representable ⟨1, k, by ring, by decide⟩
    push_cast at hexact
    exact hexact.le
  have hfloor : ⌊q⌋₊ < 2 ^ k := (Nat.floor_lt hq).mpr (by exact_mod_cast hlt)
  have he : Nat.log 2 ⌊q⌋₊ - 52 ≤ k := by
    by_contra hk
    have hlog := Nat.log_mono_right (b := 2) hfloor.le
    rw [Nat.log_pow (by decide)] at hlog
    omega
  simp only [roundUnits]
  generalize Nat.log 2 ⌊q⌋₊ - 52 = e at he
  have hsplit : 2 ^ k = 2 ^ (k - e) * 2 ^ e := by
    rw [← pow_add, Nat.sub_add_cancel he]
  have hquotient : q / 2 ^ e < ((2 ^ (k - e) : ℕ) : ℚ) := by
    rw [div_lt_iff₀ (by positivity)]
    calc q < 2 ^ k := hlt
      _ = ((2 ^ (k - e) : ℕ) : ℚ) * 2 ^ e := by exact_mod_cast hsplit
  calc roundHalfEven (q / 2 ^ e) * 2 ^ e ≤ 2 ^ (k - e) * 2 ^ e :=
        Nat.mul_le_mul_right _ (roundHalfEven_le (by positivity) hquotient)
    _ = 2 ^ k := hsplit.symm

/-- The double that is nearest to a number. -/
def nearest (x : ℚ) : ℚ :=
  if x < 0 then -(roundUnits (-x * 2 ^ 1074) / 2 ^ 1074) else roundUnits (x * 2 ^ 1074) / 2 ^ 1074

theorem roundUnits_div_mem {x : ℚ} (k : ℕ) (hx : 0 ≤ x) (hone : x ≤ 1) :
    0 ≤ (roundUnits (x * 2 ^ k) / 2 ^ k : ℚ) ∧ (roundUnits (x * 2 ^ k) / 2 ^ k : ℚ) ≤ 1 := by
  have hunits : (roundUnits (x * 2 ^ k) : ℚ) ≤ 2 ^ k := by
    have hle : x * 2 ^ k ≤ 2 ^ k := mul_le_of_le_one_left (by positivity) hone
    exact_mod_cast roundUnits_le (by positivity) hle
  exact ⟨by positivity, (div_le_one (by positivity)).mpr hunits⟩

theorem nearest_mem {x : ℚ} (hx : 0 ≤ x) (hone : x ≤ 1) : 0 ≤ nearest x ∧ nearest x ≤ 1 := by
  rw [nearest, if_neg (not_lt.mpr hx)]
  exact roundUnits_div_mem 1074 hx hone

/-! ## Decimals -/

/-- `d * 10 ^ p`. -/
def decimal (c : ℕ × ℤ) : ℚ := c.1 * 10 ^ c.2

/-- The nearest double, in units. -/
def readUnits (c : ℕ × ℤ) : ℕ := roundUnits (decimal c * 2 ^ 1074)

/-- The two decimals around a number with so many significant digits, the nearer one first. -/
def candidates (x : ℚ) (digits : ℕ) : List (ℕ × ℤ) :=
  let p := Int.log 10 x + 1 - digits
  let below := ⌊x / 10 ^ p⌋₊
  if roundHalfEven (x / 10 ^ p) = below then [(below, p), (below + 1, p)]
  else [(below + 1, p), (below, p)]

/-- The decimal with the fewest digits that is read back. Seventeen digits always suffice, so
that the expansion in full is never needed. -/
def shortest (units : ℕ) : ℕ × ℤ :=
  let tried := (List.range 17).flatMap fun n => candidates (units / 2 ^ 1074) (n + 1)
  (tried.find? fun c => readUnits c = units).getD (units * 5 ^ 1074, -1074)

theorem decimal_full (units k : ℕ) : decimal (units * 5 ^ k, -k) * 2 ^ k = units := by
  have hten : (10 : ℚ) ^ k = 2 ^ k * 5 ^ k := by
    rw [← mul_pow]
    norm_num
  simp only [decimal, zpow_neg, zpow_natCast, hten]
  push_cast
  field_simp

theorem readUnits_shortest {units : ℕ} (h : Representable units) :
    readUnits (shortest units) = units := by
  simp only [shortest]
  generalize (List.range 17).flatMap (fun n => candidates (units / 2 ^ 1074) (n + 1)) = tried
  cases hfound : tried.find? fun c => readUnits c = units with
  | some c =>
    have hread := List.find?_some hfound
    exact of_decide_eq_true hread
  | none =>
    have hfull : decimal (units * 5 ^ 1074, -1074) * 2 ^ 1074 = units := decimal_full units 1074
    rw [Option.getD_none, readUnits, hfull]
    exact roundUnits_of_representable h

/-! ## Texts -/

/-- So many digits, with zeros in front. -/
def padded (width n : ℕ) : List Char :=
  List.replicate (width - (Nat.toDigits 10 n).length) '0' ++ Nat.toDigits 10 n

/-- Without an exponent. -/
def decimalText (c : ℕ × ℤ) : List Char :=
  if 0 ≤ c.2 then Nat.toDigits 10 (c.1 * 10 ^ c.2.toNat)
  else
    let places := (-c.2).toNat
    Nat.toDigits 10 (c.1 / 10 ^ places) ++ '.' :: padded places (c.1 % 10 ^ places)

/-- What a text without an exponent says. -/
def readText (text : List Char) : ℚ :=
  let whole := text.takeWhile (· ≠ '.')
  let fraction := (text.dropWhile (· ≠ '.')).tail
  Nat.ofDigitChars 10 (whole ++ fraction) 0 / 10 ^ fraction.length

theorem ne_point_of_mem {n : ℕ} {c : Char} (hc : c ∈ Nat.toDigits 10 n) : c ≠ '.' := by
  rintro rfl
  exact absurd (Nat.isDigit_of_mem_toDigits (by decide) (by decide) hc) (by decide)

theorem length_padded {width n : ℕ} (hwidth : 0 < width) (h : n < 10 ^ width) :
    (padded width n).length = width := by
  have hle : (Nat.toDigits 10 n).length ≤ width :=
    (Nat.length_toDigits_le_iff (by decide) hwidth).mpr h
  simp only [padded, List.length_append, List.length_replicate]
  omega

theorem ofDigitChars_padded (width n : ℕ) : Nat.ofDigitChars 10 (padded width n) 0 = n := by
  rw [padded, Nat.ofDigitChars_append, Nat.ofDigitChars_replicate_zero, Nat.mul_zero,
    Nat.ofDigitChars_ten_toDigits]

theorem readText_whole (n : ℕ) : readText (Nat.toDigits 10 n) = n := by
  have hdigits : ∀ c ∈ Nat.toDigits 10 n, decide (c ≠ '.') = true :=
    fun c hc => decide_eq_true (ne_point_of_mem hc)
  rw [readText, List.takeWhile_eq_self_iff.mpr hdigits, List.dropWhile_eq_nil_iff.mpr hdigits]
  simp [Nat.ofDigitChars_ten_toDigits]

theorem readText_point {whole places fraction : ℕ} (hplaces : 0 < places)
    (h : fraction < 10 ^ places) :
    readText (Nat.toDigits 10 whole ++ '.' :: padded places fraction) =
      (10 ^ places * whole + fraction : ℕ) / 10 ^ places := by
  have hdigits : ∀ c ∈ Nat.toDigits 10 whole, decide (c ≠ '.') = true :=
    fun c hc => decide_eq_true (ne_point_of_mem hc)
  have htake : (Nat.toDigits 10 whole ++ '.' :: padded places fraction).takeWhile (· ≠ '.') =
      Nat.toDigits 10 whole := by
    rw [List.takeWhile_append_of_pos hdigits, List.takeWhile_cons_of_neg (by decide),
      List.append_nil]
  have hdrop : (Nat.toDigits 10 whole ++ '.' :: padded places fraction).dropWhile (· ≠ '.') =
      '.' :: padded places fraction := by
    rw [List.dropWhile_append_of_pos hdigits, List.dropWhile_cons_of_neg (by decide)]
  have hvalue : Nat.ofDigitChars 10 (Nat.toDigits 10 whole ++ padded places fraction) 0 =
      10 ^ places * whole + fraction := by
    rw [Nat.ofDigitChars_append, Nat.ofDigitChars_ten_toDigits,
      Nat.ofDigitChars_eq_ofDigitChars_zero, ofDigitChars_padded, length_padded hplaces h]
  rw [readText, htake, hdrop, List.tail_cons, hvalue, length_padded hplaces h]

theorem readText_decimalText (c : ℕ × ℤ) : readText (decimalText c) = decimal c := by
  obtain ⟨d, p⟩ := c
  simp only [decimalText, decimal]
  split_ifs with hp
  · obtain ⟨k, rfl⟩ := Int.eq_ofNat_of_zero_le hp
    rw [readText_whole, Int.toNat_natCast, zpow_natCast]
    push_cast
    rfl
  · obtain ⟨k, hk⟩ := Int.eq_ofNat_of_zero_le (by omega : 0 ≤ -p)
    have hplaces : 0 < k := by omega
    obtain rfl : p = -k := by omega
    rw [Int.neg_neg, Int.toNat_natCast, readText_point hplaces (Nat.mod_lt _ (by positivity)),
      Nat.div_add_mod, zpow_neg, zpow_natCast, div_eq_mul_inv]

/-! ## Shortest texts of doubles -/

/-- Without an exponent, and with as few digits as identify the number. -/
def formatFloat (x : Float64) : List Char :=
  (if x.negative then ['-'] else []) ++ decimalText (shortest x.units)

theorem units_of_decimalText {x y : Float64}
    (h : decimalText (shortest x.units) = decimalText (shortest y.units)) :
    x.units = y.units := by
  have hdecimal : decimal (shortest x.units) = decimal (shortest y.units) := by
    rw [← readText_decimalText, h, readText_decimalText]
  have hread : readUnits (shortest x.units) = readUnits (shortest y.units) := by
    rw [readUnits, hdecimal, readUnits]
  rwa [readUnits_shortest x.representable, readUnits_shortest y.representable] at hread

/-- A text starts with a digit. -/
theorem decimalText_ne_minus (c : ℕ × ℤ) (rest : List Char) : decimalText c ≠ '-' :: rest := by
  have hdigits (n : ℕ) (tail : List Char) : Nat.toDigits 10 n ++ tail ≠ '-' :: rest := by
    intro h
    cases hn : Nat.toDigits 10 n with
    | nil => exact Nat.toDigits_ne_nil hn
    | cons c cs =>
      rw [hn] at h
      have hmem : '-' ∈ Nat.toDigits 10 n := by
        rw [hn, ← (List.cons.inj h).1]
        exact List.mem_cons_self
      exact absurd (Nat.isDigit_of_mem_toDigits (by decide) (by decide) hmem) (by decide)
  simp only [decimalText]
  split_ifs
  · have hnil := hdigits (c.1 * 10 ^ c.2.toNat) []
    rwa [List.append_nil] at hnil
  · exact hdigits _ _

/-- The text determines the double. -/
theorem formatFloat_injective : Function.Injective formatFloat := by
  intro x y h
  have heq (hsign : x.negative = y.negative) (hunits : x.units = y.units) : x = y := by
    obtain ⟨_, _, _⟩ := x
    obtain ⟨_, _, _⟩ := y
    cases hsign
    cases hunits
    rfl
  cases hx : x.negative with
  | true =>
    cases hy : y.negative with
    | true =>
      have htext : '-' :: decimalText (shortest x.units) = '-' :: decimalText (shortest y.units) := by
        simpa [formatFloat, hx, hy] using h
      exact heq (hx.trans hy.symm) (units_of_decimalText (List.cons.inj htext).2)
    | false =>
      have htext : '-' :: decimalText (shortest x.units) = decimalText (shortest y.units) := by
        simpa [formatFloat, hx, hy] using h
      exact absurd htext.symm (decimalText_ne_minus _ _)
  | false =>
    cases hy : y.negative with
    | true =>
      have htext : decimalText (shortest x.units) = '-' :: decimalText (shortest y.units) := by
        simpa [formatFloat, hx, hy] using h
      exact absurd htext (decimalText_ne_minus _ _)
    | false =>
      have htext : decimalText (shortest x.units) = decimalText (shortest y.units) := by
        simpa [formatFloat, hx, hy] using h
      exact heq (hx.trans hy.symm) (units_of_decimalText htext)

/-- The conversion of an integer. -/
def ofNat (n : ℕ) : Float64 where
  negative := false
  units := roundUnits (n * 2 ^ 1074)
  representable := representable_roundUnits (by positivity)

/-- Integers of 53 bits are converted as they are. -/
theorem ofNat_inj {m n : ℕ} (hm : m < 2 ^ 53) (hn : n < 2 ^ 53) (h : ofNat m = ofNat n) :
    m = n := by
  have hunits {k : ℕ} (hk : k < 2 ^ 53) : (ofNat k).units = k * 2 ^ 1074 := by
    have hexact := roundUnits_of_representable ⟨k, 1074, rfl, hk⟩
    rw [← hexact, ofNat, Nat.cast_mul, Nat.cast_pow]
    rfl
  have heq : m * 2 ^ 1074 = n * 2 ^ 1074 := by
    rw [← hunits hm, ← hunits hn, h]
  exact Nat.eq_of_mul_eq_mul_right (Nat.two_pow_pos 1074) heq

example : formatFloat (ofNat 1) = ['1'] := by decide +kernel

end FloatText
