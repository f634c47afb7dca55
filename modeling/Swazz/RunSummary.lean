import Mathlib.Algebra.Order.Ring.Int
import Mathlib.Data.Int.Basic
import Mathlib.Tactic.Linarith

/-! The sizes and durations of the summaries that a run logs, in integers of 64 bits. -/
namespace Swazz.RunSummary

section Formats

-- `%.1f` of the quotient of two integers as floating point numbers
variable (quotient : Int64 → Int64 → String)

def unit : Int64 := 1024

theorem toInt_div_unit {n : Int64} (hn : 0 ≤ n.toInt) : (n / unit).toInt = n.toInt / 1024 := by
  have hmin : n ≠ Int64.minValue := by
    rintro rfl
    exact absurd hn (by decide)
  rw [Int64.toInt_div_of_ne_left n unit hmin]
  exact Int.tdiv_eq_ediv_of_nonneg hn

/-- `for n := b / unit; n >= unit; n /= unit`: the divisor, and the place of its unit. -/
def scale (n div : Int64) (exp : ℕ) : Int64 × ℕ :=
  if unit ≤ n then scale (n / unit) (div * unit) (exp + 1) else (div, exp)
termination_by n.toInt.toNat
decreasing_by
  rename_i h
  rw [Int64.le_iff_toInt_le] at h
  have hunit : unit.toInt = 1024 := by decide
  rw [toInt_div_unit (by omega)]
  omega

def units : List String := ["KB", "MB", "GB", "TB"]

/-- `none` is a panic: there is no such unit. -/
def formatBytes (b : Int64) : Option String :=
  if b ≤ 0 then some "0 B"
  else if b < unit then some (toString b ++ " B")
  else
    let (div, exp) := scale (b / unit) unit 0
    units[exp]?.map fun u => quotient b div ++ " " ++ u ++ " (" ++ toString b ++ " B)"

/-- The seconds are below ten as a floating point number when the milliseconds are below 10000. -/
def formatDuration (ms : Int64) : String :=
  if ms ≤ 0 then "0s"
  else if ms < 1000 then toString ms ++ "ms"
  else if ms < 10000 then
    if ms % 1000 = 0 then toString (ms / 1000) ++ "s" else quotient ms 1000 ++ "s"
  else
    let secInt := ms / 1000
    if secInt < 60 then toString secInt ++ "s"
    else
      let min := secInt / 60
      let remSec := secInt % 60
      if min < 60 then
        if 0 < remSec then toString min ++ "m " ++ toString remSec ++ "s" else toString min ++ "m"
      else
        let hr := min / 60
        let remMin := min % 60
        if 0 < remMin then toString hr ++ "h " ++ toString remMin ++ "m" else toString hr ++ "h"

def baseLatencyMs (isMCP : Bool) : Int64 := if isMCP then 200 else 40

/-- `totalEstMs`, with the product formed before the division. -/
def totalEstMs (totalPlanned concurrency delayMs : Int64) (isMCP : Bool) : Int64 :=
  totalPlanned * (baseLatencyMs isMCP + delayMs) / concurrency

def estimateScanDuration (totalPlanned concurrency delayMs : Int64) (isMCP : Bool) : String :=
  if totalPlanned ≤ 0 ∨ concurrency ≤ 0 then "<1s"
  else if totalEstMs totalPlanned concurrency delayMs isMCP < 1000 then "<1s"
  else "~" ++ formatDuration quotient (totalEstMs totalPlanned concurrency delayMs isMCP)

/-! ### Sizes -/

theorem scale_lt {n div : Int64} {exp k : ℕ} (hn : 0 ≤ n.toInt) (h : n.toInt < 1024 ^ (k + 1)) :
    (scale n div exp).2 ≤ exp + k := by
  induction k generalizing n div exp with
  | zero =>
    rw [scale, if_neg]
    · exact le_rfl
    · rw [Int64.le_iff_toInt_le, show unit.toInt = 1024 from by decide]
      omega
  | succ k ih =>
    rw [scale]
    split_ifs with hn'
    · refine (ih ?_ ?_).trans (by omega)
      · rw [toInt_div_unit hn]
        omega
      · rw [toInt_div_unit hn]
        exact Int.ediv_lt_of_lt_mul (by decide) (by rwa [← pow_succ])
    · exact Nat.le_add_right _ _

theorem le_scale_self (n div : Int64) (exp : ℕ) : exp ≤ (scale n div exp).2 := by
  fun_induction scale n div exp with
  | case1 n div exp _ ih => exact (Nat.le_succ exp).trans ih
  | case2 => exact le_rfl

theorem le_scale {n div : Int64} {exp k : ℕ} (h : 1024 ^ k ≤ n.toInt) :
    exp + k ≤ (scale n div exp).2 := by
  induction k generalizing n div exp with
  | zero => exact le_scale_self n div exp
  | succ k ih =>
    have hpos : (1 : ℤ) ≤ 1024 ^ k := one_le_pow₀ (by decide)
    have hge : 1024 * 1024 ^ k ≤ n.toInt := by rwa [← pow_succ']
    rw [scale, if_pos]
    · refine le_trans (by omega) (ih (n := n / unit) ?_)
      rw [toInt_div_unit (by omega)]
      exact Int.le_ediv_of_mul_le (by decide) (by rwa [mul_comm])
    · rw [Int64.le_iff_toInt_le, show unit.toInt = 1024 from by decide]
      omega

/-- There is a unit for every size below a million gigabytes of 1024. -/
theorem formatBytes_isSome (b : Int64) : (formatBytes quotient b).isSome ↔ b.toInt < 2 ^ 50 := by
  have hunit : unit.toInt = 1024 := by decide
  rw [formatBytes]
  split_ifs with hpos hsmall
  · rw [Int64.le_iff_toInt_le, show (0 : Int64).toInt = 0 from by decide] at hpos
    exact iff_of_true rfl (by omega)
  · rw [Int64.lt_iff_toInt_lt, hunit] at hsmall
    exact iff_of_true rfl (by omega)
  · rw [Int64.le_iff_toInt_le, show (0 : Int64).toInt = 0 from by decide] at hpos
    have hdiv : (b / unit).toInt = b.toInt / 1024 := toInt_div_unit (by omega)
    show (units[(scale (b / unit) unit 0).2]?.map _).isSome ↔ _
    rw [Option.isSome_map, isSome_getElem?, show units.length = 4 from rfl]
    constructor
    · intro hlt
      by_contra hge
      have hle : 0 + 4 ≤ (scale (b / unit) unit 0).2 := by
        apply le_scale
        rw [hdiv]
        omega
      omega
    · intro hlt
      have hle : (scale (b / unit) unit 0).2 ≤ 0 + 3 := by
        apply scale_lt
        · rw [hdiv]
          omega
        · rw [hdiv]
          omega
      omega

/-! ### Durations -/

/-- Whether a number is one of 64 bits. -/
def InRange (n : ℤ) : Prop := -2 ^ 63 ≤ n ∧ n < 2 ^ 63

/-- The time of one request, as a number. -/
def perRequest (delayMs : Int64) (isMCP : Bool) : ℤ := (if isMCP then 200 else 40) + delayMs.toInt

theorem toInt_sum (delayMs : Int64) (isMCP : Bool) :
    (baseLatencyMs isMCP + delayMs).toInt = (perRequest delayMs isMCP).bmod (2 ^ 64) := by
  have hbase : (baseLatencyMs isMCP).toInt = if isMCP then 200 else 40 := by
    cases isMCP <;> decide
  rw [Int64.toInt_add, hbase, perRequest]

theorem toInt_product (totalPlanned delayMs : Int64) (isMCP : Bool) :
    (totalPlanned * (baseLatencyMs isMCP + delayMs)).toInt =
      (totalPlanned.toInt * perRequest delayMs isMCP).bmod (2 ^ 64) := by
  rw [Int64.toInt_mul, toInt_sum, Int.mul_bmod_bmod]

theorem InRange.bmod {n : ℤ} (h : InRange n) : n.bmod (2 ^ 64) = n := Int.bmod_eq_of_le h.1 h.2

/-- A factor of a number of 64 bits is one. -/
theorem InRange.of_mul {m n : ℤ} (hm : 0 < m) (h : InRange (m * n)) : InRange n := by
  obtain ⟨hlow, hhigh⟩ := h
  constructor
  · by_contra hlt
    nlinarith
  · by_contra hge
    nlinarith

/-- Two numbers that differ by more than the divisor have different quotients. -/
theorem tdiv_ne_of_lt {m n c : ℤ} (hc : 0 < c) (h : m + 2 * c ≤ n) : m.tdiv c ≠ n.tdiv c := by
  intro heq
  have hm := Int.mul_tdiv_add_tmod m c
  have hn := Int.mul_tdiv_add_tmod n c
  rw [heq] at hm
  have hlow := Int.lt_tmod_of_pos m hc
  have hhigh := Int.tmod_lt_of_pos n hc
  omega

/-- A number that is wrapped around is a whole circle away. -/
theorem bmod_far {x : ℤ} (h : ¬InRange x) :
    x.bmod (2 ^ 64) + 2 ^ 64 ≤ x ∨ x + 2 ^ 64 ≤ x.bmod (2 ^ 64) := by
  rw [InRange] at h
  rw [Int.bmod_def]
  split <;> omega

/-- The quotient is exact only without a wrap of the product. -/
theorem totalEstMs_eq_iff {totalPlanned concurrency delayMs : Int64} {isMCP : Bool}
    (hc : 0 < concurrency.toInt) :
    (totalEstMs totalPlanned concurrency delayMs isMCP).toInt =
        (totalPlanned.toInt * perRequest delayMs isMCP).tdiv concurrency.toInt ↔
      InRange (totalPlanned.toInt * perRequest delayMs isMCP) := by
  have hne : concurrency ≠ -1 := by
    rintro rfl
    exact absurd hc (by decide)
  have hcmax := concurrency.toInt_lt
  rw [totalEstMs, Int64.toInt_div_of_ne_right _ _ hne, toInt_product]
  generalize totalPlanned.toInt * perRequest delayMs isMCP = x
  constructor
  · intro heq
    by_contra hout
    rcases bmod_far hout with hfar | hfar
    · exact tdiv_ne_of_lt hc (by omega) heq
    · exact tdiv_ne_of_lt hc (by omega) heq.symm
  · intro hin
    rw [hin.bmod]

/-! ### Both -/

/-- The summary of a size comes to a text, and the estimate of a scan to the exact quotient, with
no sum or product wrapped around on the way. -/
structure AsClaimed (b totalPlanned concurrency delayMs : Int64) (isMCP : Bool) : Prop where
  formatted : (formatBytes quotient b).isSome
  sum : 0 < totalPlanned → 0 < concurrency →
    (baseLatencyMs isMCP + delayMs).toInt = perRequest delayMs isMCP
  product : 0 < totalPlanned → 0 < concurrency →
    (totalPlanned * (baseLatencyMs isMCP + delayMs)).toInt =
      totalPlanned.toInt * perRequest delayMs isMCP
  quotient : 0 < totalPlanned → 0 < concurrency →
    (totalEstMs totalPlanned concurrency delayMs isMCP).toInt =
      (totalPlanned.toInt * perRequest delayMs isMCP).tdiv concurrency.toInt

theorem pos_iff (n : Int64) : 0 < n ↔ 0 < n.toInt := by
  rw [Int64.lt_iff_toInt_lt, show (0 : Int64).toInt = 0 from by decide]

theorem summaries_as_claimed_iff (b totalPlanned concurrency delayMs : Int64) (isMCP : Bool) :
    AsClaimed quotient b totalPlanned concurrency delayMs isMCP ↔ b.toInt < 2 ^ 50 ∧
      (0 < totalPlanned → 0 < concurrency →
        InRange (totalPlanned.toInt * perRequest delayMs isMCP)) := by
  constructor
  · intro h
    refine ⟨(formatBytes_isSome quotient b).mp h.formatted, fun ht hc => ?_⟩
    exact (totalEstMs_eq_iff ((pos_iff concurrency).mp hc)).mp (h.quotient ht hc)
  · rintro ⟨hb, hrange⟩
    refine ⟨(formatBytes_isSome quotient b).mpr hb, fun ht hc => ?_, fun ht hc => ?_,
      fun ht hc => ?_⟩
    · rw [toInt_sum, ((hrange ht hc).of_mul ((pos_iff totalPlanned).mp ht)).bmod]
    · rw [toInt_product, (hrange ht hc).bmod]
    · exact (totalEstMs_eq_iff ((pos_iff concurrency).mp hc)).mpr (hrange ht hc)

/-- A limit of 2 to the 50 bytes has no unit. -/
theorem petabyte_panics : ¬∀ (quotient : Int64 → Int64 → String)
    (b totalPlanned concurrency delayMs : Int64) (isMCP : Bool),
    AsClaimed quotient b totalPlanned concurrency delayMs isMCP := by
  intro h
  have hsome := (h (fun _ _ => "") 1125899906842624 0 0 0 false).formatted
  exact absurd ((formatBytes_isSome _ _).mp hsome) (by decide)

end Formats

end Swazz.RunSummary
