import Mathlib.Data.List.Basic
import Mathlib.Order.Interval.Set.Basic

/-! The longest run `1, …, n` among numbers that came in any order. -/
namespace ContiguousPrefix

/-- All of `1, …, n` have been seen. -/
def Covers (seen : List ℕ) (n : ℕ) : Prop :=
  ∀ i, 1 ≤ i → i ≤ n → i ∈ seen

/-- Go on from `n` while the next number has been seen, for `fuel` rounds at most. -/
def advance (seen : List ℕ) : ℕ → ℕ → ℕ
  | 0, n => n
  | fuel+1, n => if n+1 ∈ seen then advance seen fuel (n+1) else n

variable {seen : List ℕ} {n : ℕ}

theorem covers_zero (seen : List ℕ) : Covers seen 0 := by
  intro i hi hi'
  omega

theorem Covers.succ (h : Covers seen n) (hnext : n+1 ∈ seen) : Covers seen (n+1) := by
  intro i hi hi'
  by_cases heq : i = n+1
  · rw [heq]
    exact hnext
  · exact h i hi (by omega)

theorem Covers.mono {more : List ℕ} (h : Covers seen n) (hsub : seen ⊆ more) :
    Covers more n :=
  fun i hi hi' => hsub (h i hi hi')

theorem Covers.advance (h : Covers seen n) (fuel : ℕ) :
    Covers seen (advance seen fuel n) := by
  induction fuel generalizing n with
  | zero => exact h
  | succ fuel ih =>
    unfold ContiguousPrefix.advance
    split_ifs with hnext
    · exact ih (h.succ hnext)
    · exact h

end ContiguousPrefix
