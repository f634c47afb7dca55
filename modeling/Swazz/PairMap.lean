import Mathlib.Logic.Function.Basic

/-! A table with a key of two parts. -/
namespace PairMap

variable {α β γ : Type} [DecidableEq α] [DecidableEq β] {f : α → β → Option γ} {a i : α}
  {b j : β} {c d : γ}

/-- The table with one entry put in place. -/
def put (f : α → β → Option γ) (a : α) (b : β) (c : γ) : α → β → Option γ :=
  Function.update f a (Function.update (f a) b (some c))

@[simp] theorem put_self : put f a b c a b = some c := by simp [put]

theorem put_ne (h : (i, j) ≠ (a, b)) : put f a b c i j = f i j := by
  by_cases hi : i = a
  · subst hi
    have hj : j ≠ b := fun heq => h (by rw [heq])
    simp [put, hj]
  · simp [put, hi]

theorem put_put : put (put f a b c) a b d = put f a b d := by simp [put]

theorem put_eq_self (h : f a b = some c) : put f a b c = f := by simp [put, ← h]

theorem put_comm (h : (i, j) ≠ (a, b)) :
    put (put f a b c) i j d = put (put f i j d) a b c := by
  by_cases hi : i = a
  · subst hi
    have hj : j ≠ b := fun heq => h (by rw [heq])
    simp [put, Function.update_comm hj]
  · have hi' : a ≠ i := fun heq => hi heq.symm
    simp [put, hi, hi', Function.update_comm hi]

end PairMap
