import Mathlib.Logic.Function.Basic
import Mathlib.Data.List.Basic

/-! The first items of each key in a list, and counters that tell them as the list goes by. -/
namespace FirstOfEach

variable {α κ : Type*} [DecidableEq κ]

/-- How many items have a key. -/
def occurrences (key : α → κ) (k : κ) (l : List α) : ℕ := l.countP fun a => key a = k

/-- The items of `l` of whose key fewer than `n` stand before them, in `seen` or in `l`. -/
def firstsAfter (n : ℕ) (key : α → κ) : List α → List α → List α
  | _, [] => []
  | seen, a :: l =>
    if occurrences key (key a) seen < n then a :: firstsAfter n key (seen ++ [a]) l
    else firstsAfter n key (seen ++ [a]) l

def firsts (n : ℕ) (key : α → κ) (l : List α) : List α := firstsAfter n key [] l

variable {n : ℕ} {key : α → κ}

theorem occurrences_concat (k : κ) (l : List α) (a : α) :
    occurrences key k (l ++ [a]) = occurrences key k l + if key a = k then 1 else 0 := by
  rw [occurrences, List.countP_append, List.countP_singleton, occurrences]
  simp

theorem firstsAfter_concat (seen l : List α) (a : α) :
    firstsAfter n key seen (l ++ [a]) = firstsAfter n key seen l ++
      if occurrences key (key a) (seen ++ l) < n then [a] else [] := by
  induction l generalizing seen with
  | nil =>
    rw [List.nil_append, List.append_nil, firstsAfter, firstsAfter, firstsAfter,
      List.nil_append]
  | cons b l ih =>
    rw [List.cons_append, firstsAfter, firstsAfter, ih, List.append_assoc,
      List.singleton_append]
    split <;> rfl

theorem firsts_concat (l : List α) (a : α) :
    firsts n key (l ++ [a]) =
      firsts n key l ++ if occurrences key (key a) l < n then [a] else [] := by
  rw [firsts, firstsAfter_concat, List.nil_append, firsts]

/-- Counters that stop at `n`. -/
def Tells (n : ℕ) (key : α → κ) (counts : κ → ℕ) (seen : List α) : Prop :=
  ∀ k, counts k = min n (occurrences key k seen)

theorem tells_nil : Tells n key (fun _ => 0) [] := by
  intro k
  rw [occurrences, List.countP_nil, Nat.min_zero]

/-- An item of a key with room is counted. -/
theorem Tells.count {counts : κ → ℕ} {seen : List α} (h : Tells n key counts seen) {a : α}
    (hroom : counts (key a) < n) :
    Tells n key (Function.update counts (key a) (counts (key a) + 1)) (seen ++ [a]) ∧
      firsts n key (seen ++ [a]) = firsts n key seen ++ [a] := by
  have ha := h (key a)
  have hlt : occurrences key (key a) seen < n := by omega
  constructor
  · intro k
    rw [occurrences_concat]
    by_cases hk : key a = k
    · subst hk
      rw [Function.update_self, if_pos rfl]
      omega
    · rw [Function.update_of_ne (Ne.symm hk), if_neg hk, h k, Nat.add_zero]
  · rw [firsts_concat, if_pos hlt]

/-- An item of a full key changes nothing. -/
theorem Tells.skip {counts : κ → ℕ} {seen : List α} (h : Tells n key counts seen) {a : α}
    (hfull : n ≤ counts (key a)) :
    Tells n key counts (seen ++ [a]) ∧ firsts n key (seen ++ [a]) = firsts n key seen := by
  have ha := h (key a)
  constructor
  · intro k
    rw [occurrences_concat]
    by_cases hk : key a = k
    · subst hk
      rw [if_pos rfl]
      omega
    · rw [if_neg hk, h k, Nat.add_zero]
  · rw [firsts_concat, if_neg (by omega), List.append_nil]

end FirstOfEach
