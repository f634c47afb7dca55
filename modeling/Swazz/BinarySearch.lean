import Mathlib.Data.List.Basic

/-! Binary search for the first index from which on a test succeeds. -/
namespace BinarySearch

/-- The search between two bounds, in at most so many rounds. -/
def searchFrom (f : ℕ → Bool) : ℕ → ℕ → ℕ → ℕ
  | 0, lo, _ => lo
  | rounds + 1, lo, hi =>
    if lo < hi then
      if f ((lo + hi) / 2) then searchFrom f rounds lo ((lo + hi) / 2)
      else searchFrom f rounds ((lo + hi) / 2 + 1) hi
    else lo

def search (n : ℕ) (f : ℕ → Bool) : ℕ := searchFrom f n 0 n

variable {f : ℕ → Bool} {n : ℕ}

/-- The test fails below an index, and succeeds from it on. -/
structure Splits (f : ℕ → Bool) (n lo hi : ℕ) : Prop where
  below : ∀ k, k < lo → f k = false
  above : ∀ k, hi ≤ k → k < n → f k = true
  ordered : lo ≤ hi
  bound : hi ≤ n

theorem splits_searchFrom (hmono : ∀ i j, i ≤ j → j < n → f i = true → f j = true) {rounds : ℕ} :
    ∀ {lo hi : ℕ}, Splits f n lo hi → hi ≤ lo + rounds →
      Splits f n (searchFrom f rounds lo hi) (searchFrom f rounds lo hi) := by
  induction rounds with
  | zero =>
    intro lo hi h hrounds
    have heq : lo = hi := Nat.le_antisymm h.ordered hrounds
    exact ⟨h.below, heq ▸ h.above, Nat.le_refl _, heq ▸ h.bound⟩
  | succ rounds ih =>
    intro lo hi h hrounds
    have hbound := h.bound
    have hordered := h.ordered
    unfold searchFrom
    split_ifs with hlt hmiddle
    · apply ih _ (by omega)
      refine ⟨h.below, fun k hk hkn => hmono _ k hk hkn hmiddle, by omega, by omega⟩
    · apply ih _ (by omega)
      refine ⟨fun k hk => ?_, h.above, by omega, hbound⟩
      by_contra htrue
      exact hmiddle (hmono k _ (by omega) (by omega) (by simpa using htrue))
    · have heq : lo = hi := by omega
      exact ⟨h.below, heq ▸ h.above, Nat.le_refl _, heq ▸ hbound⟩

theorem splits_search (hmono : ∀ i j, i ≤ j → j < n → f i = true → f j = true) :
    Splits f n (search n f) (search n f) := by
  apply splits_searchFrom hmono _ (by omega)
  exact ⟨fun k hk => absurd hk (Nat.not_lt_zero k), fun k hk hkn => absurd hkn (by omega),
    Nat.zero_le n, Nat.le_refl n⟩

variable {α : Type*} {p : α → Bool} {l : List α}

/-- The first index of a list from which on all items meet `p`. -/
def first (p : α → Bool) (l : List α) : ℕ := search l.length fun i => l[i]?.any p

/-- In a list where `p` goes on once it holds, the search cuts between the two parts. -/
theorem splits_first (hl : l.Pairwise fun a b => p a = true → p b = true) :
    Splits (fun i => l[i]?.any p) l.length (first p l) (first p l) := by
  apply splits_search
  intro i j hij hj hi
  rcases Nat.lt_or_eq_of_le hij with hlt | rfl
  · have hpair := List.pairwise_iff_getElem.mp hl i j (by omega) hj hlt
    rw [List.getElem?_eq_getElem (by omega)] at hi
    rw [List.getElem?_eq_getElem hj]
    exact hpair hi
  · exact hi

theorem not_of_mem_take (hl : l.Pairwise fun a b => p a = true → p b = true) {a : α}
    (ha : a ∈ l.take (first p l)) : p a = false := by
  obtain ⟨i, hi, rfl⟩ := List.mem_take_iff_getElem.mp ha
  have hbelow := (splits_first hl).below i (by omega)
  rwa [List.getElem?_eq_getElem (by omega)] at hbelow

theorem of_mem_drop (hl : l.Pairwise fun a b => p a = true → p b = true) {a : α}
    (ha : a ∈ l.drop (first p l)) : p a = true := by
  obtain ⟨i, hi, rfl⟩ := List.mem_drop_iff_getElem.mp ha
  have habove := (splits_first hl).above (first p l + i) (by omega) (by omega)
  rwa [List.getElem?_eq_getElem (by omega)] at habove

end BinarySearch
