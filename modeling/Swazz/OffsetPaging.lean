import Mathlib.Data.List.Basic
import Mathlib.Tactic.Ring.RingNF

/-! Pages of a list at given offsets, and how a page is collected from the front of the list. -/
namespace OffsetPaging

variable {α : Type*}

/-- At most `limit` elements after the first `offset`. -/
def page (offset limit : ℕ) (l : List α) : List α := (l.drop offset).take limit

variable {offset limit : ℕ} {l p q : List α}

theorem length_page (offset limit : ℕ) (l : List α) :
    (page offset limit l).length = min limit (l.length - offset) := by
  rw [page, List.length_take, List.length_drop]

/-- The pages at the multiples of the limit follow each other. -/
theorem flatMap_pages (limit n : ℕ) (l : List α) :
    ((List.range n).flatMap fun k => page (k * limit) limit l) = l.take (n * limit) := by
  induction n with
  | zero => rw [List.range_zero, List.flatMap_nil, Nat.zero_mul, List.take_zero]
  | succ n ih =>
    have hnext : (n + 1) * limit = n * limit + limit := Nat.succ_mul n limit
    rw [List.range_succ, List.flatMap_append, ih, List.flatMap_singleton, hnext, List.take_add,
      page]

/-- A full page takes nothing from what follows. -/
theorem page_append_of_full (h : limit ≤ (page offset limit p).length) (q : List α) :
    page offset limit (p ++ q) = page offset limit p := by
  rw [length_page] at h
  by_cases hlimit : limit = 0
  · rw [page, page, hlimit, List.take_zero, List.take_zero]
  · have hle : offset ≤ p.length := by omega
    rw [page, page, List.drop_append_of_le_length hle, List.take_append_of_le_length]
    rw [List.length_drop]
    omega

/-- The next element is on the page when it is past the offset and the page is not full. -/
theorem page_concat (p : List α) (a : α) :
    page offset limit (p ++ [a]) =
      if offset < p.length + 1 ∧ (page offset limit p).length < limit then
        page offset limit p ++ [a] else page offset limit p := by
  split_ifs with h
  · rw [length_page] at h
    have hle : offset ≤ p.length := by omega
    rw [page, page, List.drop_append_of_le_length hle, List.take_append, List.length_drop]
    have hroom : limit - (p.length - offset) = (limit - (p.length - offset) - 1) + 1 := by omega
    rw [hroom, List.take_succ_cons, List.take_nil]
  · by_cases hfull : limit ≤ (page offset limit p).length
    · exact page_append_of_full hfull [a]
    · have hpast : p.length + 1 ≤ offset := by omega
      have hlen : (p ++ [a]).length = p.length + 1 := List.length_append
      rw [page, page, List.drop_of_length_le (by omega), List.drop_of_length_le (by omega)]

end OffsetPaging
