import Mathlib.Data.List.GetD
import Swazz.EditDistance
import Swazz.FloatText
import Swazz.GoStrings

/-! How much two texts are alike: the edit distance of their runes, from one column of the table
that is overwritten row by row. -/
namespace Swazz.Similarity

open EditDistance Utf8

/-- One turn of the inner loop, on the column and the cell that stood above on the left. -/
def cell (r1 r2 : List ℕ) (x : ℕ) (s : List ℕ × ℕ) (y : ℕ) : List ℕ × ℕ :=
  let (column, lastkey) := s
  let oldkey := column.getD y 0
  let incr := if r1.getD (y - 1) 0 ≠ r2.getD (x - 1) 0 then 1 else 0
  (column.set y (min (column.getD y 0 + 1) (min (column.getD (y - 1) 0 + 1) (lastkey + incr))),
    oldkey)

/-- One turn of the outer loop. -/
def row (r1 r2 column : List ℕ) (x : ℕ) : List ℕ :=
  ((List.range' 1 r1.length).foldl (cell r1 r2 x) (column.set 0 x, x - 1)).1

def levenshteinDistance (r1 r2 : List ℕ) : ℕ :=
  let r1 := r1.take 5000
  let r2 := r2.take 5000
  if r1.length = 0 then r2.length
  else if r2.length = 0 then r1.length
  else if 9223372036854775806 < r1.length then r2.length
  else
    let column := List.range (r1.length + 1)
    ((List.range' 1 r2.length).foldl (row r1 r2) column).getD r1.length 0

/-- The two texts and the longer length of them, at most 2000. -/
def capped (r1 r2 : List ℕ) : List ℕ × List ℕ × ℕ :=
  if 2000 < max r1.length r2.length then
    (r1.take 2000, r2.take 2000, max (r1.take 2000).length (r2.take 2000).length)
  else (r1, r2, max r1.length r2.length)

/-- In double precision. -/
def normalizedLevenshtein (s1 s2 : Text) : ℚ :=
  let r1 := GoStrings.runes s1
  let r2 := GoStrings.runes s2
  if max r1.length r2.length = 0 then 1
  else
    let (r1, r2, maxLen) := capped r1 r2
    FloatText.nearest (1 - FloatText.nearest (levenshteinDistance r1 r2 / maxLen))

/-! ## The loops -/

/-- The distance of the first `y` runes of one text and the first `x` of the other. -/
def prefixDistance (r1 r2 : List ℕ) (y x : ℕ) : ℕ :=
  distance (r1.take y).reverse (r2.take x).reverse

variable {r1 r2 : List ℕ} {x y : ℕ}

theorem take_succ_reverse {r : List ℕ} (h : y < r.length) :
    (r.take (y + 1)).reverse = r.getD y 0 :: (r.take y).reverse := by
  rw [List.take_succ_eq_append_getElem h, List.reverse_append, List.getD_eq_getElem _ _ h]
  rfl

theorem prefixDistance_zero_left (h : x ≤ r2.length) : prefixDistance r1 r2 0 x = x := by
  rw [prefixDistance, List.take_zero, List.reverse_nil, distance_nil_left, List.length_reverse,
    List.length_take_of_le h]

theorem prefixDistance_zero_right (h : y ≤ r1.length) : prefixDistance r1 r2 y 0 = y := by
  rw [prefixDistance, List.take_zero, List.reverse_nil, distance_nil_right, List.length_reverse,
    List.length_take_of_le h]

theorem prefixDistance_succ (hy : y < r1.length) (hx : x < r2.length) :
    prefixDistance r1 r2 (y + 1) (x + 1) =
      min (prefixDistance r1 r2 (y + 1) x + 1)
        (min (prefixDistance r1 r2 y (x + 1) + 1)
          (prefixDistance r1 r2 y x + change (r1.getD y 0) (r2.getD x 0))) := by
  unfold prefixDistance
  rw [take_succ_reverse hy, take_succ_reverse hx, distance_cons]
  omega

/-- The inner loop has passed `k` cells: those hold the new distances, the others the old ones. -/
structure Passed (r1 r2 : List ℕ) (x k : ℕ) (s : List ℕ × ℕ) : Prop where
  length : s.1.length = r1.length + 1
  new : ∀ y ≤ k, s.1.getD y 0 = prefixDistance r1 r2 y (x + 1)
  old : ∀ y, k < y → y ≤ r1.length → s.1.getD y 0 = prefixDistance r1 r2 y x
  diagonal : s.2 = prefixDistance r1 r2 k x

theorem getD_set_self {l : List ℕ} {i v : ℕ} (h : i < l.length) : (l.set i v).getD i 0 = v := by
  simp [List.getD_eq_getElem?_getD, h]

theorem getD_set_ne {l : List ℕ} {i j v : ℕ} (h : i ≠ j) :
    (l.set i v).getD j 0 = l.getD j 0 := by
  simp [List.getD_eq_getElem?_getD, h]

theorem Passed.cell {k : ℕ} {s : List ℕ × ℕ} (h : Passed r1 r2 x k s) (hk : k < r1.length)
    (hx : x < r2.length) : Passed r1 r2 x (k + 1) (cell r1 r2 (x + 1) s (k + 1)) where
  length := by
    rw [Similarity.cell, List.length_set]
    exact h.length
  new y hy := by
    dsimp only [Similarity.cell]
    rcases Nat.lt_or_eq_of_le hy with hlt | rfl
    · rw [getD_set_ne (by omega)]
      exact h.new y (by omega)
    · rw [getD_set_self (by rw [h.length]; omega), h.old (k + 1) (by omega) hk,
        Nat.add_sub_cancel, Nat.add_sub_cancel, h.new k le_rfl, h.diagonal,
        prefixDistance_succ hk hx, change]
      simp only [ne_eq, ite_not]
  old y hlt hle := by
    dsimp only [Similarity.cell]
    rw [getD_set_ne (by omega)]
    exact h.old y (by omega) hle
  diagonal := h.old (k + 1) (by omega) hk

theorem passed_foldl {s : List ℕ × ℕ} (h : Passed r1 r2 x 0 s) (hx : x < r2.length) (k : ℕ)
    (hk : k ≤ r1.length) :
    Passed r1 r2 x k ((List.range' 1 k).foldl (cell r1 r2 (x + 1)) s) := by
  induction k with
  | zero => exact h
  | succ k ih =>
    rw [List.range'_1_concat, List.foldl_append, Nat.add_comm 1 k]
    exact (ih (by omega)).cell hk hx

/-- The column holds the distances of the first `x` runes of the second text. -/
structure Column (r1 r2 : List ℕ) (x : ℕ) (column : List ℕ) : Prop where
  length : column.length = r1.length + 1
  cells : ∀ y ≤ r1.length, column.getD y 0 = prefixDistance r1 r2 y x

theorem Column.row {column : List ℕ} (h : Column r1 r2 x column) (hx : x < r2.length) :
    Column r1 r2 (x + 1) (row r1 r2 column (x + 1)) := by
  have hstart : Passed r1 r2 x 0 (column.set 0 (x + 1), x) := {
    length := by rw [List.length_set, h.length]
    new := fun y hy => by
      rw [Nat.le_zero.mp hy, getD_set_self (by rw [h.length]; omega),
        prefixDistance_zero_left (by omega)]
    old := fun y hlt hle => by
      rw [getD_set_ne (by omega)]
      exact h.cells y hle
    diagonal := (prefixDistance_zero_left hx.le).symm }
  have hend := passed_foldl hstart hx r1.length le_rfl
  exact ⟨hend.length, hend.new⟩

theorem column_foldl {column : List ℕ} (h : Column r1 r2 0 column) (x : ℕ) (hx : x ≤ r2.length) :
    Column r1 r2 x ((List.range' 1 x).foldl (row r1 r2) column) := by
  induction x with
  | zero => exact h
  | succ x ih =>
    rw [List.range'_1_concat, List.foldl_append, Nat.add_comm 1 x]
    exact (ih (by omega)).row hx

theorem column_range (r1 r2 : List ℕ) : Column r1 r2 0 (List.range (r1.length + 1)) where
  length := List.length_range
  cells y hy := by
    rw [prefixDistance_zero_right hy, List.getD_eq_getElem _ _ (by rw [List.length_range]; omega),
      List.getElem_range]

theorem levenshteinDistance_eq (h1 : r1.length ≤ 5000) (h2 : r2.length ≤ 5000) :
    levenshteinDistance r1 r2 = distance r1 r2 := by
  dsimp only [levenshteinDistance]
  rw [List.take_of_length_le h1, List.take_of_length_le h2]
  split_ifs with hempty hempty' hhuge
  · rw [List.length_eq_zero_iff.mp hempty, distance_nil_left]
  · rw [List.length_eq_zero_iff.mp hempty', distance_nil_right]
  · omega
  · have hcolumn := column_foldl (column_range r1 r2) r2.length le_rfl
    rw [hcolumn.cells r1.length le_rfl, prefixDistance, List.take_length, List.take_length,
      distance_reverse]

theorem length_capped (r1 r2 : List ℕ) :
    (capped r1 r2).1.length ≤ 2000 ∧ (capped r1 r2).2.1.length ≤ 2000 ∧
      (capped r1 r2).2.2 = max (capped r1 r2).1.length (capped r1 r2).2.1.length := by
  unfold capped
  split_ifs with h
  · simp
  · simp only [not_lt, sup_le_iff] at h
    exact ⟨h.1, h.2, rfl⟩

theorem normalizedLevenshtein_mem (s1 s2 : Text) :
    0 ≤ normalizedLevenshtein s1 s2 ∧ normalizedLevenshtein s1 s2 ≤ 1 := by
  dsimp only [normalizedLevenshtein]
  split_ifs
  · exact ⟨zero_le_one, le_rfl⟩
  obtain ⟨h1, h2, hmax⟩ := length_capped (GoStrings.runes s1) (GoStrings.runes s2)
  generalize capped (GoStrings.runes s1) (GoStrings.runes s2) = c at h1 h2 hmax ⊢
  obtain ⟨r1, r2, maxLen⟩ := c
  dsimp only at h1 h2 hmax ⊢
  have hdistance : levenshteinDistance r1 r2 ≤ maxLen := by
    rw [levenshteinDistance_eq (by omega) (by omega), hmax]
    exact distance_le_length r1 r2
  have hquotient : (levenshteinDistance r1 r2 / maxLen : ℚ) ≤ 1 :=
    div_le_one_of_le₀ (by exact_mod_cast hdistance) (by positivity)
  obtain ⟨hlow, hhigh⟩ := FloatText.nearest_mem (by positivity) hquotient
  exact FloatText.nearest_mem (by linarith) (by linarith)

/-- The loops find the least number of insertions, deletions and substitutions. -/
theorem levenshteinDistance_isLeast (r1 r2 r3 : List ℕ) (h1 : r1.length ≤ 5000)
    (h2 : r2.length ≤ 5000) (h3 : r3.length ≤ 5000) :
    IsLeast {n | Edits n r1 r2} (levenshteinDistance r1 r2) ∧
      levenshteinDistance r1 r2 = levenshteinDistance r2 r1 ∧
      levenshteinDistance r1 r3 ≤ levenshteinDistance r1 r2 + levenshteinDistance r2 r3 ∧
      levenshteinDistance r1 r2 ≤ max r1.length r2.length ∧
      ∀ s1 s2, 0 ≤ normalizedLevenshtein s1 s2 ∧ normalizedLevenshtein s1 s2 ≤ 1 := by
  rw [levenshteinDistance_eq h1 h2, levenshteinDistance_eq h2 h1, levenshteinDistance_eq h1 h3,
    levenshteinDistance_eq h2 h3]
  exact ⟨isLeast_distance r1 r2, distance_comm r1 r2, distance_triangle r1 r2 r3,
    distance_le_length r1 r2, normalizedLevenshtein_mem⟩

/-- `kitten`, `sitting` and no rune. -/
theorem levenshteinDistance_kitten :
    IsLeast {n | Edits n [107, 105, 116, 116, 101, 110] [115, 105, 116, 116, 105, 110, 103]} 3 := by
  have h := (levenshteinDistance_isLeast [107, 105, 116, 116, 101, 110]
    [115, 105, 116, 116, 105, 110, 103] [] (by decide) (by decide) (by decide)).1
  exact h

end Swazz.Similarity
