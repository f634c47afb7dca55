import Mathlib.Data.List.Sort

/-! Paging through a table in descending order of a key, where a page is asked for by the key of
the last row of the page before. -/
namespace KeysetPaging

variable {α κ C ε : Type*}

section Descending

variable [LinearOrder κ] {key : α → κ}

/-- Each row comes before those of a smaller key, and no key twice. -/
def Descending (key : α → κ) (rows : List α) : Prop := rows.Pairwise fun a b => key b < key a

/-- The rows below the key of one of them are those that follow it. -/
theorem Descending.filter_below {before after : List α} {c : α}
    (h : Descending key (before ++ c :: after)) :
    (before ++ c :: after).filter (fun a => decide (key a < key c)) = after := by
  obtain ⟨-, hc, hbefore⟩ := List.pairwise_append.mp h
  obtain ⟨hafter, -⟩ := List.pairwise_cons.mp hc
  have hnone : before.filter (fun a => decide (key a < key c)) = [] := by
    rw [List.filter_eq_nil_iff]
    intro a ha hlt
    exact lt_asymm (hbefore a ha c List.mem_cons_self) (of_decide_eq_true hlt)
  have hall : after.filter (fun a => decide (key a < key c)) = after := by
    rw [List.filter_eq_self]
    intro a ha
    exact decide_eq_true (hafter a ha)
  rw [List.filter_append, hnone, List.nil_append, List.filter_cons_of_neg (by simp), hall]

theorem Descending.filter {rows : List α} (h : Descending key rows) (p : α → Bool) :
    Descending key (rows.filter p) :=
  List.Pairwise.filter p h

/-- There is one descending order of the rows. -/
theorem Descending.eq_of_perm {rows rows' : List α} (h : Descending key rows)
    (h' : Descending key rows') (hperm : rows.Perm rows') : rows = rows' :=
  hperm.eq_of_pairwise (fun _ _ _ _ hab hba => absurd hab (lt_asymm hba)) h h'

/-- Rows of different keys, sorted. -/
theorem descending_mergeSort {rows : List α} (h : (rows.map key).Nodup) :
    Descending key (rows.mergeSort fun a b => decide (key b ≤ key a)) := by
  have hsorted : (rows.mergeSort fun a b => decide (key b ≤ key a)).Pairwise
      fun a b => decide (key b ≤ key a) = true := by
    apply List.pairwise_mergeSort
    · intro a b c hab hbc
      exact decide_eq_true (le_trans (of_decide_eq_true hbc) (of_decide_eq_true hab))
    · intro a b
      rw [Bool.or_eq_true, decide_eq_true_iff, decide_eq_true_iff]
      exact le_total _ _
  have hperm := (List.mergeSort_perm rows fun a b => decide (key b ≤ key a)).map key
  have hnodup := List.pairwise_map.mp (hperm.nodup_iff.mpr h)
  refine (hsorted.and hnodup).imp ?_
  rintro a b ⟨hle, hne⟩
  exact lt_of_le_of_ne (of_decide_eq_true hle) (Ne.symm hne)

end Descending

/-! ### Following the cursors -/

/-- The pages from a cursor on, until one names no other. `none` says that more calls are needed. -/
def follow (get : Option C → Except ε (List α × Option C)) :
    ℕ → Option C → Option (Except ε (List α))
  | 0, _ => none
  | fuel + 1, cursor =>
    match get cursor with
    | .error e => some (.error e)
    | .ok (rows, none) => some (.ok rows)
    | .ok (rows, some next) =>
      (follow get fuel (some next)).map fun pages => pages.map fun more => rows ++ more

/-- What a page is to be at a cursor that stands before some rows: these, or the first of them and
a cursor that stands before the others. -/
structure Pages (get : Option C → Except ε (List α × Option C)) (limit : ℕ)
    (Before : Option C → List α → Prop) : Prop where
  last : ∀ {cursor rows}, Before cursor rows → rows.length ≤ limit → get cursor = .ok (rows, none)
  more : ∀ {cursor rows}, Before cursor rows → limit < rows.length →
    ∃ next, get cursor = .ok (rows.take limit, some next) ∧ Before (some next) (rows.drop limit)

/-- The pages are all of the rows, in as many calls as there are rows and one. -/
theorem Pages.follow_eq {get : Option C → Except ε (List α × Option C)} {limit : ℕ}
    {Before : Option C → List α → Prop} (hpages : Pages get limit Before) (hlimit : 0 < limit)
    (fuel : ℕ) : ∀ {cursor rows}, Before cursor rows → rows.length < fuel →
      follow get fuel cursor = some (.ok rows) := by
  induction fuel with
  | zero =>
    intro cursor rows hbefore hfuel
    exact absurd hfuel (Nat.not_lt_zero _)
  | succ fuel ih =>
    intro cursor rows hbefore hfuel
    by_cases hlength : rows.length ≤ limit
    · rw [follow, hpages.last hbefore hlength]
    · obtain ⟨next, hget, hnext⟩ := hpages.more hbefore (by omega)
      have hrest := ih hnext (by rw [List.length_drop]; omega)
      rw [follow, hget]
      dsimp only
      rw [hrest, Option.map_some, Except.map, List.take_append_drop]

end KeysetPaging
