import Mathlib.Data.Finset.Card
import Mathlib.Data.List.Nodup

/-! Filling a list up to a limit with the items of another, each once, in their order. -/
namespace FillUp

variable {α : Type*} [DecidableEq α]

def fillUp (limit : ℕ) : List α → List α → List α
  | out, [] => out
  | out, a :: add =>
    if limit ≤ out.length then out
    else if a ∈ out then fillUp limit out add
    else fillUp limit (out ++ [a]) add

variable {limit : ℕ} {out add : List α}

theorem fillUp_of_full (h : limit ≤ out.length) : fillUp limit out add = out := by
  cases add with
  | nil => rfl
  | cons a add => rw [fillUp, if_pos h]

/-- What was there stays in front, and what is added is new. -/
theorem exists_added (limit : ℕ) (out add : List α) : ∃ added, fillUp limit out add = out ++ added ∧
    added.Sublist add ∧ (∀ a ∈ added, a ∉ out) ∧ added.Nodup := by
  induction add generalizing out with
  | nil => exact ⟨[], (List.append_nil _).symm, List.Sublist.refl _, by simp, List.nodup_nil⟩
  | cons a add ih =>
    rw [fillUp]
    split_ifs with hfull hmem
    · exact ⟨[], (List.append_nil _).symm, List.nil_sublist _, by simp, List.nodup_nil⟩
    · obtain ⟨added, heq, hsub, hnew, hnodup⟩ := ih out
      exact ⟨added, heq, hsub.cons a, hnew, hnodup⟩
    · obtain ⟨added, heq, hsub, hnew, hnodup⟩ := ih (out ++ [a])
      refine ⟨a :: added, by rw [heq]; simp, hsub.cons_cons a, ?_, ?_⟩
      · intro b hb
        rcases List.mem_cons.mp hb with rfl | hb
        · exact hmem
        · exact fun hout => hnew b hb (List.mem_append_left _ hout)
      · rw [List.nodup_cons]
        exact ⟨fun ha => hnew a ha (List.mem_append_right _ List.mem_cons_self), hnodup⟩

theorem prefix_fillUp : out <+: fillUp limit out add := by
  obtain ⟨added, heq, -⟩ := exists_added limit out add
  exact ⟨added, heq.symm⟩

theorem mem_fillUp {a : α} (h : a ∈ fillUp limit out add) : a ∈ out ∨ a ∈ add := by
  obtain ⟨added, heq, hsub, -⟩ := exists_added limit out add
  rw [heq, List.mem_append] at h
  exact h.imp_right fun ha => hsub.subset ha

theorem nodup_fillUp (h : out.Nodup) : (fillUp limit out add).Nodup := by
  obtain ⟨added, heq, -, hnew, hnodup⟩ := exists_added limit out add
  rw [heq, List.nodup_append]
  refine ⟨h, hnodup, fun a ha b hb hab => hnew b hb (hab ▸ ha)⟩

theorem length_fillUp_le (h : out.length ≤ limit) : (fillUp limit out add).length ≤ limit := by
  induction add generalizing out with
  | nil => exact h
  | cons a add ih =>
    rw [fillUp]
    split_ifs with hfull hmem
    · exact h
    · exact ih h
    · apply ih
      rw [List.length_append, List.length_singleton]
      omega

/-- Nothing is left out before the limit is reached. -/
theorem mem_or_full {a : α} (ha : a ∈ add) :
    a ∈ fillUp limit out add ∨ limit ≤ (fillUp limit out add).length := by
  induction add generalizing out with
  | nil => cases ha
  | cons b add ih =>
    rw [fillUp]
    split_ifs with hfull hmem
    · exact Or.inr hfull
    · rcases List.mem_cons.mp ha with rfl | ha
      · exact Or.inl (prefix_fillUp.subset hmem)
      · exact ih ha
    · rcases List.mem_cons.mp ha with rfl | ha
      · exact Or.inl (prefix_fillUp.subset (List.mem_append_right _ List.mem_cons_self))
      · exact ih ha

theorem fillUp_append (add' : List α) :
    fillUp limit out (add ++ add') = fillUp limit (fillUp limit out add) add' := by
  induction add generalizing out with
  | nil => rfl
  | cons a add ih =>
    rw [List.cons_append, fillUp, fillUp]
    split_ifs with hfull hmem
    · exact (fillUp_of_full hfull).symm
    · exact ih
    · exact ih

/-- The item comes in whenever there is room in front of it. -/
theorem fillUp_concat (a : α) : fillUp limit out (add ++ [a]) =
    if limit ≤ (fillUp limit out add).length ∨ a ∈ fillUp limit out add then fillUp limit out add
    else fillUp limit out add ++ [a] := by
  rw [fillUp_append, fillUp, fillUp, fillUp]
  split_ifs <;> tauto

/-- As many items as there are different ones, or as the limit allows. -/
theorem length_fillUp (limit : ℕ) (add : List α) :
    (fillUp limit [] add).length = min limit add.toFinset.card := by
  have hnodup : (fillUp limit [] add).Nodup := nodup_fillUp List.nodup_nil
  have hsubset : (fillUp limit [] add).toFinset ⊆ add.toFinset := by
    intro a ha
    rw [List.mem_toFinset] at ha ⊢
    exact (mem_fillUp ha).resolve_left (List.not_mem_nil)
  have hcard := Finset.card_le_card hsubset
  rw [List.toFinset_card_of_nodup hnodup] at hcard
  have hlimit : (fillUp limit [] add).length ≤ limit := length_fillUp_le (Nat.zero_le _)
  by_cases hfull : limit ≤ (fillUp limit [] add).length
  · omega
  · have hall : add.toFinset ⊆ (fillUp limit [] add).toFinset := by
      intro a ha
      rw [List.mem_toFinset] at ha ⊢
      exact (mem_or_full ha).resolve_right hfull
    have hcard' := Finset.card_le_card hall
    rw [List.toFinset_card_of_nodup hnodup] at hcard'
    omega

/-- An item comes in when the different items in front of its first place leave it room. -/
theorem mem_fillUp_iff {a : α} :
    a ∈ fillUp limit [] add ↔ ∃ i, add[i]? = some a ∧ (add.take i).toFinset.card < limit := by
  induction add using List.reverseRecOn with
  | nil => simp [fillUp]
  | append_singleton add b ih =>
    have hroom : (fillUp limit [] add).length < limit ↔ add.toFinset.card < limit := by
      rw [length_fillUp]
      omega
    have hlast : a ∈ fillUp limit [] (add ++ [b]) ↔
        a ∈ fillUp limit [] add ∨ a = b ∧ add.toFinset.card < limit := by
      rw [fillUp_concat, ← hroom]
      split_ifs with hstop
      · refine (or_iff_left_of_imp fun h => ?_).symm
        exact h.1 ▸ hstop.resolve_left (Nat.not_le.mpr h.2)
      · rw [List.mem_append, List.mem_singleton,
          and_iff_left (Nat.lt_of_not_le (not_or.mp hstop).1)]
    rw [hlast, ih]
    constructor
    · rintro (⟨i, hi, hcard⟩ | ⟨rfl, hcard⟩)
      · have hlt : i < add.length := (List.getElem?_eq_some_iff.mp hi).choose
        refine ⟨i, (List.getElem?_append_left hlt).trans hi, ?_⟩
        rwa [List.take_append_of_le_length hlt.le]
      · exact ⟨add.length, List.getElem?_concat_length, by rwa [List.take_left]⟩
    · rintro ⟨i, hi, hcard⟩
      rcases Nat.lt_or_ge i add.length with hlt | hge
      · rw [List.getElem?_append_left hlt] at hi
        rw [List.take_append_of_le_length hlt.le] at hcard
        exact Or.inl ⟨i, hi, hcard⟩
      · obtain ⟨hbound, hget⟩ := List.getElem?_eq_some_iff.mp hi
        rw [List.length_append, List.length_singleton] at hbound
        obtain rfl : i = add.length := by omega
        rw [List.take_left] at hcard
        rw [List.getElem?_concat_length, Option.some.injEq] at hi
        exact Or.inr ⟨hi.symm, hcard⟩

/-- Each item of the list has those of lower ranks in front of it. -/
def Ranked (r : α → ℕ) (add : List α) : Prop :=
  ∀ i a, add[i]? = some a → ∀ b ∈ add, r b < r a → b ∈ add.take i

variable {r : α → ℕ}

/-- An item is left out only when no item of a higher rank comes in. -/
theorem le_of_not_mem_fillUp (h : Ranked r add) {a b : α} (ha : a ∈ fillUp limit [] add)
    (hb : b ∈ add) (hout : b ∉ fillUp limit [] add) : r a ≤ r b := by
  by_contra hlt
  obtain ⟨i, hi, hcard⟩ := mem_fillUp_iff.mp ha
  obtain ⟨j, hj⟩ := List.getElem?_of_mem (h i a hi b hb (Nat.lt_of_not_le hlt))
  rw [List.getElem?_take] at hj
  split_ifs at hj with hji
  refine hout (mem_fillUp_iff.mpr ⟨j, hj, lt_of_le_of_lt (Finset.card_le_card ?_) hcard⟩)
  intro c hc
  rw [List.mem_toFinset] at hc ⊢
  exact List.take_subset_take_left add hji.le hc

omit [DecidableEq α] in
theorem Ranked.of_concat {x : α} (h : Ranked r (add ++ [x])) : Ranked r add := by
  intro i a hi b hb hlt
  have hbound : i < add.length := (List.getElem?_eq_some_iff.mp hi).choose
  have hmem := h i a ((List.getElem?_append_left hbound).trans hi) b (List.mem_append_left _ hb) hlt
  rwa [List.take_append_of_le_length hbound.le] at hmem

/-- The items come in by their ranks. -/
theorem pairwise_fillUp (h : Ranked r add) :
    (fillUp limit [] add).Pairwise fun a b => r a ≤ r b := by
  induction add using List.reverseRecOn with
  | nil => exact List.Pairwise.nil
  | append_singleton add x ih =>
    rw [fillUp_concat]
    split_ifs with hstop
    · exact ih h.of_concat
    · rw [not_or] at hstop
      refine List.pairwise_append.mpr ⟨ih h.of_concat, List.pairwise_singleton _ _, ?_⟩
      intro a ha b hb
      obtain rfl := List.mem_singleton.mp hb
      by_contra hlt
      -- an item of a lower rank that is met this late was met before
      have hadd : a ∈ add := (mem_fillUp ha).resolve_left List.not_mem_nil
      obtain ⟨i, hi⟩ := List.getElem?_of_mem hadd
      have hbound : i < add.length := (List.getElem?_eq_some_iff.mp hi).choose
      have hmem := h i a ((List.getElem?_append_left hbound).trans hi) b
        (List.mem_append_right _ List.mem_cons_self) (Nat.lt_of_not_le hlt)
      rw [List.take_append_of_le_length hbound.le] at hmem
      have hplaced : b ∈ fillUp limit [] add ∨ limit ≤ (fillUp limit [] add).length :=
        mem_or_full (List.mem_of_mem_take hmem)
      rcases hplaced with hin | hfull
      · exact hstop.2 hin
      · exact hstop.1 hfull

omit [DecidableEq α] in
/-- An item that is not of the first part has all of it in front. -/
theorem subset_take {first rest : List α} {i : ℕ} {a : α} (hi : (first ++ rest)[i]? = some a)
    (ha : a ∉ first) : first ⊆ (first ++ rest).take i := by
  have hge : first.length ≤ i := by
    by_contra hlt
    rw [List.getElem?_append_left (Nat.lt_of_not_le hlt)] at hi
    exact ha (List.mem_of_getElem? hi)
  rw [List.take_append, List.take_of_length_le hge]
  exact List.subset_append_left _ _

end FillUp
