import Mathlib

/-! Thinning out a rising sequence of times: after a time is picked, those before its `free`
time are passed over. -/
namespace Debounce

variable {α : Type*} [LinearOrder α]

/-- The times that are picked, after an earlier pick `last`. -/
def debounce (free : α → α) : Option α → List α → List α
  | _, [] => []
  | last, t :: ts =>
    if last.any fun l => decide (t < free l) then debounce free last ts
    else t :: debounce free (some t) ts

/-- The picks are apart, and every time is soon after a pick. -/
structure Thins (free : α → α) (P : α → Prop) (ts : List α) : Prop where
  among : ∀ p, P p → p ∈ ts
  apart : ∀ p q, P p → P q → p < q → free p ≤ q
  near : ∀ t ∈ ts, ∃ p, P p ∧ p ≤ t ∧ t < free p

variable {free : α → α} {last : Option α} {ts : List α}

theorem any_lt_iff {t : α} :
    (last.any fun l => decide (t < free l)) = true ↔ ∃ l ∈ last, t < free l := by
  cases last <;> simp

theorem debounce_skip {t : α} (h : ∃ l ∈ last, t < free l) :
    debounce free last (t :: ts) = debounce free last ts := by
  rw [debounce, if_pos (any_lt_iff.mpr h)]

theorem debounce_pick {t : α} (h : ¬∃ l ∈ last, t < free l) :
    debounce free last (t :: ts) = t :: debounce free (some t) ts := by
  rw [debounce, if_neg (mt any_lt_iff.mp h)]

theorem mem_of_mem_debounce {t : α} (h : t ∈ debounce free last ts) : t ∈ ts := by
  induction ts generalizing last with
  | nil => exact h
  | cons u ts ih =>
    by_cases hu : ∃ l ∈ last, u < free l
    · rw [debounce_skip hu] at h
      exact List.mem_cons_of_mem u (ih h)
    · rw [debounce_pick hu] at h
      rcases List.mem_cons.mp h with rfl | h
      · exact List.mem_cons_self
      · exact List.mem_cons_of_mem u (ih h)

/-- No pick before the earlier one allows it. -/
theorem free_le_of_mem_debounce (hsorted : ts.Pairwise (· ≤ ·)) {l t : α} (hl : l ∈ last)
    (h : t ∈ debounce free last ts) : free l ≤ t := by
  induction ts generalizing last with
  | nil => cases h
  | cons u ts ih =>
    obtain ⟨hu, hts⟩ := List.pairwise_cons.mp hsorted
    by_cases hskip : ∃ l ∈ last, u < free l
    · rw [debounce_skip hskip] at h
      exact ih hts hl h
    · rw [debounce_pick hskip] at h
      have hfree : free l ≤ u := not_lt.mp fun hlt => hskip ⟨l, hl, hlt⟩
      rcases List.mem_cons.mp h with rfl | h
      · exact hfree
      · exact hfree.trans (hu t (mem_of_mem_debounce h))

theorem debounce_apart (hsorted : ts.Pairwise (· ≤ ·)) :
    (debounce free last ts).Pairwise fun p q => free p ≤ q := by
  induction ts generalizing last with
  | nil => exact List.Pairwise.nil
  | cons u ts ih =>
    have hts := (List.pairwise_cons.mp hsorted).2
    by_cases hskip : ∃ l ∈ last, u < free l
    · rw [debounce_skip hskip]
      exact ih hts
    · rw [debounce_pick hskip]
      apply List.pairwise_cons.mpr
      exact ⟨fun q hq => free_le_of_mem_debounce hts (Option.mem_some.mpr rfl) hq, ih hts⟩

theorem debounce_near (hfree : ∀ a, a < free a) (hsorted : ts.Pairwise (· ≤ ·)) {t : α}
    (ht : t ∈ ts) : (∃ l ∈ last, t < free l) ∨
      ∃ p, p ∈ debounce free last ts ∧ p ≤ t ∧ t < free p := by
  induction ts generalizing last with
  | nil => cases ht
  | cons u ts ih =>
    obtain ⟨hu, hts⟩ := List.pairwise_cons.mp hsorted
    by_cases hskip : ∃ l ∈ last, u < free l
    · rw [debounce_skip hskip]
      rcases List.mem_cons.mp ht with rfl | ht
      · exact Or.inl hskip
      · exact ih hts ht
    · rw [debounce_pick hskip]
      right
      rcases List.mem_cons.mp ht with rfl | ht
      · exact ⟨t, List.mem_cons_self, le_rfl, hfree t⟩
      · -- A later time is soon after this pick or after one that follows.
        have hlater : (∃ l ∈ some u, t < free l) ∨
            ∃ p, p ∈ debounce free (some u) ts ∧ p ≤ t ∧ t < free p := ih hts ht
        rcases hlater with ⟨l, hl, hlt⟩ | ⟨p, hp, hle, hlt⟩
        · rw [← Option.mem_some.mp hl] at hlt
          exact ⟨u, List.mem_cons_self, hu t ht, hlt⟩
        · exact ⟨p, List.mem_cons_of_mem u hp, hle, hlt⟩

/-- What is picked rises strictly. -/
theorem debounce_rises (hfree : ∀ a, a < free a) (hsorted : ts.Pairwise (· ≤ ·)) :
    (debounce free last ts).Pairwise (· < ·) :=
  (debounce_apart hsorted).imp fun {p _} hle => (hfree p).trans_le hle

/-- The picks thin out the times. -/
theorem debounce_thins (hfree : ∀ a, a < free a) (hsorted : ts.Pairwise (· ≤ ·)) :
    Thins free (fun t => t ∈ debounce free none ts) ts where
  among _ := mem_of_mem_debounce
  apart p q hp hq hlt := by
    have hrises : (debounce free none ts).Pairwise (· < ·) := debounce_rises hfree hsorted
    -- In the list, the earlier of two picks comes first.
    have hpair : (debounce free none ts).Pairwise fun a b => free a ≤ b ∧ a < b :=
      (debounce_apart hsorted).and hrises
    let R (a b : α) : Prop := a < b → free a ≤ b
    have hforward : (debounce free none ts).Pairwise R := hpair.imp fun h _ => h.1
    have hback : (debounce free none ts).Pairwise (flip R) :=
      hpair.imp fun {a b} h (hba : b < a) => absurd hba h.2.not_gt
    have hall := List.Pairwise.forall_of_forall_of_flip
      (fun a _ (h : a < a) => absurd h (lt_irrefl a)) hforward hback
    exact hall hp hq hlt
  near t ht := by
    have hnear : (∃ l ∈ (none : Option α), t < free l) ∨
        ∃ p, p ∈ debounce free none ts ∧ p ≤ t ∧ t < free p := debounce_near hfree hsorted ht
    rcases hnear with ⟨l, hl, -⟩ | h
    · cases hl
    · exact h

/-- Nothing else does: the picks are determined by being apart and near. -/
theorem mem_debounce_of_near {P : α → Prop} (hsorted : ts.Pairwise (· ≤ ·))
    (hamong : ∀ p, P p → p ∈ ts) (hapart : ∀ p q, P p → P q → p < q → free p ≤ q)
    (hlast : ∀ p, P p → ∀ l ∈ last, free l ≤ p)
    (hnear : ∀ t ∈ ts, (∃ l ∈ last, t < free l) ∨ ∃ p, P p ∧ p ≤ t ∧ t < free p) (t : α) :
    t ∈ debounce free last ts ↔ P t := by
  induction ts generalizing last P with
  | nil => exact ⟨nofun, fun h => hamong t h⟩
  | cons u ts ih =>
    obtain ⟨hu, hts⟩ := List.pairwise_cons.mp hsorted
    by_cases hskip : ∃ l ∈ last, u < free l
    · rw [debounce_skip hskip]
      refine ih hts ?_ hapart hlast fun t ht => hnear t (List.mem_cons_of_mem u ht)
      intro p hp
      rcases List.mem_cons.mp (hamong p hp) with rfl | hmem
      · obtain ⟨l, hl, hlt⟩ := hskip
        exact absurd (hlast p hp l hl) hlt.not_ge
      · exact hmem
    · -- The first time is near a pick that is not later, so it is a pick.
      have hPu : P u := by
        rcases hnear u List.mem_cons_self with hl | ⟨p, hp, hle, -⟩
        · exact absurd hl hskip
        · rcases List.mem_cons.mp (hamong p hp) with rfl | hmem
          · exact hp
          · rw [le_antisymm (hu p hmem) hle]
            exact hp
      have hrest : t ∈ debounce free (some u) ts ↔ P t ∧ t ≠ u := ih (P := fun q => P q ∧ q ≠ u) hts
        (fun p hp => (List.mem_cons.mp (hamong p hp.1)).resolve_left hp.2)
        (fun p q hp hq => hapart p q hp.1 hq.1)
        (by
          intro p hp l hl
          rw [← Option.mem_some.mp hl]
          have hmem := (List.mem_cons.mp (hamong p hp.1)).resolve_left hp.2
          exact hapart u p hPu hp.1 ((hu p hmem).lt_of_ne hp.2.symm))
        (by
          intro t ht
          rcases hnear t (List.mem_cons_of_mem u ht) with ⟨l, hl, hlt⟩ | ⟨p, hp, hle, hlt⟩
          · exact absurd ⟨l, hl, (hu t ht).trans_lt hlt⟩ hskip
          · by_cases hpu : p = u
            · exact Or.inl ⟨u, Option.mem_some.mpr rfl, hpu ▸ hlt⟩
            · exact Or.inr ⟨p, ⟨hp, hpu⟩, hle, hlt⟩)
      rw [debounce_pick hskip, List.mem_cons, hrest]
      constructor
      · rintro (rfl | h)
        · exact hPu
        · exact h.1
      · intro h
        by_cases htu : t = u
        · exact Or.inl htu
        · exact Or.inr ⟨h, htu⟩

theorem Thins.mem_debounce {P : α → Prop} (h : Thins free P ts) (hsorted : ts.Pairwise (· ≤ ·))
    (t : α) : t ∈ debounce free none ts ↔ P t :=
  mem_debounce_of_near hsorted h.among h.apart (fun _ _ l hl => absurd hl (Option.not_mem_none l))
    (fun t ht => Or.inr (h.near t ht)) t

end Debounce
