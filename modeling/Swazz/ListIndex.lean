import Mathlib.Data.List.Basic
import Mathlib.Order.Nat

/-! Reading a list by position after one entry changed or an entry was added, and splitting it at
a separator. -/
namespace ListIndex

variable {α : Type*} {xs : List α} {f : α → α} {i j : ℕ} {a b : α}

theorem of_modify (h : (xs.modify i f)[j]? = some a) :
    ∃ b, xs[j]? = some b ∧ (a = b ∧ j ≠ i ∨ a = f b ∧ j = i) := by
  rw [List.getElem?_modify] at h
  by_cases hij : i = j
  · subst hij
    obtain ⟨b, hb, rfl⟩ := Option.map_eq_some_iff.mp (by simpa using h)
    exact ⟨b, hb, Or.inr ⟨rfl, rfl⟩⟩
  · exact ⟨a, by simpa [hij] using h, Or.inl ⟨rfl, fun hji => hij hji.symm⟩⟩

theorem modify_self (h : xs[i]? = some a) : (xs.modify i f)[i]? = some (f a) := by
  simp [h]

theorem modify_ne (hij : j ≠ i) : (xs.modify i f)[j]? = xs[j]? :=
  List.getElem?_modify_ne f xs (Ne.symm hij)

theorem of_concat (h : (xs ++ [a])[j]? = some b) :
    xs[j]? = some b ∧ j < xs.length ∨ b = a ∧ j = xs.length := by
  rcases Nat.lt_trichotomy j xs.length with hj | rfl | hj
  · exact Or.inl ⟨by simpa [List.getElem?_append_left hj] using h, hj⟩
  · exact Or.inr ⟨by simpa using h.symm, rfl⟩
  · rw [List.getElem?_eq_none (by simp; omega)] at h
    simp at h

theorem concat_of (h : xs[j]? = some b) : (xs ++ [a])[j]? = some b := by
  rw [List.getElem?_append_left (List.getElem?_eq_some_iff.mp h).1]
  exact h

theorem concat_self : (xs ++ [a])[xs.length]? = some a := by simp

theorem lt_length (h : xs[j]? = some b) : j < xs.length :=
  (List.getElem?_eq_some_iff.mp h).1

/-- A list splits at its last separator in one way. -/
theorem last_separator {x y x' y' : List α} {c : α} (hy : c ∉ y) (hy' : c ∉ y')
    (h : x ++ c :: y = x' ++ c :: y') : x = x' ∧ y = y' := by
  have hcut (p y w : List α) (hy : c ∉ y) (heq : c :: y = p ++ c :: w) : p = [] := by
    cases p with
    | nil => rfl
    | cons b d =>
      obtain ⟨-, hyd⟩ := List.cons.inj heq
      exact absurd (by simp [hyd]) hy
  rcases List.append_eq_append_iff.mp h with ⟨p, hx, hz⟩ | ⟨p, hx, hz⟩
  · have hp := hcut p y y' hy hz
    subst hp
    exact ⟨by simpa using hx.symm, by simpa using hz⟩
  · have hp := hcut p y' y hy' hz
    subst hp
    exact ⟨by simpa using hx, by simpa using hz.symm⟩

/-- Looking up a key among distinct ones. -/
theorem lookup_eq_some_iff_mem {κ β : Type*} [BEq κ] [LawfulBEq κ] {l : List (κ × β)}
    (h : (l.map Prod.fst).Nodup) {k : κ} {b : β} : l.lookup k = some b ↔ (k, b) ∈ l := by
  constructor
  · intro hlookup
    obtain ⟨before, after, rfl, -⟩ := List.lookup_eq_some_iff.mp hlookup
    exact List.mem_append_right _ List.mem_cons_self
  · intro hmem
    obtain ⟨before, after, rfl⟩ := List.append_of_mem hmem
    refine List.lookup_eq_some_iff.mpr ⟨before, after, rfl, fun p hp => bne_iff_ne.mpr ?_⟩
    rintro rfl
    rw [List.map_append, List.map_cons] at h
    exact (List.nodup_append.mp h).2.2 _ (List.mem_map_of_mem hp) _ List.mem_cons_self rfl

end ListIndex
