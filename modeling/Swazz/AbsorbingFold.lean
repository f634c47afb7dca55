import Mathlib.Data.List.Basic

/-! Folding a partial step over a list in which elements are repeated. -/
namespace AbsorbingFold

variable {σ α κ : Type} [DecidableEq κ] (key : α → κ)

/-- The elements whose key was not seen before. -/
def firsts : List κ → List α → List α
  | _, [] => []
  | seen, a :: as =>
    if key a ∈ seen then firsts seen as else a :: firsts (key a :: seen) as

/-- Repetitions change nothing, if a step absorbs its element: taken again, also after
other steps, it does nothing. -/
theorem foldlM_firsts {step : σ → α → Option σ} {P : σ → α → Prop} {D : α → Prop}
    (hafter : ∀ s a t, D a → step s a = some t → P t a)
    (hkeep : ∀ s a b t, D a → D b → P s a → step s b = some t → P t a)
    (hnoop : ∀ s a, D a → P s a → step s a = some s) {as : List α} (hD : ∀ a ∈ as, D a)
    (hkey : ∀ a ∈ as, ∀ b ∈ as, key a = key b → a = b) (s : σ) (seen : List κ)
    (hseen : ∀ a ∈ as, key a ∈ seen → P s a) :
    as.foldlM step s = (firsts key seen as).foldlM step s := by
  induction as generalizing s seen with
  | nil => rfl
  | cons a as ih =>
    have hDa := hD a List.mem_cons_self
    have hDas : ∀ b ∈ as, D b := fun b hb => hD b (List.mem_cons_of_mem a hb)
    have hkeyas : ∀ b ∈ as, ∀ c ∈ as, key b = key c → b = c := fun b hb c hc =>
      hkey b (List.mem_cons_of_mem a hb) c (List.mem_cons_of_mem a hc)
    by_cases ha : key a ∈ seen
    · have hPa := hseen a List.mem_cons_self ha
      rw [List.foldlM_cons, hnoop s a hDa hPa, firsts, if_pos ha]
      exact ih hDas hkeyas s seen fun b hb => hseen b (List.mem_cons_of_mem a hb)
    · rw [firsts, if_neg ha, List.foldlM_cons, List.foldlM_cons]
      cases ht : step s a with
      | none => rfl
      | some t =>
        apply ih hDas hkeyas
        intro b hb hbseen
        rcases List.mem_cons.mp hbseen with heq | hbseen
        · have hba := hkey b (List.mem_cons_of_mem a hb) a List.mem_cons_self heq
          rw [hba]
          exact hafter s a t hDa ht
        · have hPb := hseen b (List.mem_cons_of_mem a hb) hbseen
          exact hkeep s b a t (hDas b hb) hDa hPb ht

theorem mem_of_firsts {seen : List κ} {as : List α} {a : α} (h : a ∈ firsts key seen as) :
    a ∈ as := by
  induction as generalizing seen with
  | nil => exact h
  | cons b bs ih =>
    rw [firsts] at h
    split_ifs at h
    · exact List.mem_cons_of_mem b (ih h)
    · rcases List.mem_cons.mp h with rfl | h
      · exact List.mem_cons_self
      · exact List.mem_cons_of_mem b (ih h)

end AbsorbingFold
