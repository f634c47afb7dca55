import Mathlib.Order.Nat

/-! Reaching a node within a bounded number of steps, and what changes when the steps
out of one node do. -/
namespace DepthBounded

variable {α : Type*} {R S : α → α → Prop} {m n : ℕ} {a b c r : α}

/-- `b` is reached from `a` in at most `n` steps. -/
inductive Within (R : α → α → Prop) : ℕ → α → α → Prop
  | here (n : ℕ) (a : α) : Within R n a a
  | step {n : ℕ} {a b c : α} (hab : R a b) (hbc : Within R n b c) : Within R (n+1) a c

/-- The steps that do not leave `r`. -/
def Avoiding (R : α → α → Prop) (r : α) (a b : α) : Prop := R a b ∧ a ≠ r

theorem Within.mono_depth (h : Within R m a b) (hmn : m ≤ n) : Within R n a b := by
  induction h generalizing n with
  | here m a => exact .here n a
  | step hab _ ih =>
    obtain ⟨k, rfl⟩ : ∃ k, n = k+1 := ⟨n-1, by omega⟩
    exact .step hab (ih (by omega))

theorem Within.mono (hRS : ∀ a b, R a b → S a b) (h : Within R n a b) : Within S n a b := by
  induction h with
  | here m a => exact .here m a
  | step hab _ ih => exact .step (hRS _ _ hab) ih

theorem Within.trans (hab : Within R m a b) (hbc : Within R n b c) : Within R (m+n) a c := by
  induction hab with
  | here k a => exact hbc.mono_depth (by omega)
  | step hab _ ih =>
    have h := Within.step hab (ih hbc)
    exact h.mono_depth (by omega)

theorem within_zero : Within R 0 a b ↔ a = b := by
  constructor
  · intro h
    cases h
    rfl
  · intro h
    subst h
    exact .here 0 a

theorem within_succ : Within R (n+1) a c ↔ a = c ∨ ∃ b, R a b ∧ Within R n b c := by
  constructor
  · intro h
    cases h with
    | here => exact Or.inl rfl
    | step hab hbc => exact Or.inr ⟨_, hab, hbc⟩
  · intro h
    rcases h with rfl | ⟨b, hab, hbc⟩
    · exact .here (n+1) a
    · exact .step hab hbc

/-- A path that leaves `r` can be cut to its part before the first visit of `r`, one
step out of `r`, and its part after the last one. -/
theorem within_iff_avoiding (r : α) : Within R n a b ↔
    Within (Avoiding R r) n a b ∨
    ∃ i j c, Within (Avoiding R r) i a r ∧ R r c ∧ Within (Avoiding R r) j c b ∧ i+1+j ≤ n := by
  constructor
  · intro h
    induction h with
    | here n a => exact Or.inl (.here n a)
    | @step n a b c hab _ ih =>
      by_cases har : a = r
      · subst har
        rcases ih with hav | ⟨i, j, d, _, had, hdc, hij⟩
        · exact Or.inr ⟨0, n, b, .here 0 a, hab, hav, by omega⟩
        · exact Or.inr ⟨0, j, d, .here 0 a, had, hdc, by omega⟩
      · rcases ih with hav | ⟨i, j, d, hbr, hrd, hdc, hij⟩
        · exact Or.inl (.step ⟨hab, har⟩ hav)
        · exact Or.inr ⟨i+1, j, d, .step ⟨hab, har⟩ hbr, hrd, hdc, by omega⟩
  · have hsub : ∀ a b, Avoiding R r a b → R a b := fun _ _ h => h.1
    intro h
    rcases h with h | ⟨i, j, c, har, hrc, hcb, hij⟩
    · exact h.mono hsub
    · have h := (har.mono hsub).trans (.step hrc (hcb.mono hsub))
      exact h.mono_depth (by omega)

/-- Steps that agree out of every other node than `r` avoid it alike. -/
theorem avoiding_congr (h : ∀ a b, a ≠ r → (R a b ↔ S a b)) :
    Avoiding R r = Avoiding S r := by
  funext a b
  apply propext
  constructor
  · intro hab
    exact ⟨(h a b hab.2).mp hab.1, hab.2⟩
  · intro hab
    exact ⟨(h a b hab.2).mpr hab.1, hab.2⟩

/-- A path that never leaves `r` and does not end there never enters it. -/
theorem Within.never_enters (h : Within (Avoiding R r) n a b) (hb : b ≠ r) :
    Within (fun x y => Avoiding R r x y ∧ y ≠ r) n a b := by
  induction h with
  | here n a => exact .here n a
  | @step n a b c hab hbc ih =>
    have hbr : b ≠ r := by
      intro heq
      subst heq
      cases hbc with
      | here => exact hb rfl
      | step hbd _ => exact hbd.2 rfl
    exact .step ⟨hab, hbr⟩ (ih hb)

end DepthBounded
