import Mathlib.Data.Finset.Basic

/-! Definitions that are evaluated one after another, in any order, each as soon as what it refers
to is there. When knowing more never changes a value, every order that evaluates all of them ends in
the same environment, and no order gets stuck when one of them does not. -/
namespace MonotoneDefinitions

variable {ι V : Type*}

/-- What the first environment says, the second says too. -/
def Extends (σ τ : ι → Option V) : Prop := ∀ x v, σ x = some v → τ x = some v

theorem Extends.refl (σ : ι → Option V) : Extends σ σ := fun _ _ h => h

/-- Knowing more never changes a value. -/
def Mono (value : ι → (ι → Option V) → Option V) : Prop :=
  ∀ x v σ τ, Extends σ τ → value x σ = some v → value x τ = some v

variable [DecidableEq ι]

theorem extends_update {σ τ : ι → Option V} {x : ι} {v : V} (h : Extends σ τ) (hx : τ x = some v) :
    Extends (Function.update σ x (some v)) τ := by
  intro y w hy
  by_cases hyx : y = x
  · subst hyx
    rw [Function.update_self] at hy
    exact hx.trans hy
  · rw [Function.update_of_ne hyx] at hy
    exact h y w hy

/-- From definitions that are all pending to the environment when these are left. -/
inductive Run (value : ι → (ι → Option V) → Option V) (all : Finset ι) (start : ι → Option V) :
    Finset ι → (ι → Option V) → Prop
  | start : Run value all start all start
  | define {pending : Finset ι} {σ : ι → Option V} {x : ι} {v : V}
    (h : Run value all start pending σ) (hx : x ∈ pending) (hv : value x σ = some v) :
    Run value all start (pending.erase x) (Function.update σ x (some v))

variable {value : ι → (ι → Option V) → Option V} {all pending : Finset ι}
  {start σ τ : ι → Option V}

namespace Run

theorem subset (h : Run value all start pending σ) : pending ⊆ all := by
  induction h with
  | start => exact Finset.Subset.refl all
  | define _ _ _ ih => exact (Finset.erase_subset _ _).trans ih

variable (hstart : ∀ x ∈ all, start x = none)

include hstart

theorem undefined (h : Run value all start pending σ) {x : ι} (hx : x ∈ pending) : σ x = none := by
  induction h with
  | start => exact hstart x hx
  | define _ _ _ ih =>
    obtain ⟨hne, hin⟩ := Finset.mem_erase.mp hx
    rw [Function.update_of_ne hne, ih hin]

theorem extends_define (h : Run value all start pending σ) {x : ι} (hx : x ∈ pending) (v : V) :
    Extends σ (Function.update σ x (some v)) := by
  intro y w hy
  have hne : y ≠ x := by
    rintro rfl
    rw [h.undefined hstart hx] at hy
    cases hy
  rw [Function.update_of_ne hne, hy]

theorem extends_start (h : Run value all start pending σ) : Extends start σ := by
  induction h with
  | start => exact Extends.refl start
  | define hrun hx _ ih => exact fun y w hy => hrun.extends_define hstart hx _ y w (ih y w hy)

variable (hmono : Mono value)

include hmono

/-- What was defined still has its value. -/
theorem value_eq (h : Run value all start pending σ) {x : ι} (hall : x ∈ all)
    (hx : x ∉ pending) : ∃ v, σ x = some v ∧ value x σ = some v := by
  induction h with
  | start => exact absurd hall hx
  | @define pending σ y w hrun hy hw ih =>
    have hextends := hrun.extends_define hstart hy w
    by_cases hxy : x = y
    · subst hxy
      exact ⟨w, Function.update_self .., hmono _ _ _ _ hextends hw⟩
    · obtain ⟨v, hv, hvalue⟩ := ih fun hin => hx (Finset.mem_erase.mpr ⟨hxy, hin⟩)
      exact ⟨v, hextends _ _ hv, hmono _ _ _ _ hextends hvalue⟩

/-- A run never leaves what a complete run ends with. -/
theorem extends_complete (h : Run value all start pending σ) (hτ : Run value all start ∅ τ) :
    Extends σ τ := by
  induction h with
  | start => exact hτ.extends_start hstart
  | define hrun hx hv ih =>
    obtain ⟨w, hw, hvalue⟩ := hτ.value_eq hstart hmono (hrun.subset hx) (Finset.notMem_empty _)
    have heq := (hmono _ _ _ _ ih hv).symm.trans hvalue
    exact extends_update ih (hw.trans heq.symm)

theorem complete_unique (h : Run value all start ∅ σ) (hτ : Run value all start ∅ τ) : σ = τ := by
  funext x
  cases hσx : σ x with
  | some v => exact (h.extends_complete hstart hmono hτ x v hσx).symm
  | none =>
    cases hτx : τ x with
    | none => rfl
    | some v =>
      have hσ := hτ.extends_complete hstart hmono h x v hτx
      exact hσx.symm.trans hσ

/-- When one order evaluates all definitions, no order gets stuck. -/
theorem exists_ready (h : Run value all start pending σ) (hτ : Run value all start ∅ τ)
    (hpending : pending.Nonempty) : ∃ x ∈ pending, (value x σ).isSome := by
  by_contra hstuck
  have hready : ∀ x ∈ pending, ∀ v, value x σ ≠ some v := by
    intro x hx v hv
    exact hstuck ⟨x, hx, Option.isSome_iff_exists.mpr ⟨v, hv⟩⟩
  -- as long as nothing is ready, the complete run gives nothing that is not there yet
  have hbehind : ∀ {rest : Finset ι} {ρ : ι → Option V}, Run value all start rest ρ →
      Extends ρ σ := by
    intro rest ρ hρ
    induction hρ with
    | start => exact h.extends_start hstart
    | @define rest ρ x v hrun hx hv ih =>
      have hvalue := hmono _ _ _ _ ih hv
      have hdone : x ∉ pending := fun hin => hready x hin v hvalue
      obtain ⟨w, hw, hvalue'⟩ := h.value_eq hstart hmono (hrun.subset hx) hdone
      exact extends_update ih (hw.trans (hvalue'.symm.trans hvalue))
  obtain ⟨x, hx⟩ := hpending
  obtain ⟨v, hv, -⟩ := hτ.value_eq hstart hmono (h.subset hx) (Finset.notMem_empty x)
  have hnone := h.undefined hstart hx
  rw [hbehind hτ x v hv] at hnone
  cases hnone

end Run

end MonotoneDefinitions
