import Mathlib.Data.Option.Basic
import Mathlib.Logic.Function.Basic

/-! Who holds what, kept twice: a map from things to their holders, and a list with each
holder. Operations that keep the two records in agreement. -/

/-- The two records, with the last holder each thing was given to. Only `live` holders
count for the agreement; an unknown one has not held anything; the lists of the `seen`
ones may be read again. -/
@[ext] structure Roster (W R : Type) where
  known : W → Prop
  live : W → Prop
  seen : W → Prop
  owner : R → Option W
  last : R → Option W
  lists : W → R → Prop

set_option linter.unusedSectionVars false

namespace Roster

variable {W R : Type} [DecidableEq W] [DecidableEq R]

/-- Both records get the thing. -/
def hand (a : Roster W R) (w : W) (r : R) : Roster W R :=
  { a with
    owner := Function.update a.owner r (some w)
    last := Function.update a.last r (some w)
    lists := fun v q => a.lists v q ∨ v = w ∧ q = r }

/-- The thing has no holder any more, and `w` does not list it. -/
def clear (a : Roster W R) (w : W) (r : R) : Roster W R :=
  { a with
    owner := Function.update a.owner r none
    lists := fun v q => a.lists v q ∧ ¬ (v = w ∧ q = r) }

/-- The holder goes, and so do its entries in the map. -/
def drop (a : Roster W R) (w : W) : Roster W R :=
  { a with
    live := fun v => a.live v ∧ v ≠ w
    owner := fun r => (a.owner r).filter (· ≠ w) }

/-- The holder goes; its entries stay. -/
def leave (a : Roster W R) (w : W) : Roster W R :=
  { a with live := fun v => a.live v ∧ v ≠ w }

/-- A holder becomes live, and is seen from now on if `sees`. -/
def join (a : Roster W R) (w : W) (sees : Prop) : Roster W R :=
  { a with
    known := fun v => a.known v ∨ v = w
    live := fun v => a.live v ∨ v = w
    seen := fun v => a.seen v ∨ v = w ∧ sees }

/-- The holder's list is not read again. -/
def vanish (a : Roster W R) (w : W) : Roster W R :=
  { a with seen := fun v => a.seen v ∧ v ≠ w }

/-- The map gets the thing, and the holder it named before does not list it any more. -/
def takeOver (a : Roster W R) (w : W) (r : R) : Roster W R :=
  { a with
    owner := Function.update a.owner r (some w)
    last := Function.update a.last r (some w)
    lists := fun v q => a.lists v q ∧ ¬ (q = r ∧ v ≠ w ∧ a.owner r = some v) }

/-- The list of `w` is replaced. -/
def rewrite (a : Roster W R) (w : W) (list : R → Prop) : Roster W R :=
  { a with lists := Function.update a.lists w list }

/-- The records agree, but for things that `P` says are still to be listed. -/
structure Agreement (P : W → R → Prop) (a : Roster W R) : Prop where
  listed : ∀ w r, a.live w → a.lists w r → a.owner r = some w
  named : ∀ w r, a.live w → a.owner r = some w → a.lists w r ∨ P w r
  unlisted : ∀ w r, ¬ a.known w → ¬ a.lists w r
  unnamed : ∀ w r, ¬ a.known w → a.owner r ≠ some w
  known : ∀ w, a.live w → a.known w

/-- No other live holder has the thing. -/
def Unheld (a : Roster W R) (w : W) (r : R) : Prop :=
  ∀ v, a.live v → v ≠ w → a.owner r ≠ some v

variable {P Q : W → R → Prop} {a b : Roster W R} {w : W} {r : R}

/-- Rosters that differ in their lists at most, and list the same. -/
theorem eq_of_lists (h : a = { b with lists := a.lists })
    (hlists : ∀ v q, a.lists v q ↔ b.lists v q) : a = b := by
  rw [h]
  have heq : a.lists = b.lists := by
    funext v q
    exact propext (hlists v q)
  rw [heq]

theorem Agreement.mono (h : Agreement P a) (hPQ : ∀ v q, P v q → Q v q) : Agreement Q a where
  listed := h.listed
  named := fun v q hlive howner => (h.named v q hlive howner).imp_right (hPQ v q)
  unlisted := h.unlisted
  unnamed := h.unnamed
  known := h.known

theorem Agreement.hand (h : Agreement P a) (hw : a.known w) (hfree : a.Unheld w r) :
    Agreement P (a.hand w r) where
  listed := by
    intro v q hlive hlist
    have hother (hvq : a.lists v q) (hne : v ≠ w) : q ≠ r := by
      rintro rfl
      exact hfree v hlive hne (h.listed v q hlive hvq)
    by_cases hq : q = r
    · subst hq
      have hv : v = w := by
        by_contra hne
        rcases hlist with hvq | ⟨heq, -⟩
        · exact hother hvq hne rfl
        · exact hne heq
      simp [Roster.hand, hv]
    · rcases hlist with hvq | ⟨-, heq⟩
      · simp [Roster.hand, hq, h.listed v q hlive hvq]
      · exact absurd heq hq
  named := by
    intro v q hlive howner
    by_cases hq : q = r
    · subst hq
      have hv : w = v := by simpa [Roster.hand] using howner
      exact Or.inl (Or.inr ⟨hv.symm, rfl⟩)
    · have howner' : a.owner q = some v := by simpa [Roster.hand, hq] using howner
      exact (h.named v q hlive howner').imp_left Or.inl
  unlisted := by
    rintro v q hv (hlist | ⟨rfl, -⟩)
    · exact h.unlisted v q hv hlist
    · exact hv hw
  unnamed := by
    intro v q hv howner
    by_cases hq : q = r
    · have hwv : w = v := by simpa [Roster.hand, hq] using howner
      exact hv (hwv ▸ hw)
    · exact h.unnamed v q hv (by simpa [Roster.hand, hq] using howner)
  known := h.known

theorem Agreement.clear (h : Agreement P a) (hfree : a.Unheld w r) :
    Agreement P (a.clear w r) where
  listed := by
    rintro v q hlive ⟨hlist, hnot⟩
    have howner := h.listed v q hlive hlist
    have hq : q ≠ r := by
      rintro rfl
      by_cases hv : v = w
      · exact hnot ⟨hv, rfl⟩
      · exact hfree v hlive hv howner
    simp [Roster.clear, hq, howner]
  named := by
    intro v q hlive howner
    have hq : q ≠ r := by
      rintro rfl
      simp [Roster.clear] at howner
    have howner' : a.owner q = some v := by simpa [Roster.clear, hq] using howner
    refine (h.named v q hlive howner').imp_left ?_
    exact fun hlist => ⟨hlist, fun heq => hq heq.2⟩
  unlisted := fun v q hv hlist => h.unlisted v q hv hlist.1
  unnamed := by
    intro v q hv howner
    by_cases hq : q = r
    · simp [Roster.clear, hq] at howner
    · exact h.unnamed v q hv (by simpa [Roster.clear, hq] using howner)
  known := h.known

theorem Agreement.leave (h : Agreement P a) (w : W) : Agreement P (a.leave w) where
  listed := fun v q hlive => h.listed v q hlive.1
  named := fun v q hlive => h.named v q hlive.1
  unlisted := h.unlisted
  unnamed := h.unnamed
  known := fun v hlive => h.known v hlive.1

theorem Agreement.drop (h : Agreement P a) (w : W) : Agreement P (a.drop w) where
  listed := by
    rintro v q ⟨hlive, hne⟩ hlist
    have howner := h.listed v q hlive hlist
    simp [Roster.drop, howner, hne]
  named := by
    intro v q hlive howner
    exact h.named v q hlive.1 (Option.filter_eq_some_iff.mp howner).1
  unlisted := h.unlisted
  unnamed := fun v q hv howner => h.unnamed v q hv (Option.filter_eq_some_iff.mp howner).1
  known := fun v hlive => h.known v hlive.1

theorem Agreement.join (h : Agreement P a) (hw : a.live w ∨ ¬ a.known w) (sees : Prop) :
    Agreement P (a.join w sees) := by
  have hlive {v : W} (hv : (a.join w sees).live v) : a.live v ∨ ¬ a.known v := by
    rcases hv with hv | rfl
    · exact Or.inl hv
    · exact hw
  refine ⟨?_, ?_, ?_, ?_, ?_⟩
  · intro v q hv hlist
    rcases hlive hv with hv | hv
    · exact h.listed v q hv hlist
    · exact absurd hlist (h.unlisted v q hv)
  · intro v q hv howner
    rcases hlive hv with hv | hv
    · exact h.named v q hv howner
    · exact absurd howner (h.unnamed v q hv)
  · exact fun v q hv => h.unlisted v q fun hknown => hv (Or.inl hknown)
  · exact fun v q hv => h.unnamed v q fun hknown => hv (Or.inl hknown)
  · exact fun v hv => hv.imp_left (h.known v)

/-- Taken over, the thing is still to be listed with its new holder. -/
theorem Agreement.takeOver (h : Agreement P a) (hw : a.known w) :
    Agreement (fun v q => P v q ∨ v = w ∧ q = r) (a.takeOver w r) where
  listed := by
    rintro v q hlive ⟨hlist, hnot⟩
    have howner := h.listed v q hlive hlist
    by_cases hq : q = r
    · subst hq
      have hv : v = w := by
        by_contra hne
        exact hnot ⟨rfl, hne, howner⟩
      simp [Roster.takeOver, hv]
    · simp [Roster.takeOver, hq, howner]
  named := by
    intro v q hlive howner
    by_cases hq : q = r
    · subst hq
      have hv : w = v := by simpa [Roster.takeOver] using howner
      exact Or.inr (Or.inr ⟨hv.symm, rfl⟩)
    · have howner' : a.owner q = some v := by simpa [Roster.takeOver, hq] using howner
      rcases h.named v q hlive howner' with hlist | hpending
      · exact Or.inl ⟨hlist, fun heq => hq heq.1⟩
      · exact Or.inr (Or.inl hpending)
  unlisted := fun v q hv hlist => h.unlisted v q hv hlist.1
  unnamed := by
    intro v q hv howner
    by_cases hq : q = r
    · have hwv : w = v := by simpa [Roster.takeOver, hq] using howner
      exact hv (hwv ▸ hw)
    · exact h.unnamed v q hv (by simpa [Roster.takeOver, hq] using howner)
  known := h.known

/-- The list of `w` may be replaced by what the map has for it and it listed so far. -/
theorem Agreement.rewrite {list : R → Prop} (h : Agreement P a) (hw : a.known w)
    (hsound : a.live w → ∀ q, list q → a.owner q = some w)
    (hcomplete : a.live w → ∀ q, a.owner q = some w → a.lists w q ∨ P w q → list q ∨ Q w q)
    (hPQ : ∀ v q, v ≠ w → P v q → Q v q) : Agreement Q (a.rewrite w list) where
  listed := by
    intro v q hlive hlist
    by_cases hv : v = w
    · subst hv
      exact hsound hlive q (by simpa [Roster.rewrite] using hlist)
    · exact h.listed v q hlive (by simpa [Roster.rewrite, hv] using hlist)
  named := by
    intro v q hlive howner
    have hor := h.named v q hlive howner
    by_cases hv : v = w
    · subst hv
      simpa [Roster.rewrite] using hcomplete hlive q howner hor
    · rcases hor with hlist | hpending
      · exact Or.inl (by simpa [Roster.rewrite, hv] using hlist)
      · exact Or.inr (hPQ v q hv hpending)
  unlisted := by
    intro v q hv
    have hne : v ≠ w := fun heq => hv (heq ▸ hw)
    simpa [Roster.rewrite, hne] using h.unlisted v q hv
  unnamed := h.unnamed
  known := h.known

theorem Agreement.vanish (h : Agreement P a) (w : W) : Agreement P (a.vanish w) :=
  ⟨h.listed, h.named, h.unlisted, h.unnamed, h.known⟩

/-- What is on the list of a holder that is seen was given to it last. -/
structure Traced (a : Roster W R) : Prop where
  listed : ∀ w r, a.seen w → a.lists w r → a.last r = some w
  named : ∀ w r, a.owner r = some w → a.last r = some w

theorem Traced.hand (h : Traced a) (hfree : ∀ v, v ≠ w → a.seen v → ¬ a.lists v r) :
    Traced (a.hand w r) where
  listed := by
    rintro v q hseen (hlist | ⟨rfl, rfl⟩)
    · by_cases hq : q = r
      · subst hq
        have hv : v = w := by
          by_contra hne
          exact hfree v hne hseen hlist
        simp [Roster.hand, hv]
      · simp [Roster.hand, hq, h.listed v q hseen hlist]
    · simp [Roster.hand]
  named := by
    intro v q howner
    by_cases hq : q = r
    · simpa [Roster.hand, hq] using howner
    · have howner' : a.owner q = some v := by simpa [Roster.hand, hq] using howner
      simp [Roster.hand, hq, h.named v q howner']

theorem Traced.clear (h : Traced a) (w : W) (r : R) : Traced (a.clear w r) where
  listed := fun v q hseen hlist => h.listed v q hseen hlist.1
  named := by
    intro v q howner
    by_cases hq : q = r
    · simp [Roster.clear, hq] at howner
    · exact h.named v q (by simpa [Roster.clear, hq] using howner)

theorem Traced.leave (h : Traced a) (w : W) : Traced (a.leave w) := ⟨h.listed, h.named⟩

theorem Traced.drop (h : Traced a) (w : W) : Traced (a.drop w) where
  listed := h.listed
  named := fun v q howner => h.named v q (Option.filter_eq_some_iff.mp howner).1

theorem Traced.vanish (h : Traced a) (w : W) : Traced (a.vanish w) where
  listed := fun v q hseen => h.listed v q hseen.1
  named := h.named

theorem Traced.join {sees : Prop} (h : Traced a)
    (hw : sees → a.seen w ∨ ∀ q, ¬ a.lists w q) : Traced (a.join w sees) where
  listed := by
    rintro v q (hseen | ⟨rfl, hsees⟩) hlist
    · exact h.listed v q hseen hlist
    · rcases hw hsees with hseen | hnone
      · exact h.listed v q hseen hlist
      · exact absurd hlist (hnone q)
  named := h.named

theorem Traced.takeOver (h : Traced a)
    (hfree : ∀ v, v ≠ w → a.seen v → a.owner r ≠ some v → ¬ a.lists v r) :
    Traced (a.takeOver w r) where
  listed := by
    rintro v q hseen ⟨hlist, hnot⟩
    by_cases hq : q = r
    · subst hq
      have hv : v = w := by
        by_contra hne
        by_cases howner : a.owner q = some v
        · exact hnot ⟨rfl, hne, howner⟩
        · exact hfree v hne hseen howner hlist
      simp [Roster.takeOver, hv]
    · simp [Roster.takeOver, hq, h.listed v q hseen hlist]
  named := by
    intro v q howner
    by_cases hq : q = r
    · simpa [Roster.takeOver, hq] using howner
    · have howner' : a.owner q = some v := by simpa [Roster.takeOver, hq] using howner
      simp [Roster.takeOver, hq, h.named v q howner']

theorem Traced.rewrite {list : R → Prop} (h : Traced a)
    (hlist : a.seen w → ∀ q, list q → a.lists w q ∨ a.owner q = some w) :
    Traced (a.rewrite w list) where
  listed := by
    intro v q hseen hq
    by_cases hv : v = w
    · subst hv
      rcases hlist hseen q (by simpa [Roster.rewrite] using hq) with hold | howner
      · exact h.listed v q hseen hold
      · exact h.named v q howner
    · exact h.listed v q hseen (by simpa [Roster.rewrite, hv] using hq)
  named := h.named

/-- A thing is on the list of one seen holder at most. -/
theorem Traced.unique (h : Traced a) {v : W} (hv : a.seen v) (hw : a.seen w)
    (hvr : a.lists v r) (hwr : a.lists w r) : v = w := by
  have hlast := h.listed v r hv hvr
  rw [h.listed w r hw hwr] at hlast
  exact (Option.some.inj hlast).symm

end Roster
