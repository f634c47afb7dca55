import Swazz.LicenseTokens

/-! The token that a text shows: what the edge takes out of it, and what the runner does. -/
namespace Swazz.License

open RunnerAccess

/-- The part of a text shows the issued token. -/
def World.Shows (w : World) (part : JsString) (decode : JsString → Option (List ℕ)) : Prop :=
  ∃ sigB64, parts part = [w.token.headerB64, w.token.payloadB64, sigB64] ∧
    decode sigB64 = some w.token.signature

section

variable {space : ℕ → Bool} {s w : JsString}

theorem trim_append_left (hw : ∀ c ∈ w, space c = true) (s : JsString) :
    trim space (w ++ s) = trim space s := by
  rw [trim, List.dropWhile_append_of_pos hw, trim]

theorem rdropWhile_append_of_pos (hw : ∀ c ∈ w, space c = true) (s : JsString) :
    (s ++ w).rdropWhile space = s.rdropWhile space := by
  have hrev : ∀ c ∈ w.reverse, space c = true := fun c hc => hw c (List.mem_reverse.mp hc)
  rw [List.rdropWhile, List.reverse_append, List.dropWhile_append_of_pos hrev, List.rdropWhile]

theorem trim_append_right (hw : ∀ c ∈ w, space c = true) (s : JsString) :
    trim space (s ++ w) = trim space s := by
  induction s with
  | nil =>
    rw [List.nil_append, ← List.append_nil w, trim_append_left hw]
  | cons c s ih =>
    by_cases hc : space c = true
    · have hone : ∀ d ∈ [c], space d = true := fun d hd => List.mem_singleton.mp hd ▸ hc
      rw [List.cons_append, ← List.singleton_append, trim_append_left hone, ih,
        ← List.singleton_append, trim_append_left hone]
    · rw [trim, List.cons_append, List.dropWhile_cons_of_neg hc, ← List.cons_append,
        rdropWhile_append_of_pos hw, trim, List.dropWhile_cons_of_neg hc]

theorem trim_of_ends (hfirst : ∀ c ∈ s.head?, space c = false)
    (hlast : ∀ c ∈ s.getLast?, space c = false) : trim space s = s := by
  cases s with
  | nil => rfl
  | cons c s =>
    have hc : ¬space c = true := by
      rw [hfirst c rfl]
      exact Bool.false_ne_true
    rw [trim, List.dropWhile_cons_of_neg hc]
    refine List.rdropWhile_eq_self_iff.mpr fun hne => ?_
    rw [hlast _ (List.getLast?_eq_getLast_of_ne_nil hne)]
    exact Bool.false_ne_true

theorem trim_trim (s : JsString) : trim space (trim space s) = trim space s := by
  refine trim_of_ends ?_ ?_
  · intro c hc
    -- what is left at the end is left of a text that begins so
    obtain ⟨t, ht⟩ := List.rdropWhile_prefix space (s.dropWhile space)
    have hhead : (s.dropWhile space).head? = some c := by
      rw [trim, Option.mem_def] at hc
      rw [← ht, List.head?_append, hc]
      rfl
    have hnot := List.head?_dropWhile_not space s
    rw [hhead] at hnot
    simpa using hnot
  · intro c hc
    have hne : trim space s ≠ [] := by
      intro hnil
      rw [hnil] at hc
      cases hc
    have hnot := List.rdropWhile_last_not space (s.dropWhile space) hne
    rw [List.getLast?_eq_getLast_of_ne_nil hne] at hc
    obtain rfl := Option.some.inj hc
    exact Bool.eq_false_iff.mpr hnot

end

/-! ### The signature -/

end Swazz.License
