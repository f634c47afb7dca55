import Mathlib.Data.List.Basic

/-! Replacing in a text, from left to right, every match of a pattern: the pieces that the matches
cut a text into, and what is left of a part of the result in the text it came from. -/
namespace TextRewriting

variable {α : Type}

inductive Piece (α : Type) where
  | plain (c : α)
  | hit (w : List α)
  deriving DecidableEq

/-- The pieces from the place where `skip` symbols of the last match are still to come. A pattern
says how long its match at the start of a text is; at zero there is none. -/
def piecesFrom (pattern : List α → ℕ) : ℕ → List α → List (Piece α)
  | _, [] => []
  | skip + 1, _ :: s => piecesFrom pattern skip s
  | 0, c :: s =>
    if pattern (c :: s) = 0 then .plain c :: piecesFrom pattern 0 s
    else .hit ((c :: s).take (pattern (c :: s))) :: piecesFrom pattern (pattern (c :: s) - 1) s

def pieces (pattern : List α → ℕ) (s : List α) : List (Piece α) := piecesFrom pattern 0 s

def Piece.text : Piece α → List α
  | .plain c => [c]
  | .hit w => w

def Piece.render (f : List α → List α) : Piece α → List α
  | .plain c => [c]
  | .hit w => f w

def text (ps : List (Piece α)) : List α := ps.flatMap Piece.text

def render (f : List α → List α) (ps : List (Piece α)) : List α := ps.flatMap (Piece.render f)

def replaceAll (pattern : List α → ℕ) (f : List α → List α) (s : List α) : List α :=
  render f (pieces pattern s)

section Lists

variable (f : List α → List α) (c : α) (w : List α) (p : Piece α) (ps qs : List (Piece α))

@[simp] theorem text_nil : text ([] : List (Piece α)) = [] := rfl

@[simp] theorem text_plain : text (.plain c :: ps) = c :: text ps := rfl

@[simp] theorem text_hit : text (.hit w :: ps) = w ++ text ps := rfl

@[simp] theorem text_append : text (ps ++ qs) = text ps ++ text qs := List.flatMap_append

@[simp] theorem text_plains (u : List α) : text (u.map Piece.plain) = u := by
  induction u with
  | nil => rfl
  | cons c u ih => simp [ih]

@[simp] theorem render_nil : render f [] = [] := rfl

@[simp] theorem render_plain : render f (.plain c :: ps) = c :: render f ps := rfl

@[simp] theorem render_hit : render f (.hit w :: ps) = f w ++ render f ps := rfl

@[simp] theorem render_append : render f (ps ++ qs) = render f ps ++ render f qs :=
  List.flatMap_append

@[simp] theorem render_plains (u : List α) : render f (u.map Piece.plain) = u := by
  induction u with
  | nil => rfl
  | cons c u ih => simp [ih]

end Lists

/-- How a pattern cuts a text. -/
inductive Scan (pattern : List α → ℕ) : List α → List (Piece α) → Prop where
  | nil : Scan pattern [] []
  | plain {c s ps} (none : pattern (c :: s) = 0) (rest : Scan pattern s ps) :
      Scan pattern (c :: s) (.plain c :: ps)
  | hit {w s ps} (nonempty : w ≠ []) (here : pattern (w ++ s) = w.length)
      (rest : Scan pattern s ps) : Scan pattern (w ++ s) (.hit w :: ps)

variable {pattern : List α → ℕ}

theorem piecesFrom_skip (skip : ℕ) (s : List α) :
    piecesFrom pattern skip s = piecesFrom pattern 0 (s.drop skip) := by
  induction s generalizing skip with
  | nil => simp [piecesFrom]
  | cons c s ih =>
    cases skip with
    | zero => rfl
    | succ skip => exact ih skip

/-- A match does not reach beyond the text. -/
theorem scan_pieces (within : ∀ s, pattern s ≤ s.length) (s : List α) :
    Scan pattern s (pieces pattern s) := by
  induction h : s.length using Nat.strongRecOn generalizing s with
  | _ n ih =>
    cases s with
    | nil => exact .nil
    | cons c s =>
      rw [pieces, piecesFrom]
      split
      · rename_i none
        exact .plain none (ih s.length (by simp [← h]) s rfl)
      · rename_i some
        obtain ⟨k, hk⟩ := Nat.exists_eq_succ_of_ne_zero some
        have hw : (c :: s).take (k + 1) ++ s.drop k = c :: s := by simp
        have hl : ((c :: s).take (k + 1)).length = k + 1 := by
          have := within (c :: s)
          simp only [List.length_take, List.length_cons] at this ⊢
          omega
        rw [hk, Nat.succ_sub_one, piecesFrom_skip]
        have hrest := ih (s.drop k).length (by simp only [List.length_drop, ← h, List.length_cons]; omega) (s.drop k) rfl
        have hit : Scan pattern ((c :: s).take (k + 1) ++ s.drop k)
            (.hit ((c :: s).take (k + 1)) :: pieces pattern (s.drop k)) :=
          .hit (by simp) (by rw [hw, hl, hk]) hrest
        rwa [hw] at hit

namespace Scan

theorem text_eq {s : List α} {ps : List (Piece α)} (h : Scan pattern s ps) : text ps = s := by
  induction h with
  | nil => rfl
  | plain _ _ ih => simp [ih]
  | hit _ _ _ ih => simp [ih]

theorem tail {s : List α} {ps qs : List (Piece α)} (h : Scan pattern s (ps ++ qs)) :
    Scan pattern (text qs) qs := by
  induction ps generalizing s with
  | nil =>
    rw [show text qs = s from h.text_eq]
    exact h
  | cons p ps ih =>
    cases h with
    | plain _ rest => exact ih rest
    | hit _ _ rest => exact ih rest

theorem hit_here {s w : List α} {ps : List (Piece α)} (h : Scan pattern s (.hit w :: ps)) :
    w ≠ [] ∧ pattern (w ++ text ps) = w.length := by
  cases h with
  | hit nonempty here rest => exact ⟨nonempty, by rwa [rest.text_eq]⟩

end Scan

/-- A symbol that no match can reach beyond cuts the pieces apart. -/
theorem pieces_append {c : α} {a b : List α} (within : ∀ s, pattern s ≤ s.length)
    (stops : ∀ s, pattern (s ++ c :: b) = pattern s) (apart : pattern (c :: b) = 0) :
    pieces pattern (a ++ c :: b) = pieces pattern a ++ .plain c :: pieces pattern b := by
  have from_skip (skip : ℕ) (ha : skip ≤ a.length) : piecesFrom pattern skip (a ++ c :: b) =
      piecesFrom pattern skip a ++ .plain c :: piecesFrom pattern 0 b := by
    induction a generalizing skip with
    | nil =>
      obtain rfl : skip = 0 := by simpa using ha
      simp [piecesFrom, apart]
    | cons d a ih =>
      cases skip with
      | succ skip => exact ih skip (by simpa using ha)
      | zero =>
        have hs := stops (d :: a)
        have hw := within (d :: a)
        simp only [List.cons_append, List.length_cons] at hs hw
        simp only [List.cons_append, piecesFrom, hs]
        split
        · rw [ih 0 (Nat.zero_le _), List.cons_append]
        · have ht : (d :: a ++ c :: b).take (pattern (d :: a)) = (d :: a).take (pattern (d :: a)) :=
            List.take_append_of_le_length hw
          rw [List.cons_append] at ht
          rw [ih _ (by omega), ht, List.cons_append]
  exact from_skip 0 (Nat.zero_le _)

theorem replaceAll_append {f : List α → List α} {c : α} {a b : List α}
    (within : ∀ s, pattern s ≤ s.length) (stops : ∀ s, pattern (s ++ c :: b) = pattern s)
    (apart : pattern (c :: b) = 0) :
    replaceAll pattern f (a ++ c :: b) = replaceAll pattern f a ++ c :: replaceAll pattern f b := by
  rw [replaceAll, pieces_append within stops apart, render_append, render_plain]
  rfl

section Runs

variable {p : α → Bool} {c : α} (s b : List α)

theorem takeWhile_append_stop (hc : ¬ p c) : (s ++ c :: b).takeWhile p = s.takeWhile p := by
  rw [List.takeWhile_append]
  split
  · rename_i h
    rw [List.takeWhile_cons_of_neg hc, List.append_nil, (List.takeWhile_prefix p).eq_of_length h]
  · rfl

theorem dropWhile_append_stop (hc : ¬ p c) :
    (s ++ c :: b).dropWhile p = s.dropWhile p ++ c :: b := by
  rw [List.dropWhile_append]
  split
  · rename_i h
    rw [List.dropWhile_cons_of_neg hc, List.isEmpty_iff.mp h, List.nil_append]
  · rfl

theorem isPrefixOf_append_stop [BEq α] [LawfulBEq α] {w : List α} (hc : c ∉ w) :
    w.isPrefixOf (s ++ c :: b) = w.isPrefixOf s := by
  rw [Bool.eq_iff_iff, List.isPrefixOf_iff_prefix, List.isPrefixOf_iff_prefix]
  constructor
  · rintro ⟨t, h⟩
    rcases List.append_eq_append_iff.mp h with ⟨y, rfl, -⟩ | ⟨y, rfl, h'⟩
    · exact List.prefix_append _ _
    · cases y with
      | nil => simp
      | cons d y =>
        obtain ⟨rfl, -⟩ := List.cons.inj h'
        exact absurd (by simp) hc
  · exact fun h => h.trans (List.prefix_append _ _)

end Runs

/-- Where a match is replaced by one symbol at most, a part of the result begins where a piece
does. -/
theorem exists_split {f : List α → List α} (short : ∀ w, (f w).length ≤ 1)
    {ps : List (Piece α)} {a b : List α} (h : render f ps = a ++ b) :
    ∃ l r, ps = l ++ r ∧ render f l = a ∧ render f r = b := by
  induction ps generalizing a with
  | nil =>
    obtain ⟨rfl, rfl⟩ := List.append_eq_nil_iff.mp h.symm
    exact ⟨[], [], rfl, rfl, rfl⟩
  | cons p ps ih =>
    cases a with
    | nil => exact ⟨[], p :: ps, rfl, rfl, h⟩
    | cons c a =>
      have hp : (Piece.render f p).length ≤ 1 := by
        cases p with
        | plain c => exact Nat.le_refl 1
        | hit w => exact short w
      change Piece.render f p ++ render f ps = c :: (a ++ b) at h
      match hr : Piece.render f p with
      | [] =>
        rw [hr, List.nil_append] at h
        obtain ⟨l, r, rfl, hl, hb⟩ := ih (a := c :: a) h
        exact ⟨p :: l, r, rfl, by change Piece.render f p ++ render f l = _; rw [hr, hl]; rfl, hb⟩
      | [d] =>
        rw [hr, List.singleton_append, List.cons.injEq] at h
        obtain ⟨l, r, rfl, hl, hb⟩ := ih h.2
        refine ⟨p :: l, r, rfl, ?_, hb⟩
        change Piece.render f p ++ render f l = _
        rw [hr, hl, h.1]
        rfl
      | _ :: _ :: _ => simp [hr] at hp

/-- Where matches are taken out, every symbol of the result is one of the text. -/
theorem exists_plain {ps : List (Piece α)} {a b : List α} {c : α}
    (h : render (fun _ => []) ps = a ++ c :: b) :
    ∃ l r, ps = l ++ .plain c :: r ∧ render (fun _ => []) l = a ∧ render (fun _ => []) r = b := by
  induction ps generalizing a with
  | nil => simp at h
  | cons p ps ih =>
    cases p with
    | hit w =>
      obtain ⟨l, r, rfl, hl, hr⟩ := ih h
      exact ⟨.hit w :: l, r, rfl, hl, hr⟩
    | plain d =>
      cases a with
      | nil =>
        rw [render_plain, List.nil_append, List.cons.injEq] at h
        obtain ⟨rfl, h⟩ := h
        exact ⟨[], ps, rfl, rfl, h⟩
      | cons e a =>
        rw [render_plain, List.cons_append, List.cons.injEq] at h
        obtain ⟨rfl, h⟩ := h
        obtain ⟨l, r, rfl, hl, hr⟩ := ih h
        exact ⟨.plain d :: l, r, rfl, by rw [render_plain, hl], hr⟩

/-- The pieces that a first part of the result is made of are symbols of the text, unless there
is a match before its end. -/
theorem plains_or_hit {f : List α → List α} {ps : List (Piece α)} {u v : List α}
    (h : render f ps = u ++ v) :
    (∃ r, ps = u.map Piece.plain ++ r ∧ render f r = v) ∨
      ∃ u₁ u₂ w r, u = u₁ ++ u₂ ∧ u₂ ≠ [] ∧ ps = u₁.map Piece.plain ++ .hit w :: r ∧
        f w ++ render f r = u₂ ++ v := by
  induction u generalizing ps with
  | nil => exact Or.inl ⟨ps, rfl, h⟩
  | cons c u ih =>
    rcases ps with - | ⟨d | w, ps⟩
    · simp at h
    · rw [render_plain, List.cons_append, List.cons.injEq] at h
      obtain ⟨rfl, h⟩ := h
      rcases ih h with ⟨r, rfl, hr⟩ | ⟨u₁, u₂, w, r, rfl, hu, rfl, hr⟩
      · exact Or.inl ⟨r, rfl, hr⟩
      · exact Or.inr ⟨d :: u₁, u₂, w, r, rfl, hu, rfl, hr⟩
    · exact Or.inr ⟨[], c :: u, w, ps, rfl, by simp, rfl, h⟩

end TextRewriting
