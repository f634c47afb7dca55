import Mathlib.Data.List.Chain

/-! Lexers that cut a text into lexemes by running an automaton as far as it goes, and when texts
are cut into given lexemes. -/
namespace Lexing

structure Lexer (α σ : Type) where
  first : α → Option σ
  next : σ → α → Option σ
  accepts : σ → Bool

/-- A piece of text, and the state after it. -/
structure Lexeme (α σ : Type) where
  state : σ
  text : List α
  deriving DecidableEq

namespace Lexer

variable {α σ : Type} (L : Lexer α σ)

def run : σ → List α → Option σ
  | q, [] => some q
  | q, a :: l => (L.next q a).bind fun q' => run q' l

/-- The state after a whole text. -/
def after : List α → Option σ
  | [] => none
  | a :: l => (L.first a).bind fun q => L.run q l

/-- The lexemes of the rest of a text, inside a lexeme of which so much has been read. -/
def scanFrom : σ → List α → List α → Option (List (Lexeme α σ))
  | q, taken, [] => if L.accepts q then some [⟨q, taken⟩] else none
  | q, taken, a :: l =>
    match L.next q a with
    | some q' => scanFrom q' (taken ++ [a]) l
    | none =>
      if L.accepts q then
        match L.first a with
        | some q' => (scanFrom q' [a] l).map (⟨q, taken⟩ :: ·)
        | none => none
      else none

def scan : List α → Option (List (Lexeme α σ))
  | [] => some []
  | a :: l => (L.first a).bind fun q => L.scanFrom q [a] l

def IsLexeme (x : Lexeme α σ) : Prop := L.after x.text = some x.state ∧ L.accepts x.state = true

/-- The first lexeme does not go on with the second. -/
def Apart (x y : Lexeme α σ) : Prop := ∀ a ∈ y.text.head?, L.next x.state a = none

variable {L} {q q' : σ} {x y : Lexeme α σ} {xs : List (Lexeme α σ)} {l m taken : List α} {a : α}

theorem run_append (q : σ) (l m : List α) :
    L.run q (l ++ m) = (L.run q l).bind fun q' => L.run q' m := by
  induction l generalizing q with
  | nil => rfl
  | cons a l ih =>
    rw [List.cons_append, run, run, Option.bind_assoc]
    exact congrArg _ (funext fun q' => ih q')

theorem after_append (h : L.after l = some q) (m : List α) : L.after (l ++ m) = L.run q m := by
  cases l with
  | nil => cases h
  | cons a l =>
    obtain ⟨q₀, hfirst, hrun⟩ := Option.bind_eq_some_iff.mp h
    rw [List.cons_append, after, hfirst, Option.bind_some, run_append, hrun, Option.bind_some]

theorem after_concat (h : L.after l = some q) (ha : L.next q a = some q') :
    L.after (l ++ [a]) = some q' := by
  rw [after_append h, run, ha]
  rfl

theorem IsLexeme.ne_nil (h : L.IsLexeme x) : x.text ≠ [] := by
  intro hnil
  have hafter := h.1
  rw [hnil] at hafter
  cases hafter

/-- As long as the automaton goes on, the lexeme does. -/
theorem scanFrom_append (h : L.run q m = some q') (taken l : List α) :
    L.scanFrom q taken (m ++ l) = L.scanFrom q' (taken ++ m) l := by
  induction m generalizing q taken with
  | nil =>
    cases h
    rw [List.nil_append, List.append_nil]
  | cons a m ih =>
    obtain ⟨q₁, hnext, hrun⟩ := Option.bind_eq_some_iff.mp h
    rw [List.cons_append, scanFrom, hnext]
    show L.scanFrom q₁ (taken ++ [a]) (m ++ l) = _
    rw [ih hrun, List.append_assoc, List.singleton_append]

theorem scan_append (h : L.after m = some q) (l : List α) :
    L.scan (m ++ l) = L.scanFrom q m l := by
  cases m with
  | nil => cases h
  | cons a m =>
    obtain ⟨q₀, hfirst, hrun⟩ := Option.bind_eq_some_iff.mp h
    rw [List.cons_append, scan, hfirst, Option.bind_some, scanFrom_append hrun,
      List.singleton_append]

/-- What is scanned are lexemes that the automaton does not join. -/
theorem of_scanFrom (hq : L.after taken = some q) (h : L.scanFrom q taken l = some xs) :
    taken ++ l = xs.flatMap Lexeme.text ∧ (∀ x ∈ xs, L.IsLexeme x) ∧ xs.IsChain L.Apart := by
  induction l generalizing q taken xs with
  | nil =>
    obtain ⟨haccepts, h⟩ := Option.ite_none_right_eq_some.mp h
    cases h
    refine ⟨?_, ?_, List.isChain_singleton _⟩
    · rw [List.flatMap_singleton]
      exact List.append_nil taken
    · intro x hx
      rw [List.mem_singleton.mp hx]
      exact ⟨hq, haccepts⟩
  | cons a l ih =>
    rw [scanFrom] at h
    cases hnext : L.next q a with
    | some q' =>
      rw [hnext] at h
      obtain ⟨htext, hall, hchain⟩ := ih (after_concat hq hnext) h
      rw [List.append_assoc, List.singleton_append] at htext
      exact ⟨htext, hall, hchain⟩
    | none =>
      rw [hnext] at h
      obtain ⟨haccepts, h⟩ := Option.ite_none_right_eq_some.mp h
      cases hfirst : L.first a with
      | none =>
        rw [hfirst] at h
        cases h
      | some q' =>
        rw [hfirst] at h
        obtain ⟨ys, hscan, rfl⟩ := Option.map_eq_some_iff.mp h
        have hafter : L.after [a] = some q' := by
          rw [after, hfirst]
          rfl
        obtain ⟨htext, hall, hchain⟩ := ih hafter hscan
        refine ⟨?_, ?_, ?_⟩
        · rw [List.flatMap_cons, ← htext]
          rfl
        · intro x hx
          rcases List.mem_cons.mp hx with rfl | hx
          · exact ⟨hq, haccepts⟩
          · exact hall x hx
        · cases ys with
          | nil => exact List.isChain_singleton _
          | cons z zs =>
            refine List.isChain_cons_cons.mpr ⟨fun b hb => ?_, hchain⟩
            -- the next lexeme begins with the unit that the automaton stops at
            rw [List.flatMap_cons] at htext
            cases hzt : z.text with
            | nil => exact absurd hzt (hall z List.mem_cons_self).ne_nil
            | cons c zt =>
              rw [hzt] at htext hb
              obtain rfl := Option.some.inj hb
              rw [← (List.cons.inj htext).1]
              exact hnext

/-- After a lexeme of a chain the automaton stops. -/
theorem stops (hall : ∀ y ∈ xs, L.IsLexeme y) (hchain : (x :: xs).IsChain L.Apart) :
    ∀ a ∈ (xs.flatMap Lexeme.text).head?, L.next x.state a = none := by
  intro a ha
  cases xs with
  | nil => cases ha
  | cons y ys =>
    refine (List.isChain_cons_cons.mp hchain).1 a ?_
    cases hyt : y.text with
    | nil => exact absurd hyt (hall y List.mem_cons_self).ne_nil
    | cons c t =>
      rw [List.flatMap_cons, hyt] at ha
      exact ha

theorem scanFrom_stop (hq : L.accepts q = true) (hstop : ∀ a ∈ l.head?, L.next q a = none) :
    L.scanFrom q taken l = (L.scan l).map (⟨q, taken⟩ :: ·) := by
  cases l with
  | nil => exact if_pos hq
  | cons a l =>
    rw [scanFrom, hstop a rfl, scan]
    dsimp only
    rw [if_pos hq]
    cases L.first a <;> rfl

/-- What is scanned begins with the lexeme that has been begun, read as far as it goes. -/
theorem exists_of_scanFrom (h : L.scanFrom q taken l = some xs) :
    ∃ q' m rest ys, l = m ++ rest ∧ L.run q m = some q' ∧ L.accepts q' = true ∧
      (∀ a ∈ rest.head?, L.next q' a = none) ∧ xs = ⟨q', taken ++ m⟩ :: ys ∧
      L.scan rest = some ys := by
  induction l generalizing q taken with
  | nil =>
    obtain ⟨haccepts, h⟩ := Option.ite_none_right_eq_some.mp h
    cases h
    refine ⟨q, [], [], [], rfl, rfl, haccepts, ?_, ?_, rfl⟩
    · intro a ha
      cases ha
    · rw [List.append_nil]
  | cons a l ih =>
    cases hnext : L.next q a with
    | some q₁ =>
      rw [scanFrom, hnext] at h
      obtain ⟨q', m, rest, ys, rfl, hrun, haccepts, hstop, rfl, hscan⟩ := ih h
      refine ⟨q', a :: m, rest, ys, rfl, ?_, haccepts, hstop, ?_, hscan⟩
      · rw [run, hnext]
        exact hrun
      · rw [List.append_assoc, List.singleton_append]
    | none =>
      have hstop : ∀ b ∈ (a :: l).head?, L.next q b = none := by
        intro b hb
        obtain rfl := Option.some.inj hb
        exact hnext
      have haccepts : L.accepts q = true := by
        rw [scanFrom, hnext] at h
        exact (Option.ite_none_right_eq_some.mp h).1
      rw [scanFrom_stop haccepts hstop] at h
      obtain ⟨ys, hscan, rfl⟩ := Option.map_eq_some_iff.mp h
      refine ⟨q, [], a :: l, ys, rfl, rfl, haccepts, hstop, ?_, hscan⟩
      rw [List.append_nil]

theorem scanFrom_of (hx : L.accepts x.state = true) (hall : ∀ y ∈ xs, L.IsLexeme y)
    (hchain : (x :: xs).IsChain L.Apart) :
    L.scanFrom x.state x.text (xs.flatMap Lexeme.text) = some (x :: xs) := by
  induction xs generalizing x with
  | nil => exact if_pos hx
  | cons y ys ih =>
    have hy := hall y List.mem_cons_self
    have hys := (List.isChain_cons_cons.mp hchain).2
    cases hyt : y.text with
    | nil => exact absurd hyt hy.ne_nil
    | cons a t =>
      have hstop : L.next x.state a = none := stops hall hchain a (by
        rw [List.flatMap_cons, hyt]
        rfl)
      have hafter := hy.1
      rw [hyt] at hafter
      obtain ⟨q, hfirst, hrun⟩ := Option.bind_eq_some_iff.mp hafter
      have hrest := ih hy.2 (fun z hz => hall z (List.mem_cons_of_mem y hz)) hys
      rw [hyt, ← List.singleton_append, ← scanFrom_append hrun] at hrest
      rw [List.flatMap_cons, hyt, List.cons_append, scanFrom, hstop]
      dsimp only
      rw [if_pos hx, hfirst]
      dsimp only
      rw [hrest]
      rfl

theorem scan_iff : L.scan l = some xs ↔
    l = xs.flatMap Lexeme.text ∧ (∀ x ∈ xs, L.IsLexeme x) ∧ xs.IsChain L.Apart := by
  constructor
  · intro h
    cases l with
    | nil =>
      cases h
      exact ⟨rfl, fun x hx => absurd hx List.not_mem_nil, List.isChain_nil⟩
    | cons a l =>
      obtain ⟨q, hfirst, hscan⟩ := Option.bind_eq_some_iff.mp h
      have hafter : L.after [a] = some q := by
        rw [after, hfirst]
        rfl
      exact of_scanFrom hafter hscan
  · rintro ⟨rfl, hall, hchain⟩
    cases xs with
    | nil => rfl
    | cons x xs =>
      have hx := hall x List.mem_cons_self
      rw [List.flatMap_cons, scan_append hx.1]
      exact scanFrom_of hx.2 (fun y hy => hall y (List.mem_cons_of_mem x hy)) hchain

end Lexer

end Lexing
