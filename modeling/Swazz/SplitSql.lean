import Swazz.LicenseText
import Swazz.SqlTokens

/-! The splitting of an SQL script at its semicolons, with its comments taken out. -/
namespace Swazz.Sql

open Lexing
open RunnerAccess (JsString)
open License (trim jsSpace)

/-- The four flags, of which one at most is set; the two for quotes do the same for `'` and `"`. -/
inductive Mode where
  | plain
  | inQuote (quote : ℕ)
  | inlineComment
  | multiLineComment
  deriving DecidableEq

def pushed (current : JsString) : List JsString :=
  if 0 < (trim jsSpace current).length then [trim jsSpace current] else []

/-- The loop from here on; `skip` says that the index has been moved past this unit already. -/
def splitFrom : Mode → Bool → JsString → JsString → List JsString
  | _, _, current, [] => pushed current
  | mode, true, current, _ :: rest => splitFrom mode false current rest
  | .inlineComment, false, current, char :: rest =>
    splitFrom (if char = 10 then .plain else .inlineComment) false current rest
  | .multiLineComment, false, current, char :: rest =>
    if char = 42 ∧ rest.head? = some 47 then splitFrom .plain true current rest
    else splitFrom .multiLineComment false current rest
  | .inQuote quote, false, current, char :: rest =>
    if char = quote then
      if rest.head? = some quote then splitFrom (.inQuote quote) true (current ++ [char, quote]) rest
      else splitFrom .plain false (current ++ [char]) rest
    else splitFrom (.inQuote quote) false (current ++ [char]) rest
  | .plain, false, current, char :: rest =>
    if char = 45 ∧ rest.head? = some 45 then splitFrom .inlineComment true current rest
    else if char = 47 ∧ rest.head? = some 42 then splitFrom .multiLineComment true current rest
    else if char = 39 ∨ char = 34 then splitFrom (.inQuote char) false (current ++ [char]) rest
    else if char = 59 then pushed current ++ splitFrom .plain false [] rest
    else splitFrom .plain false (current ++ [char]) rest

def splitSql (sql : JsString) : List JsString :=
  (splitFrom .plain false [] sql).filter fun s => trim jsSpace s ≠ []

/-- The text of lexemes without their comments. -/
def uncommented (xs : List Lexeme) : JsString :=
  (xs.filter fun x => !x.state.isComment).flatMap Lexeme.text

/-! ### Lexemes in the loop -/

/-- The automaton is neither in a comment nor in quotes, nor at a semicolon. -/
def Reading.isPlain : Reading → Bool
  | .semicolon | .quoted _ | .quoteMark _ | .bad => false
  | q => !q.isComment

section

variable {q q' : Reading} {c quote : ℕ} {x : Lexeme} {xs : List Lexeme}
  {l rest current sql : JsString}

theorem splitFrom_quoted (hdone : q'.complete = true)
    (hstop : ∀ a ∈ rest.head?, nextReading q' a = none) (l current : JsString) :
    (sqlite.run (.quoted quote) l = some q' →
      splitFrom (.inQuote quote) false current (l ++ rest) =
        splitFrom .plain false (current ++ l) rest) ∧
    (sqlite.run (.quoteMark quote) l = some q' →
      splitFrom (.inQuote quote) false current (quote :: (l ++ rest)) =
        splitFrom .plain false (current ++ quote :: l) rest) := by
  induction l generalizing current with
  | nil =>
    constructor
    · intro h
      cases h
      cases hdone
    · intro h
      cases h
      have hhead : rest.head? ≠ some quote := by
        intro hhead
        have hnext := hstop quote hhead
        rw [nextReading, if_pos rfl] at hnext
        cases hnext
      rw [List.nil_append, splitFrom, if_pos rfl, if_neg hhead]
  | cons c l ih =>
    constructor
    · intro h
      obtain ⟨q₁, hnext, hrun⟩ := Option.bind_eq_some_iff.mp h
      have hnext' : nextReading (.quoted quote) c = some q₁ := hnext
      rw [nextReading] at hnext'
      split_ifs at hnext' with hc
      · cases hnext'
        rw [hc]
        exact (ih current).2 hrun
      · cases hnext'
        rw [List.cons_append, splitFrom, if_neg hc, (ih (current ++ [c])).1 hrun, List.append_assoc,
          List.singleton_append]
    · intro h
      obtain ⟨q₁, hnext, hrun⟩ := Option.bind_eq_some_iff.mp h
      have hnext' : nextReading (.quoteMark quote) c = some q₁ := hnext
      rw [nextReading] at hnext'
      obtain ⟨rfl, hnext'⟩ := Option.ite_none_right_eq_some.mp hnext'
      cases hnext'
      rw [List.cons_append, splitFrom, if_pos rfl, List.head?_cons, if_pos rfl, splitFrom,
        (ih _).1 hrun, List.append_assoc]
      rfl

/-- A line comment disappears; what it is read up to does not matter. -/
theorem splitFrom_lineComment (hstop : ∀ a ∈ rest.head?, nextReading q' a = none)
    (h : sqlite.run .lineComment l = some q') :
    splitFrom .inlineComment false current (l ++ rest) = splitFrom .plain false current rest := by
  induction l with
  | nil =>
    cases h
    cases rest with
    | nil => rw [List.nil_append, splitFrom, splitFrom]
    | cons a rest =>
      have hnext := hstop a rfl
      rw [nextReading] at hnext
      split_ifs at hnext
  | cons c l ih =>
    obtain ⟨q₁, hnext, hrun⟩ := Option.bind_eq_some_iff.mp h
    have hnext' : nextReading .lineComment c = some q₁ := hnext
    rw [nextReading] at hnext'
    rw [List.cons_append, splitFrom]
    split_ifs at hnext' with hc
    · cases hnext'
      cases l with
      | nil => rw [if_pos hc, List.nil_append]
      | cons d l => cases hrun
    · cases hnext'
      rw [if_neg hc]
      exact ih hrun

theorem splitFrom_blockComment (hdone : q'.complete = true) (l : JsString) :
    (sqlite.run .blockComment l = some q' →
      splitFrom .multiLineComment false current (l ++ rest) =
        splitFrom .plain false current rest) ∧
    (sqlite.run .blockStar l = some q' →
      splitFrom .multiLineComment false current (42 :: (l ++ rest)) =
        splitFrom .plain false current rest) := by
  induction l with
  | nil =>
    constructor
    · intro h
      cases h
      cases hdone
    · intro h
      cases h
      cases hdone
  | cons c l ih =>
    have hskip (hc : c ≠ 42) :
        splitFrom .multiLineComment false current (c :: (l ++ rest)) =
          splitFrom .multiLineComment false current (l ++ rest) := by
      rw [splitFrom, if_neg fun h => hc h.1]
    constructor
    · intro h
      obtain ⟨q₁, hnext, hrun⟩ := Option.bind_eq_some_iff.mp h
      have hnext' : nextReading .blockComment c = some q₁ := hnext
      rw [nextReading] at hnext'
      split_ifs at hnext' with hc
      · cases hnext'
        rw [hc]
        exact ih.2 hrun
      · cases hnext'
        rw [List.cons_append, hskip hc]
        exact ih.1 hrun
    · intro h
      obtain ⟨q₁, hnext, hrun⟩ := Option.bind_eq_some_iff.mp h
      have hnext' : nextReading .blockStar c = some q₁ := hnext
      rw [nextReading] at hnext'
      rw [List.cons_append, splitFrom, List.head?_cons]
      split_ifs at hnext' with hslash hstar
      · cases hnext'
        cases l with
        | nil => rw [if_pos ⟨rfl, congrArg some hslash⟩, splitFrom, List.nil_append]
        | cons d l => cases hrun
      · cases hnext'
        rw [if_neg fun h => hslash (Option.some.inj h.2), hstar]
        exact ih.2 hrun
      · cases hnext'
        rw [if_neg fun h => hslash (Option.some.inj h.2), hskip hstar]
        exact ih.1 hrun

/-- The units at which the loop does more than to go on. -/
def special : List ℕ := [39, 34, 59, 45, 47]

/-- The automaton is no place where the loop would do more, but for a minus or a slash. -/
def Reading.goesOn (c : ℕ) (q : Reading) : Bool :=
  !q.isPlain || (c = 45 && (q = .minus || q = .exponentSign)) || (c = 47 && q = .slash)

theorem goesOn_first : ∀ c ∈ special, (firstReading c).all (Reading.goesOn c) = true := by
  decide

theorem goesOn_next (q : Reading) :
    ∀ c ∈ special, (nextReading q c).all (Reading.goesOn c) = true := by
  cases q with
  | quoted quote | quoteMark quote =>
    intro c _
    rw [nextReading]
    split_ifs <;> rfl
  | _ => decide

/-- A unit that led to this place is passed over, if a minus is not repeated and no star follows a
slash. -/
structure Ordinary (c : ℕ) (q : Reading) : Prop where
  unquoted : ¬(c = 39 ∨ c = 34)
  inside : c ≠ 59
  minus : c = 45 → q = .minus ∨ q = .exponentSign
  slash : c = 47 → q = .slash

theorem ordinary_of_goesOn (h : c ∈ special → q.goesOn c = true) (hq : q.isPlain = true) :
    Ordinary c q := by
  have hcases (hc : c ∈ special) : c = 45 ∧ (q = .minus ∨ q = .exponentSign) ∨
      c = 47 ∧ q = .slash := by
    have hgo := h hc
    simp only [Reading.goesOn, hq, Bool.not_true, Bool.false_or, Bool.or_eq_true,
      Bool.and_eq_true, decide_eq_true_eq] at hgo
    exact hgo
  refine ⟨?_, ?_, ?_, ?_⟩
  · rintro (rfl | rfl) <;> rcases hcases (by decide) with ⟨h, -⟩ | ⟨h, -⟩ <;> cases h
  · rintro rfl
    rcases hcases (by decide) with ⟨h, -⟩ | ⟨h, -⟩ <;> cases h
  · rintro rfl
    rcases hcases (by decide) with ⟨-, h⟩ | ⟨h, -⟩
    · exact h
    · cases h
  · rintro rfl
    rcases hcases (by decide) with ⟨h, -⟩ | ⟨-, h⟩
    · cases h
    · exact h

theorem ordinary_first (h : firstReading c = some q) (hq : q.isPlain = true) : Ordinary c q := by
  refine ordinary_of_goesOn (fun hc => ?_) hq
  have hall := goesOn_first c hc
  rw [h] at hall
  exact hall

theorem ordinary_next (h : nextReading q c = some q') (hq : q'.isPlain = true) :
    Ordinary c q' := by
  refine ordinary_of_goesOn (fun hc => ?_) hq
  have hall := goesOn_next q c hc
  rw [h] at hall
  exact hall

theorem isPlain_of_next (h : nextReading q c = some q') (hq : q'.isPlain = true) :
    q.isPlain = true := by
  cases q with
  | lineComment | blockComment | blockStar | quoted | quoteMark =>
    rw [nextReading] at h
    split_ifs at h <;> cases h <;> cases hq
  | semicolon | lineEnd | blockEnd | bad => cases h
  | _ => rfl

theorem isPlain_of_run (h : sqlite.run q l = some q') (hq : q'.isPlain = true) :
    q.isPlain = true := by
  induction l generalizing q with
  | nil =>
    cases h
    exact hq
  | cons c l ih =>
    obtain ⟨q₁, hnext, hrun⟩ := Option.bind_eq_some_iff.mp h
    exact isPlain_of_next hnext (ih hrun)

/-- The unit after a minus or a slash of a token makes no comment of them. -/
theorem no_mark (hc : Ordinary c q) (hrun : sqlite.run q l = some q') (hq : q'.isPlain = true)
    (hdone : q'.complete = true) (hstop : ∀ a ∈ rest.head?, nextReading q' a = none) :
    ¬(c = 45 ∧ (l ++ rest).head? = some 45) ∧ ¬(c = 47 ∧ (l ++ rest).head? = some 42) := by
  -- a comment that the automaton goes on with is no token
  have hcomment {a : ℕ} {q₁ : Reading} (hnext : nextReading q a = some q₁)
      (hcom : q₁.isPlain = false) (hhead : (l ++ rest).head? = some a) : False := by
    cases l with
    | nil =>
      cases hrun
      rw [hstop a hhead] at hnext
      cases hnext
    | cons b l =>
      obtain rfl := Option.some.inj hhead
      obtain ⟨q₂, hnext₂, hrun₂⟩ := Option.bind_eq_some_iff.mp hrun
      have hsame : nextReading q b = some q₂ := hnext₂
      rw [hnext] at hsame
      cases hsame
      rw [isPlain_of_run hrun₂ hq] at hcom
      cases hcom
  constructor
  · rintro ⟨hminus, hhead⟩
    rcases hc.minus hminus with rfl | rfl
    · exact hcomment rfl rfl hhead
    · cases l with
      | nil =>
        cases hrun
        cases hdone
      | cons b l =>
        obtain rfl := Option.some.inj hhead
        cases hrun
  · rintro ⟨hslash, hhead⟩
    obtain rfl := hc.slash hslash
    exact hcomment rfl rfl hhead

theorem splitFrom_plain (hc : Ordinary c q) (hrun : sqlite.run q l = some q')
    (hq : q'.isPlain = true) (hdone : q'.complete = true)
    (hstop : ∀ a ∈ rest.head?, nextReading q' a = none) (current : JsString) :
    splitFrom .plain false current (c :: (l ++ rest)) =
      splitFrom .plain false (current ++ c :: l) rest := by
  induction l generalizing c q current with
  | nil =>
    obtain ⟨hminus, hslash⟩ := no_mark hc hrun hq hdone hstop
    rw [splitFrom, if_neg hminus, if_neg hslash, if_neg hc.unquoted, if_neg hc.inside,
      List.nil_append]
  | cons d l ih =>
    obtain ⟨hminus, hslash⟩ := no_mark hc hrun hq hdone hstop
    obtain ⟨q₁, hnext, hrun'⟩ := Option.bind_eq_some_iff.mp hrun
    have hd := ordinary_next hnext (isPlain_of_run hrun' hq)
    rw [splitFrom, if_neg hminus, if_neg hslash, if_neg hc.unquoted, if_neg hc.inside,
      List.cons_append, ih hd hrun' (current ++ [c]), List.append_assoc, List.singleton_append]

/-- Only a first unit leads to these. -/
def Reading.initial (q : Reading) : Bool := q = .semicolon || q = .minus || q = .slash

theorem not_initial_next (q : Reading) (c : ℕ) :
    (nextReading q c).all (fun q' => !q'.initial) = true := by
  cases q <;> simp only [nextReading, afterDigits] <;> first | rfl | (split_ifs <;> rfl)

theorem eq_nil_of_initial (h : sqlite.run q l = some q') (hq : q'.initial = true) :
    q = q' ∧ l = [] := by
  induction l generalizing q with
  | nil =>
    cases h
    exact ⟨rfl, rfl⟩
  | cons c l ih =>
    obtain ⟨q₁, hnext, hrun⟩ := Option.bind_eq_some_iff.mp h
    obtain ⟨rfl, -⟩ := ih hrun
    have hnone := not_initial_next q c
    have hnext' : nextReading q c = some q₁ := hnext
    rw [hnext', Option.all_some, hq] at hnone
    cases hnone

theorem leaves_plain (q : Reading) (c : ℕ) (q' : Reading) (h : nextReading q c = some q')
    (hq : q.isPlain = true) (hq' : q'.isPlain = false) :
    (q = .minus ∧ c = 45 ∧ q' = .lineComment) ∨ (q = .slash ∧ c = 42 ∧ q' = .blockComment) ∨
      q' = .bad := by
  cases q with
  | minus =>
    rw [nextReading] at h
    split_ifs at h with hc
    · cases h
      exact Or.inl ⟨rfl, hc, rfl⟩
    · cases h
      cases hq'
  | slash =>
    rw [nextReading] at h
    split_ifs at h with hc
    cases h
    exact Or.inr (Or.inl ⟨rfl, hc, rfl⟩)
  | lineComment | blockComment | blockStar | quoted | quoteMark => cases hq
  | _ =>
    refine Or.inr (Or.inr ?_)
    simp only [nextReading, afterDigits] at h
    first
    | cases h
    | (split_ifs at h <;> cases h <;> first | rfl | cases hq')

/-- What a first unit leads to. -/
theorem first_cases (h : firstReading c = some q) :
    q.isPlain = true ∨ (c = 59 ∧ q = .semicolon) ∨ ((c = 39 ∨ c = 34) ∧ q = .quoted c) := by
  unfold firstReading at h
  split_ifs at h
  · exact Or.inl (Option.some.inj h ▸ rfl)
  · exact Or.inl (Option.some.inj h ▸ rfl)
  · exact Or.inl (Option.some.inj h ▸ rfl)
  · exact Or.inl (Option.some.inj h ▸ rfl)
  · exact Or.inl (Option.some.inj h ▸ rfl)
  · have hall : ∀ m ∈ marks, m.2.isPlain = true ∨ (m.1 = 59 ∧ m.2 = .semicolon) ∨
        ((m.1 = 39 ∨ m.1 = 34) ∧ m.2 = .quoted m.1) := by decide
    obtain ⟨l₁, l₂, heq, -⟩ := List.lookup_eq_some_iff.mp h
    exact hall (c, q) (heq ▸ List.mem_append_right l₁ List.mem_cons_self)

/-- A lexeme that began as a token or white space and is none has become a comment at its second
unit. -/
theorem comment_of_run (h : sqlite.run q l = some q') (hq : q.isPlain = true)
    (hq' : q'.isPlain = false) (hdone : q'.complete = true) :
    (∃ m, q = .minus ∧ l = 45 :: m ∧ sqlite.run .lineComment m = some q') ∨
      ∃ m, q = .slash ∧ l = 42 :: m ∧ sqlite.run .blockComment m = some q' := by
  induction l generalizing q with
  | nil =>
    cases h
    rw [hq] at hq'
    cases hq'
  | cons c l ih =>
    obtain ⟨q₁, hnext, hrun⟩ := Option.bind_eq_some_iff.mp h
    have hnext' : nextReading q c = some q₁ := hnext
    cases hplain : q₁.isPlain with
    | true =>
      -- a later minus or slash of a lexeme is not its first unit
      have hinitial : q₁.initial = false := by
        have hall := not_initial_next q c
        rw [hnext', Option.all_some, Bool.not_eq_true'] at hall
        exact hall
      rcases ih hrun hplain with ⟨m, rfl, -⟩ | ⟨m, rfl, -⟩ <;> cases hinitial
    | false =>
      rcases leaves_plain q c q₁ hnext' hq hplain with ⟨rfl, rfl, rfl⟩ | ⟨rfl, rfl, rfl⟩ | rfl
      · exact Or.inl ⟨l, rfl, rfl, hrun⟩
      · exact Or.inr ⟨l, rfl, rfl, hrun⟩
      · cases l with
        | nil =>
          cases hrun
          cases hdone
        | cons d l => cases hrun

theorem mem_marks_of_initial (h : firstReading c = some q) (hq : q.initial = true) :
    (c, q) ∈ marks := by
  unfold firstReading at h
  split_ifs at h
  · cases h
    cases hq
  · cases h
    cases hq
  · cases h
    cases hq
  · cases h
    cases hq
  · cases h
    cases hq
  · obtain ⟨l₁, l₂, heq, -⟩ := List.lookup_eq_some_iff.mp h
    exact heq ▸ List.mem_append_right l₁ List.mem_cons_self

theorem isComment_of_run (h : sqlite.run q l = some q') (hq : q.isComment = true) :
    q'.isComment = true := by
  induction l generalizing q with
  | nil =>
    cases h
    exact hq
  | cons c l ih =>
    obtain ⟨q₁, hnext, hrun⟩ := Option.bind_eq_some_iff.mp h
    have hnext' : nextReading q c = some q₁ := hnext
    refine ih hrun ?_
    cases q with
    | lineComment | blockComment | blockStar =>
      rw [nextReading] at hnext'
      split_ifs at hnext' <;> cases hnext' <;> rfl
    | lineEnd | blockEnd => cases hnext'
    | _ => cases hq

theorem quoted_of_run (h : sqlite.run q l = some q')
    (hq : q = .quoted quote ∨ q = .quoteMark quote) :
    q' = .quoted quote ∨ q' = .quoteMark quote := by
  induction l generalizing q with
  | nil =>
    cases h
    exact hq
  | cons c l ih =>
    obtain ⟨q₁, hnext, hrun⟩ := Option.bind_eq_some_iff.mp h
    have hnext' : nextReading q c = some q₁ := hnext
    refine ih hrun ?_
    rcases hq with rfl | rfl
    · rw [nextReading] at hnext'
      split_ifs at hnext' <;> cases hnext'
      · exact Or.inr rfl
      · exact Or.inl rfl
    · rw [nextReading] at hnext'
      split_ifs at hnext'
      cases hnext'
      exact Or.inl rfl

/-- The loop takes a lexeme over whole, or leaves it out whole when it is a comment. -/
theorem splitFrom_lexeme (hx : sqlite.IsLexeme x) (hsemi : x.state ≠ .semicolon)
    (hstop : ∀ a ∈ rest.head?, nextReading x.state a = none) (current : JsString) :
    splitFrom .plain false current (x.text ++ rest) =
      splitFrom .plain false (current ++ uncommented [x]) rest := by
  obtain ⟨q', text⟩ := x
  obtain ⟨hafter, hdone⟩ := hx
  cases text with
  | nil => cases hafter
  | cons c l =>
    obtain ⟨q, hfirst, hrun⟩ := Option.bind_eq_some_iff.mp hafter
    dsimp only at hrun hdone hstop hsemi
    have hkept (h : q'.isComment = false) : uncommented [⟨q', c :: l⟩] = c :: l := by
      simp [uncommented, h]
    rcases first_cases hfirst with hq | ⟨rfl, rfl⟩ | ⟨hmark, rfl⟩
    · cases hq' : q'.isPlain with
      | true =>
        have hnot : q'.isComment = false := by
          cases q' <;> first | rfl | cases hq'
        rw [hkept hnot]
        exact splitFrom_plain (ordinary_first hfirst hq) hrun hq' hdone hstop current
      | false =>
        have hgone (h : q'.isComment = true) : uncommented [⟨q', c :: l⟩] = [] := by
          simp [uncommented, h]
        rcases comment_of_run hrun hq hq' hdone with ⟨m, rfl, rfl, hcom⟩ | ⟨m, rfl, rfl, hcom⟩
        · obtain rfl : c = 45 := by simpa [marks] using mem_marks_of_initial hfirst rfl
          rw [hgone (isComment_of_run hcom rfl), List.append_nil]
          exact splitFrom_lineComment hstop hcom
        · obtain rfl : c = 47 := by simpa [marks] using mem_marks_of_initial hfirst rfl
          rw [hgone (isComment_of_run hcom rfl), List.append_nil]
          exact (splitFrom_blockComment hdone m).1 hcom
    · cases l with
      | nil =>
        cases hrun
        exact absurd rfl hsemi
      | cons d l => cases hrun
    · have hnot : q'.isComment = false := by
        rcases quoted_of_run hrun (Or.inl rfl) with rfl | rfl <;> rfl
      rw [hkept hnot, List.cons_append, splitFrom, if_neg, if_neg, if_pos hmark,
        (splitFrom_quoted hdone hstop l _).1 hrun, List.append_assoc, List.singleton_append]
      · rintro ⟨rfl, -⟩
        rcases hmark with h | h <;> cases h
      · rintro ⟨rfl, -⟩
        rcases hmark with h | h <;> cases h

theorem splitFrom_semicolon (hx : sqlite.IsLexeme x) (hsemi : x.state = .semicolon)
    (current : JsString) :
    splitFrom .plain false current (x.text ++ rest) =
      pushed current ++ splitFrom .plain false [] rest := by
  obtain ⟨q', text⟩ := x
  obtain ⟨hafter, -⟩ := hx
  dsimp only at hsemi
  subst hsemi
  cases text with
  | nil => cases hafter
  | cons c l =>
    obtain ⟨q, hfirst, hrun⟩ := Option.bind_eq_some_iff.mp hafter
    obtain ⟨rfl, rfl⟩ := eq_nil_of_initial hrun rfl
    rcases first_cases hfirst with hq | ⟨rfl, -⟩ | ⟨-, hq⟩
    · cases hq
    · rfl
    · cases hq

theorem uncommented_cons (x : Lexeme) (xs : List Lexeme) :
    uncommented (x :: xs) = uncommented [x] ++ uncommented xs := by
  rw [uncommented, uncommented, uncommented, ← List.flatMap_append, ← List.filter_append]
  rfl

/-- What the loop makes of a script from here on. -/
theorem splitFrom_scanned (hall : ∀ x ∈ xs, sqlite.IsLexeme x) (hchain : xs.IsChain sqlite.Apart)
    (current : JsString) :
    splitFrom .plain false current (xs.flatMap Lexeme.text) =
      (((statements xs).map uncommented).modifyHead (current ++ ·)).flatMap pushed := by
  induction xs generalizing current with
  | nil =>
    rw [statements, List.splitOnP_nil]
    simp [splitFrom, uncommented]
  | cons x xs ih =>
    have hx := hall x List.mem_cons_self
    have hxs : ∀ y ∈ xs, sqlite.IsLexeme y := fun y hy => hall y (List.mem_cons_of_mem x hy)
    have ih' := ih hxs hchain.tail
    rw [List.flatMap_cons, statements, List.splitOnP_cons_eq_if_modifyHead]
    by_cases hsemi : x.state = .semicolon
    · rw [splitFrom_semicolon hx hsemi, ih', if_pos (decide_eq_true hsemi), statements]
      cases List.splitOnP (fun x => decide (x.state = .semicolon)) xs with
      | nil => simp [uncommented]
      | cons S Ss => simp [uncommented]
    · rw [splitFrom_lexeme hx hsemi (Lexer.stops hxs hchain), ih', if_neg (by simpa using hsemi),
        statements]
      cases List.splitOnP (fun x => decide (x.state = .semicolon)) xs with
      | nil => rfl
      | cons S Ss =>
        rw [List.modifyHead_cons, List.map_cons, List.map_cons, List.modifyHead_cons,
          List.modifyHead_cons, uncommented_cons x S, List.append_assoc]

/-- The last filter takes nothing away: what is pushed has been trimmed, and is not blank. -/
theorem filter_pushed (current : JsString) :
    (pushed current).filter (fun s => trim jsSpace s ≠ []) = pushed current := by
  unfold pushed
  split_ifs with h
  · have hne := List.ne_nil_of_length_pos h
    rw [List.filter_singleton, License.trim_trim, decide_eq_true hne]
    rfl
  · rfl

theorem splitSql_eq (hscan : sqlite.scan sql = some xs) :
    splitSql sql = (statements xs).flatMap fun S => pushed (uncommented S) := by
  obtain ⟨rfl, hall, hchain⟩ := Lexer.scan_iff.mp hscan
  have hsplit := splitFrom_scanned hall hchain []
  rw [show (fun s : JsString => [] ++ s) = id from rfl, List.modifyHead_id] at hsplit
  rw [splitSql, hsplit, id_eq, List.filter_flatMap, List.flatMap_map]
  exact List.flatMap_congr fun S _ => filter_pushed (uncommented S)

end

end Swazz.Sql
