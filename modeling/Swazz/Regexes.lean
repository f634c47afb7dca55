import Mathlib.Data.List.Infix

/-! Regular expressions whose matches are tried in an order of preference, and the texts that
every match must contain. -/
namespace Regexes

/-- An expression over classes of characters. -/
inductive Regex (κ : Type*) where
  | empty
  | one (k : κ)
  | many (k : κ) (least : ℕ) (most : Option ℕ)
  | seq (r q : Regex κ)
  | alt (r q : Regex κ)
  | boundary
  | begin

namespace Regex

variable {κ : Type*}

instance : Append (Regex κ) := ⟨seq⟩

instance : OrOp (Regex κ) := ⟨alt⟩

def text (ks : List κ) : Regex κ := ks.foldr (fun k r => one k ++ r) empty

def opt (r : Regex κ) : Regex κ := r ||| empty

end Regex

/-- The characters of each class, and those that make up words. -/
structure Alphabet (κ α : Type*) where
  holds : κ → α → Bool
  word : α → Bool

/-- The ways a list starts with characters of one kind, the longest first. -/
def stretches {α : Type*} (holds : α → Bool) : ℕ → Option ℕ → List α → List (List α × List α)
  | least, _, [] => if least = 0 then [([], [])] else []
  | least, most, a :: s =>
    (if holds a ∧ most ≠ some 0 then
      (stretches holds (least - 1) (most.map (· - 1)) s).map fun p => (a :: p.1, p.2)
    else []) ++ if least = 0 then [([], a :: s)] else []

namespace Alphabet

variable {κ α β : Type*} (A : Alphabet κ α)

/-- The last character of what was read, and of what stood before it. -/
def after (left : Option α) (u : List α) : Option α := u.getLast?.or left

/-- The matches at the start of a list behind a character, in the order of preference: what is
read and what is left. -/
def spans : Regex κ → Option α → List α → List (List α × List α)
  | .empty, _, s => [([], s)]
  | .one _, _, [] => []
  | .one k, _, a :: s => if A.holds k a then [([a], s)] else []
  | .many k least most, _, s => stretches (A.holds k) least most s
  | .seq r q, left, s => (spans r left s).flatMap fun p =>
    (spans q (after left p.1) p.2).map fun p' => (p.1 ++ p'.1, p'.2)
  | .alt r q, left, s => spans r left s ++ spans q left s
  | .boundary, left, s => if left.any A.word = s.head?.any A.word then [] else [([], s)]
  | .begin, left, s => if left.isNone then [([], s)] else []

/-- The first match: what stands before it, and what it reads. -/
def find (r : Regex κ) : Option α → List α → Option (List α × List α)
  | left, [] => (A.spans r left []).head?.map fun p => ([], p.1)
  | left, a :: s => ((A.spans r left (a :: s)).head?.map fun p => ([], p.1)).or
    ((find r (some a) s).map fun p => (a :: p.1, p.2))

/-- A list stands for an expression between two characters. -/
def Reads : Regex κ → Option α → List α → Option α → Prop
  | .empty, _, u, _ => u = []
  | .one k, _, u, _ => ∃ a, A.holds k a ∧ u = [a]
  | .many k least most, _, u, _ =>
    (∀ a ∈ u, A.holds k a) ∧ least ≤ u.length ∧ ∀ m ∈ most, u.length ≤ m
  | .seq r q, left, u, right => ∃ v w, u = v ++ w ∧ Reads r left v (w.head?.or right) ∧
    Reads q (after left v) w right
  | .alt r q, left, u, right => Reads r left u right ∨ Reads q left u right
  | .boundary, left, u, right => u = [] ∧ left.any A.word ≠ right.any A.word
  | .begin, left, u, _ => u = [] ∧ left = none

/-- An expression has a match in a list. -/
def Occurs (r : Regex κ) (left : Option α) (s : List α) : Prop :=
  ∃ b u v, s = b ++ u ++ v ∧ A.Reads r (after left b) u v.head?

end Alphabet

/-! ### Matches -/

theorem mem_stretches {α : Type*} {holds : α → Bool} {least : ℕ} {most : Option ℕ}
    {s u v : List α} : (u, v) ∈ stretches holds least most s ↔
      s = u ++ v ∧ (∀ a ∈ u, holds a) ∧ least ≤ u.length ∧ ∀ m ∈ most, u.length ≤ m := by
  induction s generalizing least most u with
  | nil =>
    rw [stretches]
    constructor
    · intro h
      split at h
      · rename_i hzero
        obtain ⟨rfl, rfl⟩ := Prod.mk.inj (List.mem_singleton.mp h)
        simp [hzero]
      · cases h
    · rintro ⟨huv, -, hleast, -⟩
      obtain ⟨rfl, rfl⟩ := List.append_eq_nil_iff.mp huv.symm
      rw [if_pos (Nat.le_zero.mp hleast)]
      exact List.mem_singleton_self _
  | cons a s ih =>
    rw [stretches, List.mem_append]
    cases u with
    | nil =>
      have hleft : ([], v) ∉ (if holds a ∧ most ≠ some 0 then
          (stretches holds (least - 1) (most.map (· - 1)) s).map fun p => (a :: p.1, p.2)
          else []) := by
        split
        · intro h
          obtain ⟨p, -, hp⟩ := List.mem_map.mp h
          cases hp
        · exact List.not_mem_nil
      simp only [hleft, false_or]
      constructor
      · intro h
        split at h
        · rename_i hzero
          obtain ⟨-, rfl⟩ := Prod.mk.inj (List.mem_singleton.mp h)
          simp [hzero]
        · cases h
      · rintro ⟨hv, -, hleast, -⟩
        rw [if_pos (Nat.le_zero.mp hleast), List.mem_singleton, ← List.nil_append v, ← hv]
    | cons c u =>
      have hright : (c :: u, v) ∉ (if least = 0 then [([], a :: s)] else []) := by
        split
        · intro h
          cases (Prod.mk.inj (List.mem_singleton.mp h)).1
        · exact List.not_mem_nil
      simp only [hright, or_false]
      have hmost : (∀ m ∈ most, u.length + 1 ≤ m) ↔
          most ≠ some 0 ∧ ∀ m ∈ most.map (· - 1), u.length ≤ m := by
        cases most with
        | none => simp
        | some m =>
          simp only [Option.mem_def, Option.some.injEq, forall_eq', Option.map_some, ne_eq]
          omega
      constructor
      · intro h
        split at h
        · rename_i hstep
          obtain ⟨p, hp, heq⟩ := List.mem_map.mp h
          obtain ⟨hcons, rfl⟩ := Prod.mk.inj heq
          obtain ⟨rfl, rfl⟩ := List.cons.inj hcons
          obtain ⟨rfl, hu, hleast, hm⟩ := ih.mp hp
          refine ⟨rfl, List.forall_mem_cons.mpr ⟨hstep.1, hu⟩, ?_, hmost.mpr ⟨hstep.2, hm⟩⟩
          rw [List.length_cons]
          omega
        · cases h
      · rintro ⟨hcons, hu, hleast, hm⟩
        obtain ⟨rfl, rfl⟩ := List.cons.inj hcons
        obtain ⟨ha, hu⟩ := List.forall_mem_cons.mp hu
        obtain ⟨hzero, hm⟩ := hmost.mp hm
        rw [List.length_cons] at hleast
        rw [if_pos ⟨ha, hzero⟩]
        exact List.mem_map.mpr ⟨(u, v), ih.mpr ⟨rfl, hu, by omega, hm⟩, rfl⟩

namespace Alphabet

variable {κ α β : Type*} {A : Alphabet κ α} {r q : Regex κ} {left right : Option α}
variable {s u v : List α}

theorem after_append (left : Option α) (u v : List α) :
    after left (u ++ v) = after (after left u) v := by
  rw [after, after, after, List.getLast?_append, Option.or_assoc]

theorem head_append (u v : List α) : (u ++ v).head? = u.head?.or v.head? := by
  cases u with
  | nil => rfl
  | cons a u => rfl

/-- The matches at the start of a list are the starts that the expression stands for. -/
theorem mem_spans : (u, v) ∈ A.spans r left s ↔ s = u ++ v ∧ A.Reads r left u v.head? := by
  induction r generalizing left s u v with
  | empty =>
    rw [spans, List.mem_singleton, Prod.mk.injEq, Reads]
    constructor
    · rintro ⟨rfl, rfl⟩
      exact ⟨rfl, rfl⟩
    · rintro ⟨rfl, rfl⟩
      exact ⟨rfl, rfl⟩
  | one k =>
    rw [Reads]
    constructor
    · intro h
      cases s with
      | nil => cases h
      | cons a s =>
        rw [spans] at h
        split at h
        · obtain ⟨rfl, rfl⟩ := Prod.mk.inj (List.mem_singleton.mp h)
          exact ⟨rfl, a, ‹_›, rfl⟩
        · cases h
    · rintro ⟨rfl, a, ha, rfl⟩
      rw [List.singleton_append, spans, if_pos ha]
      exact List.mem_singleton_self _
  | many k least most =>
    rw [spans, mem_stretches, Reads]
  | seq r q ihr ihq =>
    rw [spans, List.mem_flatMap, Reads]
    constructor
    · rintro ⟨⟨a, b⟩, hfirst, h⟩
      obtain ⟨⟨c, d⟩, hsecond, heq⟩ := List.mem_map.mp h
      obtain ⟨rfl, rfl⟩ := Prod.mk.inj heq
      obtain ⟨hs, hr⟩ := ihr.mp hfirst
      obtain ⟨hb, hq⟩ := ihq.mp hsecond
      dsimp only at hb hq ⊢
      rw [hb, head_append] at hr
      exact ⟨by rw [hs, hb, List.append_assoc], a, c, rfl, hr, hq⟩
    · rintro ⟨rfl, a, c, rfl, hr, hq⟩
      rw [← head_append] at hr
      refine ⟨(a, c ++ v), ihr.mpr ⟨List.append_assoc _ _ _, hr⟩, ?_⟩
      exact List.mem_map.mpr ⟨(c, v), ihq.mpr ⟨rfl, hq⟩, rfl⟩
  | alt r q ihr ihq =>
    rw [spans, List.mem_append, ihr, ihq, Reads, and_or_left]
  | boundary =>
    rw [spans, Reads]
    constructor
    · intro h
      split at h
      · cases h
      · obtain ⟨rfl, rfl⟩ := Prod.mk.inj (List.mem_singleton.mp h)
        exact ⟨rfl, rfl, ‹_›⟩
    · rintro ⟨rfl, rfl, h⟩
      rw [List.nil_append, if_neg h]
      exact List.mem_singleton_self _
  | begin =>
    rw [spans, Reads]
    constructor
    · intro h
      split at h
      · rename_i hnone
        obtain ⟨rfl, rfl⟩ := Prod.mk.inj (List.mem_singleton.mp h)
        exact ⟨rfl, rfl, Option.isNone_iff_eq_none.mp hnone⟩
      · cases h
    · rintro ⟨rfl, rfl, rfl⟩
      exact List.mem_singleton_self _

theorem find_eq_none : A.find r left s = none ↔ ¬ A.Occurs r left s := by
  have hhead (l : Option α) (t : List α) : (A.spans r l t).head?.map
      (fun p => (([] : List α), p.1)) = none ↔ ∀ u v, t = u ++ v → ¬ A.Reads r l u v.head? := by
    rw [Option.map_eq_none_iff, List.head?_eq_none_iff, List.eq_nil_iff_forall_not_mem]
    constructor
    · intro h u v ht hreads
      exact h (u, v) (mem_spans.mpr ⟨ht, hreads⟩)
    · rintro h ⟨u, v⟩ hmem
      obtain ⟨ht, hreads⟩ := mem_spans.mp hmem
      exact h u v ht hreads
  induction s generalizing left with
  | nil =>
    rw [find, hhead]
    constructor
    · rintro h ⟨b, u, v, hs, hreads⟩
      obtain ⟨hbu, rfl⟩ := List.append_eq_nil_iff.mp hs.symm
      obtain ⟨rfl, rfl⟩ := List.append_eq_nil_iff.mp hbu
      exact h [] [] rfl hreads
    · intro h u v hs hreads
      exact h ⟨[], u, v, hs, hreads⟩
  | cons a s ih =>
    have hrest : A.find r (some a) s = none ↔ ¬ A.Occurs r (some a) s := ih
    rw [find, Option.or_eq_none_iff, hhead, Option.map_eq_none_iff]
    rw [hrest]
    constructor
    · rintro ⟨hhere, hlater⟩ ⟨b, u, v, hs, hreads⟩
      cases b with
      | nil => exact hhere u v hs hreads
      | cons c b =>
        rw [List.cons_append, List.cons_append] at hs
        obtain ⟨rfl, rfl⟩ := List.cons.inj hs
        rw [← List.singleton_append, after_append] at hreads
        exact hlater ⟨b, u, v, rfl, hreads⟩
    · intro h
      constructor
      · intro u v hs hreads
        exact h ⟨[], u, v, hs, hreads⟩
      · rintro ⟨b, u, v, rfl, hreads⟩
        refine h ⟨a :: b, u, v, rfl, ?_⟩
        rw [← List.singleton_append, after_append]
        exact hreads

/-! ### The character before -/

end Alphabet

/-- An expression that does not ask for the beginning of the text. -/
def Regex.inner {κ : Type*} : Regex κ → Bool
  | .seq r q => r.inner && q.inner
  | .alt r q => r.inner && q.inner
  | .begin => false
  | _ => true

/-- An expression that asks for the edge of a word. -/
def Regex.bounded {κ : Type*} : Regex κ → Bool
  | .seq r q => r.bounded || q.bounded
  | .alt r q => r.bounded || q.bounded
  | .boundary => true
  | _ => false

namespace Alphabet

variable {κ α β : Type*} {A : Alphabet κ α} {r q : Regex κ} {left left' : Option α}
variable {s u v : List α}

/-- Of the character before, only whether it is part of a word counts. -/
theorem spans_congr (hr : r.inner) (hleft : r.bounded → left.any A.word = left'.any A.word) :
    A.spans r left s = A.spans r left' s := by
  induction r generalizing left left' s with
  | empty => rfl
  | one k => cases s <;> rfl
  | many k least most => rfl
  | seq r q ihr ihq =>
    obtain ⟨hr, hq⟩ := Bool.and_eq_true_iff.mp hr
    rw [spans, spans, ihr hr fun h => hleft (Bool.or_eq_true_iff.mpr (Or.inl h))]
    refine List.flatMap_congr fun p hp => ?_
    have hafter (h : q.bounded) : (after left p.1).any A.word = (after left' p.1).any A.word := by
      rw [after, after]
      cases p.1.getLast? with
      | none => exact hleft (Bool.or_eq_true_iff.mpr (Or.inr h))
      | some a => rfl
    rw [ihq hq hafter]
  | alt r q ihr ihq =>
    obtain ⟨hr, hq⟩ := Bool.and_eq_true_iff.mp hr
    rw [spans, spans, ihr hr fun h => hleft (Bool.or_eq_true_iff.mpr (Or.inl h)),
      ihq hq fun h => hleft (Bool.or_eq_true_iff.mpr (Or.inr h))]
  | boundary => rw [spans, spans, hleft rfl]
  | begin => cases hr

theorem spans_begin (r : Regex κ) (s : List α) :
    A.spans (.begin ++ r) none s = A.spans r none s := by
  have hseq : A.spans (.begin ++ r) none s =
      (A.spans r none s).map (fun p => (([] : List α) ++ p.1, p.2)) ++ [] := rfl
  rw [hseq, List.append_nil]
  exact List.map_id' _

/-- An expression that asks for the beginning of the text is tried there only. -/
theorem find_begin (r : Regex κ) (s : List α) :
    A.find (.begin ++ r) none s = (A.spans r none s).head?.map fun p => ([], p.1) := by
  have hlater (a : α) (s : List α) : A.find (.begin ++ r) (some a) s = none := by
    induction s generalizing a with
    | nil => rfl
    | cons b s ih =>
      rw [find, ih b]
      rfl
  cases s with
  | nil => rw [find, spans_begin]
  | cons a s => rw [find, spans_begin, hlater, Option.map_none, Option.or_none]

theorem spans_boundary (hleft : left.any A.word = s.head?.any A.word) :
    A.spans (.boundary ++ r) left s = [] := by
  have hseq : A.spans (.boundary ++ r) left s = (A.spans .boundary left s).flatMap fun p =>
      (A.spans r (after left p.1) p.2).map fun p' => (p.1 ++ p'.1, p'.2) := rfl
  rw [hseq, spans, if_pos hleft, List.flatMap_nil]

end Alphabet

/-! ### What every match contains -/

/-- The alternatives of an expression, each with the units it spells and gaps for the others. -/
def Regex.runs {κ β : Type*} (literal : κ → Option β) : Regex κ → List (List (Option β))
  | .one k => [[literal k]]
  | .many _ _ _ => [[none]]
  | .seq r q => (r.runs literal).flatMap fun run => (q.runs literal).map (run ++ ·)
  | .alt r q => r.runs literal ++ q.runs literal
  | _ => [[]]

/-- A list has the units of a run in their order, and anything in the gaps. -/
def Fits {β : Type*} : List (Option β) → List β → Prop
  | [], w => w = []
  | some b :: run, w => ∃ w', w = b :: w' ∧ Fits run w'
  | none :: run, w => ∃ v w', w = v ++ w' ∧ Fits run w'

theorem fits_gap {β : Type*} (w : List β) : Fits [none] w := ⟨w, [], (List.append_nil w).symm, rfl⟩

theorem Fits.append {β : Type*} {run run' : List (Option β)} {v w : List β} (hv : Fits run v)
    (hw : Fits run' w) : Fits (run ++ run') (v ++ w) := by
  induction run generalizing v with
  | nil =>
    obtain rfl : v = [] := hv
    exact hw
  | cons b run ih =>
    cases b with
    | some b =>
      obtain ⟨v', rfl, hv'⟩ := hv
      exact ⟨v' ++ w, rfl, ih hv'⟩
    | none =>
      obtain ⟨u, v', rfl, hv'⟩ := hv
      exact ⟨u, v' ++ w, List.append_assoc _ _ _, ih hv'⟩

theorem Fits.starts {β : Type*} {run : List (Option β)} {w needle : List β} (h : Fits run w)
    (hneedle : needle.map some <+: run) : needle <+: w := by
  induction needle generalizing run w with
  | nil => exact List.nil_prefix
  | cons b needle ih =>
    obtain ⟨run', rfl⟩ := hneedle
    obtain ⟨w', rfl, hrest⟩ := h
    exact List.cons_prefix_cons.mpr ⟨rfl, ih hrest ⟨run', rfl⟩⟩

theorem Fits.holds {β : Type*} {run : List (Option β)} {w needle : List β} (h : Fits run w)
    (hneedle : needle.map some <:+: run) : needle <:+: w := by
  induction run generalizing w with
  | nil =>
    rw [List.infix_nil, List.map_eq_nil_iff] at hneedle
    rw [hneedle]
    exact List.nil_infix
  | cons b run ih =>
    rcases List.infix_cons_iff.mp hneedle with hstart | hlater
    · exact (h.starts hstart).isInfix
    · cases b with
      | some b =>
        obtain ⟨w', rfl, hrest⟩ := h
        exact (ih hrest hlater).trans (List.suffix_cons b w').isInfix
      | none =>
        obtain ⟨v, w', rfl, hrest⟩ := h
        exact (ih hrest hlater).trans (List.suffix_append v w').isInfix

/-- The literals of the classes, for the characters of a kind: such a character of a class with
a literal is written as that unit. -/
structure Literals {κ α β : Type*} (A : Alphabet κ α) where
  literal : κ → Option β
  units : α → List β
  plain : α → Prop
  units_eq : ∀ {k : κ} {b : β} {a : α}, plain a → literal k = some b → A.holds k a → units a = [b]

namespace Literals

variable {κ α β : Type*} {A : Alphabet κ α} (L : Literals (β := β) A) {r : Regex κ}
variable {left right : Option α} {s u : List α}

theorem fits (hplain : ∀ a ∈ u, L.plain a) (h : A.Reads r left u right) :
    ∃ run ∈ r.runs L.literal, Fits run (u.flatMap L.units) := by
  induction r generalizing left right u with
  | empty =>
    obtain rfl : u = [] := h
    exact ⟨[], List.mem_singleton_self _, rfl⟩
  | one k =>
    obtain ⟨a, ha, rfl⟩ := h
    refine ⟨[L.literal k], List.mem_singleton_self _, ?_⟩
    rw [List.flatMap_singleton]
    cases hk : L.literal k with
    | none => exact fits_gap _
    | some b => exact ⟨[], L.units_eq (hplain a (List.mem_singleton_self a)) hk ha, rfl⟩
  | many k least most => exact ⟨[none], List.mem_singleton_self _, fits_gap _⟩
  | seq r q ihr ihq =>
    obtain ⟨v, w, rfl, hr, hq⟩ := h
    obtain ⟨hv, hw⟩ := List.forall_mem_append.mp hplain
    obtain ⟨run, hrun, hfits⟩ := ihr hv hr
    obtain ⟨run', hrun', hfits'⟩ := ihq hw hq
    refine ⟨run ++ run', List.mem_flatMap.mpr ⟨run, hrun, List.mem_map_of_mem hrun'⟩, ?_⟩
    rw [List.flatMap_append]
    exact hfits.append hfits'
  | alt r q ihr ihq =>
    rcases h with h | h
    · obtain ⟨run, hrun, hfits⟩ := ihr hplain h
      exact ⟨run, List.mem_append_left _ hrun, hfits⟩
    · obtain ⟨run, hrun, hfits⟩ := ihq hplain h
      exact ⟨run, List.mem_append_right _ hrun, hfits⟩
  | boundary =>
    obtain ⟨rfl, -⟩ := h
    exact ⟨[], List.mem_singleton_self _, rfl⟩
  | begin =>
    obtain ⟨rfl, -⟩ := h
    exact ⟨[], List.mem_singleton_self _, rfl⟩

/-- Each alternative of the expression spells one of the needles. -/
def spells [DecidableEq β] (literal : κ → Option β) (r : Regex κ) (needles : List (List β)) :
    Bool :=
  (r.runs literal).all fun run => needles.any fun needle => needle.map some <:+: run

/-- Each alternative of the expression starts with one of the needles. -/
def opens [DecidableEq β] (literal : κ → Option β) (r : Regex κ) (needles : List (List β)) :
    Bool :=
  (r.runs literal).all fun run => needles.any fun needle => needle.map some <+: run

variable [DecidableEq β] (needles : List (List β))

/-- What the first part starts with, the whole does. -/
theorem opens_seq {literal : κ → Option β} {needles : List (List β)} (q : Regex κ)
    (h : opens literal r needles) : opens literal (r ++ q) needles := by
  refine List.all_eq_true.mpr fun run hrun => ?_
  obtain ⟨first, hfirst, hmem⟩ := List.mem_flatMap.mp hrun
  obtain ⟨second, -, rfl⟩ := List.mem_map.mp hmem
  obtain ⟨needle, hneedle, hin⟩ := List.any_eq_true.mp (List.all_eq_true.mp h first hfirst)
  exact List.any_eq_true.mpr ⟨needle, hneedle, decide_eq_true
    ((of_decide_eq_true hin).trans (List.prefix_append first second))⟩

/-- What the first part spells, the whole does. -/
theorem spells_seq {literal : κ → Option β} {needles : List (List β)} (q : Regex κ)
    (h : spells literal r needles) : spells literal (r ++ q) needles := by
  refine List.all_eq_true.mpr fun run hrun => ?_
  obtain ⟨first, hfirst, hmem⟩ := List.mem_flatMap.mp hrun
  obtain ⟨second, -, rfl⟩ := List.mem_map.mp hmem
  obtain ⟨needle, hneedle, hin⟩ := List.any_eq_true.mp (List.all_eq_true.mp h first hfirst)
  exact List.any_eq_true.mpr ⟨needle, hneedle, decide_eq_true
    ((of_decide_eq_true hin).trans (List.prefix_append first second).isInfix)⟩

theorem holds_of_reads (hspells : spells L.literal r needles) (hplain : ∀ a ∈ u, L.plain a)
    (h : A.Reads r left u right) : ∃ needle ∈ needles, needle <:+: u.flatMap L.units := by
  obtain ⟨run, hrun, hfits⟩ := L.fits hplain h
  obtain ⟨needle, hneedle, hin⟩ := List.any_eq_true.mp (List.all_eq_true.mp hspells run hrun)
  exact ⟨needle, hneedle, hfits.holds (of_decide_eq_true hin)⟩

theorem starts_of_reads (hopens : opens L.literal r needles) (hplain : ∀ a ∈ u, L.plain a)
    (h : A.Reads r left u right) : ∃ needle ∈ needles, needle <+: u.flatMap L.units := by
  obtain ⟨run, hrun, hfits⟩ := L.fits hplain h
  obtain ⟨needle, hneedle, hin⟩ := List.any_eq_true.mp (List.all_eq_true.mp hopens run hrun)
  exact ⟨needle, hneedle, hfits.starts (of_decide_eq_true hin)⟩

theorem holds_of_occurs (hspells : spells L.literal r needles) (hplain : ∀ a ∈ s, L.plain a)
    (h : A.Occurs r left s) : ∃ needle ∈ needles, needle <:+: s.flatMap L.units := by
  obtain ⟨b, u, v, rfl, hreads⟩ := h
  obtain ⟨hbu, -⟩ := List.forall_mem_append.mp hplain
  obtain ⟨needle, hneedle, hin⟩ :=
    L.holds_of_reads needles hspells (List.forall_mem_append.mp hbu).2 hreads
  refine ⟨needle, hneedle, hin.trans ?_⟩
  rw [List.flatMap_append, List.flatMap_append]
  exact ⟨_, _, rfl⟩

end Literals

/-! ### Usual and unusual matches -/

/-- How a part of an expression is usually read, and its other readings. -/
structure Usage {κ α : Type*} (A : Alphabet κ α) where
  usual : Regex κ → Regex κ
  unusual : Regex κ → List (Regex κ)
  reads_iff : ∀ {r : Regex κ} {left : Option α} {u : List α} {right : Option α},
    A.Reads r left u right ↔
      A.Reads (usual r) left u right ∨ ∃ q ∈ unusual r, A.Reads q left u right

namespace Usage

variable {κ α : Type*} {A : Alphabet κ α} (U : Usage A)

/-- Every part is read as usual. -/
def tight : Regex κ → Regex κ
  | .seq r q => .seq (tight r) (tight q)
  | .alt r q => .alt (tight r) (tight q)
  | r => U.usual r

/-- One part is not read as usual, and those before it are. -/
def loose : Regex κ → List (Regex κ)
  | .seq r q => (loose r).map (.seq · q) ++ (loose q).map (.seq (tight U r) ·)
  | .alt r q => loose r ++ loose q
  | r => U.unusual r

theorem reads_tight {r : Regex κ} {left : Option α} {u : List α} {right : Option α} :
    A.Reads r left u right ↔
      A.Reads (U.tight r) left u right ∨ ∃ q ∈ U.loose r, A.Reads q left u right := by
  induction r generalizing left u right with
  | seq r q ihr ihq =>
    simp only [tight, loose, List.mem_append, List.mem_map]
    constructor
    · rintro ⟨v, w, rfl, hr, hq⟩
      rcases ihr.mp hr with hr' | ⟨r', hr', hreads⟩
      · rcases ihq.mp hq with hq' | ⟨q', hq', hreads⟩
        · exact Or.inl ⟨v, w, rfl, hr', hq'⟩
        · exact Or.inr ⟨_, Or.inr ⟨q', hq', rfl⟩, v, w, rfl, hr', hreads⟩
      · exact Or.inr ⟨_, Or.inl ⟨r', hr', rfl⟩, v, w, rfl, hreads, hq⟩
    · rintro (⟨v, w, rfl, hr, hq⟩ | ⟨p, ⟨r', hr', rfl⟩ | ⟨q', hq', rfl⟩, v, w, rfl, hr, hq⟩)
      · exact ⟨v, w, rfl, ihr.mpr (Or.inl hr), ihq.mpr (Or.inl hq)⟩
      · exact ⟨v, w, rfl, ihr.mpr (Or.inr ⟨r', hr', hr⟩), hq⟩
      · exact ⟨v, w, rfl, ihr.mpr (Or.inl hr), ihq.mpr (Or.inr ⟨q', hq', hq⟩)⟩
  | alt r q ihr ihq =>
    simp only [tight, loose, List.mem_append, or_and_right, exists_or, Alphabet.Reads, ihr, ihq]
    exact or_or_or_comm
  | _ => exact U.reads_iff

theorem occurs_tight {r : Regex κ} {left : Option α} {s : List α} :
    A.Occurs r left s ↔ A.Occurs (U.tight r) left s ∨ ∃ q ∈ U.loose r, A.Occurs q left s := by
  constructor
  · rintro ⟨b, u, v, rfl, h⟩
    rcases U.reads_tight.mp h with h | ⟨q, hq, h⟩
    · exact Or.inl ⟨b, u, v, rfl, h⟩
    · exact Or.inr ⟨q, hq, b, u, v, rfl, h⟩
  · rintro (⟨b, u, v, rfl, h⟩ | ⟨q, hq, b, u, v, rfl, h⟩)
    · exact ⟨b, u, v, rfl, U.reads_tight.mpr (Or.inl h)⟩
    · exact ⟨b, u, v, rfl, U.reads_tight.mpr (Or.inr ⟨q, hq, h⟩)⟩

end Usage

end Regexes
