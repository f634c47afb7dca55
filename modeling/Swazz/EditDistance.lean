import Mathlib.Order.Bounds.Basic
import Mathlib.Order.Lattice.Nat
import Mathlib.Tactic.Cases

/-! The edit distance of two lists: the least number of insertions, deletions and substitutions
that turn one into the other. -/
namespace EditDistance

variable {α : Type*} {a b c t t' : List α} {n m : ℕ}

/-- One insertion, deletion or substitution. -/
inductive Edit : List α → List α → Prop
  | insert (u v : List α) (x : α) : Edit (u ++ v) (u ++ x :: v)
  | delete (u v : List α) (x : α) : Edit (u ++ x :: v) (u ++ v)
  | substitute (u v : List α) (x y : α) : Edit (u ++ x :: v) (u ++ y :: v)

/-- So many edits turn one list into the other. -/
inductive Edits : ℕ → List α → List α → Prop
  | zero (a : List α) : Edits 0 a a
  | succ {n : ℕ} {a b c : List α} : Edits n a b → Edit b c → Edits (n + 1) a c

theorem Edit.symm (h : Edit a b) : Edit b a := by
  cases h with
  | insert u v x => exact .delete u v x
  | delete u v x => exact .insert u v x
  | substitute u v x y => exact .substitute u v y x

theorem Edit.cons (z : α) (h : Edit a b) : Edit (z :: a) (z :: b) := by
  cases h with
  | insert u v x => exact .insert (z :: u) v x
  | delete u v x => exact .delete (z :: u) v x
  | substitute u v x y => exact .substitute (z :: u) v x y

theorem Edit.reverse (h : Edit a b) : Edit a.reverse b.reverse := by
  cases h with
  | insert u v x => simpa using Edit.insert v.reverse u.reverse x
  | delete u v x => simpa using Edit.delete v.reverse u.reverse x
  | substitute u v x y => simpa using Edit.substitute v.reverse u.reverse x y

theorem Edits.trans (hab : Edits n a b) (hbc : Edits m b c) : Edits (n + m) a c := by
  induction hbc with
  | zero b => exact hab
  | succ _ hedit ih => exact (ih hab).succ hedit

theorem Edits.map {f : List α → List α} (hf : ∀ {a b : List α}, Edit a b → Edit (f a) (f b))
    (h : Edits n a b) : Edits n (f a) (f b) := by
  induction h with
  | zero a => exact .zero (f a)
  | succ _ hedit ih => exact ih.succ (hf hedit)

theorem Edits.symm (h : Edits n a b) : Edits n b a := by
  induction h with
  | zero a => exact .zero a
  | @succ n a b c _ hedit ih =>
    have hone : Edits 1 c b := (Edits.zero c).succ hedit.symm
    rw [Nat.add_comm]
    exact hone.trans ih

theorem Edits.delete_all (a : List α) : Edits a.length a [] := by
  induction a with
  | nil => exact .zero []
  | cons x a ih =>
    rw [List.length_cons, Nat.add_comm]
    exact ((Edits.zero _).succ (.delete [] a x)).trans ih

variable [DecidableEq α]

/-- What it costs to put one entry in another's place. -/
def change (x y : α) : ℕ := if x = y then 0 else 1

theorem change_le_one (x y : α) : change x y ≤ 1 := by
  unfold change
  split_ifs <;> omega

/-- The recurrence of the edit distance. -/
def distance : List α → List α → ℕ
  | [], b => b.length
  | x :: a, [] => (x :: a).length
  | x :: a, y :: b =>
    min (distance a (y :: b) + 1) (min (distance (x :: a) b + 1) (distance a b + change x y))
termination_by a b => a.length + b.length

@[simp] theorem distance_nil_left (b : List α) : distance [] b = b.length := by
  rw [distance]

@[simp] theorem distance_nil_right (a : List α) : distance a [] = a.length := by
  cases a <;> rw [distance]

theorem distance_cons (x y : α) (a b : List α) :
    distance (x :: a) (y :: b) =
      min (distance a (y :: b) + 1) (min (distance (x :: a) b + 1) (distance a b + change x y)) := by
  rw [distance]

/-- The three ways to align the heads bound the distance. -/
theorem distance_cons_le (x y : α) (a b : List α) :
    distance (x :: a) (y :: b) ≤ distance a (y :: b) + 1 ∧
      distance (x :: a) (y :: b) ≤ distance (x :: a) b + 1 ∧
      distance (x :: a) (y :: b) ≤ distance a b + change x y := by
  rw [distance_cons]
  omega

theorem distance_cons_right_le (a b : List α) (y : α) : distance a (y :: b) ≤ distance a b + 1 := by
  cases a with
  | nil => simp
  | cons x a => exact (distance_cons_le x y a b).2.1

theorem distance_cons_left_le (a b : List α) (x : α) : distance (x :: a) b ≤ distance a b + 1 := by
  cases b with
  | nil => simp
  | cons y b => exact (distance_cons_le x y a b).1

/-- One of the three ways to align the heads gives the distance. -/
theorem distance_cons_cases (x y : α) (a b : List α) :
    distance (x :: a) (y :: b) = distance a (y :: b) + 1 ∨
      distance (x :: a) (y :: b) = distance (x :: a) b + 1 ∨
      distance (x :: a) (y :: b) = distance a b + change x y := by
  rw [distance_cons]
  omega

/-! ## The recurrence gives the least number of edits -/

theorem edits_distance (a b : List α) : Edits (distance a b) a b := by
  induction a, b using distance.induct with
  | case1 b =>
    rw [distance_nil_left]
    exact (Edits.delete_all b).symm
  | case2 x a =>
    rw [distance_nil_right]
    exact Edits.delete_all (x :: a)
  | case3 x a y b ihdelete ihinsert ihchange =>
    rcases distance_cons_cases x y a b with h | h | h
    · rw [h, Nat.add_comm]
      exact ((Edits.zero _).succ (.delete [] a x)).trans ihdelete
    · rw [h]
      exact ihinsert.succ (.insert [] b y)
    · rw [h]
      have hheads : Edits (distance a b) (x :: a) (x :: b) := ihchange.map (Edit.cons x)
      unfold change
      split_ifs with hxy
      · rwa [← hxy, Nat.add_zero]
      · exact hheads.succ (.substitute [] b x y)

theorem distance_tail_le (a b : List α) (x : α) : distance a b ≤ distance a (x :: b) + 1 := by
  induction a with
  | nil =>
    simp
    omega
  | cons z a ih =>
    have hless := distance_cons_left_le a b z
    rcases distance_cons_cases z x a b with h | h | h <;> omega

theorem distance_head_le (a b : List α) (x y : α) :
    distance a (y :: b) ≤ distance a (x :: b) + 1 := by
  induction a with
  | nil => simp
  | cons z a ih =>
    obtain ⟨hdelete, hinsert, hchange⟩ := distance_cons_le z y a b
    have hone := change_le_one z y
    rcases distance_cons_cases z x a b with h | h | h <;> omega

/-- A bound that holds for two tails holds with one head before both. -/
theorem distance_cons_mono (z : α) (h : ∀ a : List α, distance a t' ≤ distance a t + 1)
    (a : List α) : distance a (z :: t') ≤ distance a (z :: t) + 1 := by
  induction a with
  | nil =>
    have hnil := h []
    simpa using hnil
  | cons x a ih =>
    obtain ⟨hdelete, hinsert, hchange⟩ := distance_cons_le x z a t'
    have htail := h (x :: a)
    have hboth := h a
    rcases distance_cons_cases x z a t with hc | hc | hc <;> omega

theorem distance_append_mono (u : List α) (h : ∀ a : List α, distance a t' ≤ distance a t + 1)
    (a : List α) : distance a (u ++ t') ≤ distance a (u ++ t) + 1 := by
  induction u generalizing a with
  | nil => exact h a
  | cons z u ih => exact distance_cons_mono z ih a

/-- One edit changes the distance by one at most. -/
theorem distance_edit_le (a : List α) (h : Edit b c) : distance a c ≤ distance a b + 1 := by
  cases h with
  | insert u v x => exact distance_append_mono u (fun a => distance_cons_right_le a v x) a
  | delete u v x => exact distance_append_mono u (fun a => distance_tail_le a v x) a
  | substitute u v x y => exact distance_append_mono u (fun a => distance_head_le a v x y) a

theorem distance_self (a : List α) : distance a a = 0 := by
  induction a with
  | nil => simp
  | cons x a ih =>
    have hkeep := (distance_cons_le x x a a).2.2
    rw [ih, change, if_pos rfl] at hkeep
    omega

theorem distance_le_of_edits (h : Edits n a b) : distance a b ≤ n := by
  induction h with
  | zero a => exact (distance_self a).le
  | @succ n a b c _ hedit ih =>
    calc distance a c ≤ distance a b + 1 := distance_edit_le a hedit
      _ ≤ n + 1 := Nat.add_le_add_right ih 1

theorem isLeast_distance (a b : List α) : IsLeast {n | Edits n a b} (distance a b) :=
  ⟨edits_distance a b, fun _ h => distance_le_of_edits h⟩

theorem distance_comm (a b : List α) : distance a b = distance b a :=
  Nat.le_antisymm (distance_le_of_edits (edits_distance b a).symm)
    (distance_le_of_edits (edits_distance a b).symm)

theorem distance_triangle (a b c : List α) : distance a c ≤ distance a b + distance b c :=
  distance_le_of_edits ((edits_distance a b).trans (edits_distance b c))

theorem distance_reverse (a b : List α) : distance a.reverse b.reverse = distance a b := by
  apply Nat.le_antisymm
  · exact distance_le_of_edits ((edits_distance a b).map Edit.reverse)
  · have hback := (edits_distance a.reverse b.reverse).map Edit.reverse
    rw [List.reverse_reverse, List.reverse_reverse] at hback
    exact distance_le_of_edits hback

theorem distance_le_length (a b : List α) : distance a b ≤ max a.length b.length := by
  induction a generalizing b with
  | nil => simp
  | cons x a ih =>
    cases b with
    | nil => simp
    | cons y b =>
      have hchange := (distance_cons_le x y a b).2.2
      have hone := change_le_one x y
      have htails := ih b
      simp only [List.length_cons]
      omega

end EditDistance
