import Mathlib.Data.List.Basic
import Mathlib.Tactic.Ring

/-! Streams of bits, the highest first, and the numbers that groups of bits make. -/
namespace BitGroups

/-- The number whose binary digits these are. -/
def ofBits (l : List Bool) : ℕ := l.foldl (fun n b => 2 * n + b.toNat) 0

/-- The lowest `k` binary digits of a number. -/
def toBits : ℕ → ℕ → List Bool
  | 0, _ => []
  | k + 1, n => n.testBit k :: toBits k n

/-- The numbers of the groups of `k` bits, without the bits left over. -/
def groups (k : ℕ) (l : List Bool) : List ℕ :=
  if _ : 0 < k ∧ k ≤ l.length then ofBits (l.take k) :: groups k (l.drop k) else []
termination_by l.length
decreasing_by
  rw [List.length_drop]
  omega

/-- The bits after the last full group. -/
def leftover (k : ℕ) (l : List Bool) : List Bool := l.drop (l.length / k * k)

/-- Zeros are added to a last group that is not full. -/
def padded (k : ℕ) (l : List Bool) : List Bool :=
  l ++ List.replicate ((k - l.length % k) % k) false

variable {k : ℕ} {l m : List Bool}

theorem foldl_bits (l : List Bool) (n : ℕ) :
    l.foldl (fun n b => 2 * n + b.toNat) n = n * 2 ^ l.length + ofBits l := by
  induction l generalizing n with
  | nil => simp [ofBits]
  | cons b l ih =>
    rw [ofBits, List.foldl_cons, List.foldl_cons, ih, ih (2 * 0 + b.toNat), List.length_cons]
    ring

theorem ofBits_append (l m : List Bool) :
    ofBits (l ++ m) = ofBits l * 2 ^ m.length + ofBits m := by
  rw [ofBits, List.foldl_append, foldl_bits]
  rfl

theorem ofBits_lt (l : List Bool) : ofBits l < 2 ^ l.length := by
  induction l with
  | nil => simp [ofBits]
  | cons b l ih =>
    have hcons := ofBits_append [b] l
    rw [List.singleton_append] at hcons
    have hb : ofBits [b] ≤ 1 := by cases b <;> simp [ofBits]
    have hmul : ofBits [b] * 2 ^ l.length ≤ 1 * 2 ^ l.length := Nat.mul_le_mul_right _ hb
    rw [hcons, List.length_cons, pow_succ]
    omega

theorem ofBits_zeros (n : ℕ) : ofBits (List.replicate n false) = 0 := by
  induction n with
  | zero => rfl
  | succ n ih => exact ih

/-- The upper bits are the quotient, the lower ones the remainder. -/
theorem ofBits_div (l m : List Bool) : ofBits (l ++ m) / 2 ^ m.length = ofBits l := by
  rw [ofBits_append, add_comm, Nat.add_mul_div_right _ _ (Nat.two_pow_pos _),
    Nat.div_eq_of_lt (ofBits_lt m), zero_add]

theorem ofBits_mod (l m : List Bool) : ofBits (l ++ m) % 2 ^ m.length = ofBits m := by
  rw [ofBits_append, Nat.mul_add_mod_self_right, Nat.mod_eq_of_lt (ofBits_lt m)]

@[simp] theorem length_toBits (k n : ℕ) : (toBits k n).length = k := by
  induction k with
  | zero => rfl
  | succ k ih => rw [toBits, List.length_cons, ih]

theorem ofBits_toBits (k n : ℕ) : ofBits (toBits k n) = n % 2 ^ k := by
  induction k with
  | zero => simp [toBits, ofBits, Nat.mod_one]
  | succ k ih =>
    have hcons := ofBits_append [n.testBit k] (toBits k n)
    rw [List.singleton_append] at hcons
    rw [toBits, hcons, ih, length_toBits, Nat.mod_pow_succ, Nat.testBit_eq_decide_div_mod_eq]
    have hbit := Nat.mod_two_eq_zero_or_one (n / 2 ^ k)
    rcases hbit with hbit | hbit
    · rw [hbit]
      simp [ofBits]
    · rw [hbit]
      simp [ofBits]
      ring

theorem toBits_mod {j : ℕ} (h : k ≤ j) (n : ℕ) : toBits k (n % 2 ^ j) = toBits k n := by
  induction k with
  | zero => rfl
  | succ k ih =>
    rw [toBits, toBits, ih (by omega), Nat.testBit_mod_two_pow, decide_eq_true (by omega),
      Bool.true_and]

theorem toBits_ofBits (l : List Bool) : toBits l.length (ofBits l) = l := by
  induction l with
  | nil => rfl
  | cons b l ih =>
    have hdiv := ofBits_div [b] l
    have hmod := ofBits_mod [b] l
    rw [List.singleton_append] at hdiv hmod
    rw [List.length_cons, toBits, Nat.testBit_eq_decide_div_mod_eq, hdiv,
      ← toBits_mod le_rfl (ofBits (b :: l)), hmod, ih]
    cases b <;> rfl

/-! Groups. -/

theorem groups_append_of_length (hk : 0 < k) (h : l.length = k) (m : List Bool) :
    groups k (l ++ m) = ofBits l :: groups k m := by
  rw [groups, dif_pos ⟨hk, by rw [List.length_append]; omega⟩, List.take_left' h, List.drop_left' h]

theorem groups_of_lt (h : l.length < k) : groups k l = [] := by
  rw [groups, dif_neg (by omega)]

theorem length_groups (hk : 0 < k) (l : List Bool) : (groups k l).length = l.length / k := by
  induction hlen : l.length using Nat.strong_induction_on generalizing l with
  | _ n ih =>
    by_cases hle : k ≤ l.length
    · have hdrop : (l.drop k).length = l.length - k := List.length_drop
      have hrest := ih (l.drop k).length (by omega) (l.drop k) rfl
      rw [groups, dif_pos ⟨hk, hle⟩, List.length_cons, hrest, hdrop, ← hlen,
        Nat.div_eq_sub_div hk hle]
    · rw [groups_of_lt (by omega), ← hlen, Nat.div_eq_of_lt (by omega)]
      rfl

theorem length_leftover (k : ℕ) (l : List Bool) : (leftover k l).length = l.length % k := by
  have hdiv := Nat.div_add_mod l.length k
  rw [leftover, List.length_drop, mul_comm]
  omega

theorem leftover_of_lt (h : l.length < k) : leftover k l = l := by
  rw [leftover, Nat.div_eq_of_lt h, zero_mul, List.drop_zero]

/-- A full group in front does not change what is left over. -/
theorem leftover_append_of_length (hk : 0 < k) (h : l.length = k) (m : List Bool) :
    leftover k (l ++ m) = leftover k m := by
  have hsum : (l.length + m.length) / k * k = k + m.length / k * k := by
    rw [h, Nat.add_div_left _ hk, Nat.succ_mul, add_comm]
  rw [leftover, leftover, List.length_append, hsum, ← List.drop_drop, List.drop_left' h]

/-- Groups are taken from the left: what is left over meets what follows. -/
theorem groups_append (hk : 0 < k) (l m : List Bool) :
    groups k (l ++ m) = groups k l ++ groups k (leftover k l ++ m) ∧
      leftover k (l ++ m) = leftover k (leftover k l ++ m) := by
  induction hlen : l.length using Nat.strong_induction_on generalizing l with
  | _ n ih =>
    by_cases hle : k ≤ l.length
    · have htake : (l.take k).length = k := List.length_take_of_le hle
      have hdrop : (l.drop k).length = l.length - k := List.length_drop
      have hsplit := List.take_append_drop k l
      have hleft : leftover k l = leftover k (l.drop k) := by
        conv_lhs => rw [← hsplit]
        exact leftover_append_of_length hk htake _
      obtain ⟨hgroups, hrest⟩ := ih (l.drop k).length (by omega) (l.drop k) rfl
      constructor
      · have hhead : groups k l = ofBits (l.take k) :: groups k (l.drop k) := by
          rw [groups, dif_pos ⟨hk, hle⟩]
        rw [hhead, hleft, List.cons_append, ← hgroups,
          ← groups_append_of_length hk htake, ← List.append_assoc, hsplit]
      · rw [hleft, ← hrest, ← leftover_append_of_length hk htake (l.drop k ++ m),
          ← List.append_assoc, hsplit]
    · rw [groups_of_lt (l := l) (by omega), leftover_of_lt (l := l) (by omega)]
      exact ⟨rfl, rfl⟩

/-- The groups of the bits of numbers are the numbers. -/
theorem groups_toBits (hk : 0 < k) {ns : List ℕ} (hns : ∀ n ∈ ns, n < 2 ^ k) (h : m.length < k) :
    groups k (ns.flatMap (toBits k) ++ m) = ns := by
  induction ns with
  | nil => exact groups_of_lt h
  | cons n ns ih =>
    rw [List.flatMap_cons, List.append_assoc, groups_append_of_length hk (length_toBits k n),
      ih fun i hi => hns i (List.mem_cons_of_mem n hi), ofBits_toBits,
      Nat.mod_eq_of_lt (hns n List.mem_cons_self)]

theorem lt_of_mem_groups {n : ℕ} (h : n ∈ groups k l) : n < 2 ^ k := by
  induction hlen : l.length using Nat.strong_induction_on generalizing l with
  | _ i ih =>
    rw [groups] at h
    split at h
    · rename_i hk
      rcases List.mem_cons.mp h with rfl | h
      · have hlt := ofBits_lt (l.take k)
        rw [List.length_take_of_le hk.2] at hlt
        exact hlt
      · refine ih (l.drop k).length ?_ h rfl
        rw [List.length_drop]
        omega
    · cases h

/-- Whole groups hold all the bits. -/
theorem flatMap_groups (hk : 0 < k) (h : k ∣ l.length) : (groups k l).flatMap (toBits k) = l := by
  induction hlen : l.length using Nat.strong_induction_on generalizing l with
  | _ n ih =>
    by_cases hle : k ≤ l.length
    · have htake : (l.take k).length = k := List.length_take_of_le hle
      have hdrop : (l.drop k).length = l.length - k := List.length_drop
      have hrest := ih (l.drop k).length (by omega)
        (by rw [hdrop]; exact Nat.dvd_sub h (dvd_refl k)) rfl
      have hbits := toBits_ofBits (l.take k)
      rw [htake] at hbits
      rw [groups, dif_pos ⟨hk, hle⟩, List.flatMap_cons, hrest, hbits, List.take_append_drop]
    · have hzero : l.length = 0 := Nat.eq_zero_of_dvd_of_lt h (by omega)
      rw [List.length_eq_zero_iff.mp hzero]
      exact congrArg (List.flatMap (toBits k)) (groups_of_lt hk)

theorem dvd_length_padded (hk : 0 < k) (l : List Bool) : k ∣ (padded k l).length := by
  have hlt := Nat.mod_lt l.length hk
  rw [padded, List.length_append, List.length_replicate]
  by_cases hzero : l.length % k = 0
  · rw [hzero, Nat.sub_zero, Nat.mod_self]
    exact Nat.dvd_of_mod_eq_zero hzero
  · rw [Nat.mod_eq_of_lt (by omega : k - l.length % k < k)]
    have hsum : l.length + (k - l.length % k) = k * (l.length / k + 1) := by
      have hdiv := Nat.div_add_mod l.length k
      rw [mul_add, mul_one]
      omega
    exact ⟨_, hsum⟩

/-- Numbers of `k` bits are read back from their bits in padded groups of fewer bits. -/
theorem groups_padded {j : ℕ} (hj : 0 < j) (hjk : j ≤ k) {ns : List ℕ} (hns : ∀ n ∈ ns, n < 2 ^ k) :
    groups k ((groups j (padded j (ns.flatMap (toBits k)))).flatMap (toBits j)) = ns := by
  rw [flatMap_groups hj (dvd_length_padded hj _)]
  refine groups_toBits (by omega) hns ?_
  rw [List.length_replicate]
  have hlt := Nat.mod_lt (j - (ns.flatMap (toBits k)).length % j) hj
  omega

end BitGroups
