import Mathlib.Data.List.TakeWhile

/-! Go's strings and slices with their bounds: an index or a bound that is out of range panics. -/
namespace GoSlices

variable {α β ε : Type}

/-- Why a function does not return a result. -/
inductive Halt (ε : Type) where
  | error (e : ε)
  | panic
  deriving DecidableEq

abbrev Run (ε α : Type) := Except (Halt ε) α

/-- `l[i]` -/
def index (l : List α) (i : ℤ) : Run ε α :=
  match if 0 ≤ i then l[i.toNat]? else none with
  | some a => .ok a
  | none => .error .panic

/-- `l[lo:hi]` -/
def slice (l : List α) (lo hi : ℤ) : Run ε (List α) :=
  if 0 ≤ lo ∧ lo ≤ hi ∧ hi ≤ l.length then .ok ((l.take hi.toNat).drop lo.toNat)
  else .error .panic

/-- It returns a result or an error. -/
def Safe (r : Run ε α) : Prop := r ≠ .error .panic

@[simp] theorem safe_ok (a : α) : Safe (.ok a : Run ε α) := nofun

@[simp] theorem safe_error (e : ε) : Safe (.error (.error e) : Run ε α) := nofun

theorem Safe.bind {r : Run ε α} {f : α → Run ε β} (h : Safe r) (hf : ∀ a, r = .ok a → Safe (f a)) :
    Safe (r >>= f) := by
  cases r with
  | ok a => exact hf a rfl
  | error e => exact fun heq => h (congrArg Except.error (Except.error.inj heq))

theorem index_of_lt {l : List α} {i : ℕ} (h : i < l.length) :
    (index l i : Run ε α) = .ok l[i] := by
  rw [index, if_pos (Int.natCast_nonneg i), Int.toNat_natCast, List.getElem?_eq_getElem h]

theorem index_eq_panic {l : List α} {i : ℤ} :
    (index l i : Run ε α) = .error .panic ↔ i < 0 ∨ l.length ≤ i := by
  unfold index
  by_cases hi : 0 ≤ i
  · obtain ⟨n, rfl⟩ := Int.eq_ofNat_of_zero_le hi
    rw [if_pos hi]
    by_cases hn : n < l.length
    · simp [List.getElem?_eq_getElem hn]
      omega
    · simp [List.getElem?_eq_none (Nat.le_of_not_lt hn)]
      omega
  · rw [if_neg hi]
    exact iff_of_true rfl (Or.inl (by omega))

theorem slice_nat {l : List α} {lo hi : ℕ} (hlo : lo ≤ hi) (hhi : hi ≤ l.length) :
    (slice l lo hi : Run ε (List α)) = .ok ((l.take hi).drop lo) := by
  rw [slice, if_pos ⟨by omega, by omega, by omega⟩, Int.toNat_natCast, Int.toNat_natCast]

theorem safe_slice {l : List α} {lo hi : ℤ} (h0 : 0 ≤ lo) (hlo : lo ≤ hi) (hhi : hi ≤ l.length) :
    Safe (slice l lo hi : Run ε (List α)) := by
  rw [slice, if_pos ⟨h0, hlo, hhi⟩]
  exact safe_ok _

/-- `for pos < len(l) && p(l[pos]) { pos++ }`; the first number bounds the iterations. -/
def scanWhile (p : α → Bool) (l : List α) : ℕ → ℕ → Run ε ℕ
  | 0, pos => .ok pos
  | fuel + 1, pos =>
    if pos < l.length then do
      if p (← index l pos) then scanWhile p l fuel (pos + 1) else return pos
    else return pos

/-- A loop that may go to the end stops where the prefix ends that `p` accepts. -/
theorem scanWhile_eq (p : α → Bool) (l : List α) {pos : ℕ} (h : pos ≤ l.length) :
    ∃ stop, (scanWhile p l (l.length - pos) pos : Run ε ℕ) = .ok stop ∧ pos ≤ stop ∧
      stop ≤ l.length ∧ l.drop stop = (l.drop pos).dropWhile p ∧
        (l.take stop).drop pos = (l.drop pos).takeWhile p := by
  induction hn : l.length - pos generalizing pos with
  | zero =>
    have hend : pos = l.length := by omega
    refine ⟨pos, rfl, Nat.le_refl _, h, ?_, ?_⟩
    · rw [hend, List.drop_length]
      rfl
    · rw [hend, List.drop_length, List.take_length, List.drop_length]
      rfl
  | succ n ih =>
    have hlt : pos < l.length := by omega
    have hcons : l.drop pos = l[pos] :: l.drop (pos + 1) := List.drop_eq_getElem_cons hlt
    have hscan : (scanWhile p l (n + 1) pos : Run ε ℕ) =
        if p l[pos] then scanWhile p l n (pos + 1) else .ok pos := by
      rw [scanWhile, if_pos hlt, index_of_lt hlt]
      rfl
    rw [hscan, hcons]
    by_cases hp : p l[pos] = true
    · obtain ⟨stop, hstop, hle, hlen, hdrop, htake⟩ := @ih (pos + 1) hlt (by omega)
      refine ⟨stop, by rw [if_pos hp, hstop], by omega, hlen, ?_, ?_⟩
      · rw [hdrop, List.dropWhile_cons_of_pos hp]
      · rw [List.takeWhile_cons_of_pos hp, ← htake]
        have hlt' : pos < (l.take stop).length := by
          rw [List.length_take]
          omega
        rw [List.drop_eq_getElem_cons hlt', List.getElem_take]
    · refine ⟨pos, by rw [if_neg hp], Nat.le_refl _, h, ?_, ?_⟩
      · rw [hcons, List.dropWhile_cons_of_neg hp]
      · rw [List.takeWhile_cons_of_neg hp, List.drop_take, Nat.sub_self, List.take_zero]

end GoSlices
