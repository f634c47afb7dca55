import Mathlib.Data.Int.GCD
import Mathlib.Data.Int.ModEq
import Mathlib.Data.List.Nodup
import Mathlib.Data.Nat.ModEq
import Mathlib.Logic.Function.Basic
import Mathlib.Tactic.Ring
import Swazz.AtomicCalls

/-! Programs that take values from lists in turn, each list by a counter that is kept from one
pick to the next, and what it takes to pick the same values again from other counters. -/
namespace SequentialPicks

open AtomicCalls

variable {U C V Q : Type} {A : Q → Type} {α β ι : Type}

/-- The next value of a list by a counter, and what it is for. -/
structure Pick (U C V : Type) where
  use : U
  counter : C
  list : List V
  deriving DecidableEq

/-- A pick, or a question that the world answers. -/
inductive Op (U C V Q : Type) where
  | pick (p : Pick U C V)
  | ask (q : Q)

/-- A pick from an empty list is `none`. -/
def Answer (A : Q → Type) : Op U C V Q → Type
  | .pick _ => Option V
  | .ask q => A q

abbrev Picks (U C V : Type) {Q : Type} (A : Q → Type) := @Calls (Op U C V Q) (Answer A)

/-- The value of a list that a counter stands at. -/
def turn (l : List V) (n : ℕ) : Option V := l[n % l.length]?

/-- What a run comes to: its result, where it leaves the counters, what it picked, and the
values. -/
structure Outcome (U C V α : Type) where
  result : α
  counters : C → ℕ
  picks : List (Pick U C V)
  values : List (Option V)

variable [DecidableEq C]

/-- A pick moves its counter, unless there is nothing to pick from. -/
def bump (u : C → ℕ) (p : Pick U C V) : C → ℕ :=
  if p.list.length = 0 then u else Function.update u p.counter (u p.counter + 1)

/-- The run from the counters `u`, where `answer` gives the answers in their order. -/
def run : Picks U C V A α → (C → ℕ) → (ℕ → (q : Q) → A q) → Outcome U C V α
  | .ret a, u, _ => ⟨a, u, [], []⟩
  | .call (.pick p) next, u, answer =>
    let v := turn p.list (u p.counter)
    let rest := run (next v) (bump u p) answer
    ⟨rest.result, rest.counters, p :: rest.picks, v :: rest.values⟩
  | .call (.ask q) next, u, answer => run (next (answer 0 q)) u fun n => answer (n + 1)
  | .choose next, u, answer => run (next true) u answer

/-- The counters after some picks. -/
def advance : (C → ℕ) → List (Pick U C V) → C → ℕ
  | u, [] => u
  | u, p :: picks => advance (bump u p) picks

/-- The values of some picks when the counters start from `u`. -/
def reread : (C → ℕ) → List (Pick U C V) → List (Option V)
  | _, [] => []
  | u, p :: picks => turn p.list (u p.counter) :: reread (bump u p) picks

/-- The picks have the same values from the counters `u` as from the start of the lists. -/
def Aligned (u : C → ℕ) (picks : List (Pick U C V)) : Prop :=
  reread u picks = reread (fun _ => 0) picks

/-- One run after the other, each with its answers, from the item at index `i` on; the first
`skip` are passed over. -/
def walk (body : ι → Picks U C V A α) (answer : ℕ → ℕ → (q : Q) → A q) (skip : ℕ) :
    List ι → ℕ → (C → ℕ) → List (ℕ × ι × Outcome U C V α)
  | [], _, _ => []
  | x :: xs, i, u =>
    if i < skip then walk body answer skip xs (i + 1) u
    else
      let o := run (body x) u (answer i)
      (i, x, o) :: walk body answer skip xs (i + 1) o.counters

/-- Everything a walk picked. -/
def picked (rs : List (ℕ × ι × Outcome U C V α)) : List (Pick U C V) :=
  rs.flatMap fun r => r.2.2.picks

/-- What can be told of an item afterwards: its index, what it is, and what it picked. -/
def observed (r : ℕ × ι × Outcome U C V α) : ℕ × ι × List (Pick U C V) × List (Option V) :=
  (r.1, r.2.1, r.2.2.picks, r.2.2.values)

/-- In the first walk's place, the items of a second one would make the same picks. -/
def SamePicks (body body' : ι → Picks U C V A α) (answer answer' : ℕ → ℕ → (q : Q) → A q) :
    List ι → ℕ → (C → ℕ) → Prop
  | [], _, _ => True
  | x :: xs, i, u =>
    (run (body x) u (answer i)).picks = (run (body' x) u (answer' i)).picks ∧
      SamePicks body body' answer answer' xs (i + 1) (run (body x) u (answer i)).counters

/-! ## Picks from other counters -/

variable {u u' : C → ℕ} {picks picks' : List (Pick U C V)}

theorem advance_append :
    advance u (picks ++ picks') = advance (advance u picks) picks' := by
  induction picks generalizing u with
  | nil => rfl
  | cons p picks ih => exact ih

theorem reread_append :
    reread u (picks ++ picks') = reread u picks ++ reread (advance u picks) picks' := by
  induction picks generalizing u with
  | nil => rfl
  | cons p picks ih => exact congrArg (turn p.list (u p.counter) :: ·) ih

@[simp] theorem length_reread : (reread u picks).length = picks.length := by
  induction picks generalizing u with
  | nil => rfl
  | cons p picks ih => exact congrArg (· + 1) ih

theorem reread_append_eq :
    reread u (picks ++ picks') = reread u' (picks ++ picks') ↔
      reread u picks = reread u' picks ∧
        reread (advance u picks) picks' = reread (advance u' picks) picks' := by
  rw [reread_append, reread_append]
  constructor
  · intro h
    exact List.append_inj h (by simp)
  · rintro ⟨h, h'⟩
    rw [h, h']

/-- The positions of a list at which the last of `c` picks stands, again and again. -/
theorem exists_stride_iff {c len p k : ℕ} (hc : 0 < c) (hp : p < len) (hk : len ≤ k) :
    (∃ j < k, (j * c + (c - 1)) % len = p) ↔ Nat.gcd c len ∣ p + 1 := by
  constructor
  · rintro ⟨j, -, hj⟩
    have hdiv := Nat.div_add_mod (j * c + (c - 1)) len
    rw [hj] at hdiv
    have hsum : len * ((j * c + (c - 1)) / len) + (p + 1) = (j + 1) * c := by
      rw [Nat.add_mul]
      omega
    have hturns : Nat.gcd c len ∣ (j + 1) * c := (Nat.gcd_dvd_left c len).mul_left _
    rw [← hsum] at hturns
    exact (Nat.dvd_add_right ((Nat.gcd_dvd_right c len).mul_right _)).mp hturns
  · rintro ⟨t, ht⟩
    have hlen : (0 : ℤ) < len := by omega
    -- Bézout's coefficient of `c` says after how many turns the position comes
    have hbezout := Nat.gcd_eq_gcd_ab c len
    let turns : ℤ := (Nat.gcdA c len * t - 1) % len
    have hturns : 0 ≤ turns ∧ turns < len :=
      ⟨Int.emod_nonneg _ hlen.ne', Int.emod_lt_of_pos _ hlen⟩
    obtain ⟨j, hj⟩ := Int.eq_ofNat_of_zero_le hturns.1
    refine ⟨j, by omega, ?_⟩
    have hmod : (j : ℤ) ≡ Nat.gcdA c len * t - 1 [ZMOD len] := by
      rw [← hj]
      exact Int.mod_modEq _ _
    have hlast : ((j * c + (c - 1) : ℕ) : ℤ) = (j + 1) * c - 1 := by
      push_cast [Nat.cast_sub hc]
      ring
    have hwanted : (p : ℤ) = Nat.gcd c len * t - 1 := by
      have hcast : ((p + 1 : ℕ) : ℤ) = (Nat.gcd c len * t : ℕ) := congrArg Nat.cast ht
      push_cast at hcast
      omega
    have hpos : ((j * c + (c - 1) : ℕ) : ℤ) ≡ (p : ℕ) [ZMOD len] := by
      calc ((j * c + (c - 1) : ℕ) : ℤ) = (j + 1) * c - 1 := hlast
        _ ≡ (Nat.gcdA c len * t - 1 + 1) * c - 1 [ZMOD len] :=
          ((hmod.add_right 1).mul_right _).sub_right 1
        _ ≡ (Nat.gcdA c len * t - 1 + 1) * c - 1 + len * (Nat.gcdB c len * t) [ZMOD len] :=
          Int.modEq_iff_dvd.mpr ⟨Nat.gcdB c len * t, by ring⟩
        _ = p := by
          rw [hwanted, hbezout]
          ring
    have hsame : (j * c + (c - 1)) % len = p % len := Int.natCast_modEq_iff.mp hpos
    rw [hsame, Nat.mod_eq_of_lt hp]

/-! ## Runs from other counters -/

variable {p : Picks U C V A α} {answer : ℕ → (q : Q) → A q}

theorem counters_run : (run p u answer).counters = advance u (run p u answer).picks := by
  induction p generalizing u answer with
  | ret a => rfl
  | call op next ih =>
    cases op with
    | pick q => exact ih _
    | ask q => exact ih _
  | choose next ih => exact ih true

theorem values_run : (run p u answer).values = reread u (run p u answer).picks := by
  induction p generalizing u answer with
  | ret a => rfl
  | call op next ih =>
    cases op with
    | pick q => exact congrArg (turn q.list (u q.counter) :: ·) (ih _)
    | ask q => exact ih _
  | choose next ih => exact ih true

/-- One program after the other, with the answers that are left. -/
theorem run_bind (p : Picks U C V A α) (f : α → Picks U C V A β) (u : C → ℕ)
    (answer : ℕ → (q : Q) → A q) :
    ∃ n, (run (p >>= f) u answer).result =
        (run (f (run p u answer).result) (run p u answer).counters fun i => answer (i + n)).result ∧
      (run (p >>= f) u answer).counters =
        (run (f (run p u answer).result) (run p u answer).counters
          fun i => answer (i + n)).counters := by
  induction p generalizing u answer with
  | ret a => exact ⟨0, rfl, rfl⟩
  | choose next ih => exact ih true u answer
  | call op next ih =>
    cases op with
    | pick q => exact ih (turn q.list (u q.counter)) (bump u q) answer
    | ask q =>
      obtain ⟨n, hresult, hcounters⟩ := ih (answer 0 q) u fun i => answer (i + 1)
      have hshift : (fun i => answer (i + n + 1)) = fun i => answer (i + (n + 1)) := rfl
      exact ⟨n + 1, hshift ▸ hresult, hshift ▸ hcounters⟩

theorem run_bind_append (p q : Picks U C V A (List α)) (u : C → ℕ) (answer : ℕ → (q : Q) → A q) :
    ∃ n, (run (p >>= fun xs => q >>= fun ys => pure (xs ++ ys)) u answer).result =
        (run p u answer).result ++ (run q (run p u answer).counters fun i => answer (i + n)).result ∧
      (run (p >>= fun xs => q >>= fun ys => pure (xs ++ ys)) u answer).counters =
        (run q (run p u answer).counters fun i => answer (i + n)).counters := by
  obtain ⟨n, hresult, hcounters⟩ := run_bind p (fun xs => q >>= fun ys => pure (xs ++ ys)) u answer
  obtain ⟨_, hresult', hcounters'⟩ := run_bind q (fun ys => pure ((run p u answer).result ++ ys))
    (run p u answer).counters fun i => answer (i + n)
  exact ⟨n, hresult.trans hresult', hcounters.trans hcounters'⟩

/-- A program that would find the values it found goes the same way. -/
theorem run_again (h : reread u' (run p u answer).picks = reread u (run p u answer).picks) :
    (run p u' answer).picks = (run p u answer).picks ∧
      (run p u' answer).result = (run p u answer).result := by
  induction p generalizing u u' answer with
  | ret a => exact ⟨rfl, rfl⟩
  | choose next ih => exact ih true h
  | call op next ih =>
    cases op with
    | ask q => exact ih _ h
    | pick q =>
      -- the first value is the same, so what follows it is the same program
      obtain ⟨hfirst, hrest⟩ := List.cons.inj h
      obtain ⟨hpicks, hresult⟩ := ih (turn q.list (u q.counter)) hrest
      simp only [run]
      rw [hfirst, hpicks, hresult]
      exact ⟨rfl, rfl⟩

/-- A program run elsewhere and from other counters makes the same picks and finds the same
values exactly when it would make them from the same counters and the values are there. -/
theorem run_eq_iff {p' : Picks U C V A β} {answer' : ℕ → (q : Q) → A q} :
    ((run p u answer).picks = (run p' u' answer').picks ∧
      (run p u answer).values = (run p' u' answer').values) ↔
    (run p u answer).picks = (run p' u answer').picks ∧
      reread u (run p u answer).picks = reread u' (run p u answer).picks := by
  rw [values_run, values_run]
  constructor
  · rintro ⟨hpicks, hvalues⟩
    have hback : reread u (run p' u' answer').picks = reread u' (run p' u' answer').picks := by
      rw [← hvalues, hpicks]
    exact ⟨hpicks.trans (run_again hback).1.symm, by rw [hpicks, hback]⟩
  · rintro ⟨hpicks, hvalues⟩
    have hthere : reread u' (run p' u answer').picks = reread u (run p' u answer').picks := by
      rw [← hpicks, hvalues]
    have hpicks' := hpicks.trans (run_again hthere).1.symm
    exact ⟨hpicks', by rw [hvalues, ← hpicks']⟩

/-! ## Programs without picks -/

/-- A program that leaves every counter alone. -/
def OnlyAsks (p : Picks U C V A α) : Prop := Calls.Uses (fun op => ∃ q, op = .ask q) p

theorem onlyAsks_pure (a : α) : OnlyAsks (pure a : Picks U C V A α) := trivial

theorem onlyAsks_ask (q : Q) {next : A q → Picks U C V A α} (h : ∀ a, OnlyAsks (next a)) :
    OnlyAsks (.call (.ask q) next : Picks U C V A α) := ⟨⟨q, rfl⟩, h⟩

theorem onlyAsks_bind {f : α → Picks U C V A β} (hp : OnlyAsks p) (hf : ∀ a, OnlyAsks (f a)) :
    OnlyAsks (p >>= f) := Calls.uses_bind hp hf

theorem onlyAsks_pure_bind {a : α} {f : α → Picks U C V A β} (h : OnlyAsks (f a)) :
    OnlyAsks (pure a >>= f) := h

theorem onlyAsks_ite {c : Prop} [Decidable c] {p' : Picks U C V A α} (hp : c → OnlyAsks p)
    (hp' : ¬ c → OnlyAsks p') : OnlyAsks (if c then p else p') := by
  by_cases hc : c
  · rw [if_pos hc]
    exact hp hc
  · rw [if_neg hc]
    exact hp' hc

theorem onlyAsks_mapM {f : ι → Picks U C V A α} (hf : ∀ x, OnlyAsks (f x)) (xs : List ι) :
    OnlyAsks (xs.mapM f) := by
  have hloop : ∀ acc, OnlyAsks (List.mapM.loop f xs acc) := by
    induction xs with
    | nil => exact fun acc => onlyAsks_pure _
    | cons x xs ih => exact fun acc => onlyAsks_bind (hf x) fun a => ih (a :: acc)
  exact hloop []

theorem counters_of_onlyAsks (h : OnlyAsks p) : (run p u answer).counters = u := by
  induction p generalizing answer with
  | ret a => rfl
  | choose next ih => exact ih true (h true)
  | call op next ih =>
    obtain ⟨⟨q, rfl⟩, hnext⟩ := h
    exact ih _ (hnext _)

/-! ## Walks -/

variable {body body' : ι → Picks U C V A α} {answers answers' : ℕ → ℕ → (q : Q) → A q}

theorem walk_of_le {skip : ℕ} (items : List ι) {i : ℕ} (h : skip ≤ i) :
    walk body answers skip items i u = walk body answers 0 items i u := by
  induction items generalizing i u with
  | nil => rfl
  | cons x xs ih =>
    rw [walk, walk, if_neg (by omega), if_neg (by omega)]
    exact congrArg (_ :: ·) (ih (by omega))

/-- A walk that skips starts at the first item it does not skip. -/
theorem walk_skip (n : ℕ) (items : List ι) (i : ℕ) :
    walk body answers (i + n) items i u = walk body answers 0 (items.drop n) (i + n) u := by
  induction items generalizing n i with
  | nil => simp [walk]
  | cons x xs ih =>
    cases n with
    | zero => exact walk_of_le (x :: xs) (le_refl i)
    | succ n =>
      have hskip : i < i + (n + 1) := by omega
      have hnext : i + (n + 1) = i + 1 + n := by omega
      rw [walk, if_pos hskip, hnext, ih n (i + 1), List.drop_succ_cons]

theorem walk_skip_zero (n : ℕ) (items : List ι) :
    walk body answers n items 0 u = walk body answers 0 (items.drop n) n u := by
  simpa only [Nat.zero_add] using walk_skip n items 0

theorem walk_cons (x : ι) (xs : List ι) (i : ℕ) :
    walk body answers 0 (x :: xs) i u =
      (i, x, run (body x) u (answers i)) ::
        walk body answers 0 xs (i + 1) (run (body x) u (answers i)).counters := by
  rw [walk, if_neg (Nat.not_lt_zero i)]

/-- The rest of a walk is the walk of the rest, from the counters that the part before left. -/
theorem drop_walk (n : ℕ) (items : List ι) (i : ℕ) :
    (walk body answers 0 items i u).drop n = walk body answers 0 (items.drop n) (i + n)
      (advance u (picked ((walk body answers 0 items i u).take n))) := by
  induction items generalizing n i u with
  | nil => simp [walk]
  | cons x xs ih =>
    cases n with
    | zero => rfl
    | succ n =>
      have hnext : i + (n + 1) = i + 1 + n := by omega
      rw [walk_cons, List.drop_succ_cons, ih n (i + 1), List.drop_succ_cons, List.take_succ_cons,
        hnext]
      simp only [picked, List.flatMap_cons, advance_append, counters_run]

/-- Two walks leave the same to be told exactly when they visit the same items, the second
would pick in the first one's place what the first picks, and finds the same values where its
own counters stand. -/
theorem observed_walk_iff (items items' : List ι) (i : ℕ) :
    (walk body answers 0 items i u).map observed = (walk body' answers' 0 items' i u').map observed ↔
      items = items' ∧ SamePicks body body' answers answers' items i u ∧
        reread u (picked (walk body answers 0 items i u)) =
          reread u' (picked (walk body answers 0 items i u)) := by
  induction items generalizing items' i u u' with
  | nil =>
    cases items' with
    | nil => simp [walk, SamePicks, picked, reread]
    | cons x' xs' => simp [walk]
  | cons x xs ih =>
    cases items' with
    | nil => simp [walk]
    | cons x' xs' =>
      have hpicked : picked (walk body answers 0 (x :: xs) i u) =
          (run (body x) u (answers i)).picks ++
            picked (walk body answers 0 xs (i + 1) (run (body x) u (answers i)).counters) := by
        rw [walk_cons]
        rfl
      rw [hpicked, reread_append_eq, walk_cons, walk_cons, List.map_cons, List.map_cons,
        List.cons.injEq, ih, ← counters_run]
      constructor
      · rintro ⟨hhead, rfl, hsame, hrest⟩
        obtain ⟨rfl, hobserved⟩ : x = x' ∧ _ := (Prod.mk.inj (Prod.mk.inj hhead).2)
        have hmade := Prod.mk.inj hobserved
        obtain ⟨hpicks, hread⟩ := run_eq_iff.mp hmade
        -- the second walk's counters move by the picks that both make
        rw [counters_run (u := u'), ← hmade.1] at hrest
        exact ⟨rfl, ⟨hpicks, hsame⟩, hread, hrest⟩
      · rintro ⟨hitems, ⟨hpicks, hsame⟩, hread, hrest⟩
        obtain ⟨rfl, rfl⟩ := List.cons.inj hitems
        have hmade := run_eq_iff.mpr ⟨hpicks, hread⟩
        rw [hmade.1, ← counters_run] at hrest
        refine ⟨?_, rfl, hsame, hrest⟩
        rw [observed, observed, hmade.1, hmade.2]

end SequentialPicks
