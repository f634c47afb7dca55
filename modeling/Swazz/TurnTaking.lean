import Mathlib.Logic.Function.Basic
import Swazz.AtomicCalls

/-! Programs that take turns on the entries of a shared store. A program enters an entry by the
first call that reads it and keeps it until it returns; what it does to the entry in between it
does as if it were alone, up to a drift that the others may cause at any time. -/
namespace TurnTaking

open AtomicCalls AtomicCalls.Calls
open StepSystem (ReachesUnder)

variable {Op : Type} {Answer : Op → Type} {σ ρ ε α β κ : Type}

/-- What an entry is worth between turns (`Rest`) and always (`Safe`), how it may drift while
nobody has it, and what is assumed of the calls. -/
structure Discipline (S : System Answer σ ρ ε α) (κ : Type) where
  enters : Op → Option κ
  Admits : ρ → Op → σ → Prop
  Drift : κ → σ → σ → Prop
  Rest : κ → σ → Prop
  Safe : κ → σ → Prop
  drift_refl : ∀ k s, Drift k s s
  drift_trans : ∀ k s t u, Drift k s t → Drift k t u → Drift k s u
  drift_world : ∀ k e s, Drift k s (S.world e s)
  rest_drift : ∀ k s t, Rest k s → Drift k s t → Rest k t
  safe_drift : ∀ k s t, Safe k s → Drift k s t → Safe k t
  safe_of_rest : ∀ k s, Rest k s → Safe k s

namespace Discipline

variable {S : System Answer σ ρ ε α} (D : Discipline S κ)

/-- Only the entry `k` is touched between the two states. -/
def Within (k : Option κ) (s t : σ) : Prop := ∀ k', k ≠ some k' → D.Drift k' s t

/-- The program at `i`, serving `r`, keeps to the entry it holds, which nobody else touches, and
returns with what `Post` says. -/
def Obeys (i : ℕ) (r : ρ) (Post : β → Option κ → σ → Prop) :
    Calls Answer β → Option κ → σ → Prop
  | .ret b, held, s => Post b held s
  | .choose next, held, s => ∀ b, Obeys i r Post (next b) held s
  | .call op next, none, _ => ∀ s, D.Admits r op s →
      (∀ k, D.enters op = some k → D.Rest k s) →
      D.Within (D.enters op) s (S.exec i r op s).2 ∧
        Obeys i r Post (next (S.exec i r op s).1) (D.enters op) (S.exec i r op s).2
  | .call op next, some k, s => D.Safe k s ∧ ∀ t, D.Drift k s t → D.Admits r op t →
      (∀ k', D.enters op = some k' → k' = k) ∧ D.Within (some k) t (S.exec i r op t).2 ∧
        Obeys i r Post (next (S.exec i r op t).1) (some k) (S.exec i r op t).2

/-- A program that returns leaves the entry it holds at rest. -/
def AtRest (_ : β) (held : Option κ) (s : σ) : Prop := ∀ k, held = some k → D.Rest k s

variable {D} {i : ℕ} {r : ρ} {Post : β → Option κ → σ → Prop} {s t : σ} {k : κ}

theorem obeys_bind {γ : Type} {Post' : γ → Option κ → σ → Prop} {p : Calls Answer β}
    {f : β → Calls Answer γ} {held : Option κ}
    (h : D.Obeys i r (fun b held s => D.Obeys i r Post' (f b) held s) p held s) :
    D.Obeys i r Post' (p.bind f) held s := by
  induction p generalizing held s with
  | ret b => exact h
  | choose next ih => exact fun b => ih b (h b)
  | call op next ih =>
    cases held with
    | none =>
      intro t hadmits hrest
      obtain ⟨hwithin, hnext⟩ := h t hadmits hrest
      exact ⟨hwithin, ih _ hnext⟩
    | some k =>
      refine ⟨h.1, fun t hdrift hadmits => ?_⟩
      obtain ⟨hsame, hwithin, hnext⟩ := h.2 t hdrift hadmits
      exact ⟨hsame, hwithin, ih _ hnext⟩

theorem obeys_imp {Post' : β → Option κ → σ → Prop} {p : Calls Answer β} {held : Option κ}
    (h : D.Obeys i r Post p held s) (himp : ∀ b held s, Post b held s → Post' b held s) :
    D.Obeys i r Post' p held s := by
  induction p generalizing held s with
  | ret b => exact himp b held s h
  | choose next ih => exact fun b => ih b (h b)
  | call op next ih =>
    cases held with
    | none =>
      intro t hadmits hrest
      obtain ⟨hwithin, hnext⟩ := h t hadmits hrest
      exact ⟨hwithin, ih _ hnext⟩
    | some k =>
      refine ⟨h.1, fun t hdrift hadmits => ?_⟩
      obtain ⟨hsame, hwithin, hnext⟩ := h.2 t hdrift hadmits
      exact ⟨hsame, hwithin, ih _ hnext⟩

/-- A program that can fail goes on where it did not. -/
theorem obeys_run_bind {δ γ : Type} {Post : Except δ γ → Option κ → σ → Prop}
    {x : ExceptT δ (Calls Answer) β} {f : β → ExceptT δ (Calls Answer) γ} {held : Option κ}
    (h : D.Obeys i r (fun res held s => match res with
      | .ok b => D.Obeys i r Post (f b).run held s
      | .error e => Post (.error e) held s) x.run held s) :
    D.Obeys i r Post (x >>= f).run held s := by
  apply obeys_bind
  apply obeys_imp h
  intro res held s hres
  cases res with
  | ok b => exact hres
  | error e => exact hres

theorem obeys_run_lift {δ : Type} {Post : Except δ β → Option κ → σ → Prop}
    {p : Calls Answer β} {held : Option κ}
    (h : D.Obeys i r (fun b => Post (.ok b)) p held s) :
    D.Obeys i r Post (liftM p : ExceptT δ (Calls Answer) β).run held s := by
  apply obeys_bind
  exact obeys_imp h fun b held s hb => hb

/-- A call that enters nothing and leaves every entry alone. -/
theorem obeys_free {op : Op} {next : Answer op → Calls Answer β} (henters : D.enters op = none)
    (hwithin : ∀ s, D.Within none s (S.exec i r op s).2)
    (hnext : ∀ a t, D.Obeys i r Post (next a) none t) :
    D.Obeys i r Post (.call op next) none s := by
  intro t _ _
  rw [henters]
  exact ⟨hwithin t, hnext _ _⟩

/-- A program without an entry whose calls are all free goes on where it returned. -/
theorem obeys_of_uses {p : Calls Answer β}
    (huses : Uses (fun op => D.enters op = none ∧ ∀ s, D.Within none s (S.exec i r op s).2) p)
    (hpost : ∀ b s, Post b none s) : D.Obeys i r Post p none s := by
  induction p generalizing s with
  | ret b => exact hpost b s
  | choose next ih => exact fun b => ih b (huses b)
  | call op next ih =>
    obtain ⟨henters, hwithin⟩ := huses.1
    exact obeys_free henters hwithin fun a t => ih a (huses.2 a)

/-- A call of a program that holds an entry, by what it answers and does wherever the entry has
drifted to. -/
theorem obeys_held {op : Op} {next : Answer op → Calls Answer β} (hsafe : D.Safe k s)
    (henters : ∀ k', D.enters op = some k' → k' = k)
    (h : ∀ t, D.Drift k s t → D.Admits r op t → ∃ a u, S.exec i r op t = (a, u) ∧
      D.Within (some k) t u ∧ D.Obeys i r Post (next a) (some k) u) :
    D.Obeys i r Post (.call op next) (some k) s := by
  refine ⟨hsafe, fun t hdrift hadmits => ?_⟩
  obtain ⟨a, u, hexec, hwithin, hnext⟩ := h t hdrift hadmits
  rw [hexec]
  exact ⟨henters, hwithin, hnext⟩

/-- What a program relies on may drift. -/
theorem obeys_drift {p : Calls Answer β} {held : Option κ}
    (h : D.Obeys i r D.AtRest p held s) (hdrift : ∀ k, held = some k → D.Drift k s t) :
    D.Obeys i r D.AtRest p held t := by
  induction p with
  | ret b => exact fun k hk => D.rest_drift k s t (h k hk) (hdrift k hk)
  | choose next ih => exact fun b => ih b (h b)
  | call op next ih =>
    cases held with
    | none => exact h
    | some k =>
      refine ⟨D.safe_drift k s t h.1 (hdrift k rfl), fun u hu => ?_⟩
      exact h.2 u (D.drift_trans k s t u (hdrift k rfl) hu)

theorem safe_of_obeys {p : Calls Answer β} (h : D.Obeys i r D.AtRest p (some k) s) :
    D.Safe k s := by
  induction p with
  | ret b => exact D.safe_of_rest k s (h k rfl)
  | choose next ih => exact ih true (h true)
  | call op next ih => exact h.1

end Discipline

/-! ## Pools of programs that take turns -/

/-- The store, and the entry that each program has entered. -/
structure Turned (σ κ : Type) where
  store : σ
  held : ℕ → Option κ

namespace Discipline

variable {S : System Answer σ ρ ε α} (D : Discipline S κ)

/-- The system that also keeps account of who entered what. -/
def turned : System Answer (Turned σ κ) ρ ε α where
  exec i r op s :=
    ((S.exec i r op s.store).1,
      { store := (S.exec i r op s.store).2
        held := Function.update s.held i ((D.enters op).or (s.held i)) })
  body := S.body
  world e s := { s with store := S.world e s.store }

/-- The program at an index has returned. -/
def Returned (w : Pool Answer (Turned σ κ) ρ α) (j : ℕ) : Prop :=
  ∃ r a, w.running[j]? = some (r, .ret a)

/-- A call that enters an entry comes when every other program that did has returned, and every
call is one that is admitted. -/
def InTurn (w : Pool Answer (Turned σ κ) ρ α) : Move ρ ε → Prop
  | .next i _ => ∀ c ∈ System.nextCall w i, D.Admits c.1 c.2 w.store.store ∧
      ∀ k, D.enters c.2 = some k → ∀ j, w.store.held j = some k → j ≠ i → Returned w j
  | _ => True

/-- What holds in every run in which the programs take turns. -/
structure Orderly (w : Pool Answer (Turned σ κ) ρ α) : Prop where
  obeys : ∀ i r p, w.running[i]? = some (r, p) → (∀ a, p ≠ .ret a) →
    D.Obeys i r D.AtRest p (w.store.held i) w.store.store
  alone : ∀ i j k, w.store.held i = some k → w.store.held j = some k → i ≠ j →
    Returned w i ∨ Returned w j
  rest : ∀ k, (∀ i, w.store.held i = some k → Returned w i) → D.Rest k w.store.store
  bounded : ∀ i k, w.store.held i = some k → i < w.running.length

variable {D} {w w' : Pool Answer (Turned σ κ) ρ α} {m : Move ρ ε} {i j : ℕ}

theorem returned_set {r : ρ} {p : Calls Answer α} {st : Turned σ κ} (hne : j ≠ i) :
    Returned { store := st, running := w.running.set i (r, p) } j ↔ Returned w j := by
  simp only [Returned, List.getElem?_set_ne (Ne.symm hne)]

theorem not_returned {r : ρ} {p : Calls Answer α} (hj : w.running[j]? = some (r, p))
    (hp : ∀ a, p ≠ .ret a) : ¬ Returned w j := by
  rintro ⟨r', a, ha⟩
  have heq := Option.some.inj (hj.symm.trans ha)
  exact hp a (Prod.mk.inj heq).2

variable {r : ρ} {op : Op} {next : Answer op → Calls Answer α}

theorem held_exec_ne (hne : j ≠ i) : (D.turned.exec i r op w.store).2.held j = w.store.held j :=
  Function.update_of_ne hne _ _

theorem held_exec_self :
    (D.turned.exec i r op w.store).2.held i = (D.enters op).or (w.store.held i) :=
  Function.update_self _ _ _

/-- What a call in turn does: it touches the entry its program then has, which is nobody
else's. -/
theorem call_spec (h : D.Orderly w) (hi : w.running[i]? = some (r, .call op next))
    (hadmits : D.Admits r op w.store.store)
    (henters : ∀ k, D.enters op = some k → ∀ j, w.store.held j = some k → j ≠ i → Returned w j) :
    let t := (D.turned.exec i r op w.store).2
    D.Within (t.held i) w.store.store t.store ∧
      D.Obeys i r D.AtRest (next (S.exec i r op w.store.store).1) (t.held i) t.store ∧
      (∀ k, w.store.held i = some k → t.held i = some k) ∧
      ∀ k, t.held i = some k → ∀ j, w.store.held j = some k → j ≠ i → Returned w j := by
  have hobeys := h.obeys i r _ hi nofun
  cases hheld : w.store.held i with
  | none =>
    rw [hheld] at hobeys
    have hrest : ∀ k, D.enters op = some k → D.Rest k w.store.store := by
      intro k hk
      apply h.rest k
      intro j hj
      have hne : j ≠ i := fun heq => by simp [heq, hheld] at hj
      exact henters k hk j hj hne
    have hnow : (D.turned.exec i r op w.store).2.held i = D.enters op := by
      rw [held_exec_self, hheld, Option.or_none]
    simp only [hnow]
    obtain ⟨hwithin, hnext⟩ := hobeys w.store.store hadmits hrest
    exact ⟨hwithin, hnext, nofun, henters⟩
  | some k =>
    rw [hheld] at hobeys
    obtain ⟨hsame, hwithin, hnext⟩ := hobeys.2 w.store.store (D.drift_refl k _) hadmits
    have hnow : (D.turned.exec i r op w.store).2.held i = some k := by
      rw [held_exec_self, hheld]
      cases hk : D.enters op with
      | none => rfl
      | some k' => rw [hsame k' hk, Option.some_or]
    simp only [hnow]
    refine ⟨hwithin, hnext, fun k' hk' => hk', fun k' hk' j hj hne => ?_⟩
    obtain rfl := Option.some.inj hk'
    exact (h.alone i j k hheld hj (Ne.symm hne)).resolve_left (not_returned hi nofun)

theorem orderly_call (h : D.Orderly w) (hi : w.running[i]? = some (r, .call op next))
    (hadmits : D.Admits r op w.store.store)
    (henters : ∀ k, D.enters op = some k → ∀ j, w.store.held j = some k → j ≠ i → Returned w j) :
    D.Orderly { store := (D.turned.exec i r op w.store).2,
                running := w.running.set i (r, next (S.exec i r op w.store.store).1) } := by
  have hlt : i < w.running.length := (List.getElem?_eq_some_iff.mp hi).1
  obtain ⟨hwithin, hnext, hkept, hothers⟩ := call_spec h hi hadmits henters
  constructor
  · intro j r' p hj hp
    rcases System.running_set hi hj with ⟨rfl, rfl, rfl⟩ | ⟨hne, hold⟩
    · exact hnext
    · rw [held_exec_ne hne]
      apply obeys_drift (h.obeys j r' p hold hp)
      intro k hk
      apply hwithin
      exact fun hnow => not_returned hold hp (hothers k hnow j hk hne)
  · intro a b k ha hb hab
    by_cases hai : a = i
    · subst hai
      have hbi : b ≠ a := Ne.symm hab
      rw [held_exec_ne hbi] at hb
      exact Or.inr ((returned_set hbi).mpr (hothers k ha b hb hbi))
    · rw [held_exec_ne hai] at ha
      by_cases hbi : b = i
      · subst hbi
        exact Or.inl ((returned_set hai).mpr (hothers k hb a ha hai))
      · rw [held_exec_ne hbi] at hb
        exact (h.alone a b k ha hb hab).imp (returned_set hai).mpr (returned_set hbi).mpr
  · intro k hall
    by_cases hnow : (D.turned.exec i r op w.store).2.held i = some k
    · -- the program has returned, so it leaves the entry at rest
      obtain ⟨r', a, ha⟩ := hall i hnow
      have heq : next (S.exec i r op w.store.store).1 = .ret a := by
        have hself := (List.getElem?_set_self hlt).symm.trans ha
        exact (Prod.mk.inj (Option.some.inj hself)).2
      rw [heq, hnow] at hnext
      exact hnext k rfl
    · apply D.rest_drift k w.store.store _ _ (hwithin k hnow)
      apply h.rest k
      intro j hj
      have hne : j ≠ i := fun heq => hnow (hkept k (heq ▸ hj))
      exact (returned_set hne).mp (hall j ((held_exec_ne hne).trans hj))
  · intro j k hj
    simp only [List.length_set]
    by_cases hji : j = i
    · exact hji ▸ hlt
    · rw [held_exec_ne hji] at hj
      exact h.bounded j k hj

theorem orderly_start (hbody : ∀ i r s, D.Obeys i r D.AtRest (S.body r) none s)
    (h : D.Orderly w) (r : ρ) :
    D.Orderly { w with running := w.running ++ [(r, S.body r)] } := by
  have hkept {j : ℕ} (hj : Returned w j) :
      Returned { w with running := w.running ++ [(r, S.body r)] } j := by
    obtain ⟨r', a, ha⟩ := hj
    have hlt : j < w.running.length := (List.getElem?_eq_some_iff.mp ha).1
    exact ⟨r', a, (List.getElem?_append_left hlt).trans ha⟩
  constructor
  · intro j r' p hj hp
    rcases Nat.lt_trichotomy j w.running.length with hlt | heq | hgt
    · exact h.obeys j r' p ((List.getElem?_append_left hlt).symm.trans hj) hp
    · subst heq
      obtain ⟨rfl, rfl⟩ : r = r' ∧ S.body r = p := by simpa using hj
      have hnone : w.store.held w.running.length = none := by
        cases hheld : w.store.held w.running.length with
        | none => rfl
        | some k => exact absurd (h.bounded _ k hheld) (Nat.lt_irrefl _)
      rw [hnone]
      exact hbody _ r _
    · have hnone : (w.running ++ [(r, S.body r)])[j]? = none := by simp; omega
      exact absurd (hnone.symm.trans hj) (by simp)
  · intro a b k ha hb hab
    exact (h.alone a b k ha hb hab).imp hkept hkept
  · intro k hall
    apply h.rest k
    intro j hj
    have hlt := h.bounded j k hj
    obtain ⟨r', a, ha⟩ := hall j hj
    exact ⟨r', a, (List.getElem?_append_left hlt).symm.trans ha⟩
  · intro j k hj
    have hlt := h.bounded j k hj
    simp only [List.length_append, List.length_singleton]
    omega

theorem orderly_choose {next : Bool → Calls Answer α} (h : D.Orderly w)
    (hi : w.running[i]? = some (r, .choose next)) (left : Bool) :
    D.Orderly { w with running := w.running.set i (r, next left) } := by
  have hlt : i < w.running.length := (List.getElem?_eq_some_iff.mp hi).1
  have hnext : D.Obeys i r D.AtRest (next left) (w.store.held i) w.store.store :=
    h.obeys i r _ hi nofun left
  have hopen : ¬ Returned w i := not_returned hi nofun
  constructor
  · intro j r' p hj hp
    rcases System.running_set hi hj with ⟨rfl, rfl, rfl⟩ | ⟨hne, hold⟩
    · exact hnext
    · exact h.obeys j r' p hold hp
  · intro a b k ha hb hab
    have hreturned := h.alone a b k ha hb hab
    by_cases hai : a = i
    · subst hai
      exact Or.inr ((returned_set (Ne.symm hab)).mpr (hreturned.resolve_left hopen))
    · by_cases hbi : b = i
      · subst hbi
        exact Or.inl ((returned_set hai).mpr (hreturned.resolve_right hopen))
      · exact hreturned.imp (returned_set hai).mpr (returned_set hbi).mpr
  · intro k hall
    by_cases hheld : w.store.held i = some k
    · obtain ⟨r', a, ha⟩ := hall i hheld
      have heq : next left = .ret a := by
        have hself := (List.getElem?_set_self hlt).symm.trans ha
        exact (Prod.mk.inj (Option.some.inj hself)).2
      rw [heq, hheld] at hnext
      exact hnext k rfl
    · apply h.rest k
      intro j hj
      have hne : j ≠ i := fun heq => hheld (heq ▸ hj)
      exact (returned_set hne).mp (hall j hj)
  · intro j k hj
    simp only [List.length_set]
    exact h.bounded j k hj

theorem orderly_world (h : D.Orderly w) (e : ε) :
    D.Orderly { w with store := D.turned.world e w.store } where
  obeys j r p hj hp := obeys_drift (h.obeys j r p hj hp) fun k _ => D.drift_world k e _
  alone := h.alone
  rest k hall := D.rest_drift k _ _ (h.rest k hall) (D.drift_world k e _)
  bounded := h.bounded

theorem orderly_step (hbody : ∀ i r s, D.Obeys i r D.AtRest (S.body r) none s)
    (h : D.Orderly w) (hturn : D.InTurn w m) (hstep : D.turned.step w m = some w') :
    D.Orderly w' := by
  cases System.step_cases hstep with
  | start r => exact orderly_start hbody h r
  | world e => exact orderly_world h e
  | choose i left r next hi => exact orderly_choose h hi left
  | call i left r op next hi =>
    obtain ⟨hadmits, henters⟩ := hturn (r, op) (System.nextCall_eq hi)
    exact orderly_call h hi hadmits henters

/-- Programs that take turns keep order, from a store in which every entry is at rest. -/
theorem orderly_of_reaches (hbody : ∀ i r s, D.Obeys i r D.AtRest (S.body r) none s) {s : σ}
    (hrest : ∀ k, D.Rest k s)
    (hrun : ReachesUnder D.turned.step D.InTurn ⟨⟨s, fun _ => none⟩, []⟩ w) : D.Orderly w := by
  have hstart : D.Orderly ⟨⟨s, fun _ => none⟩, []⟩ :=
    { obeys := fun i r p hi => by simp at hi
      alone := fun i j k hi => by simp at hi
      rest := fun k _ => hrest k
      bounded := fun i k hi => by simp at hi }
  apply hrun.invariant (I := fun w => D.Orderly w) hstart
  intro t m u ht hG hu
  exact orderly_step hbody ht hG hu

/-- Whoever has an entry, it is safe. -/
theorem Orderly.safe (h : D.Orderly w) (k : κ) : D.Safe k w.store.store := by
  by_cases hall : ∀ i, w.store.held i = some k → Returned w i
  · exact D.safe_of_rest k _ (h.rest k hall)
  · push Not at hall
    obtain ⟨i, hheld, hopen⟩ := hall
    have hlt := h.bounded i k hheld
    have hi : w.running[i]? = some (w.running[i].1, w.running[i].2) :=
      List.getElem?_eq_getElem hlt
    have hobeys := h.obeys i _ _ hi fun a ha => hopen ⟨_, a, ha ▸ hi⟩
    rw [hheld] at hobeys
    exact safe_of_obeys hobeys

end Discipline

end TurnTaking
