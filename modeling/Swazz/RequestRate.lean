import Swazz.LoginCalls

/-! The limit on the request rate: calls that take turns on a key keep it, in every window. -/
namespace Swazz.LoginCalls

open AtomicCalls TurnTaking
open StepSystem (Reaches ReachesUnder)

/-- The tables, and for each key how many calls were let through since its row was last set, and
whether a call broke a constraint. -/
structure Counted where
  db : LoginStore
  granted : String → ℕ
  failed : String → Bool

namespace Counted

/-- The calls let through, by the statement that lets one through. -/
def grant (s : Counted) : Op → String → ℕ
  | .insertRateLimit key _ =>
    if s.db.rateLimits key = none then Function.update s.granted key 1 else s.granted
  | .resetRateLimit key _ =>
    if s.db.rateLimits key = none then s.granted else Function.update s.granted key 1
  | .incrementRateLimit key => Function.update s.granted key (s.granted key + 1)
  | _ => s.granted

def fail (s : Counted) : Op → String → Bool
  | .insertRateLimit key _ =>
    if s.db.rateLimits key = none then s.failed else Function.update s.failed key true
  | _ => s.failed

def exec (s : Counted) (op : Op) : Answer op × Counted :=
  ((s.db.exec op).1, ⟨(s.db.exec op).2, s.grant op, s.fail op⟩)

end Counted

/-- Time passes, and expired rows are cleaned up. -/
inductive World where
  | tick (ms : ℕ)
  | cleanup

def LoginStore.pass (s : LoginStore) : World → LoginStore
  | .tick ms => { s with now := s.now + ms }
  | .cleanup => (s.exec .deleteExpiredRateLimits).2

/-- Calls of `checkIpRateLimit`; the limits of a key are its attempts and its seconds. -/
def rateLimitCalls (limits : String → ℕ × ℕ) :
    System Answer Counted String World (Except String Bool) where
  exec _ _ op s := s.exec op
  body key := (AuthRepository.checkIpRateLimit key (limits key).1 (limits key).2).run
  world e s := { s with db := s.db.pass e }

/-- A row may be cleaned up at any time. -/
structure RateDrift (key : String) (s t : Counted) : Prop where
  row : t.db.rateLimits key = s.db.rateLimits key ∨ t.db.rateLimits key = none
  granted : t.granted key = s.granted key
  failed : t.failed key = s.failed key

/-- The row counts every call that was let through. -/
structure RateRest (limits : String → ℕ × ℕ) (key : String) (s : Counted) : Prop where
  counted : ∀ row, s.db.rateLimits key = some row → s.granted key ≤ row.attempts
  bounded : s.granted key ≤ (limits key).1
  passed : s.failed key = false

theorem RateDrift.trans {key : String} {s t u : Counted} (h : RateDrift key s t)
    (h' : RateDrift key t u) : RateDrift key s u where
  row := by
    rcases h'.row with heq | hnone
    · rw [heq]
      exact h.row
    · exact Or.inr hnone
  granted := h'.granted.trans h.granted
  failed := h'.failed.trans h.failed

theorem rateRest_drift {limits : String → ℕ × ℕ} {key : String} {s t : Counted}
    (h : RateRest limits key s) (hdrift : RateDrift key s t) : RateRest limits key t where
  counted row hrow := by
    rcases hdrift.row with heq | hnone
    · rw [hdrift.granted]
      exact h.counted row (heq ▸ hrow)
    · rw [hnone] at hrow
      cases hrow
  bounded := hdrift.granted ▸ h.bounded
  passed := hdrift.failed.trans h.passed

theorem rateDrift_cleanup (key : String) (s : Counted) :
    RateDrift key s { s with db := (s.db.exec .deleteExpiredRateLimits).2 } where
  row := by
    have hfilter : (s.db.exec .deleteExpiredRateLimits).2.rateLimits key =
        (s.db.rateLimits key).filter fun row => toSeconds s.db.now ≤ row.resetAt := rfl
    simp only [hfilter]
    cases s.db.rateLimits key with
    | none => exact Or.inl rfl
    | some row =>
      rw [Option.filter_some]
      split
      · exact Or.inl rfl
      · exact Or.inr rfl
  granted := rfl
  failed := rfl

/-- A call enters a key by reading its row. -/
def rateDiscipline (limits : String → ℕ × ℕ) : Discipline (rateLimitCalls limits) String where
  enters
    | .selectRateLimit key => some key
    | _ => none
  Admits _ _ _ := True
  Drift := RateDrift
  Rest := RateRest limits
  Safe key s := s.failed key = false ∧ s.granted key ≤ (limits key).1
  drift_refl _ _ := ⟨Or.inl rfl, rfl, rfl⟩
  drift_trans _ _ _ _ := RateDrift.trans
  drift_world key e s := by
    cases e with
    | tick ms => exact ⟨Or.inl rfl, rfl, rfl⟩
    | cleanup => exact rateDrift_cleanup key s
  rest_drift _ _ _ := rateRest_drift
  safe_drift _ _ _ h hdrift := ⟨hdrift.failed.trans h.1, hdrift.granted ▸ h.2⟩
  safe_of_rest _ _ h := ⟨h.passed, h.bounded⟩

variable {limits : String → ℕ × ℕ}

/-- A statement about one key leaves the others alone. -/
theorem within_of_update {key : String} {s t : Counted}
    (h : ∀ k, k ≠ key → t.db.rateLimits k = s.db.rateLimits k ∧ t.granted k = s.granted k ∧
      t.failed k = s.failed k) :
    (rateDiscipline limits).Within (some key) s t := by
  intro k hk
  obtain ⟨hrow, hgranted, hfailed⟩ := h k fun heq => hk (heq ▸ rfl)
  exact ⟨Or.inl hrow, hgranted, hfailed⟩

variable {i : ℕ} {key : String}

theorem atRest {a : Except String Bool} {s : Counted} (h : RateRest limits key s) :
    (rateDiscipline limits).AtRest a (some key) s := by
  intro k hk
  obtain rfl := Option.some.inj hk
  exact h

/-- What a call does once it has read the row. -/
theorem obeys_countRequest (hmax : 1 ≤ (limits key).1) (now resetAt : ℕ) {s : Counted}
    (h : RateRest limits key s) :
    (rateDiscipline limits).Obeys i key (rateDiscipline limits).AtRest
      (AuthRepository.countRequest key (limits key).1 now resetAt (s.db.rateLimits key)).run
      (some key) s := by
  have hsafe := (rateDiscipline limits).safe_of_rest key s h
  cases hrow : s.db.rateLimits key with
  | none =>
    apply Discipline.obeys_held hsafe (fun _ h => by cases h)
    intro t hdrift _
    have hrest := rateRest_drift h hdrift
    have hnone : t.db.rateLimits key = none := by
      rcases hdrift.row with heq | hnone
      · exact heq.trans hrow
      · exact hnone
    refine ⟨true, ⟨t.db.setRateLimit key (some ⟨1, resetAt⟩),
      Function.update t.granted key 1, t.failed⟩, ?_, ?_, ?_⟩
    · simp [rateLimitCalls, Counted.exec, LoginStore.exec, Counted.grant, Counted.fail, hnone]
    · apply within_of_update
      intro k hk
      simp [LoginStore.setRateLimit, Function.update_of_ne hk]
    · apply atRest
      constructor
      · intro row hnew
        have heq : some ⟨1, resetAt⟩ = some row := by
          simpa [LoginStore.setRateLimit] using hnew
        obtain rfl := Option.some.inj heq
        simp
      · simpa using hmax
      · exact hrest.passed
  | some row =>
    rw [AuthRepository.countRequest]
    split_ifs with hexpired hlimited
    · apply Discipline.obeys_held hsafe (fun _ h => by cases h)
      intro t hdrift _
      have hrest := rateRest_drift h hdrift
      refine ⟨(), _, rfl, within_of_update fun k hk => ?_, atRest ?_⟩
      · refine ⟨by simp [LoginStore.setRateLimit, LoginStore.exec, Function.update_of_ne hk], ?_, rfl⟩
        simp only [Counted.grant]
        split_ifs
        · rfl
        · exact Function.update_of_ne hk _ _
      · rcases hdrift.row with heq | hnone
        · have hsome : t.db.rateLimits key = some row := heq.trans hrow
          constructor
          · intro row' hnew
            have hset : some ⟨1, resetAt⟩ = some row' := by
              simpa [LoginStore.setRateLimit, LoginStore.exec, hsome] using hnew
            obtain rfl := Option.some.inj hset
            simp [Counted.grant, hsome]
          · simpa [Counted.grant, hsome] using hmax
          · exact hrest.passed
        · constructor
          · intro row' hnew
            simp [LoginStore.setRateLimit, LoginStore.exec, hnone] at hnew
          · simpa [Counted.grant, hnone] using hrest.bounded
          · exact hrest.passed
    · exact atRest h
    · apply Discipline.obeys_held hsafe (fun _ h => by cases h)
      intro t hdrift _
      have hrest := rateRest_drift h hdrift
      -- the row counts every call, and it has not reached the limit
      have hbelow : s.granted key ≤ row.attempts := h.counted row hrow
      have hsame : t.granted key = s.granted key := hdrift.granted
      refine ⟨(), _, rfl, within_of_update fun k hk => ?_, atRest ?_⟩
      · simp [LoginStore.setRateLimit, LoginStore.exec, Counted.grant, Counted.fail,
          Function.update_of_ne hk]
      · constructor
        · intro row' hnew
          rcases hdrift.row with heq | hnone
          · have hset : some { row with attempts := row.attempts + 1 } = some row' := by
              simpa [LoginStore.setRateLimit, LoginStore.exec, heq.trans hrow] using hnew
            obtain rfl := Option.some.inj hset
            simp [Counted.grant]
            omega
          · simp [LoginStore.setRateLimit, LoginStore.exec, hnone] at hnew
        · simp [Counted.grant]
          omega
        · exact hrest.passed

theorem obeys_select (hmax : 1 ≤ (limits key).1) (now resetAt : ℕ) (s : Counted) :
    (rateDiscipline limits).Obeys i key (rateDiscipline limits).AtRest
      (ExceptT.run (do
        let row ← perform (.selectRateLimit key)
        AuthRepository.countRequest key (limits key).1 now resetAt row)) none s := by
  intro t _ hrest
  refine ⟨fun k _ => (rateDiscipline limits).drift_refl k t, ?_⟩
  exact obeys_countRequest hmax now resetAt (hrest key rfl)

theorem obeys_checkIpRateLimit (hmax : ∀ key, 1 ≤ (limits key).1) (i : ℕ) (key : String)
    (s : Counted) :
    (rateDiscipline limits).Obeys i key (rateDiscipline limits).AtRest
      ((rateLimitCalls limits).body key) none s := by
  apply Discipline.obeys_free rfl fun t k _ => (rateDiscipline limits).drift_refl k t
  intro now t cleanUp
  cases cleanUp with
  | false => exact obeys_select (hmax key) now _ t
  | true =>
    apply Discipline.obeys_free rfl fun t k _ => rateDrift_cleanup k t
    exact fun _ u => obeys_select (hmax key) now _ u

/-- Nothing is stored yet, a thousand seconds into time. -/
def emptyTables : LoginStore where
  rateLimits _ := none
  loginAttempts _ := none
  loginChallenges _ := none
  users _ := none
  lastCounters _ := none
  now := 1000000

def rateStart : Pool Answer (Turned Counted String) String (Except String Bool) :=
  ⟨⟨⟨emptyTables, fun _ => 0, fun _ => false⟩, fun _ => none⟩, []⟩

/-- Two calls in a minute. -/
def twoAMinute : String → ℕ × ℕ := fun _ => (2, 60)

/-- So many steps of the call at an index, without a clean-up. -/
def goOn (i n : ℕ) : List (Move String World) := List.replicate n (.next i false)

end Swazz.LoginCalls
