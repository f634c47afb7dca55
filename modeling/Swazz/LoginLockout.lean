import Swazz.RequestRate

/-! The lockout of a username: logins that take turns on it verify at most five passwords
between two successes or expired locks, and none while a lock is on. -/
namespace Swazz.LoginCalls

open AtomicCalls TurnTaking
open StepSystem (Reaches ReachesUnder)

/-- The lock of a row is on. -/
def lockedAt (row : Option LoginAttempts) (now : ℕ) : Bool :=
  match row.bind fun row => row.lockedUntil with
  | none => false
  | some lockedUntil => decide (now < lockedUntil)

/-- A lock of the row runs out between two times. -/
def expires (row : Option LoginAttempts) (before after : ℕ) : Bool :=
  lockedAt row before && !lockedAt row after

/-- The failures that count: none, once the lock has expired. -/
def counting (row : Option LoginAttempts) (now : ℕ) : ℕ :=
  match row with
  | none => 0
  | some ⟨failedCount, none⟩ => failedCount
  | some ⟨failedCount, some lockedUntil⟩ => if now < lockedUntil then failedCount else 0

/-- The tables, and for each username the passwords verified since a login last succeeded or a
lock expired, and whether one was verified or accepted while a lock was on. -/
structure Watched where
  db : LoginStore
  verified : String → ℕ
  lockBroken : String → Bool

namespace Watched

def locked (s : Watched) (username : String) : Bool :=
  lockedAt (s.db.loginAttempts username) s.db.now

/-- The statement that leads to `verifyPassword` on the stored hash is the one that finds the
account, and the one that accepts a login forgets its failures. -/
def verify (s : Watched) : Op → String → ℕ
  | .getUserByUsername username =>
    if (s.db.users username).any fun user => user.isInteractive then
      Function.update s.verified username (s.verified username + 1)
    else s.verified
  | .resetLoginAttempts username => Function.update s.verified username 0
  | _ => s.verified

def breakLock (s : Watched) : Op → String → Bool
  | .getUserByUsername username =>
    if (s.db.users username).any fun user => user.isInteractive then
      Function.update s.lockBroken username (s.lockBroken username || s.locked username)
    else s.lockBroken
  | .resetLoginAttempts username =>
    Function.update s.lockBroken username (s.lockBroken username || s.locked username)
  | _ => s.lockBroken

def exec (s : Watched) (op : Op) : Answer op × Watched :=
  ((s.db.exec op).1, ⟨(s.db.exec op).2, s.verify op, s.breakLock op⟩)

/-- Time passes. -/
def tick (s : Watched) (ms : ℕ) : Watched where
  db := { s.db with now := s.db.now + ms }
  verified username :=
    if expires (s.db.loginAttempts username) s.db.now (s.db.now + ms) then 0
    else s.verified username
  lockBroken := s.lockBroken

end Watched

/-- Time passes, and accounts come, go and change. -/
inductive LoginWorld where
  | tick (ms : ℕ)
  | setUser (username : String) (user : Option User)

def loginCalls (env : Env) :
    System Answer Watched LoginRequest LoginWorld (Except String String) where
  exec _ _ op s := s.exec op
  body r := (AuthService.login env r).run
  world
    | .tick ms, s => s.tick ms
    | .setUser username user, s =>
      { s with db := { s.db with users := Function.update s.db.users username user } }

/-- The password is right, and yet the login neither goes on to be accepted nor to fail: it asks
for a code, or finds the second factor misconfigured. -/
def Stops (env : Env) (r : LoginRequest) (user : User) : Prop :=
  env.verifyPassword r.password user.passwordHash = true ∧ user.twoFactorEnabled = true ∧
    (r.twoFactorCode.filter (fun c => !c.isEmpty) = none ∨
      user.twoFactorSecret.filter (fun s => !s.isEmpty) = none)

/-- No verified password is left without a consequence, and a lock is written before its time
is over. -/
def LoginAdmits (env : Env) (r : LoginRequest) : Op → Watched → Prop
  | .getUserByUsername username, s => ∀ user, s.db.users username = some user →
      user.isInteractive = true → ¬ Stops env r user
  | .recordFailedLogin _ lockedUntil, s => s.db.now < lockedUntil
  | _, _ => True

/-- Only time passes for a username. -/
structure LockDrift (username : String) (s t : Watched) : Prop where
  row : t.db.loginAttempts username = s.db.loginAttempts username
  later : s.db.now ≤ t.db.now
  verified : t.verified username =
    if expires (s.db.loginAttempts username) s.db.now t.db.now then 0 else s.verified username
  lockBroken : t.lockBroken username = s.lockBroken username

/-- Between turns: five passwords at most, and without a lock no more than failures count. -/
structure LockRest (username : String) (s : Watched) : Prop where
  within : s.verified username ≤ 5
  counted : s.locked username = false → s.verified username ≤ 4 ∧
    s.verified username ≤ counting (s.db.loginAttempts username) s.db.now
  unbroken : s.lockBroken username = false

/-- After a password was verified, before it has its consequence. -/
structure LockPending (username : String) (s : Watched) : Prop where
  open_ : s.locked username = false
  within : s.verified username ≤ 5
  counted : s.verified username ≤ counting (s.db.loginAttempts username) s.db.now + 1
  unbroken : s.lockBroken username = false

theorem lockedAt_mono {row : Option LoginAttempts} {before after : ℕ} (hle : before ≤ after)
    (h : lockedAt row before = false) : lockedAt row after = false := by
  simp only [lockedAt] at h ⊢
  cases hlock : row.bind fun row => row.lockedUntil with
  | none => rfl
  | some lockedUntil =>
    simp only [hlock, decide_eq_false_iff_not] at h ⊢
    omega

theorem counting_of_expired {row : Option LoginAttempts} {before after : ℕ}
    (hle : before ≤ after) (h : lockedAt row before = false) :
    counting row after = counting row before := by
  rcases row with _ | ⟨failedCount, _ | lockedUntil⟩
  · rfl
  · rfl
  · have hover : ¬ before < lockedUntil := by simpa [lockedAt] using h
    have hover' : ¬ after < lockedUntil := by omega
    simp [counting, hover, hover']

theorem counting_le (row : LoginAttempts) (now : ℕ) : counting (some row) now ≤ row.failedCount := by
  obtain ⟨failedCount, _ | lockedUntil⟩ := row
  · exact le_refl _
  · rw [counting]
    split
    · exact le_refl _
    · exact Nat.zero_le _

theorem LockDrift.refl (username : String) (s : Watched) : LockDrift username s s where
  row := rfl
  later := le_refl _
  verified := by simp [expires]
  lockBroken := rfl

theorem LockDrift.trans {username : String} {s t u : Watched} (h : LockDrift username s t)
    (h' : LockDrift username t u) : LockDrift username s u where
  row := h'.row.trans h.row
  later := le_trans h.later h'.later
  verified := by
    rw [h'.verified, h.verified, h.row]
    have hlater := h'.later
    simp only [expires, Bool.and_eq_true, Bool.not_eq_true']
    cases hs : lockedAt (s.db.loginAttempts username) s.db.now with
    | false =>
      have ht := lockedAt_mono h.later hs
      simp [ht]
    | true =>
      cases ht : lockedAt (s.db.loginAttempts username) t.db.now with
      | false =>
        have hu := lockedAt_mono hlater ht
        simp [hu]
      | true => simp
  lockBroken := h'.lockBroken.trans h.lockBroken

theorem lockRest_drift {username : String} {s t : Watched} (h : LockRest username s)
    (hdrift : LockDrift username s t) : LockRest username t := by
  have hrow := hdrift.row
  have hverified := hdrift.verified
  cases hs : s.locked username with
  | false =>
    have hkept : t.verified username = s.verified username := by
      have hnot : lockedAt (s.db.loginAttempts username) s.db.now = false := hs
      simpa [expires, hnot] using hverified
    obtain ⟨hfour, hcount⟩ := h.counted hs
    constructor
    · rw [hkept]
      exact h.within
    · intro _
      rw [hkept, hrow, counting_of_expired hdrift.later hs]
      exact ⟨hfour, hcount⟩
    · exact hdrift.lockBroken.trans h.unbroken
  | true =>
    have hon : lockedAt (s.db.loginAttempts username) s.db.now = true := hs
    simp only [expires, hon, Bool.true_and, Bool.not_eq_true'] at hverified
    constructor
    · rw [hverified]
      split
      · exact Nat.zero_le 5
      · exact h.within
    · intro ht
      -- the lock has run out, and so nothing counts
      have hover : lockedAt (s.db.loginAttempts username) t.db.now = false := hrow ▸ ht
      rw [if_pos hover] at hverified
      rw [hverified]
      exact ⟨Nat.zero_le _, Nat.zero_le _⟩
    · exact hdrift.lockBroken.trans h.unbroken

theorem lockPending_drift {username : String} {s t : Watched} (h : LockPending username s)
    (hdrift : LockDrift username s t) : LockPending username t := by
  have hnot : lockedAt (s.db.loginAttempts username) s.db.now = false := h.open_
  have hkept : t.verified username = s.verified username := by
    simpa [expires, hnot] using hdrift.verified
  constructor
  · have hrow : t.db.loginAttempts username = s.db.loginAttempts username := hdrift.row
    rw [Watched.locked, hrow]
    exact lockedAt_mono hdrift.later hnot
  · rw [hkept]
    exact h.within
  · rw [hkept, hdrift.row, counting_of_expired hdrift.later hnot]
    exact h.counted
  · exact hdrift.lockBroken.trans h.unbroken

/-- A turn on a username begins when its lock is read. -/
def loginDiscipline (env : Env) : Discipline (loginCalls env) String where
  enters
    | .selectLoginAttempts username => some username
    | _ => none
  Admits := LoginAdmits env
  Drift := LockDrift
  Rest := LockRest
  Safe username s := s.verified username ≤ 5 ∧ s.lockBroken username = false
  drift_refl := LockDrift.refl
  drift_trans _ _ _ _ := LockDrift.trans
  drift_world username e s := by
    cases e with
    | tick ms =>
      constructor
      · rfl
      · exact Nat.le_add_right _ _
      · rfl
      · rfl
    | setUser name user =>
      constructor
      · rfl
      · exact le_refl _
      · exact (LockDrift.refl username s).verified
      · rfl
  rest_drift _ _ _ := lockRest_drift
  safe_drift _ s t h hdrift := by
    refine ⟨?_, hdrift.lockBroken.trans h.2⟩
    rw [hdrift.verified]
    split
    · exact Nat.zero_le 5
    · exact h.1
  safe_of_rest _ _ h := ⟨h.within, h.unbroken⟩

variable {env : Env} {i : ℕ} {r : LoginRequest} {username : String} {s t : Watched}

/-- A call that is about one username, and takes no time. -/
theorem within_username (hnow : t.db.now = s.db.now)
    (h : ∀ k, k ≠ username → t.db.loginAttempts k = s.db.loginAttempts k ∧
      t.verified k = s.verified k ∧ t.lockBroken k = s.lockBroken k) :
    (loginDiscipline env).Within (some username) s t := by
  intro k hk
  obtain ⟨hrow, hverified, hbroken⟩ := h k fun heq => hk (heq ▸ rfl)
  have hrefl := LockDrift.refl k s
  exact ⟨hrow, hnow.ge, by rw [hnow, hverified]; exact hrefl.verified, hbroken⟩

theorem within_refl {k : Option String} : (loginDiscipline env).Within k s s :=
  fun k' _ => LockDrift.refl k' s

/-- The turn is on the username, and nothing is owed. -/
def Settled {β : Type} (username : String) (_ : β) (held : Option String) (s : Watched) : Prop :=
  held = some username ∧ LockRest username s

theorem atRest_of_settled {β : Type} {b : β} {held : Option String}
    (h : Settled username b held s) : (loginDiscipline env).AtRest b held s := by
  obtain ⟨rfl, hrest⟩ := h
  intro k hk
  obtain rfl := Option.some.inj hk
  exact hrest

theorem obeys_refuseIf {β : Type} {cond : Bool} {message : String} {f : Unit → Service β}
    {held : Option String} {Post : Except String β → Option String → Watched → Prop}
    (hstop : cond = true → Post (.error message) held s)
    (hgo : cond = false → (loginDiscipline env).Obeys i r Post (f ()).run held s) :
    (loginDiscipline env).Obeys i r Post (refuseIf cond message >>= f).run held s := by
  cases cond with
  | true => exact hstop rfl
  | false => exact hgo rfl

/-- What reading the lock says: the row may lock the name, and if it does not, there is no lock
on when the call returns. -/
theorem obeys_judgeLock (h : LockRest username s) :
    (loginDiscipline env).Obeys i r
      (fun locked held t => Settled username locked held t ∧
        (locked = false → t.locked username = false))
      (AuthRepository.judgeLock username (s.db.loginAttempts username)) (some username) s := by
  have hsafe := (loginDiscipline env).safe_of_rest username s h
  rw [AuthRepository.judgeLock]
  cases hlock : (s.db.loginAttempts username).bind fun row => row.lockedUntil with
  | none =>
    refine ⟨⟨rfl, h⟩, fun _ => ?_⟩
    simp [Watched.locked, lockedAt, hlock]
  | some lockedUntil =>
    apply Discipline.obeys_held hsafe (fun _ h => by cases h)
    intro t hdrift _
    have hrest := lockRest_drift h hdrift
    refine ⟨t.db.now, t, rfl, within_refl, ?_⟩
    rw [Calls.bind]
    split_ifs with hon
    · exact ⟨⟨rfl, hrest⟩, nofun⟩
    · apply Discipline.obeys_held ((loginDiscipline env).safe_of_rest username t hrest)
        (fun _ h => by cases h)
      intro u hdrift' _
      have hrest' := lockRest_drift hrest hdrift'
      have hrow : u.db.loginAttempts username = s.db.loginAttempts username :=
        hdrift'.row.trans hdrift.row
      have hlater : t.db.now ≤ u.db.now := hdrift'.later
      have hover : u.locked username = false := by
        have hle : ¬ u.db.now < lockedUntil := by omega
        simpa [Watched.locked, lockedAt, hrow, hlock] using hle
      have hnone : u.verified username = 0 := by
        have hcount := (hrest'.counted hover).2
        obtain ⟨row, hsome, hlocked⟩ := Option.bind_eq_some_iff.mp hlock
        obtain ⟨failedCount, until_⟩ := row
        obtain rfl : until_ = some lockedUntil := hlocked
        have hle : ¬ u.db.now < lockedUntil := by omega
        simpa [counting, hrow, hsome, hle] using hcount
      refine ⟨(), _, rfl, within_username rfl fun k hk => ?_, ⟨rfl, ?_⟩, fun _ => ?_⟩
      · exact ⟨Function.update_of_ne hk _ _, rfl, rfl⟩
      · constructor
        · exact hnone.le.trans (Nat.zero_le 5)
        · intro _
          exact ⟨hnone.le.trans (Nat.zero_le 4), hnone.le.trans (Nat.zero_le _)⟩
        · exact hrest'.unbroken
      · simp only [Watched.locked, LoginStore.exec, LoginStore.setAttempts, Function.update_self,
          lockedAt]
        cases u.db.loginAttempts username <;> rfl

theorem obeys_checkLoginRateLimit_first (s : Watched) :
    (loginDiscipline env).Obeys i r
      (fun locked held t => Settled username locked held t ∧
        (locked = false → t.locked username = false))
      (AuthRepository.checkLoginRateLimit username) none s := by
  intro t _ hrest
  exact ⟨within_refl, obeys_judgeLock (hrest username rfl)⟩

/-- The lock is read again after a failure. -/
theorem obeys_checkLoginRateLimit_again (h : LockRest username s) :
    (loginDiscipline env).Obeys i r (Settled username)
      (AuthRepository.checkLoginRateLimit username) (some username) s := by
  apply Discipline.obeys_held ((loginDiscipline env).safe_of_rest username s h)
  · intro k hk
    exact (Option.some.inj hk).symm
  · intro t hdrift _
    refine ⟨t.db.loginAttempts username, t, rfl, within_refl, ?_⟩
    exact Discipline.obeys_imp (obeys_judgeLock (lockRest_drift h hdrift)) fun _ _ _ h => h.1

theorem safe_of_pending (h : LockPending username s) :
    (loginDiscipline env).Safe username s := ⟨h.within, h.unbroken⟩

/-- Without a lock, a turn may go on to a failure. -/
theorem LockRest.pending (h : LockRest username s) (hopen : s.locked username = false) :
    LockPending username s where
  open_ := hopen
  within := h.within
  counted := Nat.le_succ_of_le (h.counted hopen).2
  unbroken := h.unbroken

/-- A failure on record settles what was pending: it counts, or it sets the lock. -/
theorem lockRest_of_failed {lockedUntil : ℕ} (h : LockPending username s)
    (hlater : s.db.now < lockedUntil) :
    LockRest username (s.exec (.recordFailedLogin username lockedUntil)).2 := by
  have hrow : (s.exec (.recordFailedLogin username lockedUntil)).2.db.loginAttempts username =
      some (LoginStore.failed (s.db.loginAttempts username) lockedUntil) :=
    Function.update_self _ _ _
  have hcount := h.counted
  constructor
  · exact h.within
  · intro hopen
    rw [Watched.locked, hrow] at hopen
    rw [hrow]
    change s.verified username ≤ 4 ∧ s.verified username ≤ counting _ s.db.now
    cases hold : s.db.loginAttempts username with
    | none =>
      simp only [hold, counting] at hcount
      simp only [LoginStore.failed, counting]
      omega
    | some row =>
      simp only [hold, LoginStore.failed] at hopen hcount ⊢
      by_cases hfifth : row.failedCount + 1 ≥ 5
      · -- the fifth failure sets the lock, which is on
        have hon : lockedAt (some ⟨row.failedCount + 1, some lockedUntil⟩) s.db.now = true := by
          simpa [lockedAt] using hlater
        rw [if_pos hfifth] at hopen
        exact absurd (hon.symm.trans hopen) nofun
      · have hcounted := counting_le row s.db.now
        simp only [if_neg hfifth, counting]
        omega
  · exact h.unbroken

theorem obeys_recordFailedLogin (h : LockPending username s) :
    (loginDiscipline env).Obeys i r (Settled username)
      (AuthRepository.recordFailedLogin username) (some username) s := by
  apply Discipline.obeys_held (safe_of_pending h) (fun _ h => by cases h)
  intro t hdrift _
  have hpending := lockPending_drift h hdrift
  refine ⟨t.db.now, t, rfl, within_refl, ?_⟩
  apply Discipline.obeys_held (safe_of_pending hpending) (fun _ h => by cases h)
  intro u hdrift' hadmits
  have hpending' := lockPending_drift hpending hdrift'
  refine ⟨(), _, rfl, within_username rfl fun k hk => ?_, rfl, ?_⟩
  · exact ⟨Function.update_of_ne hk _ _, rfl, rfl⟩
  · exact lockRest_of_failed hpending' hadmits

theorem obeys_history {userId status : String} {f : Unit → Calls Answer (Except String String)}
    (h : LockRest username s) (hf : ∀ t, LockRest username t →
      (loginDiscipline env).Obeys i r (loginDiscipline env).AtRest (f ()) (some username) t) :
    (loginDiscipline env).Obeys i r (loginDiscipline env).AtRest
      ((perform (.recordLoginHistory userId status)).bind f) (some username) s := by
  apply Discipline.obeys_held ((loginDiscipline env).safe_of_rest username s h)
    (fun _ h => by cases h)
  intro t hdrift _
  exact ⟨(), t, rfl, within_refl, hf t (lockRest_drift h hdrift)⟩

theorem obeys_rejectLogin (h : LockPending username s) (user : User) (status : String) :
    (loginDiscipline env).Obeys i r (loginDiscipline env).AtRest
      (AuthService.rejectLogin username user status).run (some username) s := by
  apply Discipline.obeys_run_bind
  apply Discipline.obeys_run_lift
  apply Discipline.obeys_imp (obeys_recordFailedLogin h)
  rintro - held t ⟨rfl, hrest⟩
  apply Discipline.obeys_run_bind
  apply Discipline.obeys_run_lift
  apply Discipline.obeys_imp (obeys_checkLoginRateLimit_again hrest)
  rintro locked held u ⟨rfl, hrest⟩
  exact obeys_history hrest fun v hv => atRest_of_settled ⟨rfl, hv⟩

theorem obeys_acceptLogin (h : LockPending username s) (user : User) :
    (loginDiscipline env).Obeys i r (loginDiscipline env).AtRest
      (AuthService.acceptLogin env username user).run (some username) s := by
  apply Discipline.obeys_held (safe_of_pending h) (fun _ h => by cases h)
  intro t hdrift _
  have hpending := lockPending_drift h hdrift
  refine ⟨(), _, rfl, within_username rfl fun k hk => ?_, ?_⟩
  · exact ⟨Function.update_of_ne hk _ _, Function.update_of_ne hk _ _,
      Function.update_of_ne hk _ _⟩
  · have hrest : LockRest username (t.exec (.resetLoginAttempts username)).2 := by
      constructor
      · simp [Watched.exec, Watched.verify]
      · intro _
        simp [Watched.exec, Watched.verify]
      · simp [Watched.exec, Watched.breakLock, hpending.open_, hpending.unbroken]
    apply obeys_history hrest
    intro u hu
    cases env.JWT_SECRET with
    | false => exact atRest_of_settled ⟨rfl, hu⟩
    | true => exact atRest_of_settled ⟨rfl, hu⟩

/-- The second factor is no concern of the lock. -/
theorem lockDrift_consume (k userId : String) (counter : ℕ) (s : Watched) :
    LockDrift k s (s.exec (.consumeTotpCounter userId counter)).2 := by
  have hrow : (s.exec (.consumeTotpCounter userId counter)).2.db.loginAttempts =
      s.db.loginAttempts := by
    simp only [Watched.exec, LoginStore.exec]
    split <;> rfl
  have hnow : (s.exec (.consumeTotpCounter userId counter)).2.db.now = s.db.now := by
    simp only [Watched.exec, LoginStore.exec]
    split <;> rfl
  have hrefl := LockDrift.refl k s
  constructor
  · rw [hrow]
  · exact hnow.ge
  · rw [hnow]
    exact hrefl.verified
  · rfl

theorem obeys_acceptTotp (h : LockPending username s) (userId secret code : String) :
    (loginDiscipline env).Obeys i r
      (fun _ held t => held = some username ∧ LockPending username t)
      (AuthService.acceptTotp env userId secret code) (some username) s := by
  rw [AuthService.acceptTotp]
  cases env.matchTOTP secret code with
  | none => exact ⟨rfl, h⟩
  | some counter =>
    apply Discipline.obeys_held (safe_of_pending h) (fun _ h => by cases h)
    intro t hdrift _
    have hpending := lockPending_drift h hdrift
    refine ⟨_, _, rfl, fun k _ => lockDrift_consume k userId counter t, rfl, ?_⟩
    exact lockPending_drift hpending (lockDrift_consume username userId counter t)

theorem obeys_secondFactor {user : User} (h : LockPending username s)
    (hright : env.verifyPassword r.password user.passwordHash = true)
    (hgoes : ¬ Stops env r user) :
    (loginDiscipline env).Obeys i r (loginDiscipline env).AtRest
      (AuthService.secondFactor env r username user).run (some username) s := by
  rw [AuthService.secondFactor]
  split_ifs with htwo
  · cases hcode : r.twoFactorCode.filter fun c => !c.isEmpty with
    | none => exact absurd ⟨hright, htwo, Or.inl hcode⟩ hgoes
    | some code =>
      cases hsecret : user.twoFactorSecret.filter fun s => !s.isEmpty with
      | none => exact absurd ⟨hright, htwo, Or.inr hsecret⟩ hgoes
      | some encrypted =>
        cases hdecrypted : env.decryptTOTPSecret encrypted r.password with
        | none =>
          simp only [hdecrypted]
          exact obeys_rejectLogin h user _
        | some secret =>
          simp only [hdecrypted]
          apply Discipline.obeys_run_bind
          apply Discipline.obeys_run_lift
          apply Discipline.obeys_imp (obeys_acceptTotp h user.id secret code)
          rintro isValid held t ⟨rfl, hpending⟩
          cases isValid with
          | true => exact obeys_acceptLogin hpending user
          | false => exact obeys_rejectLogin hpending user _
  · exact obeys_acceptLogin h user

/-- A verified password is owed a consequence. -/
theorem pending_of_verify (h : LockRest username s) (hopen : s.locked username = false)
    {user : User} (hfound : s.db.users username = some user)
    (hinteractive : user.isInteractive = true) :
    LockPending username (s.exec (.getUserByUsername username)).2 := by
  have hany : (s.db.users username).any (fun user => user.isInteractive) = true := by
    rw [hfound]
    exact hinteractive
  have hverified : (s.exec (.getUserByUsername username)).2.verified username =
      s.verified username + 1 := by
    simp only [Watched.exec, Watched.verify, if_pos hany, Function.update_self]
  have hbroken : (s.exec (.getUserByUsername username)).2.lockBroken username = false := by
    simp only [Watched.exec, Watched.breakLock, if_pos hany, Function.update_self, hopen,
      h.unbroken, Bool.or_false]
  obtain ⟨hfour, hcount⟩ := h.counted hopen
  constructor
  · exact hopen
  · rw [hverified]
    omega
  · rw [hverified]
    exact Nat.succ_le_succ hcount
  · exact hbroken

/-- Looking for an account that does not log in interactively verifies nothing. -/
theorem lookup_of_other (hany : (s.db.users username).any (fun user => user.isInteractive) = false) :
    (s.exec (.getUserByUsername username)).2 = s := by
  simp only [Watched.exec, Watched.verify, Watched.breakLock, hany]
  rfl

theorem within_lookup : (loginDiscipline env).Within (some username) s
    (s.exec (.getUserByUsername username)).2 := by
  apply within_username
  · rfl
  · intro k hk
    simp only [Watched.exec, Watched.verify, Watched.breakLock]
    split
    · exact ⟨rfl, Function.update_of_ne hk _ _, Function.update_of_ne hk _ _⟩
    · exact ⟨rfl, rfl, rfl⟩

/-- What is owed after the account was looked for. -/
def Found (env : Env) (r : LoginRequest) (username : String) :
    Option User → Watched → Prop
  | none, s => LockPending username s
  | some user, s =>
    if user.isInteractive then LockPending username s ∧ ¬ Stops env r user
    else LockRest username s

theorem obeys_lookup (h : LockRest username s) (hopen : s.locked username = false) :
    (loginDiscipline env).Obeys i r
      (fun user held t => held = some username ∧ Found env r username user t)
      (perform (.getUserByUsername username)) (some username) s := by
  apply Discipline.obeys_held ((loginDiscipline env).safe_of_rest username s h)
    (fun _ h => by cases h)
  intro t hdrift hadmits
  have hrest := lockRest_drift h hdrift
  have hopen' : t.locked username = false := by
    rw [Watched.locked, hdrift.row]
    exact lockedAt_mono hdrift.later hopen
  refine ⟨t.db.users username, _, rfl, within_lookup, rfl, ?_⟩
  change Found env r username _ (t.exec (.getUserByUsername username)).2
  cases hfound : t.db.users username with
  | none =>
    rw [lookup_of_other (by rw [hfound]; rfl)]
    exact hrest.pending hopen'
  | some user =>
    rw [Found]
    split_ifs with hinteractive
    · exact ⟨pending_of_verify hrest hopen' hfound hinteractive,
        hadmits user hfound hinteractive⟩
    · rw [lookup_of_other (by rw [hfound]; exact eq_false_of_ne_true hinteractive)]
      exact hrest

theorem obeys_loginAs (i : ℕ) (r : LoginRequest) (username : String) (s : Watched) :
    (loginDiscipline env).Obeys i r (loginDiscipline env).AtRest
      (AuthService.loginAs env r username).run none s := by
  apply Discipline.obeys_run_bind
  apply Discipline.obeys_run_lift
  apply Discipline.obeys_imp (obeys_checkLoginRateLimit_first s)
  rintro locked held t ⟨⟨rfl, hrest⟩, hopen⟩
  apply obeys_refuseIf fun _ => atRest_of_settled ⟨rfl, hrest⟩
  intro hgo
  apply Discipline.obeys_run_bind
  apply Discipline.obeys_run_lift
  apply Discipline.obeys_imp (obeys_lookup hrest (hopen hgo))
  rintro user held u ⟨rfl, hfound⟩
  cases user with
  | none =>
    apply Discipline.obeys_run_bind
    apply Discipline.obeys_run_lift
    apply Discipline.obeys_imp (obeys_recordFailedLogin hfound)
    exact fun _ _ _ h => atRest_of_settled h
  | some user =>
    simp only [Found] at hfound
    split_ifs at hfound with hinteractive
    · obtain ⟨hpending, hgoes⟩ := hfound
      apply obeys_refuseIf fun hservice => absurd hservice (by simp [hinteractive])
      intro _
      split_ifs with hright
      · exact obeys_secondFactor hpending hright hgoes
      · exact obeys_rejectLogin hpending user _
    · apply obeys_refuseIf fun _ => atRest_of_settled ⟨rfl, hfound⟩
      intro hperson
      exact absurd (by simpa using hperson) hinteractive

/-- The calls before the name is known. -/
def Early : Op → Prop
  | .now | .deleteExpiredRateLimits | .selectRateLimit _ | .insertRateLimit _ _
  | .resetRateLimit _ _ | .incrementRateLimit _ | .selectChallenge _ | .deleteChallenge _ => True
  | _ => False

theorem early_exec {op : Op} (hearly : Early op) (db : LoginStore) :
    (db.exec op).2.loginAttempts = db.loginAttempts ∧ (db.exec op).2.now = db.now := by
  cases op with
  | insertRateLimit key resetAt =>
    rw [LoginStore.exec]
    split
    · exact ⟨rfl, rfl⟩
    · exact ⟨rfl, rfl⟩
  | now | deleteExpiredRateLimits | selectRateLimit | resetRateLimit | incrementRateLimit
    | selectChallenge | deleteChallenge => exact ⟨rfl, rfl⟩
  | selectLoginAttempts | clearLock | recordFailedLogin | resetLoginAttempts | getUserByUsername
    | consumeTotpCounter | recordLoginHistory => exact hearly.elim

theorem early_free {op : Op} (hearly : Early op) :
    (loginDiscipline env).enters op = none ∧
      ∀ s, (loginDiscipline env).Within none s ((loginCalls env).exec i r op s).2 := by
  constructor
  · cases op <;> first | rfl | exact hearly.elim
  · intro s k _
    obtain ⟨hrow, hnow⟩ := early_exec hearly s.db
    have hrefl := LockDrift.refl k s
    have hghost : s.verify op = s.verified ∧ s.breakLock op = s.lockBroken := by
      cases op <;> first | exact ⟨rfl, rfl⟩ | exact hearly.elim
    constructor
    · exact congrFun hrow k
    · exact hnow.ge
    · change s.verify op k = if expires _ s.db.now (s.db.exec op).2.now then 0 else _
      rw [hnow, hghost.1]
      exact hrefl.verified
    · exact congrFun hghost.2 k

theorem uses_checkIpRateLimit (key : String) (maxAttempts windowSeconds : ℕ) :
    Calls.Uses Early (AuthRepository.checkIpRateLimit key maxAttempts windowSeconds).run := by
  have hcount (now resetAt : ℕ) (row : Option RateLimit) :
      Calls.Uses Early (AuthRepository.countRequest key maxAttempts now resetAt row).run := by
    cases row with
    | none =>
      refine ⟨trivial, fun inserted => ?_⟩
      cases inserted <;> exact trivial
    | some row =>
      rw [AuthRepository.countRequest]
      split_ifs
      · exact ⟨trivial, fun _ => trivial⟩
      · exact trivial
      · exact ⟨trivial, fun _ => trivial⟩
  refine ⟨trivial, fun now cleanUp => ?_⟩
  cases cleanUp with
  | false => exact ⟨trivial, hcount _ _⟩
  | true => exact ⟨trivial, fun _ => ⟨trivial, hcount _ _⟩⟩

theorem uses_refuseIf {cond : Bool} {message : String} :
    Calls.Uses Early (refuseIf cond message).run := by
  cases cond <;> exact trivial

theorem uses_loginUsername (r : LoginRequest) :
    Calls.Uses Early (AuthService.loginUsername env r).run := by
  have hconsume : Calls.Uses Early (AuthRepository.getAndConsumeChallenge r.token) := by
    rw [AuthRepository.getAndConsumeChallenge]
    split
    · exact trivial
    · refine ⟨trivial, fun row => ?_⟩
      cases row with
      | none => exact trivial
      | some row => exact ⟨trivial, fun _ => trivial⟩
  rw [AuthService.loginUsername]
  split
  · exact trivial
  · split
    · exact trivial
    · refine Calls.uses_run_bind (Calls.uses_run_lift hconsume) fun challengeRow => ?_
      cases challengeRow with
      | none => exact trivial
      | some row =>
        refine ⟨trivial, fun now => ?_⟩
        refine Calls.uses_run_bind uses_refuseIf fun _ => ?_
        exact Calls.uses_run_bind uses_refuseIf fun _ => trivial

/-- A login keeps to its name from the reading of the lock to its return. -/
theorem obeys_login (i : ℕ) (r : LoginRequest) (s : Watched) :
    (loginDiscipline env).Obeys i r (loginDiscipline env).AtRest
      ((loginCalls env).body r) none s := by
  have hnone {β : Type} (b : β) (t : Watched) : (loginDiscipline env).AtRest b none t := nofun
  apply Discipline.obeys_run_bind
  apply Discipline.obeys_of_uses ((uses_checkIpRateLimit _ _ _).mono fun _ => early_free)
  intro limited t
  cases limited with
  | error message => exact hnone _ t
  | ok limited =>
    apply obeys_refuseIf fun _ => hnone _ t
    intro _
    apply Discipline.obeys_run_bind
    apply Discipline.obeys_of_uses ((uses_loginUsername r).mono fun _ => early_free)
    intro username u
    cases username with
    | error message => exact hnone _ u
    | ok username => exact obeys_loginAs i r username u

/-- A test deployment, so that no challenge is asked for. -/
def testEnv : Env where
  JWT_SECRET := true
  isTestEnv := true
  sha256Hex text := text
  verifyPassword password hash := password == hash
  decryptTOTPSecret encrypted _ := some encrypted
  matchTOTP _ _ := none

def guess (password : String) : LoginRequest where
  clientIp := "ip"
  turnstileError := none
  token := none
  username := some "alice"
  nonce := ""
  password := password
  twoFactorCode := none

def aliceStart (twoFactorEnabled : Bool) :
    Pool Answer (Turned Watched String) LoginRequest (Except String String) :=
  ⟨⟨⟨{ emptyTables with
      users := fun name =>
        if name = "alice" then some ⟨"id", "right", true, twoFactorEnabled, none⟩ else none },
    fun _ => 0, fun _ => false⟩, fun _ => none⟩, []⟩

def proceed (i n : ℕ) : List (Move LoginRequest LoginWorld) := List.replicate n (.next i false)

/-- A login, as far as the reading of its lock. -/
def reads (i : ℕ) (password : String) : List (Move LoginRequest LoginWorld) :=
  .start (guess password) :: proceed i 5

end Swazz.LoginCalls
