import Swazz.AuthCalls

/-! A credential that is good for one use makes at most one request succeed. -/
namespace Swazz.AuthCalls

open AtomicCalls
open StepSystem (Reaches ReachesUnder)

inductive Credential where
  | challenge (token : String)
  | exchange (code : String)
  | email (token : String)
  | passkey (challenge : String)
  | totp (userId secret : String) (counter : ℕ)
  deriving DecidableEq

/-- The credential is spent by reading it and deleting it in a later call. -/
def Credential.readFirst : Credential → Bool
  | .challenge _ | .exchange _ | .email _ => true
  | _ => false

/-- The store, and of the calls made so far: which request accepted which credential,
which of these it has yet to delete, and the TOTP secret that a request read last. -/
structure Audited where
  store : AuthStore
  accepted : List (ℕ × Credential)
  undeleted : List (ℕ × Credential)
  matched : List (ℕ × String)

namespace Audited

/-- The credential that a call accepts by its answer. -/
def accepts (s : Audited) (who : ℕ) : (op : Op) → Answer op → Option Credential
  | .selectChallenge token _, row => row.map fun _ => .challenge token
  | .kvGet (.oauthCode code), stored => stored.map fun _ => .exchange code
  | .kvGet (.emailVerify token), data => data.map fun _ => .email token
  | .consumePasskeyChallenge challenge, spent =>
    if spent then some (.passkey challenge) else none
  | .consumeTotpCounter userId counter, spent =>
    if spent then some (.totp userId ((s.matched.lookup who).getD "") counter) else none
  | _, _ => none

def deletes : Op → Option Credential
  | .deleteChallenge token => some (.challenge token)
  | .kvDelete (.oauthCode code) => some (.exchange code)
  | .kvDelete (.emailVerify token) => some (.email token)
  | _ => none

def readSecret (who : ℕ) : (op : Op) → Answer op → List (ℕ × String)
  | .getUserByUsername _, user => (user.bind fun u => u.2.twoFactorSecret).toList.map (who, ·)
  | _, _ => []

def exec (who : ℕ) (op : Op) (s : Audited) : Answer op × Audited :=
  let answer := (s.store.exec op).1
  let accepted := (s.accepts who op answer).toList.map (who, ·)
  (answer, {
    store := (s.store.exec op).2
    accepted := s.accepted ++ accepted
    undeleted := (s.undeleted.filter fun l => !(l.1 == who && deletes op == some l.2)) ++
      accepted.filter fun l => l.2.readFirst
    matched := readSecret who op answer ++ s.matched })

end Audited

/-- What happens to the store by itself: time passes, KV drops an entry whose time is up,
and the cleanup drops an expired challenge. -/
inductive World where
  | tick (ms : ℕ)
  | expire (key : KvKey)
  | cleanup (token : String)

def AuthStore.pass (s : AuthStore) : World → AuthStore
  | .tick ms => { s with now := s.now + ms }
  | .expire key => { s with kv := Function.update s.kv key none }
  | .cleanup token =>
    { s with loginChallenges := Function.update s.loginChallenges token none }

def authRequests (env : Env) :
    System Answer Audited AuthRequest World (Except String String) where
  exec who _ op s := s.exec who op
  body r := (serveAuth env r).run
  world e s := { s with store := s.store.pass e }

abbrev AuthPool := Pool Answer Audited AuthRequest (Except String String)

/-- The request at an index was answered with success, having accepted the credential. -/
def Succeeded (w : AuthPool) (i : ℕ) (c : Credential) : Prop :=
  (∃ r status, w.running[i]? = some (r, .ret (.ok status))) ∧ (i, c) ∈ w.store.accepted

/-- What is made up at random was not in use before. -/
def FreshCall (s : Audited) : Op → Prop
  | .createLoginChallenge token _ _ _ _ => ∀ l ∈ s.accepted, l.2 ≠ .challenge token
  | .kvPut (.oauthCode code) _ => ∀ l ∈ s.accepted, l.2 ≠ .exchange code
  | .kvPut (.emailVerify token) _ => ∀ l ∈ s.accepted, l.2 ≠ .email token
  | .updateUserTwoFactorSecret userId (some secret) false =>
    ∀ l ∈ s.accepted, ∀ counter, l.2 ≠ .totp userId secret counter
  | _ => True

/-- No call finds a credential that another request has read and has yet to delete, and
the secret a code was matched against, or is written back, is still the user's. -/
def CallInTurn (s : Audited) (i : ℕ) : Op → Prop
  | .consumeTotpCounter userId _ => ∀ user, s.store.users userId = some user →
      ∃ secret, s.matched.lookup i = some secret ∧ user.twoFactorSecret = some secret
  | .updateUserTwoFactorSecret userId (some secret) true =>
    ∀ user, s.store.users userId = some user → user.twoFactorSecret = some secret
  | op => ∀ c, s.accepts i op (s.store.exec op).1 = some c → c.readFirst = true →
      ∀ l ∈ s.undeleted, l.2 = c → l.1 = i

/-- A run in which random values do not repeat and the requests that share a credential
take turns. -/
def InTurn (w : AuthPool) : Move AuthRequest World → Prop
  | .next i _ => ∀ c ∈ System.nextCall w i,
      FreshCall w.store c.2 ∧ CallInTurn w.store i c.2
  | _ => True

/-- The credential can be read. -/
def AuthStore.Live (s : AuthStore) : Credential → Prop
  | .challenge token => s.loginChallenges token ≠ none
  | .exchange code => s.kv (.oauthCode code) ≠ none
  | .email token => s.kv (.emailVerify token) ≠ none
  | _ => False

/-- What was accepted stays spent. -/
structure Spent (s : Audited) : Prop where
  gone : ∀ l ∈ s.accepted, l.2.readFirst = true → l ∈ s.undeleted ∨ ¬s.store.Live l.2
  passkey : ∀ i challenge, (i, Credential.passkey challenge) ∈ s.accepted →
    challenge ∈ s.store.usedPasskeyChallenges
  totp : ∀ i userId secret counter, (i, Credential.totp userId secret counter) ∈ s.accepted →
    ∀ user, s.store.users userId = some user → user.twoFactorSecret = some secret →
      ∃ last, user.twoFactorLastCounter = some last ∧ counter ≤ last
  once : ∀ i j c, (i, c) ∈ s.accepted → (j, c) ∈ s.accepted → i = j

def creates : Op → Option Credential
  | .createLoginChallenge token _ _ _ _ => some (.challenge token)
  | .kvPut (.oauthCode code) _ => some (.exchange code)
  | .kvPut (.emailVerify token) _ => some (.email token)
  | _ => none

theorem update_ne_none {α β : Type} [DecidableEq α] {f : α → Option β} {a b : α}
    {v : Option β} (h : Function.update f a v b ≠ none) :
    a = b ∧ v ≠ none ∨ a ≠ b ∧ f b ≠ none := by
  by_cases hab : a = b
  · subst hab
    exact Or.inl ⟨rfl, by simpa using h⟩
  · exact Or.inr ⟨hab, by simpa [Function.update_of_ne (Ne.symm hab)] using h⟩

/-- What can be read after a call could be read before, or the call stored it. -/
theorem live_exec {s : AuthStore} {op : Op} {c : Credential} (h : (s.exec op).2.Live c) :
    (s.Live c ∨ creates op = some c) ∧ Audited.deletes op ≠ some c := by
  cases op with
  | createLoginChallenge token =>
    refine ⟨?_, nofun⟩
    cases c with
    | challenge token' =>
      rcases update_ne_none h with ⟨rfl, -⟩ | ⟨-, hold⟩
      · exact Or.inr rfl
      · exact Or.inl hold
    | _ => exact Or.inl h
  | deleteChallenge token =>
    cases c with
    | challenge token' =>
      rcases update_ne_none h with ⟨-, hnone⟩ | ⟨hne, hold⟩
      · exact absurd rfl hnone
      · exact ⟨Or.inl hold, by simpa [Audited.deletes] using hne⟩
    | _ => exact ⟨Or.inl h, by simp [Audited.deletes]⟩
  | kvPut key value =>
    refine ⟨?_, nofun⟩
    cases c with
    | exchange code =>
      rcases update_ne_none h with ⟨rfl, -⟩ | ⟨-, hold⟩
      · exact Or.inr rfl
      · exact Or.inl hold
    | email token =>
      rcases update_ne_none h with ⟨rfl, -⟩ | ⟨-, hold⟩
      · exact Or.inr rfl
      · exact Or.inl hold
    | _ => exact Or.inl h
  | kvDelete key =>
    cases c with
    | exchange code =>
      rcases update_ne_none h with ⟨-, hnone⟩ | ⟨hne, hold⟩
      · exact absurd rfl hnone
      · refine ⟨Or.inl hold, ?_⟩
        cases key <;> simp_all [Audited.deletes]
    | email token =>
      rcases update_ne_none h with ⟨-, hnone⟩ | ⟨hne, hold⟩
      · exact absurd rfl hnone
      · refine ⟨Or.inl hold, ?_⟩
        cases key <;> simp_all [Audited.deletes]
    | _ => exact ⟨Or.inl h, by cases key <;> simp [Audited.deletes]⟩
  | consumeTotpCounter userId counter =>
    refine ⟨Or.inl ?_, nofun⟩
    simp only [AuthStore.exec] at h
    split at h <;> exact h
  | consumePasskeyChallenge challenge =>
    refine ⟨Or.inl ?_, nofun⟩
    simp only [AuthStore.exec] at h
    split_ifs at h <;> exact h
  | _ => exact ⟨Or.inl h, nofun⟩

variable {s : Audited} {who : ℕ} {op : Op}

/-- What a call accepts by reading can be read when it is. -/
theorem live_of_accepts {c : Credential}
    (h : s.accepts who op (s.store.exec op).1 = some c) (hread : c.readFirst = true) :
    s.store.Live c := by
  cases op with
  | selectChallenge token expectedUsername =>
    obtain ⟨row, hrow, rfl⟩ := Option.map_eq_some_iff.mp h
    have hsome : s.store.loginChallenges token = some row := (Option.filter_eq_some_iff.mp hrow).1
    simp [AuthStore.Live, hsome]
  | kvGet key =>
    cases key with
    | oauthCode code =>
      obtain ⟨value, hvalue, rfl⟩ := Option.map_eq_some_iff.mp h
      have hsome : s.store.kv (.oauthCode code) = some value := hvalue
      simp [AuthStore.Live, hsome]
    | emailVerify token =>
      obtain ⟨value, hvalue, rfl⟩ := Option.map_eq_some_iff.mp h
      have hsome : s.store.kv (.emailVerify token) = some value := hvalue
      simp [AuthStore.Live, hsome]
    | _ => cases h
  | consumePasskeyChallenge challenge =>
    simp only [Audited.accepts, Option.ite_none_right_eq_some, Option.some.injEq] at h
    obtain ⟨-, rfl⟩ := h
    cases hread
  | consumeTotpCounter userId counter =>
    simp only [Audited.accepts, Option.ite_none_right_eq_some, Option.some.injEq] at h
    obtain ⟨-, rfl⟩ := h
    cases hread
  | _ => cases h

/-- A fresh credential was not accepted before. -/
theorem not_accepted_of_creates {c : Credential} (hfresh : FreshCall s op)
    (h : creates op = some c) : ∀ l ∈ s.accepted, l.2 ≠ c := by
  cases op with
  | createLoginChallenge token =>
    obtain rfl := Option.some.inj h
    exact hfresh
  | kvPut key value =>
    cases key with
    | oauthCode code =>
      obtain rfl := Option.some.inj h
      exact hfresh
    | emailVerify token =>
      obtain rfl := Option.some.inj h
      exact hfresh
    | _ => cases h
  | _ => cases h

theorem mem_accepted_exec {l : ℕ × Credential} : l ∈ (s.exec who op).2.accepted ↔
    l ∈ s.accepted ∨ l.1 = who ∧ s.accepts who op (s.store.exec op).1 = some l.2 := by
  obtain ⟨i, c⟩ := l
  simp only [Audited.exec, List.mem_append, List.mem_map, Option.mem_toList,
    Prod.mk.injEq]
  grind

theorem gone_exec (h : Spent s) (hfresh : FreshCall s op) :
    ∀ l ∈ (s.exec who op).2.accepted, l.2.readFirst = true →
      l ∈ (s.exec who op).2.undeleted ∨ ¬(s.store.exec op).2.Live l.2 := by
  intro l hl hread
  rcases mem_accepted_exec.mp hl with hold | ⟨hwho, hnew⟩
  · by_cases hlive : (s.store.exec op).2.Live l.2
    · obtain ⟨hbefore, hkept⟩ := live_exec hlive
      rcases hbefore with hbefore | hcreated
      · -- Another request's deletion of the credential would have ended it.
        have hundeleted := (h.gone l hold hread).resolve_right fun hgone => hgone hbefore
        refine Or.inl (List.mem_append_left _ (List.mem_filter.mpr ⟨hundeleted, ?_⟩))
        simp [hkept]
      · exact absurd rfl (not_accepted_of_creates hfresh hcreated l hold)
    · exact Or.inr hlive
  · refine Or.inl (List.mem_append_right _ (List.mem_filter.mpr ⟨?_, hread⟩))
    exact List.mem_map.mpr ⟨l.2, by simp [hnew], Prod.ext hwho.symm rfl⟩

theorem accepts_passkey {challenge : String}
    (h : s.accepts who op (s.store.exec op).1 = some (.passkey challenge)) :
    challenge ∉ s.store.usedPasskeyChallenges ∧
      challenge ∈ (s.store.exec op).2.usedPasskeyChallenges := by
  cases op with
  | consumePasskeyChallenge challenge' =>
    simp only [Audited.accepts, Option.ite_none_right_eq_some, Option.some.injEq,
      Credential.passkey.injEq] at h
    obtain ⟨hspent, rfl⟩ := h
    by_cases hused : challenge' ∈ s.store.usedPasskeyChallenges
    · simp [AuthStore.exec, hused] at hspent
    · simp [AuthStore.exec, hused]
  | selectChallenge token expectedUsername => simp [Audited.accepts] at h
  | kvGet key => cases key <;> simp [Audited.accepts] at h
  | consumeTotpCounter userId counter => simp [Audited.accepts] at h
  | _ => cases h

/-- A TOTP step is accepted when it is newer than the last one of the user's row. -/
theorem accepts_totp {userId secret : String} {counter : ℕ}
    (h : s.accepts who op (s.store.exec op).1 = some (.totp userId secret counter)) :
    op = .consumeTotpCounter userId counter ∧ secret = (s.matched.lookup who).getD "" ∧
      ∃ user, s.store.users userId = some user ∧
        AuthStore.acceptsCounter user counter = true ∧
        (s.store.exec op).2.users userId =
          some { user with twoFactorLastCounter := some counter } := by
  cases op with
  | consumeTotpCounter userId' counter' =>
    simp only [Audited.accepts, Option.ite_none_right_eq_some, Option.some.injEq,
      Credential.totp.injEq] at h
    obtain ⟨hspent, rfl, rfl, rfl⟩ := h
    refine ⟨rfl, rfl, ?_⟩
    cases hrow : (s.store.users userId').filter fun u =>
        AuthStore.acceptsCounter u counter' with
    | none => simp [AuthStore.exec, hrow] at hspent
    | some user =>
      obtain ⟨huser, haccepts⟩ := Option.filter_eq_some_iff.mp hrow
      exact ⟨user, huser, haccepts, by simp [AuthStore.exec, hrow, AuthStore.setUser]⟩
  | selectChallenge token expectedUsername => simp [Audited.accepts] at h
  | kvGet key => cases key <;> simp [Audited.accepts] at h
  | consumePasskeyChallenge challenge => simp [Audited.accepts] at h
  | _ => cases h

theorem used_exec {challenge : String} (h : challenge ∈ s.store.usedPasskeyChallenges) :
    challenge ∈ (s.store.exec op).2.usedPasskeyChallenges := by
  cases op with
  | consumePasskeyChallenge challenge' =>
    simp only [AuthStore.exec]
    split_ifs
    · exact h
    · exact List.mem_cons_of_mem _ h
  | consumeTotpCounter userId counter =>
    simp only [AuthStore.exec]
    split <;> exact h
  | _ => exact h

/-- What a call does to the row of a user that has a secret after it. -/
theorem user_exec {userId secret : String} {user : User}
    (hnew : (s.store.exec op).2.users userId = some user)
    (hsecret : user.twoFactorSecret = some secret) :
    (∃ enabled, op = .updateUserTwoFactorSecret userId (some secret) enabled ∧
      ∃ old, s.store.users userId = some old ∧
        user.twoFactorLastCounter = old.twoFactorLastCounter) ∨
    ∃ old, s.store.users userId = some old ∧ old.twoFactorSecret = some secret ∧
      (user.twoFactorLastCounter = old.twoFactorLastCounter ∨
        ∃ counter, AuthStore.acceptsCounter old counter = true ∧
          user.twoFactorLastCounter = some counter) := by
  have hsame (h : s.store.users userId = some user) :
      ∃ old, s.store.users userId = some old ∧ old.twoFactorSecret = some secret ∧
        (user.twoFactorLastCounter = old.twoFactorLastCounter ∨
          ∃ counter, AuthStore.acceptsCounter old counter = true ∧
            user.twoFactorLastCounter = some counter) :=
    ⟨user, h, hsecret, Or.inl rfl⟩
  have hother {userId' : String} {row : Option User} (hne : userId ≠ userId')
      (h : Function.update s.store.users userId' row userId = some user) :
      s.store.users userId = some user := by
    rw [← h, Function.update_of_ne hne]
  cases op with
  | updateUserTwoFactorSecret userId' encryptedSecret enabled =>
    by_cases hid : userId = userId'
    · subst hid
      have hrow : (s.store.users userId).map (fun u => { u with
          twoFactorSecret := encryptedSecret, twoFactorEnabled := enabled
          twoFactorLastCounter := encryptedSecret.bind fun _ => u.twoFactorLastCounter }) =
          some user := by simpa [AuthStore.exec, AuthStore.setUser] using hnew
      obtain ⟨old, hold, rfl⟩ := Option.map_eq_some_iff.mp hrow
      have henc : encryptedSecret = some secret := hsecret
      subst henc
      exact Or.inl ⟨enabled, rfl, old, hold, rfl⟩
    · exact Or.inr (hsame (hother hid hnew))
  | verifyUserEmail userId' =>
    by_cases hid : userId = userId'
    · subst hid
      have hrow : (s.store.users userId).map (fun u => { u with emailVerified := true }) =
          some user := by simpa [AuthStore.exec, AuthStore.setUser] using hnew
      obtain ⟨old, hold, rfl⟩ := Option.map_eq_some_iff.mp hrow
      exact Or.inr ⟨old, hold, hsecret, Or.inl rfl⟩
    · exact Or.inr (hsame (hother hid hnew))
  | createGuestUser userId' username =>
    by_cases hid : userId = userId'
    · subst hid
      have hrow : some ⟨username, false, none, none, false⟩ = some user := by
        simpa [AuthStore.exec] using hnew
      obtain rfl := Option.some.inj hrow
      cases hsecret
    · exact Or.inr (hsame (hother hid hnew))
  | consumeTotpCounter userId' counter =>
    cases hrow : (s.store.users userId').filter fun u =>
        AuthStore.acceptsCounter u counter with
    | none =>
      have hkept : s.store.users userId = some user := by
        simpa [AuthStore.exec, hrow] using hnew
      exact Or.inr (hsame hkept)
    | some old =>
      obtain ⟨hold, haccepts⟩ := Option.filter_eq_some_iff.mp hrow
      by_cases hid : userId = userId'
      · subst hid
        have heq : some { old with twoFactorLastCounter := some counter } = some user := by
          simpa [AuthStore.exec, hrow, AuthStore.setUser] using hnew
        obtain rfl := Option.some.inj heq
        exact Or.inr ⟨old, hold, hsecret, Or.inr ⟨counter, haccepts, rfl⟩⟩
      · have hkept : Function.update s.store.users userId'
            (some { old with twoFactorLastCounter := some counter }) userId = some user := by
          simpa [AuthStore.exec, hrow, AuthStore.setUser] using hnew
        exact Or.inr (hsame (hother hid hkept))
  | consumePasskeyChallenge challenge =>
    have hkept : s.store.users userId = some user := by
      simp only [AuthStore.exec] at hnew
      split_ifs at hnew <;> exact hnew
    exact Or.inr (hsame hkept)
  | _ => exact Or.inr (hsame hnew)

theorem totp_exec (h : Spent s) (hfresh : FreshCall s op) (hturn : CallInTurn s who op)
    {i : ℕ} {userId secret : String} {counter : ℕ}
    (hin : (i, Credential.totp userId secret counter) ∈ (s.exec who op).2.accepted)
    {user : User} (hnew : (s.store.exec op).2.users userId = some user)
    (hsecret : user.twoFactorSecret = some secret) :
    ∃ last, user.twoFactorLastCounter = some last ∧ counter ≤ last := by
  rcases mem_accepted_exec.mp hin with hold | ⟨-, hnow⟩
  · rcases user_exec hnew hsecret with ⟨enabled, rfl, old, hrow, hlast⟩ |
      ⟨old, hrow, hwas, hlast | ⟨counter', haccepts, hlast⟩⟩
    · cases enabled with
      | false => exact absurd rfl (hfresh _ hold counter)
      | true =>
        rw [hlast]
        exact h.totp i userId secret counter hold old hrow (hturn old hrow)
    · rw [hlast]
      exact h.totp i userId secret counter hold old hrow hwas
    · obtain ⟨last, hbefore, hle⟩ := h.totp i userId secret counter hold old hrow hwas
      have hlt : last < counter' := by simpa [AuthStore.acceptsCounter, hbefore] using haccepts
      exact ⟨counter', hlast, by omega⟩
  · obtain ⟨-, -, old, -, -, hrow⟩ := accepts_totp hnow
    obtain rfl := Option.some.inj (hrow.symm.trans hnew)
    exact ⟨counter, rfl, Nat.le_refl counter⟩

/-- What a call reads of a credential, no other request has read and left undeleted. -/
theorem reader_of_accepts (hturn : CallInTurn s who op) {c : Credential}
    (hnow : s.accepts who op (s.store.exec op).1 = some c) (hread : c.readFirst = true)
    {l : ℕ × Credential} (hl : l ∈ s.undeleted) (hc : l.2 = c) : l.1 = who := by
  cases op with
  | consumeTotpCounter userId counter =>
    simp only [Audited.accepts, Option.ite_none_right_eq_some, Option.some.injEq] at hnow
    obtain ⟨-, rfl⟩ := hnow
    cases hread
  | updateUserTwoFactorSecret userId encryptedSecret enabled => cases hnow
  | _ => exact hturn c hnow hread l hl hc

/-- A call that accepts a credential is the first request to accept it. -/
theorem first_accept (h : Spent s) (hturn : CallInTurn s who op) {c : Credential}
    (hnow : s.accepts who op (s.store.exec op).1 = some c) {i : ℕ}
    (hin : (i, c) ∈ s.accepted) : i = who := by
  -- A credential that can still be read is one whose deletion is yet to come.
  have hreader (hread : c.readFirst = true) : i = who := by
    have hlive : s.store.Live c := live_of_accepts hnow hread
    have hundeleted : (i, c) ∈ s.undeleted :=
      (h.gone _ hin hread).resolve_right fun hgone => hgone hlive
    exact reader_of_accepts hturn hnow hread hundeleted rfl
  cases c with
  | passkey challenge =>
    exact absurd (h.passkey i challenge hin) (accepts_passkey hnow).1
  | totp userId secret counter =>
    obtain ⟨rfl, hsecret, user, hrow, haccepts, -⟩ := accepts_totp hnow
    obtain ⟨secret', hmatched, hheld⟩ := hturn user hrow
    have heq : secret = secret' := by rw [hsecret, hmatched, Option.getD_some]
    obtain ⟨last, hlast, hle⟩ := h.totp i userId secret counter hin user hrow (heq ▸ hheld)
    have hlt : last < counter := by simpa [AuthStore.acceptsCounter, hlast] using haccepts
    omega
  | challenge token | exchange code | email token => exact hreader rfl

theorem once_exec (h : Spent s) (hturn : CallInTurn s who op) {i j : ℕ} {c : Credential}
    (hi : (i, c) ∈ (s.exec who op).2.accepted) (hj : (j, c) ∈ (s.exec who op).2.accepted) :
    i = j := by
  rcases mem_accepted_exec.mp hi with hiold | ⟨hiwho, hinow⟩
  · rcases mem_accepted_exec.mp hj with hjold | ⟨hjwho, hjnow⟩
    · exact h.once i j c hiold hjold
    · rw [first_accept h hturn hjnow hiold]
      exact hjwho.symm
  · rcases mem_accepted_exec.mp hj with hjold | ⟨hjwho, hjnow⟩
    · rw [first_accept h hturn hinow hjold]
      exact hiwho
    · exact hiwho.trans hjwho.symm

theorem spent_exec (h : Spent s) (hfresh : FreshCall s op) (hturn : CallInTurn s who op) :
    Spent (s.exec who op).2 where
  gone := gone_exec h hfresh
  passkey i challenge hin := by
    rcases mem_accepted_exec.mp hin with hold | ⟨-, hnow⟩
    · exact used_exec (h.passkey i challenge hold)
    · exact (accepts_passkey hnow).2
  totp _ _ _ _ hin _ hnew hsecret := totp_exec h hfresh hturn hin hnew hsecret
  once _ _ _ hi hj := once_exec h hturn hi hj

/-- Nothing becomes readable by itself. -/
theorem live_pass {s : AuthStore} {e : World} {c : Credential} (h : (s.pass e).Live c) :
    s.Live c := by
  cases e with
  | tick ms => cases c <;> exact h
  | expire key =>
    cases c with
    | exchange code | email token =>
      rcases update_ne_none h with ⟨-, hnone⟩ | ⟨-, hold⟩
      · exact absurd rfl hnone
      · exact hold
    | _ => exact h
  | cleanup token =>
    cases c with
    | challenge token' =>
      rcases update_ne_none h with ⟨-, hnone⟩ | ⟨-, hold⟩
      · exact absurd rfl hnone
      · exact hold
    | _ => exact h

theorem spent_pass (h : Spent s) (e : World) : Spent { s with store := s.store.pass e } where
  gone l hl hread := (h.gone l hl hread).imp_right fun hgone hlive => hgone (live_pass hlive)
  passkey i challenge hin := by cases e <;> exact h.passkey i challenge hin
  totp i userId secret counter hin := by cases e <;> exact h.totp i userId secret counter hin
  once := h.once

theorem spent_step {env : Env} {w w' : AuthPool} {m : Move AuthRequest World}
    (h : Spent w.store) (hturn : InTurn w m)
    (hstep : (authRequests env).step w m = some w') : Spent w'.store := by
  cases System.step_cases hstep with
  | start r => exact h
  | choose i left r next hi => exact h
  | world e => exact spent_pass h e
  | call i left r op next hi =>
    obtain ⟨hfresh, hcall⟩ := hturn (r, op) (System.nextCall_eq hi)
    exact spent_exec h hfresh hcall

/-- `a` has 2FA on with the secret `s`, and one credential of each kind that is read and
then deleted is out. -/
def issued : Audited where
  store := {
    loginChallenges := fun token =>
      if token = "t" then some ⟨"guest_temp", "c", 3, 300000⟩
      else if token = "u" ∨ token = "v" then some ⟨"alice", "c", 3, 300000⟩ else none
    usedPasskeyChallenges := []
    users := fun userId =>
      if userId = "a" then some ⟨"alice", true, some "s", none, false⟩ else none
    usernames := fun username => if username = "alice" then some "a" else none
    passkeys := fun _ => none
    kv := fun
      | .oauthCode "x" => some (.exchange "jwt" "b")
      | .emailVerify "e" => some (.email "a" "alice@example.com")
      | _ => none
    now := 0 }
  accepted := []
  undeleted := []
  matched := []

def deployed : Env where
  JWT_SECRET := true
  SESSION_CACHE := true
  sha256Hex text :=
    if text = "c3383" then "0001972562f8b145e42946673f1d14f9b599a098a601db619706d75d4d4cc5c0" else ""

/-- The codes of two consecutive time steps. -/
def matchStep (step : ℕ) (secret : String) : Option ℕ :=
  if secret = "s" then some step else none

def succeeds (w : AuthPool) (i : ℕ) (c : Credential) : Bool :=
  match w.running[i]? with
  | some (_, .ret (.ok _)) => decide ((i, c) ∈ w.store.accepted)
  | _ => false

theorem succeeded_of_succeeds {w : AuthPool} {i : ℕ} {c : Credential}
    (h : succeeds w i c = true) : Succeeded w i c := by
  rw [succeeds] at h
  split at h
  · rename_i r status hi
    exact ⟨⟨r, status, hi⟩, of_decide_eq_true h⟩
  · cases h

/-- Two requests whose first calls all come before any later call of either. -/
def bothRead (first second : AuthRequest) (reads : ℕ) : List (Move AuthRequest World) :=
  [.start first, .start second] ++ List.replicate reads (.next 0 true) ++
    List.replicate reads (.next 1 true)

/-- The first login reads the secret and waits, the second is accepted, and 2FA is turned
off with the next code before the first goes on. -/
def loginAcrossDisable : List (Move AuthRequest World) :=
  [.start (.login (some "u") "3383" true true (matchStep 7)),
    .start (.login (some "v") "3383" true true (matchStep 7)),
    .start (.disable2FA "a" true (matchStep 8))] ++
    List.replicate 4 (.next 0 true) ++ List.replicate 5 (.next 1 true) ++
    List.replicate 4 (.next 2 true) ++ [.next 0 true]

/-- A run after which requests `0` and `1` have both succeeded with the credential. -/
def AcceptedTwice (c : Credential) : Prop :=
  ∃ w, Reaches (authRequests deployed).step ⟨issued, []⟩ w ∧ Succeeded w 0 c ∧ Succeeded w 1 c

end Swazz.AuthCalls
