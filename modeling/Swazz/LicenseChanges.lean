import Mathlib.Data.List.Pairwise
import Mathlib.Data.Set.Basic
import Swazz.LicenseCalls

/-! When a license that was taken away is gone, and how often a trial is given. -/
namespace Swazz.LicenseService

open AtomicCalls StepSystem
open RunnerAccess (JsString)
open License (LicenseInfo)

variable {env : Env} {u : String} {d n : ℕ} {s : Store} {w w' : Pool Answer Store Request Outcome}

/-- The requests that give a user a license. -/
def Request.gives (u : String) : Request → Bool
  | .activate userId _ => userId == u
  | .claimTrial userId _ => userId == u
  | _ => false

/-- After the deactivation `d` has written, when `n` requests were there: none of those writes a
key, the cache gets only what was read from the key that is there, and its own call to the cache
does not fail while an entry is there. -/
def CallAfter (d n : ℕ) (u : String) (i : ℕ) (s : Store) : Op → Prop
  | .setLicenseKey userId licenseKey => userId = u → licenseKey ≠ none → n ≤ i
  | .kvPut userId _ key => userId = u → (s.users u).license_key = some key ∨ s.kvFailing = true
  | .kvDelete userId => userId = u → i = d → s.kvFailing = false ∨ s.cached u = none
  | _ => True

instance (i : ℕ) (op : Op) : Decidable (CallAfter d n u i s op) := by
  cases op <;> unfold CallAfter <;> infer_instance

/-- And no request is started that gives the user a license. -/
def AfterWrite (d n : ℕ) (u : String) (w : Pool Answer Store Request Outcome) :
    Move Request Event → Prop
  | .start r => r.gives u = false
  | .next i _ => ∀ c ∈ System.nextCall w i, CallAfter d n u i w.store c.2
  | .world _ => True

instance (m : Move Request Event) : Decidable (AfterWrite d n u w m) := by
  cases m <;> unfold AfterWrite <;> infer_instance

/-- A claim records its trial while the date is still the one that it has checked, and not in
the second in which a day is over by whole seconds but not yet by the clock. -/
def CallInTurn (s : Store) : Op → Prop
  | .setTrialClaimedAt userId trialStatus =>
    (s.users userId).trial_claimed_at = trialStatus.claimed_at ∧
      ∀ e ∈ s.recorded, e.1 = userId → e.2.2 / 1000 * 1000 + TRIAL_COOLDOWN_MS ≤ s.now →
        e.2.2 + TRIAL_COOLDOWN_MS ≤ s.now
  | _ => True

instance (op : Op) : Decidable (CallInTurn s op) := by
  cases op <;> unfold CallInTurn <;> infer_instance

def TrialInTurn (w : Pool Answer Store Request Outcome) : Move Request Event → Prop
  | .next i _ => ∀ c ∈ System.nextCall w i, CallInTurn w.store c.2
  | _ => True

instance (m : Move Request Event) : Decidable (TrialInTurn w m) := by
  cases m <;> unfold TrialInTurn <;> infer_instance

/-! ### A license that was taken away -/

/-- The calls that a request may make: a key is written for who is given a license, and a trial
is recorded by a claim. -/
def Request.May (r : Request) : Op → Prop
  | .setLicenseKey userId licenseKey => licenseKey = none ∨ r.gives userId = true
  | .setTrialClaimedAt userId _ => ∃ username, r = .claimTrial userId username
  | _ => True

theorem uses_orFail {P : Op → Prop} {op : Op} {next : Value op → Calls Answer Outcome}
    (hop : P op) (hnext : ∀ value, (next value).Uses P) : (orFail op next).Uses P := by
  refine ⟨hop, fun answer => ?_⟩
  cases answer with
  | none => exact trivial
  | some value => exact hnext value

theorem uses_loadLicenseDetailed {r : Request} {userId : String}
    {next : Option LicenseInfo → Reason → Calls Answer Outcome}
    (hnext : ∀ license reason, (next license reason).Uses r.May) :
    (loadLicenseDetailed env userId next).Uses r.May := by
  refine Calls.uses_bind ⟨trivial, fun _ => trivial⟩ fun cached => ?_
  cases cached with
  | some license => exact uses_orFail trivial fun now => hnext _ _
  | none =>
    refine uses_orFail trivial fun key => ?_
    cases key.filter (· ≠ []) with
    | none => exact hnext _ _
    | some key =>
      refine uses_orFail trivial fun now => ?_
      split
      · exact ⟨trivial, fun _ => hnext _ _⟩
      · split
        · exact hnext _ _
        · exact hnext _ _
      · exact hnext _ _

theorem uses_serve (r : Request) : (serve env r).Uses r.May := by
  cases r with
  | activate userId licenseKey =>
    refine uses_orFail trivial fun now => ?_
    dsimp only
    split
    · exact trivial
    · refine uses_orFail (Or.inr (by simp [Request.gives])) fun _ => ?_
      exact ⟨trivial, fun _ => trivial⟩
  | deactivate userId => exact uses_orFail (Or.inl rfl) fun _ => ⟨trivial, fun _ => trivial⟩
  | getStatus userId =>
    rw [serve, getStatus]
    apply uses_loadLicenseDetailed
    intro license reason
    split
    · exact trivial
    · exact trivial
    · exact uses_orFail trivial fun _ => trivial
  | hasFeature userId feature =>
    rw [serve, hasFeature]
    apply uses_loadLicenseDetailed
    exact fun _ _ => trivial
  | getTrialStatus userId => exact uses_orFail trivial fun _ => uses_orFail trivial fun _ => trivial
  | claimTrial userId username =>
    refine uses_orFail trivial fun _ => uses_orFail trivial fun _ => ?_
    dsimp only
    split
    · exact trivial
    · refine uses_orFail trivial fun now => ?_
      split
      · exact trivial
      · refine uses_orFail trivial fun now => ?_
        split
        · exact trivial
        · refine uses_orFail ⟨username, rfl⟩ fun _ => ?_
          refine uses_orFail (Or.inr (by simp [Request.gives])) fun _ => ?_
          exact ⟨trivial, fun _ => trivial⟩

/-- The program makes no call that gives `u` a key. -/
abbrev Keyless (u : String) (p : Calls Answer Outcome) : Prop :=
  p.Uses fun op => ∀ key, op ≠ .setLicenseKey u (some key)

theorem keyless_serve {r : Request} (hr : r.gives u = false) : Keyless u (serve env r) := by
  refine (uses_serve r).mono fun op hop => ?_
  rintro key rfl
  rcases hop with hnone | hgives
  · exact absurd hnone nofun
  · exact absurd (hr.symm.trans hgives) nofun

theorem setCache_cached_of_ne {userId : String} {entry : Option (LicenseInfo × ℤ)}
    (hu : u ≠ userId) : (s.setCache userId entry).cached u = s.cached u := by
  simp only [Store.cached, Store.setCache, if_neg hu]
  rfl

/-- There is no key, so nothing may be put into the cache. -/
theorem key_exec {i : ℕ} {r : Request} {op : Op} (hkey : (s.users u).license_key = none)
    (hop : ∀ key, op ≠ .setLicenseKey u (some key)) :
    (((requests env).exec i r op s).2.users u).license_key = none := by
  change ((s.exec i op).2.users u).license_key = none
  cases op with
  | setLicenseKey userId licenseKey =>
    simp only [Store.exec]
    split
    · exact hkey
    · by_cases hu : u = userId
      · subst hu
        cases licenseKey with
        | none => simp [Store.setUser]
        | some key => exact absurd rfl (hop key)
      · simpa [Store.setUser, hu] using hkey
  | setTrialClaimedAt userId trialStatus =>
    simp only [Store.exec]
    split
    · exact hkey
    · by_cases hu : u = userId
      · simpa [Store.setUser, hu] using hkey
      · simpa [Store.setUser, hu] using hkey
  | clock => exact hkey
  | _ =>
    simp only [Store.exec]
    split <;> exact hkey

theorem cached_exec (env : Env) {i : ℕ} {r : Request} {op : Op} (hkey : (s.users u).license_key = none)
    (hcached : s.cached u = none) (hop : CallAfter d n u i s op) :
    ((requests env).exec i r op s).2.cached u = none := by
  change (s.exec i op).2.cached u = none
  cases op with
  | kvPut userId license key =>
    simp only [Store.exec]
    split
    · exact hcached
    · rename_i hok
      have hu : u ≠ userId := by
        rintro rfl
        rcases hop rfl with hsome | hfail
        · exact absurd (hkey.symm.trans hsome) nofun
        · exact hok hfail
      exact (setCache_cached_of_ne hu).trans hcached
  | kvDelete userId =>
    simp only [Store.exec]
    split
    · exact hcached
    · by_cases hu : u = userId
      · simp [Store.setCache, Store.cached, hu]
      · exact (setCache_cached_of_ne hu).trans hcached
  | clock => exact hcached
  | _ =>
    simp only [Store.exec]
    split <;> exact hcached

theorem cached_happen (hcached : s.cached u = none) (e : Event) : (happen s e).cached u = none := by
  cases e with
  | elapse ms =>
    simp only [Store.cached, Option.bind_eq_none_iff] at hcached ⊢
    intro entry hentry
    have hended : ¬s.now < entry.2 := fun hlt => by simpa [hlt] using hcached entry hentry
    refine if_neg fun hlt => hended ?_
    have hlater : s.now + (ms : ℤ) < entry.2 := hlt
    omega
  | setDbFailing => exact hcached
  | setKvFailing => exact hcached

/-- The requests after the first `n` give the user no key. -/
def Later (n : ℕ) (u : String) (w : Pool Answer Store Request Outcome) : Prop :=
  ∀ i r p, w.running[i]? = some (r, p) → n ≤ i → Keyless u p

/-- How far the deactivation is: between its write and its call to the cache, or at its end. -/
inductive Deactivated (d : ℕ) (u : String) (w : Pool Answer Store Request Outcome) : Prop where
  | written (hd : w.running[d]? = some (.deactivate u,
        (deleteCachedLicense u).bind fun _ => .ret (.ok none)))
      (hkey : (w.store.users u).license_key = none)
  | done (hd : w.running[d]? = some (.deactivate u, .ret (.ok none)))
      (hkey : (w.store.users u).license_key = none) (hcached : w.store.cached u = none)
  | failed (hd : w.running[d]? = some (.deactivate u, .ret (.failed .unavailable)))

theorem later_step {m : Move Request Event} (hlater : Later n u w)
    (hguard : AfterWrite d n u w m) (hstep : (requests env).step w m = some w') :
    Later n u w' := by
  intro j r p hj hn
  cases System.step_cases hstep with
  | start r' =>
    rcases System.running_append hj with hold | ⟨rfl, rfl, rfl⟩
    · exact hlater j r p hold hn
    · exact keyless_serve hguard
  | call i left r' op next hi =>
    rcases System.running_set hi hj with ⟨rfl, rfl, rfl⟩ | ⟨-, hold⟩
    · exact (hlater j r _ hi hn).2 _
    · exact hlater j r p hold hn
  | choose i left r' next hi =>
    rcases System.running_set hi hj with ⟨rfl, rfl, rfl⟩ | ⟨-, hold⟩
    · exact hlater j r _ hi hn left
    · exact hlater j r p hold hn
  | world e => exact hlater j r p hj hn

theorem Deactivated.keep (hw : Deactivated d u w) (hd : w'.running[d]? = w.running[d]?)
    (hkey : (w.store.users u).license_key = none → (w'.store.users u).license_key = none)
    (hcached : (w.store.users u).license_key = none → w.store.cached u = none →
      w'.store.cached u = none) : Deactivated d u w' := by
  cases hw with
  | written hold hnone => exact .written (hd.trans hold) (hkey hnone)
  | done hold hnone hgone => exact .done (hd.trans hold) (hkey hnone) (hcached hnone hgone)
  | failed hold => exact .failed (hd.trans hold)

theorem Deactivated.running (hw : Deactivated d u w) :
    ∃ p, w.running[d]? = some (.deactivate u, p) := by
  cases hw with
  | written hd => exact ⟨_, hd⟩
  | done hd => exact ⟨_, hd⟩
  | failed hd => exact ⟨_, hd⟩

theorem deactivated_step {m : Move Request Event} (hlater : Later n u w)
    (hw : Deactivated d u w) (hguard : AfterWrite d n u w m)
    (hstep : (requests env).step w m = some w') : Deactivated d u w' := by
  cases System.step_cases hstep with
  | start r =>
    obtain ⟨p, hd⟩ := hw.running
    have hlt : d < w.running.length := (List.getElem?_eq_some_iff.mp hd).1
    exact hw.keep (List.getElem?_append_left hlt) id fun _ h => h
  | world e =>
    refine hw.keep rfl (fun h => ?_) fun _ h => cached_happen h e
    cases e <;> exact h
  | choose i left r next hi =>
    by_cases hid : i = d
    · -- a deactivation makes no choice
      subst hid
      cases hw with
      | written hd => exact absurd (hi.symm.trans hd) nofun
      | done hd => exact absurd (hi.symm.trans hd) nofun
      | failed hd => exact absurd (hi.symm.trans hd) nofun
    · exact hw.keep (List.getElem?_set_ne hid) id fun _ h => h
  | call i left r op next hi =>
    have hcall : CallAfter d n u i w.store op := hguard _ (System.nextCall_eq hi)
    have hop : ∀ key, op ≠ .setLicenseKey u (some key) := by
      rintro key rfl
      exact (hlater i r _ hi (hcall rfl nofun)).1 key rfl
    by_cases hid : i = d
    · subst hid
      have hlt : i < w.running.length := (List.getElem?_eq_some_iff.mp hi).1
      cases hw with
      | done hd => exact absurd (hi.symm.trans hd) nofun
      | failed hd => exact absurd (hi.symm.trans hd) nofun
      | written hd hkey =>
        obtain ⟨rfl, hprogram⟩ := Prod.mk.inj (Option.some.inj (hi.symm.trans hd))
        obtain ⟨rfl, hnext⟩ := Calls.call.inj hprogram
        obtain rfl := eq_of_heq hnext
        refine .done (List.getElem?_set_self hlt) (key_exec hkey nofun) ?_
        change (w.store.exec i (.kvDelete u)).2.cached u = none
        rcases hcall rfl rfl with hworks | hgone
        · simp [Store.exec, hworks, Store.cached, Store.setCache]
        · exact cached_exec env (r := .deactivate u) hkey hgone hcall
    · refine hw.keep (List.getElem?_set_ne hid) (fun h => key_exec h hop) fun h hgone => ?_
      exact cached_exec env h hgone hcall

/-- What a request that finds neither a key nor an entry may be answered. -/
def Gone (u : String) : (op : Op) → Answer op → Prop
  | .kvGet userId, answer => userId = u → answer.getD none = none
  | .getLicenseKey userId, answer => userId = u → answer.getD none = none
  | _, _ => True

theorem hasFeature_of_gone (feature : JsString) :
    (hasFeature env u feature).Yields (Gone u) fun o => o ≠ .feature true := by
  refine Calls.yields_bind (Q := fun cached => cached = none) (fun raw hraw => hraw rfl) ?_
  rintro _ rfl
  intro key hkey
  cases key with
  | none => exact nofun
  | some key =>
    obtain rfl : key = none := hkey rfl
    exact nofun

theorem gone_exec {i : ℕ} {r : Request} {op : Op} (hkey : (s.users u).license_key = none)
    (hcached : s.cached u = none) : Gone u op ((requests env).exec i r op s).1 := by
  change Gone u op (s.exec i op).1
  cases op with
  | kvGet userId =>
    rintro rfl
    simp only [Store.exec]
    split
    · rfl
    · exact hcached
  | getLicenseKey userId =>
    rintro rfl
    simp only [Store.exec]
    split
    · rfl
    · exact hkey
  | _ => exact trivial

/-- A feature that is asked for after the deactivation has ended is not granted. -/
theorem gone_after_deactivation {w₁ w₂ : Pool Answer Store Request Outcome}
    (hlater : Later n u w₁) (hdone : Deactivated d u w₁)
    (hok : w₁.running[d]? = some (.deactivate u, .ret (.ok none)))
    (h : ReachesUnder (requests env).step (AfterWrite d n u) w₁ w₂) {j : ℕ} {feature : JsString}
    {granted : Bool} (hj : w₁.running.length ≤ j)
    (hresult : w₂.running[j]? = some (.hasFeature u feature, .ret (.feature granted))) :
    granted = false := by
  have hall : (Later n u w₂ ∧ Deactivated d u w₂ ∧
      w₂.running[d]? = some (.deactivate u, .ret (.ok none))) ∧
      ∀ i r p, w₂.running[i]? = some (r, p) → w₁.running.length ≤ i →
        (∃ feature, r = .hasFeature u feature) → p.Yields (Gone u) fun o => o ≠ .feature true := by
    refine h.invariant (I := fun w => (Later n u w ∧ Deactivated d u w ∧
      w.running[d]? = some (.deactivate u, .ret (.ok none))) ∧
      ∀ i r p, w.running[i]? = some (r, p) → w₁.running.length ≤ i →
        (∃ feature, r = .hasFeature u feature) → p.Yields (Gone u) fun o => o ≠ .feature true) ?_ ?_
    · refine ⟨⟨hlater, hdone, hok⟩, fun i r p hi hle => ?_⟩
      have := (List.getElem?_eq_some_iff.mp hi).1
      omega
    · rintro w m w' ⟨⟨hlater, hw, hd⟩, hyields⟩ hguard hstep
      have hw' := deactivated_step hlater hw hguard hstep
      have hd' : w'.running[d]? = some (.deactivate u, .ret (.ok none)) :=
        System.returned_step hd hstep
      refine ⟨⟨later_step hlater hguard hstep, hw', hd'⟩, ?_⟩
      have hgone : (w.store.users u).license_key = none ∧ w.store.cached u = none := by
        cases hw with
        | written hold => exact absurd (hold.symm.trans hd) nofun
        | failed hold => exact absurd (hold.symm.trans hd) nofun
        | done _ hkey hcached => exact ⟨hkey, hcached⟩
      refine System.yields_step (P := fun r => ∃ feature, r = .hasFeature u feature) ?_
        (fun i r op => gone_exec hgone.1 hgone.2) hyields hstep
      rintro _ ⟨feature, rfl⟩
      exact hasFeature_of_gone feature
  have hyields := hall.2 j _ _ hresult hj ⟨feature, rfl⟩
  cases granted with
  | false => rfl
  | true => exact absurd rfl hyields

/-- The stages of a deactivation. -/
inductive Deactivating (u : String) : Calls Answer Outcome → Prop where
  | before : Deactivating u (deactivate u)
  | written : Deactivating u ((deleteCachedLicense u).bind fun _ => .ret (.ok none))
  | ended (o : Outcome) : Deactivating u (.ret o)

def Staged (_ : ℕ) (r : Request) (p : Calls Answer Outcome) : Prop :=
  ∀ u, r = .deactivate u → Deactivating u p

theorem staged {start : Store} (h : Reaches (requests env).step ⟨start, []⟩ w) :
    ∀ i r p, w.running[i]? = some (r, p) → Staged i r p := by
  refine h.invariant (I := fun w => ∀ i r p, w.running[i]? = some (r, p) → Staged i r p) ?_ ?_
  · intro i r p hi
    exact absurd hi (by simp)
  · intro w m w' hw _ hstep
    refine System.running_step hw (fun i r p _ h => h) ?_ ?_ ?_ hstep
    · rintro r u rfl
      exact .before
    · rintro i left r op next _ hi _ u rfl
      generalize hp : Calls.call op next = p at hi
      cases hw i _ p hi u rfl with
      | before =>
        obtain ⟨rfl, hnext⟩ := Calls.call.inj hp
        obtain rfl := eq_of_heq hnext
        cases ((requests env).exec i (.deactivate u) (.setLicenseKey u none) w.store).1 with
        | none => exact .ended _
        | some done => exact .written
      | written =>
        obtain ⟨rfl, hnext⟩ := Calls.call.inj hp
        obtain rfl := eq_of_heq hnext
        exact .ended _
      | ended o => exact absurd hp nofun
    · rintro i left r next _ _ hp u rfl
      generalize hchoose : Calls.choose next = p at hp
      cases hp u rfl with
      | before => exact absurd hchoose nofun
      | written => exact absurd hchoose nofun
      | ended o => exact absurd hchoose nofun

/-- The write of a deactivation either fails or takes the key away. -/
theorem deactivated_of_write {start : Store} {left : Bool}
    (h : Reaches (requests env).step ⟨start, []⟩ w)
    (hcall : System.nextCall w d = some (.deactivate u, .setLicenseKey u none))
    (hstep : (requests env).step w (.next d left) = some w') :
    Deactivated d u w' ∧ Later w.running.length u w' := by
  cases System.step_cases hstep with
  | choose i left r next hi => simp [System.nextCall, hi] at hcall
  | call i left r op next hi =>
    have hlt : d < w.running.length := (List.getElem?_eq_some_iff.mp hi).1
    rw [System.nextCall_eq hi] at hcall
    obtain ⟨rfl, rfl⟩ := Prod.mk.inj (Option.some.inj hcall)
    refine ⟨?_, fun j r p hj hle => ?_⟩
    · generalize hp : Calls.call (Op.setLicenseKey u none) next = p at hi
      cases staged h d _ p hi u rfl with
      | written => cases (Calls.call.inj hp).1
      | ended o => cases hp
      | before =>
        obtain rfl := eq_of_heq (Calls.call.inj hp).2
        change Deactivated d u ⟨(w.store.exec d (.setLicenseKey u none)).2, _⟩
        cases hdb : w.store.dbFailing with
        | true =>
          refine .failed ((List.getElem?_set_self hlt).trans ?_)
          simp [requests, Store.exec, hdb]
        | false =>
          refine .written ((List.getElem?_set_self hlt).trans ?_) ?_
          · simp [requests, Store.exec, hdb]
          · simp [Store.exec, hdb, Store.setUser]
    · have := (List.getElem?_eq_some_iff.mp hj).1
      simp only [List.length_set] at this
      omega

/-! ### One trial a day -/

/-- A trial recorded earlier and one recorded later. -/
def DayApart (e e' : String × ℕ × ℤ) : Prop := e.1 = e'.1 → e.2.2 + TRIAL_COOLDOWN_MS ≤ e'.2.2

/-- The trials of a user are a day apart, and the user's date is at the whole second of the
last one or later. -/
structure Recorded (s : Store) : Prop where
  apart : s.recorded.Pairwise DayApart
  past : ∀ e ∈ s.recorded, e.2.2 ≤ s.now
  dated : ∀ e ∈ s.recorded, ∃ c, (s.users e.1).trial_claimed_at = some (some c) ∧
    e.2.2 / 1000 * 1000 ≤ c

/-- The time, and what was recorded so far. -/
abbrev Known := ℤ × Set (String × ℕ × ℤ)

def know (s : Store) : Known := (s.now, {e | e ∈ s.recorded})

/-- A claim records its trial where a day is over since the date that it goes by. -/
def Allowed : Op → Known → Prop
  | .setTrialClaimedAt _ trialStatus, k =>
    ∀ c, trialStatus.claimed_at = some (some c) → c + TRIAL_COOLDOWN_MS ≤ k.1
  | _, _ => True

def Learns (i : ℕ) : (op : Op) → Answer op → Known → Prop
  | .clock, answer, k => ∀ now ∈ answer, now ≤ k.1
  | .setTrialClaimedAt userId _, answer, k => answer.isSome = true → ∃ t, (userId, i, t) ∈ k.2
  | _, _, _ => True

/-- A claim that succeeded was recorded. -/
def Post (i : ℕ) (r : Request) (o : Outcome) (k : Known) : Prop :=
  ∀ userId username license, r = .claimTrial userId username → o = .ok license →
    ∃ t, (userId, i, t) ∈ k.2

theorem allowed_mono (op : Op) (k k' : Known) (hle : k ≤ k') (h : Allowed op k) :
    Allowed op k' := by
  cases op with
  | setTrialClaimedAt userId trialStatus => exact fun c hc => (h c hc).trans hle.1
  | _ => exact h

theorem post_mono (i : ℕ) (r : Request) (o : Outcome) (k k' : Known) (hle : k ≤ k')
    (h : Post i r o k) : Post i r o k' := by
  intro userId username license hr ho
  obtain ⟨t, ht⟩ := h userId username license hr ho
  exact ⟨t, hle.2 ht⟩

/-- A trial that a status allows to claim. -/
theorem can_claim_at {claimedAt : Option (Option ℤ)} {now c : ℤ}
    (h : (trialStatusAt claimedAt now).can_claim = true)
    (hc : (trialStatusAt claimedAt now).claimed_at = some (some c)) :
    c + TRIAL_COOLDOWN_MS ≤ now := by
  cases claimedAt with
  | none => exact absurd hc nofun
  | some date =>
    cases date with
    | none => exact absurd hc nofun
    | some lastClaimed =>
      simp only [trialStatusAt] at h hc
      split at h
      · rename_i hover
        rw [if_pos hover] at hc
        obtain rfl := Option.some.inj (Option.some.inj hc)
        omega
      · exact absurd h nofun

theorem knows_orFail {i : ℕ} {r : Request} {op : Op} {next : Value op → Calls Answer Outcome}
    {k : Known} (hop : Allowed op k)
    (hnext : ∀ value k', k ≤ k' → Learns i op (some value) k' →
      Calls.Knows Allowed (Learns i) (Post i r) (next value) k') :
    Calls.Knows Allowed (Learns i) (Post i r) (orFail op next) k := by
  refine ⟨hop, fun answer k' hle hlearns => ?_⟩
  cases answer with
  | none => exact fun _ _ _ _ ho => absurd ho nofun
  | some value => exact hnext value k' hle hlearns

theorem knows_claimTrial {i : ℕ} {userId username : String} (k : Known) :
    Calls.Knows Allowed (Learns i) (Post i (.claimTrial userId username))
      (claimTrial env userId username) k := by
  refine knows_orFail trivial fun claimedAt k₁ _ _ => ?_
  refine knows_orFail trivial fun now k₂ _ hnow => ?_
  dsimp only
  split
  · exact fun _ _ _ _ ho => absurd ho nofun
  · rename_i hcan
    have hcan' := Bool.eq_true_of_not_eq_false hcan
    refine knows_orFail trivial fun now' k₃ hle₃ _ => ?_
    split
    · exact fun _ _ _ _ ho => absurd ho nofun
    · refine knows_orFail trivial fun now'' k₄ hle₄ _ => ?_
      split
      · exact fun _ _ _ _ ho => absurd ho nofun
      · have hallowed : Allowed (.setTrialClaimedAt userId (trialStatusAt claimedAt now)) k₄ := by
          intro c hc
          have hover := can_claim_at hcan' hc
          exact hover.trans ((hnow now rfl).trans (hle₃.1.trans hle₄.1))
        refine knows_orFail hallowed fun _ k₅ _ hrecorded => ?_
        obtain ⟨t, ht⟩ := hrecorded rfl
        refine knows_orFail trivial fun _ k₆ hle₆ _ => ?_
        refine ⟨trivial, fun _ k₇ hle₇ _ => ?_⟩
        intro userId' username' license hr _
        obtain ⟨rfl, rfl⟩ := Request.claimTrial.inj hr
        exact ⟨t, hle₇.2 (hle₆.2 ht)⟩

theorem knows_serve (i : ℕ) (r : Request) (k : Known) :
    Calls.Knows Allowed (Learns i) (Post i r) (serve env r) k := by
  by_cases hclaim : ∃ userId username, r = .claimTrial userId username
  · obtain ⟨userId, username, rfl⟩ := hclaim
    exact knows_claimTrial k
  · have hallowed : ∀ op k, r.May op → Allowed op k := by
      intro op k hmay
      cases op with
      | setTrialClaimedAt userId trialStatus =>
        obtain ⟨username, rfl⟩ := hmay
        exact absurd ⟨userId, username, rfl⟩ hclaim
      | _ => exact trivial
    refine (Calls.knows_of_uses hallowed (uses_serve r) k).imp ?_
    intro o k' _ _ userId username license hr _
    exact absurd ⟨userId, username, hr⟩ hclaim

/-- A call other than a record leaves the trials and their dates. -/
theorem Recorded.of_eq {s' : Store} (h : Recorded s) (hrecorded : s'.recorded = s.recorded)
    (hnow : s.now ≤ s'.now)
    (hdate : ∀ v, (s'.users v).trial_claimed_at = (s.users v).trial_claimed_at) : Recorded s' where
  apart := hrecorded ▸ h.apart
  past e he := (h.past e (hrecorded ▸ he)).trans hnow
  dated e he := by
    rw [hdate]
    exact h.dated e (hrecorded ▸ he)

theorem recorded_record {i : ℕ} {userId : String} {trialStatus : TrialStatus} (h : Recorded s)
    (hturn : CallInTurn s (.setTrialClaimedAt userId trialStatus))
    (hallowed : Allowed (.setTrialClaimedAt userId trialStatus) (know s))
    (hdb : s.dbFailing = false) :
    Recorded (s.exec i (.setTrialClaimedAt userId trialStatus)).2 := by
  simp only [Store.exec, hdb, Bool.false_eq_true, if_false]
  refine ⟨?_, ?_, ?_⟩
  · refine List.pairwise_append.mpr ⟨h.apart, List.pairwise_singleton _ _, ?_⟩
    intro e he e' he' hsame
    obtain rfl := List.mem_singleton.mp he'
    obtain ⟨c, hdate, hsecond⟩ := h.dated e he
    have hover : c + TRIAL_COOLDOWN_MS ≤ s.now := by
      apply hallowed
      rw [← hturn.1, ← hdate]
      exact congrArg (fun v => (s.users v).trial_claimed_at) hsame.symm
    exact hturn.2 e he hsame (by omega)
  · intro e he
    rcases List.mem_append.mp he with he | he
    · exact h.past e he
    · obtain rfl := List.mem_singleton.mp he
      exact le_refl _
  · intro e he
    have htime : e.2.2 ≤ s.now := by
      rcases List.mem_append.mp he with he | he
      · exact h.past e he
      · obtain rfl := List.mem_singleton.mp he
        exact le_refl _
    by_cases hu : e.1 = userId
    · refine ⟨s.timestamp, by simp [Store.setUser, hu], ?_⟩
      simp only [Store.timestamp]
      omega
    · rcases List.mem_append.mp he with he | he
      · obtain ⟨c, hdate, hsecond⟩ := h.dated e he
        exact ⟨c, by simpa [Store.setUser, hu] using hdate, hsecond⟩
      · obtain rfl := List.mem_singleton.mp he
        exact absurd rfl hu

theorem recorded_exec {i : ℕ} {op : Op} (h : Recorded s) (hturn : CallInTurn s op)
    (hallowed : Allowed op (know s)) : Recorded (s.exec i op).2 := by
  cases op with
  | setTrialClaimedAt userId trialStatus =>
    cases hdb : s.dbFailing with
    | true => simpa [Store.exec, hdb] using h
    | false => exact recorded_record h hturn hallowed hdb
  | setLicenseKey userId licenseKey =>
    simp only [Store.exec]
    split
    · exact h
    · refine h.of_eq rfl (le_refl _) fun v => ?_
      by_cases hu : v = userId <;> simp [Store.setUser, hu]
  | clock => exact h
  | _ =>
    simp only [Store.exec]
    split <;> exact h.of_eq rfl (le_refl _) fun v => rfl

theorem know_exec {i : ℕ} {op : Op} : know s ≤ know (s.exec i op).2 := by
  cases op with
  | setTrialClaimedAt userId trialStatus =>
    simp only [Store.exec]
    split
    · exact le_refl _
    · exact ⟨le_refl s.now, fun e he => List.mem_append_left _ he⟩
  | clock => exact le_refl _
  | _ =>
    simp only [Store.exec]
    split <;> exact le_refl _

theorem learns_exec {i : ℕ} {op : Op} :
    Learns i op (s.exec i op).1 (know (s.exec i op).2) := by
  cases op with
  | clock =>
    intro now hnow
    exact le_of_eq (Option.some.inj hnow).symm
  | setTrialClaimedAt userId trialStatus =>
    simp only [Store.exec]
    split
    · exact nofun
    · exact fun _ => ⟨s.now, List.mem_append_right _ (List.mem_singleton_self _)⟩
  | _ => exact trivial

theorem informed_run {users : String → User} {cache : String → Option (LicenseInfo × ℤ)} {now : ℤ}
    (h : ReachesUnder (requests env).step TrialInTurn ⟨start users cache now, []⟩ w) :
    System.Informed Recorded know Allowed Learns Post w := by
  refine h.invariant (I := System.Informed Recorded know Allowed Learns Post) ?_ ?_
  · refine ⟨⟨List.Pairwise.nil, fun e he => absurd he List.not_mem_nil,
      fun e he => absurd he List.not_mem_nil⟩, fun i r p hi => ?_⟩
    simp at hi
  · intro w m w' hw hguard hstep
    apply System.informed_step_under allowed_mono post_mono ?_ ?_
      (fun i r k => knows_serve i r k) ?_ hw hstep
    · exact fun _ _ op => CallInTurn w.store op
    · rintro i r op s hturn rfl hrecorded hallowed
      exact ⟨recorded_exec hrecorded hturn hallowed, know_exec, learns_exec⟩
    · rintro e rfl hrecorded
      cases e with
      | elapse ms =>
        have hle : w.store.now ≤ w.store.now + (ms : ℤ) := by omega
        exact ⟨hrecorded.of_eq rfl hle fun v => rfl, hle, le_refl _⟩
      | setDbFailing => exact ⟨hrecorded.of_eq rfl (le_refl _) fun v => rfl, le_refl _⟩
      | setKvFailing => exact ⟨hrecorded.of_eq rfl (le_refl _) fun v => rfl, le_refl _⟩
    · rintro i left rfl
      exact hguard

theorem trials_apart {users : String → User} {cache : String → Option (LicenseInfo × ℤ)} {now : ℤ}
    (h : ReachesUnder (requests env).step TrialInTurn ⟨start users cache now, []⟩ w)
    {i j : ℕ} {name name' : String} {license license' : Option LicenseInfo} (hij : i ≠ j)
    (hi : w.running[i]? = some (.claimTrial u name, .ret (.ok license)))
    (hj : w.running[j]? = some (.claimTrial u name', .ret (.ok license'))) :
    ∃ t t', (u, i, t) ∈ w.store.recorded ∧ (u, j, t') ∈ w.store.recorded ∧
      TRIAL_COOLDOWN_MS ≤ |t - t'| := by
  have hinformed := informed_run h
  obtain ⟨t, ht⟩ := hinformed.knows i _ _ hi u name license rfl rfl
  obtain ⟨t', ht'⟩ := hinformed.knows j _ _ hj u name' license' rfl rfl
  have hboth : (w.store.recorded).Pairwise fun e e' => DayApart e e' ∨ DayApart e' e :=
    hinformed.inv.apart.imp Or.inl
  have hne : (u, i, t) ≠ (u, j, t') := fun h => hij (Prod.mk.inj (Prod.mk.inj h).2).1
  have hsymm : Std.Symm fun e e' => DayApart e e' ∨ DayApart e' e := ⟨fun e e' h => h.symm⟩
  refine ⟨t, t', ht, ht', le_abs.mpr ?_⟩
  rcases hboth.forall ht ht' hne with hlater | hlater
  · have : t + TRIAL_COOLDOWN_MS ≤ t' := hlater rfl
    right
    omega
  · have : t' + TRIAL_COOLDOWN_MS ≤ t := hlater rfl
    left
    omega

/-- A feature is not granted after a deactivation whose run goes on as `AfterWrite` says, and in
a run whose claims record in turn two that succeed have their trials a day apart. -/
theorem license_changes_take_effect (env : Env) (users : String → User)
    (cache : String → Option (LicenseInfo × ℤ)) (now : ℤ) (u : String) :
    (∀ d left w₀ w₀' w₁ w₂, Reaches (requests env).step ⟨start users cache now, []⟩ w₀ →
      System.nextCall w₀ d = some (.deactivate u, .setLicenseKey u none) →
      (requests env).step w₀ (.next d left) = some w₀' →
      ReachesUnder (requests env).step (AfterWrite d w₀.running.length u) w₀' w₁ →
      w₁.running[d]? = some (.deactivate u, .ret (.ok none)) →
      ReachesUnder (requests env).step (AfterWrite d w₀.running.length u) w₁ w₂ →
      ∀ j feature granted, w₁.running.length ≤ j →
        w₂.running[j]? = some (.hasFeature u feature, .ret (.feature granted)) →
        granted = false) ∧
    ∀ w, ReachesUnder (requests env).step TrialInTurn ⟨start users cache now, []⟩ w →
      ∀ i j name name' license license', i ≠ j →
        w.running[i]? = some (.claimTrial u name, .ret (.ok license)) →
        w.running[j]? = some (.claimTrial u name', .ret (.ok license')) →
        ∃ t t', (u, i, t) ∈ w.store.recorded ∧ (u, j, t') ∈ w.store.recorded ∧
          TRIAL_COOLDOWN_MS ≤ |t - t'| := by
  constructor
  · intro d left w₀ w₀' w₁ w₂ hreach hcall hstep hrun hok hrest j feature granted hj hresult
    obtain ⟨hdeactivated, hlater⟩ := deactivated_of_write hreach hcall hstep
    have hmid : Later w₀.running.length u w₁ ∧ Deactivated d u w₁ := by
      refine hrun.invariant (I := fun w => Later w₀.running.length u w ∧ Deactivated d u w)
        ⟨hlater, hdeactivated⟩ ?_
      rintro w m w' ⟨hlater, hw⟩ hguard hstep
      exact ⟨later_step hlater hguard hstep, deactivated_step hlater hw hguard hstep⟩
    exact gone_after_deactivation hmid.1 hmid.2 hok hrest hj hresult
  · intro w hreach i j name name' license license' hij hi hj
    exact trials_apart hreach hij hi hj

def plainLicense : LicenseInfo := ⟨[], .other [], [RunnerAccess.js "*"], .commercial, none, 5⟩

/-- Every key is a license to everything. -/
def plainEnv : Env where
  verifyToken _ _ _ := .ok plainLicense
  readDate _ := none
  isFinal _ _ := false
  trialToken _ _ := some (RunnerAccess.js "eyJ.eyJ.trial")

def licensed : String → User := fun _ => ⟨some (RunnerAccess.js "eyJ.eyJ.key"), none⟩

def fresh : Pool Answer Store Request Outcome := ⟨start licensed (fun _ => none) 0, []⟩

/-- How a request ended. -/
def outcome (w : Pool Answer Store Request Outcome) (i : ℕ) : Option (Request × Outcome) :=
  match w.running[i]? with
  | some (r, .ret o) => some (r, o)
  | _ => none

theorem running_of_outcome {i : ℕ} {r : Request} {o : Outcome} (h : outcome w i = some (r, o)) :
    w.running[i]? = some (r, .ret o) := by
  rw [outcome] at h
  split at h
  · rename_i r' o' hi
    obtain ⟨rfl, rfl⟩ := Prod.mk.inj (Option.some.inj h)
    exact hi
  · exact absurd h nofun

/-- The moves of a run, up to a deactivation's write, from there to its end, and after it. -/
structure Moves where
  before : List (Move Request Event)
  meanwhile : List (Move Request Event)
  after : List (Move Request Event)

/-- A deactivation, and then a question for a feature. -/
def deactivateThenAsk : Moves where
  before := [.start (.deactivate "u")]
  meanwhile := [.next 0 true]
  after := [.start (.hasFeature "u" []), .next 1 true, .next 1 true]

/-- Two claims, a day apart. -/
def claimTwice : List (Move Request Event) :=
  [.start (.claimTrial "u" "name")] ++ List.replicate 7 (.next 0 true) ++
    [.world (.elapse (24 * 60 * 60 * 1000)), .start (.claimTrial "u" "name")] ++
    List.replicate 7 (.next 1 true)

theorem license_changes_one_after_the_other :
    (∃ w₀ w₀' w₁ w₂, Reaches (requests plainEnv).step fresh w₀ ∧
      (requests plainEnv).step w₀ (.next 0 true) = some w₀' ∧
      ReachesUnder (requests plainEnv).step (AfterWrite 0 1 "u") w₀' w₁ ∧
      ReachesUnder (requests plainEnv).step (AfterWrite 0 1 "u") w₁ w₂ ∧
      ∃ granted, w₂.running[1]? = some (.hasFeature "u" [], .ret (.feature granted)) ∧
        granted = false) ∧
    ∃ w, ReachesUnder (requests plainEnv).step TrialInTurn fresh w ∧
      ∃ t t', ("u", 0, t) ∈ w.store.recorded ∧ ("u", 1, t') ∈ w.store.recorded ∧
        TRIAL_COOLDOWN_MS ≤ |t - t'| := by
  have heffect := license_changes_take_effect plainEnv licensed (fun _ => none) 0 "u"
  let step := (requests plainEnv).step
  let G := AfterWrite 0 1 "u"
  constructor
  · let ended (w : Pool Answer Store Request Outcome) : Bool :=
      decide (outcome w 0 = some (.deactivate "u", .ok none)) && w.running.length == 1
    let asked (w : Pool Answer Store Request Outcome) : Bool :=
      decide (outcome w 1 = some (.hasFeature "u" [], .feature false))
    obtain ⟨w₀, hreach, htest⟩ := StepSystem.reachesUnder_of_test step (fun _ _ => True) fresh
      deactivateThenAsk.before
      (fun w₀ => decide (System.nextCall w₀ 0 =
          some (.deactivate "u", .setLicenseKey "u" none)) && w₀.running.length == 1 &&
        (step w₀ (.next 0 true)).any fun w₀' =>
          (runUnder step G w₀' deactivateThenAsk.meanwhile).any fun w₁ => ended w₁ &&
            (runUnder step G w₁ deactivateThenAsk.after).any asked) (by decide)
    simp only [Bool.and_eq_true, decide_eq_true_eq, beq_iff_eq] at htest
    obtain ⟨⟨hcall, hlength⟩, htest⟩ := htest
    obtain ⟨w₀', hstep, htest⟩ := (Option.any_eq_true _ _).mp htest
    obtain ⟨w₁, hrun, htest⟩ := StepSystem.reachesUnder_of_test step G w₀' _ _ htest
    obtain ⟨hended, htest⟩ := Bool.and_eq_true_iff.mp htest
    obtain ⟨w₂, hrest, hasked⟩ := StepSystem.reachesUnder_of_test step G w₁ _ _ htest
    simp only [ended, Bool.and_eq_true, decide_eq_true_eq, beq_iff_eq] at hended
    have hresult := running_of_outcome (of_decide_eq_true hasked)
    refine ⟨w₀, w₀', w₁, w₂, hreach, hstep, hrun, hrest, false, hresult, ?_⟩
    exact heffect.1 0 true w₀ w₀' w₁ w₂ hreach hcall hstep (hlength ▸ hrun)
      (running_of_outcome hended.1) (hlength ▸ hrest) 1 [] false (by rw [hended.2]) hresult
  · obtain ⟨w, hreach, htest⟩ := StepSystem.reachesUnder_of_test step TrialInTurn fresh claimTwice
      (fun w => decide (outcome w 0 = some (.claimTrial "u" "name", .ok (some plainLicense))) &&
        decide (outcome w 1 = some (.claimTrial "u" "name", .ok (some plainLicense))))
      (by decide)
    simp only [Bool.and_eq_true, decide_eq_true_eq] at htest
    exact ⟨w, hreach, heffect.2 w hreach 0 1 "name" "name" _ _ nofun
      (running_of_outcome htest.1) (running_of_outcome htest.2)⟩

/-- A question for a feature reads the key before the deactivation, and puts what it read into
the cache after it. -/
def staleEntry : Moves where
  before := [.start (.hasFeature "u" []), .next 0 true, .next 0 true, .next 0 true,
    .start (.deactivate "u")]
  meanwhile := [.next 1 true, .next 1 true]
  after := [.next 0 true, .start (.hasFeature "u" []), .next 2 true, .next 2 true]

/-- Two claims that check before either of them records. -/
def claimTogether : List (Move Request Event) :=
  [.start (.claimTrial "u" "name"), .start (.claimTrial "u" "name"), .next 0 true, .next 0 true,
    .next 1 true, .next 1 true] ++ List.replicate 5 (.next 0 true) ++
    List.replicate 5 (.next 1 true)

theorem license_change_without_effect :
    (∃ w₀ w₁ w₂, Reaches (requests plainEnv).step fresh w₀ ∧
      System.nextCall w₀ 1 = some (.deactivate "u", .setLicenseKey "u" none) ∧
      Reaches (requests plainEnv).step w₀ w₁ ∧
      w₁.running[1]? = some (.deactivate "u", .ret (.ok none)) ∧ w₁.running.length ≤ 2 ∧
      Reaches (requests plainEnv).step w₁ w₂ ∧
      (∀ c ∈ w₂.running, c.1.gives "u" = false) ∧
      w₂.running[2]? = some (.hasFeature "u" [], .ret (.feature true))) ∧
    ∃ w, Reaches (requests plainEnv).step fresh w ∧
      w.running[0]? = some (.claimTrial "u" "name", .ret (.ok (some plainLicense))) ∧
      w.running[1]? = some (.claimTrial "u" "name", .ret (.ok (some plainLicense))) ∧
      w.store.recorded = [("u", 0, 0), ("u", 1, 0)] := by
  let step := (requests plainEnv).step
  constructor
  · obtain ⟨w₀, hreach, htest⟩ := StepSystem.reachesUnder_of_test step (fun _ _ => True) fresh
      staleEntry.before
      (fun w₀ => decide (System.nextCall w₀ 1 =
          some (.deactivate "u", .setLicenseKey "u" none)) &&
        (runUnder step (fun _ _ => True) w₀ staleEntry.meanwhile).any fun w₁ =>
          decide (outcome w₁ 1 = some (.deactivate "u", .ok none)) && w₁.running.length == 2 &&
            (runUnder step (fun _ _ => True) w₁ staleEntry.after).any fun w₂ =>
              decide (outcome w₂ 2 = some (.hasFeature "u" [], .feature true)) &&
                w₂.running.all fun q => !q.1.gives "u") (by decide)
    obtain ⟨hcall, htest⟩ := Bool.and_eq_true_iff.mp htest
    obtain ⟨w₁, hrun, htest⟩ := StepSystem.reachesUnder_of_test step _ w₀ _ _ htest
    obtain ⟨hended, htest⟩ := Bool.and_eq_true_iff.mp htest
    obtain ⟨w₂, hrest, hasked⟩ := StepSystem.reachesUnder_of_test step _ w₁ _ _ htest
    simp only [Bool.and_eq_true, decide_eq_true_eq, beq_iff_eq, List.all_eq_true,
      Bool.not_eq_true'] at hended hasked
    refine ⟨w₀, w₁, w₂, hreach, of_decide_eq_true hcall, hrun, running_of_outcome hended.1,
      hended.2.le, hrest, hasked.2, running_of_outcome hasked.1⟩
  · obtain ⟨w, hreach, htest⟩ := StepSystem.reachesUnder_of_test step (fun _ _ => True) fresh
      claimTogether
      (fun w => decide (outcome w 0 = some (.claimTrial "u" "name", .ok (some plainLicense))) &&
        decide (outcome w 1 = some (.claimTrial "u" "name", .ok (some plainLicense))) &&
        decide (w.store.recorded = [("u", 0, 0), ("u", 1, 0)]))
      (by decide)
    simp only [Bool.and_eq_true, decide_eq_true_eq] at htest
    exact ⟨w, hreach, running_of_outcome htest.1.1, running_of_outcome htest.1.2, htest.2⟩

end Swazz.LicenseService
