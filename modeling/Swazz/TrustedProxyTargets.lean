import Mathlib.Order.Basic
import Swazz.TrustedProxy

/-! A request goes through a trusted proxy only when the host that the proxy is told was
checked, and no dial of the proxied client reaches a private address but a trusted proxy. -/
namespace Swazz.TrustedProxy

open AtomicCalls BlockedAddresses NetAddress GuardedDial
open StepSystem (Reaches)

/-- The store of the proxied client and of the world around it, with what happened so far:
which names resolved to public addresses and when, when each request read the clock, and
what was dialed. -/
structure Store where
  now : ℕ
  proxyTurn : ℕ
  checked : List (List Char × TargetCheck)
  answers : List Char → Except String (List (Option IP))
  dialer : String → List Char → Except String Unit
  cancelled : List ℕ
  passed : List (List Char × ℕ)
  readings : List (ℕ × ℕ)
  dialed : List (List Char)

/-- The map starts anew when it is full. -/
def Store.setChecked (s : Store) (host : List Char) (check : TargetCheck) : Store :=
  let checked := if s.checked.length ≥ maxCheckedTargets then [] else s.checked
  { s with checked := (host, check) :: checked.filter (·.1 ≠ host) }

def Store.exec (who : ℕ) (s : Store) : (op : Op) → Answer op × Store
  | .lookup host =>
    match checkAnswer host (s.answers host) with
    | .ok _ => (s.answers host, { s with passed := (host, s.now) :: s.passed })
    | .error _ => (s.answers host, s)
  | .dial network addr => (s.dialer network addr, { s with dialed := addr :: s.dialed })
  | .now => (s.now, { s with readings := (who, s.now) :: s.readings })
  | .ctxErr => (decide (who ∈ s.cancelled), s)
  | .nextProxyTurn => (s.proxyTurn, { s with proxyTurn := (s.proxyTurn + 1) % 2 ^ 32 })
  | .getChecked host => (s.checked.lookup host, s)
  | .setChecked host check => ((), s.setChecked host check)

/-- Time passes, the resolver and the network change their minds, a request is cancelled. -/
inductive World where
  | tick (ms : ℕ)
  | resolver (answers : List Char → Except String (List (Option IP)))
  | network (dialer : String → List Char → Except String Unit)
  | cancel (i : ℕ)

def Store.pass (s : Store) : World → Store
  | .tick ms => { s with now := s.now + ms }
  | .resolver answers => { s with answers := answers }
  | .network dialer => { s with dialer := dialer }
  | .cancel i => { s with cancelled := i :: s.cancelled }

def proxyRequests (c : Client) : System Answer Store Request World (Except String URL) where
  exec who _ op s := s.exec who op
  body req := (roundTrip c req).run
  world e s := s.pass e

/-- What has happened, as far as the checks go by it. -/
structure Log where
  passed : List (List Char × ℕ)
  readings : List (ℕ × ℕ)
  now : ℕ

instance : Preorder Log where
  le k k' := k.passed ⊆ k'.passed ∧ k.readings ⊆ k'.readings ∧ k.now ≤ k'.now
  le_refl k := ⟨List.Subset.refl _, List.Subset.refl _, Nat.le_refl _⟩
  le_trans _ _ _ h h' :=
    ⟨List.Subset.trans h.1 h'.1, List.Subset.trans h.2.1 h'.2.1, Nat.le_trans h.2.2 h'.2.2⟩

def Store.log (s : Store) : Log := ⟨s.passed, s.readings, s.now⟩

variable (libs : Libs)

/-- The host passed `ResolvePublic` at a time, or passes at any as a public literal. -/
def Passes (k : Log) (host : List Char) (t : ℕ) : Prop :=
  (∃ ip, libs.ParseIP host = some ip ∧ IsReservedOrPrivate (some ip) = false) ∨
    (host, t) ∈ k.passed

/-- The host passed within the last minute, when the request looked at the clock. -/
def Checked (k : Log) (i : ℕ) (host : List Char) : Prop :=
  ∃ reading t, (i, reading) ∈ k.readings ∧ Passes libs k host t ∧ reading < t + targetCheckTTL

/-- What the memory of a check promises. -/
def Remembered (k : Log) (host : List Char) (check : TargetCheck) : Prop :=
  check.err = none → ∃ t, Passes libs k host t ∧ check.untilTime ≤ t + targetCheckTTL

variable {libs} {k k' : Log}

theorem Passes.grow {host : List Char} {t : ℕ} (h : Passes libs k host t) (hle : k ≤ k') :
    Passes libs k' host t := by
  rcases h with h | h
  · exact Or.inl h
  · exact Or.inr (hle.1 h)

theorem Checked.grow {i : ℕ} {host : List Char} (h : Checked libs k i host) (hle : k ≤ k') :
    Checked libs k' i host := by
  obtain ⟨reading, t, hreading, hpasses, hlt⟩ := h
  exact ⟨reading, t, hle.2.1 hreading, hpasses.grow hle, hlt⟩

theorem Remembered.grow {host : List Char} {check : TargetCheck}
    (h : Remembered libs k host check) (hle : k ≤ k') : Remembered libs k' host check := by
  intro herr
  obtain ⟨t, hpasses, hle'⟩ := h herr
  exact ⟨t, hpasses.grow hle, hle'⟩

/-- The calls of a request: what it remembers is so, and it dials public addresses and
trusted proxies. -/
def Allowed (c : Client) : Op → Log → Prop
  | .setChecked host check, k => Remembered c.libs k host check
  | .dial _ addr, _ => Public addr ∨ addr ∈ c.trusted
  | _, _ => True

/-- What the answer to a call of the request `i` tells. -/
def Learns (libs : Libs) (i : ℕ) : (op : Op) → Answer op → Log → Prop
  | .now, n, k => (i, n) ∈ k.readings ∧ n ≤ k.now
  | .getChecked host, check, k => ∀ found, check = some found → Remembered libs k host found
  | .lookup host, answer, k => ∀ ips, checkAnswer host answer = .ok ips → (host, k.now) ∈ k.passed
  | _, _, _ => True

section

variable {c : Client} {i : ℕ} {α β : Type}

/-- A program of request `i` ends as `Post` says. -/
abbrev Ends (c : Client) (i : ℕ) (Post : Except String α → Log → Prop) (p : Dial α) (k : Log) :
    Prop := Calls.Knows (Allowed c) (Learns c.libs i) Post p.run k

theorem ends_bind {Post : Except String β → Log → Prop} {p : Dial α} {f : α → Dial β}
    (h : Ends c i (fun r k => match r with
      | .ok a => Ends c i Post (f a) k
      | .error err => Post (.error err) k) p k) : Ends c i Post (p >>= f) k := by
  refine Calls.knows_bind (h.imp fun r k' _ hr => ?_)
  cases r with
  | ok a => exact hr
  | error err => exact hr

theorem ends_attempt {Post : Except String β → Log → Prop} {p : Calls Answer α}
    {f : α → Dial β}
    (h : Calls.Knows (Allowed c) (Learns c.libs i) (fun a k => Ends c i Post (f a) k) p k) :
    Ends c i Post (attempt p >>= f) k := by
  refine ends_bind (Calls.knows_bind ?_)
  exact h

/-- A host that resolves to public addresses passes at a time that is not past. -/
theorem ends_ResolvePublic (host : List Char) (k : Log) :
    Ends c i (fun r k' => ∀ ips, r = .ok ips → ∃ t, Passes c.libs k' host t ∧ k.now ≤ t)
      (ResolvePublic c.libs.ParseIP host) k := by
  cases hparse : c.libs.ParseIP host with
  | some ip =>
    simp only [ResolvePublic, hparse]
    by_cases hprivate : IsReservedOrPrivate (some ip) = true
    · rw [if_pos hprivate]
      intro ips hips
      cases hips
    · rw [if_neg hprivate]
      have hpublic : IsReservedOrPrivate (some ip) = false := by simpa using hprivate
      exact fun _ _ => ⟨k.now, Or.inl ⟨ip, hparse, hpublic⟩, Nat.le_refl _⟩
  | none =>
    simp only [ResolvePublic, hparse]
    refine ⟨trivial, fun answer k' hle hlearns => ?_⟩
    intro ips hips
    exact ⟨k'.now, Or.inr (hlearns ips hips), hle.2.2⟩

/-- A host that is let through was checked within the last minute, now or before. -/
theorem ends_checkHost (host : List Char) (k : Log) :
    Ends c i (fun r k' => r = .ok () →
      ∃ ascii, asciiHost c.libs host = some ascii ∧ Checked c.libs k' i ascii)
      (checkHost c.libs host) k := by
  cases hascii : asciiHost c.libs host with
  | none =>
    simp only [checkHost, hascii]
    intro hok
    cases hok
  | some ascii =>
    simp only [checkHost, hascii]
    refine ⟨trivial, fun (now : ℕ) k₁ _ hnow => ?_⟩
    refine ⟨trivial, fun found k₂ hle₂ hfound => ?_⟩
    have hreading : (i, now) ∈ k₂.readings := hle₂.2.1 hnow.1
    have hclock : now ≤ k₂.now := Nat.le_trans hnow.2 hle₂.2.2
    simp only [Calls.bind, Function.comp_apply, ExceptT.bindCont]
    split
    · -- The check is remembered.
      rename_i check hcheck
      obtain ⟨hsome, huntil⟩ := Option.filter_eq_some_iff.mp hcheck
      have hlt : now < check.untilTime := by simpa using huntil
      intro hok
      have herr : check.err = none := by
        cases herr : check.err with
        | none => rfl
        | some err =>
          rw [herr] at hok
          cases hok
      obtain ⟨t, hpasses, hle⟩ := hfound check hsome herr
      exact ⟨ascii, rfl, now, t, hreading, hpasses, by omega⟩
    · apply ends_attempt
      refine (ends_ResolvePublic ascii k₂).imp fun r k₃ hle₃ hr => ?_
      cases r with
      | error err =>
        refine ⟨trivial, fun (cancelled : Bool) k₄ _ _ => ?_⟩
        cases cancelled with
        | true =>
          intro hok
          cases hok
        | false =>
          constructor
          · intro herr
            cases herr
          · intro _ k₅ _ _ hok
            cases hok
      | ok ips =>
        obtain ⟨t, hpasses, hle⟩ := hr ips rfl
        refine ⟨fun _ => ⟨t, hpasses, ?_⟩, fun _ k₄ hle₄ _ _ => ?_⟩
        · change now + targetCheckTTL ≤ t + targetCheckTTL
          omega
        · have hbefore : now < t + targetCheckTTL := by
            have hpos : 0 < targetCheckTTL := by decide
            omega
          have hread₄ : (i, now) ∈ k₄.readings := hle₄.2.1 (hle₃.2.1 hreading)
          exact ⟨ascii, rfl, now, t, hread₄, hpasses.grow hle₄, hbefore⟩

/-- The hosts passed the check in the form that they are looked up in. -/
def AllChecked (libs : Libs) (k : Log) (i : ℕ) (hosts : List (List Char)) : Prop :=
  ∀ host ∈ hosts, ∃ ascii, asciiHost libs host = some ascii ∧ Checked libs k i ascii

theorem AllChecked.grow {hosts : List (List Char)} (h : AllChecked libs k i hosts)
    (hle : k ≤ k') : AllChecked libs k' i hosts := by
  intro host hhost
  obtain ⟨ascii, hascii, hchecked⟩ := h host hhost
  exact ⟨ascii, hascii, hchecked.grow hle⟩

theorem ends_checkHosts (hosts : List (List Char)) (k : Log) :
    Ends c i (fun r k' => r = .ok () → AllChecked c.libs k' i hosts) (checkHosts c.libs hosts)
      k := by
  induction hosts generalizing k with
  | nil => exact fun _ _ hhost => by cases hhost
  | cons host hosts ih =>
    apply ends_attempt
    refine (ends_checkHost host k).imp fun r k₁ _ hr => ?_
    cases r with
    | error err => exact nofun
    | ok u =>
      obtain ⟨ascii, hascii, hchecked⟩ := hr rfl
      refine (ih k₁).imp fun r' k₂ hle₂ hr' hok => ?_
      intro host' hhost
      rcases List.mem_cons.mp hhost with rfl | hrest
      · exact ⟨ascii, hascii, hchecked.grow hle₂⟩
      · exact hr' hok host' hrest

/-- What holds of the proxy that a request is given. -/
def Handed (c : Client) (req : Request) (i : ℕ) (proxy : URL) (k : Log) : Prop :=
  (∃ proxies, c.proxies = .ok proxies ∧ proxy ∈ proxies) ∧
    (c.allowPrivate = false → proxyDialAddr proxy ∈ c.trusted →
      AllChecked c.libs k i (targetHosts req proxy))

theorem Handed.grow {req : Request} {proxy : URL} (h : Handed c req i proxy k) (hle : k ≤ k') :
    Handed c req i proxy k' :=
  ⟨h.1, fun hprivate htrusted => (h.2 hprivate htrusted).grow hle⟩

theorem ends_Proxy (req : Request) (k : Log) :
    Ends c i (fun r k' => ∀ proxy, r = .ok proxy → Handed c req i proxy k') (Proxy c req) k := by
  cases hlist : c.proxies with
  | error err =>
    simp only [Proxy, hlist]
    intro proxy hproxy
    cases hproxy
  | ok proxies =>
    simp only [Proxy, hlist]
    refine ⟨trivial, fun (turn : ℕ) k₁ _ _ => ?_⟩
    simp only [Calls.bind, Function.comp_apply, ExceptT.bindCont]
    split
    · intro proxy hproxy
      cases hproxy
    · rename_i proxy hproxy
      have hlisted : ∃ proxies, c.proxies = .ok proxies ∧ proxy ∈ proxies :=
        ⟨proxies, hlist, List.mem_of_getElem? hproxy⟩
      by_cases hcheck : (!c.allowPrivate && decide (proxyDialAddr proxy ∈ c.trusted)) = true
      · simp only [if_pos hcheck]
        apply ends_bind
        refine (ends_checkHosts (targetHosts req proxy) k₁).imp fun r k₂ _ hr => ?_
        cases r with
        | error err =>
          intro proxy' hproxy'
          cases hproxy'
        | ok u =>
          intro proxy' hproxy'
          obtain rfl := Except.ok.inj hproxy'
          exact ⟨hlisted, fun _ _ => hr rfl⟩
      · simp only [if_neg hcheck]
        intro proxy' hproxy'
        obtain rfl := Except.ok.inj hproxy'
        refine ⟨hlisted, fun hprivate htrusted => absurd ?_ hcheck⟩
        simp [hprivate, htrusted]

/-- The calls of a dial. -/
def Dials (c : Client) : Op → Prop
  | .lookup _ => True
  | .dial _ addr => Public addr ∨ addr ∈ c.trusted
  | _ => False

theorem uses_trustedProxyDial (hprivate : c.allowPrivate = false) (addr : List Char) :
    Calls.Uses (Dials c) (trustedProxyDial c addr).run := by
  by_cases htrusted : addr ∈ c.trusted
  · rw [trustedProxyDial, if_pos (Or.inl htrusted)]
    exact ⟨Or.inr htrusted, fun _ => trivial⟩
  · have hguarded : ¬(addr ∈ c.trusted ∨ c.allowPrivate = true) := by simp [htrusted, hprivate]
    rw [trustedProxyDial, if_neg hguarded]
    apply uses_guardDial
    · exact fun _ => trivial
    · exact fun ip port hpublic => Or.inl ⟨ip, port, hpublic, rfl⟩

theorem ends_roundTrip (hprivate : c.allowPrivate = false) (req : Request) (k : Log) :
    Ends c i (fun r k' => ∀ proxy, r = .ok proxy → Handed c req i proxy k') (roundTrip c req)
      k := by
  apply ends_bind
  refine (ends_Proxy req k).imp fun r k₁ _ hr => ?_
  cases r with
  | error err => exact nofun
  | ok proxy =>
    have hhanded : Handed c req i proxy k₁ := hr proxy rfl
    by_cases hpooled : req.pooled = true
    · simp only [hpooled, Bool.not_true, if_neg Bool.false_ne_true]
      intro proxy' hproxy'
      obtain rfl := Except.ok.inj hproxy'
      exact hhanded
    · have hnot : (!req.pooled) = true := by simpa using hpooled
      simp only [if_pos hnot]
      apply ends_bind
      have hallowed (op : Op) (k : Log) (h : Dials c op) : Allowed c op k := by
        cases op with
        | setChecked host check => exact False.elim h
        | dial network addr => exact h
        | _ => exact trivial
      refine (Calls.knows_of_uses hallowed (uses_trustedProxyDial hprivate _) k₁).imp ?_
      intro r k₂ _ hle
      cases r with
      | error err => exact nofun
      | ok u =>
        intro proxy' hproxy'
        obtain rfl := Except.ok.inj hproxy'
        exact hhanded.grow hle

end

/-- The store keeps its promises: what it remembers of checks is so, and what was dialed
is public or a trusted proxy. -/
structure Kept (c : Client) (s : Store) : Prop where
  remembered : ∀ l ∈ s.checked, Remembered c.libs s.log l.1 l.2
  dialed : ∀ addr ∈ s.dialed, Public addr ∨ addr ∈ c.trusted

theorem Kept.grow {c : Client} {s s' : Store} (h : Kept c s) (hchecked : s'.checked = s.checked)
    (hdialed : s'.dialed = s.dialed) (hle : s.log ≤ s'.log) : Kept c s' where
  remembered l hl := (h.remembered l (hchecked ▸ hl)).grow hle
  dialed addr haddr := h.dialed addr (hdialed ▸ haddr)

theorem exec_kept {c : Client} {s : Store} (i : ℕ) (op : Op) (h : Kept c s)
    (hallowed : Allowed c op s.log) : Kept c (s.exec i op).2 ∧ s.log ≤ (s.exec i op).2.log ∧
      Learns c.libs i op (s.exec i op).1 (s.exec i op).2.log := by
  cases op with
  | lookup host =>
    cases hcheck : checkAnswer host (s.answers host) with
    | ok ips =>
      have hle : s.log ≤ (s.exec i (.lookup host)).2.log := by
        simp only [Store.exec, hcheck]
        exact ⟨List.subset_cons_self _ _, List.Subset.refl _, Nat.le_refl _⟩
      refine ⟨h.grow ?_ ?_ hle, hle, ?_⟩
      · simp only [Store.exec, hcheck]
      · simp only [Store.exec, hcheck]
      · intro ips' _
        simp only [Store.exec, hcheck]
        exact List.mem_cons_self
    | error err =>
      simp only [Store.exec, hcheck]
      refine ⟨h, le_refl _, fun ips hips => ?_⟩
      rw [hcheck] at hips
      cases hips
  | dial network addr =>
    refine ⟨⟨h.remembered, fun addr' haddr => ?_⟩, le_refl _, trivial⟩
    rcases List.mem_cons.mp haddr with rfl | hold
    · exact hallowed
    · exact h.dialed addr' hold
  | now =>
    have hle : s.log ≤ (s.exec i .now).2.log :=
      ⟨List.Subset.refl _, List.subset_cons_self _ _, Nat.le_refl _⟩
    exact ⟨h.grow rfl rfl hle, hle, List.mem_cons_self, Nat.le_refl _⟩
  | ctxErr => exact ⟨h, le_refl _, trivial⟩
  | nextProxyTurn => exact ⟨h.grow rfl rfl (le_refl _), le_refl _, trivial⟩
  | getChecked host =>
    refine ⟨h, le_refl _, fun found hfound => ?_⟩
    obtain ⟨before, after, hsplit, -⟩ := List.lookup_eq_some_iff.mp hfound
    have hmem : (host, found) ∈ s.checked := by
      rw [hsplit]
      exact List.mem_append_right _ List.mem_cons_self
    exact h.remembered (host, found) hmem
  | setChecked host check =>
    refine ⟨⟨fun l hl => ?_, h.dialed⟩, le_refl _, trivial⟩
    rcases List.mem_cons.mp hl with rfl | hrest
    · exact hallowed
    · -- What the map still holds it held before, also when it started anew.
      have hkept := (List.mem_filter.mp hrest).1
      split_ifs at hkept
      · cases hkept
      · exact h.remembered l hkept

theorem pass_kept {c : Client} {s : Store} (e : World) (h : Kept c s) :
    Kept c (s.pass e) ∧ s.log ≤ (s.pass e).log := by
  have hle : s.log ≤ (s.pass e).log := by
    cases e with
    | tick ms => exact ⟨List.Subset.refl _, List.Subset.refl _, Nat.le_add_right _ _⟩
    | resolver answers | network dialer | cancel i => exact le_refl _
  refine ⟨?_, hle⟩
  cases e <;> exact h.grow rfl rfl hle

/-- What is known of every request and of the store holds in every state that is reached. -/
theorem informed_of_reaches {c : Client} (hprivate : c.allowPrivate = false)
    {w₀ w : Pool Answer Store Request (Except String URL)} (hrunning : w₀.running = [])
    (hkept : Kept c w₀.store) (h : Reaches (proxyRequests c).step w₀ w) :
    System.Informed (Kept c) Store.log (Allowed c) (Learns c.libs)
      (fun i req r k => ∀ proxy, r = .ok proxy → Handed c req i proxy k) w := by
  refine h.invariant (I := fun w => System.Informed (Kept c) Store.log (Allowed c)
    (Learns c.libs) (fun i req r k => ∀ proxy, r = .ok proxy → Handed c req i proxy k) w) ?_ ?_
  · exact ⟨hkept, fun i r p hi => by simp [hrunning] at hi⟩
  · intro t m u ht _ hu
    refine System.informed_step ?_ ?_ ?_ ?_ ?_ ht hu
    · intro op k k' hle hallowed
      cases op with
      | setChecked host check => exact Remembered.grow hallowed hle
      | _ => exact hallowed
    · exact fun i r a k k' hle hpost proxy hproxy => (hpost proxy hproxy).grow hle
    · exact fun i r op s hs hallowed => exec_kept i op hs hallowed
    · exact fun e s hs => pass_kept e hs
    · exact fun i r k => ends_roundTrip hprivate r k

/-- The host of a plain request's Host header, or of its URL when there is none. -/
def lineHost (req : Request) : List Char :=
  (URL.mk "" (if req.Host = [] then req.url.Host else req.Host)).Hostname

/-- A plain request to an HTTP proxy, which follows the request line. -/
def PlainHTTP (req : Request) (proxy : URL) : Prop :=
  req.url.Scheme = "http" ∧ (proxy.Scheme = "http" ∨ proxy.Scheme = "https")

/-- The host that `net/http` writes in the request line of a plain request is the name that
`checkHost` looks up. -/
def WritesAsChecked (libs : Libs) (req : Request) (proxy : URL) : Prop :=
  PlainHTTP req proxy → ∀ host, toldHost libs req proxy = some host →
    asciiHost libs (lineHost req) = some host

theorem lineHost_mem {req : Request} {proxy : URL} (h : PlainHTTP req proxy) :
    lineHost req ∈ targetHosts req proxy := by
  rw [targetHosts, lineHost]
  by_cases hset : req.Host = []
  · have hhost : (URL.mk "" req.url.Host).Hostname = req.url.Hostname := rfl
    simp [hset, hhost]
  · have hplain : req.Host ≠ [] ∧ req.url.Scheme = "http" ∧
        (proxy.Scheme = "http" ∨ proxy.Scheme = "https") := ⟨hset, h⟩
    simp only [if_neg hset, if_pos hplain]
    split_ifs with hsame
    · exact List.mem_cons_of_mem _ List.mem_cons_self
    · rw [not_not.mp hsame]
      exact List.mem_cons_self

theorem url_host_mem (req : Request) (proxy : URL) :
    req.url.Hostname ∈ targetHosts req proxy := by
  simp only [targetHosts]
  split_ifs <;> exact List.mem_cons_self

/-- The host that the proxy is told is one of those that were checked. -/
theorem told_checked {i : ℕ} {req : Request} {proxy : URL} {host : List Char}
    (h : AllChecked libs k i (targetHosts req proxy)) (hwrites : WritesAsChecked libs req proxy)
    (htold : toldHost libs req proxy = some host) : Checked libs k i host := by
  by_cases hplain : PlainHTTP req proxy
  · obtain ⟨ascii, hascii, hchecked⟩ := h (lineHost req) (lineHost_mem hplain)
    obtain rfl := Option.some.inj (hascii.symm.trans (hwrites hplain host htold))
    exact hchecked
  · -- A tunnel: `net/http` maps the host of the URL as the check does.
    obtain ⟨ascii, hascii, hchecked⟩ := h req.url.Hostname (url_host_mem req proxy)
    have hline : ¬(req.url.Scheme = "http" ∧
        (proxy.Scheme = "http" ∨ proxy.Scheme = "https")) := hplain
    simp only [toldHost, if_neg hline] at htold
    rw [asciiHost] at hascii
    split_ifs at hascii with hASCII
    · rw [← Option.some.inj htold, if_pos hASCII, Option.some.inj hascii]
      exact hchecked
    · rw [← Option.some.inj htold, if_neg hASCII, hascii]
      exact hchecked

theorem mem_of_mem_splitHost {v : List Char} {ch : Char} (h : ch ∈ (splitHost v).1) : ch ∈ v := by
  have hcut (host : List Char) (port : List Char) (hsub : ∀ ch ∈ host, ch ∈ v)
      (h : ch ∈ (if host.head? = some '[' ∧ host.getLast? = some ']' then
        (host.tail.dropLast, port) else (host, port)).1) : ch ∈ v := by
    split_ifs at h
    · exact hsub ch (List.mem_of_mem_tail ((List.dropLast_sublist _).subset h))
    · exact hsub ch h
  cases hcolon : lastColon v with
  | none =>
    simp only [splitHost, hcolon] at h
    exact hcut v [] (fun _ hch => hch) h
  | some split =>
    obtain ⟨before, port⟩ := split
    have hbefore : ∀ ch ∈ before, ch ∈ v := by
      rw [lastColon] at hcolon
      split_ifs at hcolon
      obtain ⟨rfl, -⟩ := Prod.mk.inj (Option.some.inj hcolon)
      exact fun ch hch => List.mem_of_mem_take hch
    simp only [splitHost, hcolon] at h
    by_cases hport : port.all Char.isDigit = true
    · simp only [if_pos hport] at h
      exact hcut before port hbefore h
    · simp only [if_neg hport] at h
      exact hcut v [] (fun _ hch => hch) h

theorem removeZone_of_not_mem {host : List Char} (h : '%' ∉ host) : removeZone host = host := by
  unfold removeZone
  split
  · rename_i rest
    have hbare : ((('[' :: rest).reverse.dropWhile (· != ']')).tail.reverse).contains '%' =
        false := by
      by_contra hmem
      have hzone : '%' ∈ (('[' :: rest).reverse.dropWhile (· != ']')).tail.reverse := by
        simpa using hmem
      have hdrop := List.mem_of_mem_tail (List.mem_reverse.mp hzone)
      exact h (List.mem_reverse.mp ((List.dropWhile_sublist _).subset hdrop))
    simp only [hbare, Bool.not_false, or_true, if_true]
  · rfl

/-- A host of ASCII without a zone is written as it is checked. -/
theorem writesAsChecked_of_ascii {req : Request} {proxy : URL}
    (hascii : isASCII (if req.Host = [] then req.url.Host else req.Host) = true)
    (hzone : '%' ∉ (if req.Host = [] then req.url.Host else req.Host)) :
    WritesAsChecked libs req proxy := by
  intro hplain host htold
  have hline : req.url.Scheme = "http" ∧
      (proxy.Scheme = "http" ∨ proxy.Scheme = "https") := hplain
  rw [toldHost, if_pos hline, PunycodeHostPort, if_pos hascii, Option.map_some,
    removeZone_of_not_mem hzone] at htold
  have hname : isASCII (lineHost req) = true := by
    rw [isASCII, List.all_eq_true] at hascii ⊢
    exact fun ch hch => hascii ch (mem_of_mem_splitHost hch)
  rw [asciiHost, if_pos hname]
  exact htold

/-- The address is the one that an entry of the operator names. -/
def Listed (libs : Libs) (entries : List (List Char)) (addr : List Char) : Prop :=
  ∃ raw ∈ rawEntries entries, ∃ ap,
    parseProxyAddr libs raw = some ap ∧ parseProxyAddr libs addr = some ap

theorem mem_mapM {α β ε : Type} {f : α → Except ε β} {l : List α} {bs : List β} {b : β}
    (h : l.mapM f = .ok bs) (hb : b ∈ bs) : ∃ a ∈ l, f a = .ok b := by
  induction l generalizing bs with
  | nil =>
    obtain rfl : [] = bs := Except.ok.inj h
    cases hb
  | cons a l ih =>
    rw [List.mapM_cons] at h
    cases ha : f a with
    | error err =>
      rw [ha] at h
      cases h
    | ok b' =>
      cases hl : l.mapM f with
      | error err =>
        rw [ha, hl] at h
        cases h
      | ok bs' =>
        rw [ha, hl] at h
        obtain rfl : b' :: bs' = bs := Except.ok.inj h
        rcases List.mem_cons.mp hb with rfl | hrest
        · exact ⟨a, List.mem_cons_self, ha⟩
        · obtain ⟨a', ha', heq⟩ := ih hl hrest
          exact ⟨a', List.mem_cons_of_mem _ ha', heq⟩

theorem listed_of_trusted {entries : List (List Char)} {trustedProxies : List (IP × ℕ)}
    {addr : List Char} (h : TrustProxies libs entries = .ok trustedProxies)
    (htrusted : IsTrustedProxy libs trustedProxies addr = true) : Listed libs entries addr := by
  rw [IsTrustedProxy] at htrusted
  split at htrusted
  · rename_i ap hap
    obtain ⟨raw, hraw, hparse⟩ := mem_mapM h (of_decide_eq_true htrusted)
    refine ⟨raw, hraw, ap, ?_, hap⟩
    split at hparse
    · rename_i ap' hap'
      rw [hap', Except.ok.inj hparse]
    · cases hparse
  · cases htrusted

theorem mem_trusted {ProxyList : List (List Char)} {trustedProxies : List (IP × ℕ)}
    {addr : List Char} : addr ∈ (proxiedClient libs trustedProxies ProxyList false).trusted ↔
      ∃ proxies, parseProxyList libs ProxyList = .ok proxies ∧
        ∃ proxy ∈ proxies, addr = proxyDialAddr proxy ∧
          IsTrustedProxy libs trustedProxies addr = true := by
  cases hlist : parseProxyList libs ProxyList with
  | error err => simp [proxiedClient, hlist]
  | ok proxies =>
    simp only [proxiedClient, hlist, List.mem_filter, List.mem_map, Except.ok.injEq]
    constructor
    · rintro ⟨⟨proxy, hproxy, rfl⟩, htrusted⟩
      exact ⟨proxies, rfl, proxy, hproxy, rfl, htrusted⟩
    · rintro ⟨proxies', rfl, proxy, hproxy, rfl, htrusted⟩
      exact ⟨⟨proxy, hproxy, rfl⟩, htrusted⟩

/-- Trusting a proxy opens nothing but that proxy: each dial of the proxied client is to a
public address or to a listed proxy that the operator trusts, and a request is handed to a
trusted proxy only when the host that the proxy is told passed the check within a minute. -/
theorem trusted_proxy_opens_only_itself (libs : Libs) (entries ProxyList : List (List Char))
    {trustedProxies : List (IP × ℕ)} (htrust : TrustProxies libs entries = .ok trustedProxies)
    {w₀ w : Pool Answer Store Request (Except String URL)} (hrunning : w₀.running = [])
    (hchecked : w₀.store.checked = []) (hdialed : w₀.store.dialed = [])
    (h : Reaches (proxyRequests (proxiedClient libs trustedProxies ProxyList false)).step w₀ w) :
    (∀ addr ∈ w.store.dialed, Public addr ∨ Listed libs entries addr ∧
      ∃ proxies, parseProxyList libs ProxyList = .ok proxies ∧
        ∃ proxy ∈ proxies, addr = proxyDialAddr proxy) ∧
      ∀ i req proxy, w.running[i]? = some (req, .ret (.ok proxy)) →
        IsTrustedProxy libs trustedProxies (proxyDialAddr proxy) = true →
        WritesAsChecked libs req proxy →
        ∀ host, toldHost libs req proxy = some host → Checked libs w.store.log i host := by
  have hkept : Kept (proxiedClient libs trustedProxies ProxyList false) w₀.store :=
    ⟨fun l hl => by simp [hchecked] at hl, fun addr haddr => by simp [hdialed] at haddr⟩
  have hinformed := informed_of_reaches rfl hrunning hkept h
  constructor
  · intro addr haddr
    rcases hinformed.inv.dialed addr haddr with hpublic | htrusted
    · exact Or.inl hpublic
    · obtain ⟨proxies, hlist, proxy, hproxy, haddr', hoperator⟩ := mem_trusted.mp htrusted
      exact Or.inr ⟨listed_of_trusted htrust hoperator, proxies, hlist, proxy, hproxy, haddr'⟩
  · intro i req proxy hi htrusted hwrites host htold
    obtain ⟨⟨proxies, hlist, hproxy⟩, hall⟩ := hinformed.knows i req _ hi proxy rfl
    have hknown : proxyDialAddr proxy ∈
        (proxiedClient libs trustedProxies ProxyList false).trusted :=
      mem_trusted.mpr ⟨proxies, hlist, proxy, hproxy, rfl, htrusted⟩
    exact told_checked (hall rfl hknown) hwrites htold

/-- The libraries on the texts of the runs below: `LookupToASCII` lowers the case of a name,
`ToASCII` does not. -/
def libraries : Libs where
  ParseIP _ := none
  ParseAddrPort s :=
    if s = "127.0.0.1:8080".toList then some ⟨[127, 0, 0, 1], [], 8080⟩ else none
  ParseURL s :=
    if s = "http://127.0.0.1:8080".toList then some ⟨"http", "127.0.0.1:8080".toList⟩ else none
  LookupToASCII s :=
    if s = "Ä.example.com".toList then some "xn--4ca.example.com".toList else none
  ToASCII s :=
    if s = "Ä.example.com".toList then some "xn--7ba.example.com".toList else none

/-- The client of a run whose one proxy is a trusted one, with no request yet. -/
def throughLocalProxy : Client :=
  proxiedClient libraries [([127, 0, 0, 1], 8080)] ["http://127.0.0.1:8080".toList] false

/-- `xn--7ba.example.com` is private, every other name public. -/
def beforeRequests : Pool Answer Store Request (Except String URL) where
  store := {
    now := 0, proxyTurn := 0, checked := []
    answers := fun host =>
      if host = "xn--7ba.example.com".toList then .ok [some [10, 0, 0, 1]]
      else .ok [some [93, 184, 216, 34]]
    dialer := fun _ _ => .ok ()
    cancelled := [], passed := [], readings := [], dialed := [] }
  running := []

def plainRequest (host : List Char) : Request := ⟨⟨"http", host⟩, host, false⟩

def localProxy : URL := ⟨"http", "127.0.0.1:8080".toList⟩

/-- One request for a host, from its start until it is handed to the proxy. -/
def oneRequest (host : List Char) : List (Move Request World) :=
  .start (plainRequest host) :: List.replicate 6 (.next 0 true)

/-- The request was handed to the local proxy, and only the name was looked up. -/
def handedAfter (host name : List Char)
    (w : Pool Answer Store Request (Except String URL)) : Bool :=
  w.store.passed.all (fun l => l.1 == name) &&
    match w.running[0]? with
    | some (req, Calls.ret (Except.ok proxy)) => req == plainRequest host && proxy == localProxy
    | _ => false

theorem handed_of_handedAfter {host name : List Char}
    {w : Pool Answer Store Request (Except String URL)} (h : handedAfter host name w = true) :
    (∀ l ∈ w.store.passed, l.1 = name) ∧
      w.running[0]? = some (plainRequest host, .ret (.ok localProxy)) := by
  obtain ⟨hpassed, hhanded⟩ := Bool.and_eq_true_iff.mp h
  refine ⟨fun l hl => by simpa using List.all_eq_true.mp hpassed l hl, ?_⟩
  split at hhanded
  · rename_i req proxy hi
    obtain ⟨hreq, hproxy⟩ := Bool.and_eq_true_iff.mp hhanded
    rw [hi, eq_of_beq hreq, eq_of_beq hproxy]
  · cases hhanded

/-- The name that was checked is public, the name that the proxy is told is not. -/
theorem trusted_proxy_told_another_name :
    ∃ w req, Reaches (proxyRequests throughLocalProxy).step beforeRequests w ∧
      w.running[0]? = some (req, .ret (.ok localProxy)) ∧
      toldHost libraries req localProxy = some "xn--7ba.example.com".toList ∧
      ¬Checked libraries w.store.log 0 "xn--7ba.example.com".toList := by
  obtain ⟨w, hrun, hw⟩ := StepSystem.reachesUnder_of_test (proxyRequests throughLocalProxy).step
    (fun _ _ => True) beforeRequests (oneRequest "Ä.example.com".toList)
    (handedAfter "Ä.example.com".toList "xn--4ca.example.com".toList) (by decide)
  obtain ⟨hpassed, hi⟩ := handed_of_handedAfter hw
  refine ⟨w, plainRequest "Ä.example.com".toList, hrun, hi, by decide, ?_⟩
  rintro ⟨reading, t, -, hpasses | hpasses, -⟩
  · obtain ⟨ip, hip, -⟩ := hpasses
    cases hip
  · have hsame : "xn--7ba.example.com".toList = "xn--4ca.example.com".toList :=
      hpassed _ hpasses
    exact absurd hsame (by decide)

/-- An ASCII name is told as it is checked. -/
theorem trusted_proxy_told_checked_name :
    ∃ w, Reaches (proxyRequests throughLocalProxy).step beforeRequests w ∧
      w.running[0]? = some (plainRequest "example.com".toList, .ret (.ok localProxy)) ∧
      Checked libraries w.store.log 0 "example.com".toList := by
  obtain ⟨w, hrun, hw⟩ := StepSystem.reachesUnder_of_test (proxyRequests throughLocalProxy).step
    (fun _ _ => True) beforeRequests (oneRequest "example.com".toList)
    (handedAfter "example.com".toList "example.com".toList) (by decide)
  have hi := (handed_of_handedAfter hw).2
  have htrust : TrustProxies libraries ["127.0.0.1:8080".toList] =
      .ok [([127, 0, 0, 1], 8080)] := by rfl
  have hopens := trusted_proxy_opens_only_itself libraries ["127.0.0.1:8080".toList]
    ["http://127.0.0.1:8080".toList] htrust rfl rfl rfl hrun
  refine ⟨w, hrun, hi, ?_⟩
  exact hopens.2 0 _ localProxy hi (by decide)
    (writesAsChecked_of_ascii (by decide) (by decide)) _ (by decide)

end Swazz.TrustedProxy
