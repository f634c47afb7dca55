import Swazz.AtomicCalls
import Swazz.NetAddress

/-! The dials of the runner that refuse private addresses, as the lookups and connections
they ask the network for. -/
namespace Swazz.GuardedDial

open AtomicCalls BlockedAddresses NetAddress

/-- What is remembered of the check of a target: until when, and its error. -/
structure TargetCheck where
  untilTime : ℕ
  err : Option String
  deriving DecidableEq

/-- What a request asks of the network, the clock and its context, and of what the requests
of a run share. -/
inductive Op where
  | lookup (host : List Char)
  | dial (network : String) (addr : List Char)
  | now
  | ctxErr
  | nextProxyTurn
  | getChecked (host : List Char)
  | setChecked (host : List Char) (check : TargetCheck)
  deriving DecidableEq

@[reducible] def Answer : Op → Type
  | .lookup _ => Except String (List (Option IP))
  | .dial _ _ => Except String Unit
  | .now | .nextProxyTurn => ℕ
  | .ctxErr => Bool
  | .getChecked _ => Option TargetCheck
  | .setChecked _ _ => Unit

abbrev Dial (α : Type) : Type := ExceptT String (Calls Answer) α

def perform (op : Op) : Calls Answer (Answer op) := Calls.perform op

/-- A call whose failure is looked at by the caller. -/
def attempt {α : Type} (p : Calls Answer α) : Dial α := ExceptT.lift p

def resultOf {α : Type} (r : Except String α) : Dial α := ExceptT.mk (pure r)

def targetPrivate : String := "request blocked by SSRF policy: target resolves to private IP"

section

variable (ParseIP : List Char → Option IP)

/-- The check of a resolver's answer: one private address blocks the whole host. -/
def checkAnswer (host : List Char) : Except String (List (Option IP)) →
    Except String (List (Option IP))
  | .error err => .error err
  | .ok ips =>
    if ips.isEmpty then .error ("failed to resolve host: " ++ String.ofList host)
    else if ips.any IsReservedOrPrivate then .error targetPrivate
    else .ok ips

/-- The addresses of a host, none of them private. -/
def ResolvePublic (host : List Char) : Dial (List (Option IP)) := do
  match ParseIP host with
  | some ip =>
    if IsReservedOrPrivate (some ip) then throw targetPrivate else return [some ip]
  | none =>
    let answer ← attempt (perform (.lookup host))
    resultOf (checkAnswer host answer)

/-- Connects to the first address that can be dialed, or fails with the last error. -/
def dialEach (network : String) (port : List Char) :
    List (Option IP) → String → Calls Answer (Except String Unit)
  | [], lastErr => return .error lastErr
  | ip :: ips, _ => do
    match ← perform (.dial network (JoinHostPort (ipString ip) port)) with
    | .ok () => return .ok ()
    | .error err => dialEach network port ips err

/-- The dials to the checked addresses of a host. -/
def dialChecked (network : String) (host port : List Char) (ips : List (Option IP)) :
    Dial Unit := do
  match ← attempt (dialEach network port ips "") with
  | .ok () => return ()
  | .error lastErr =>
    if (ParseIP host).isSome then throw lastErr
    else throw ("failed to connect to any resolved IPs: " ++ lastErr)

def guardDial (network : String) (addr : List Char) : Dial Unit := do
  let (host, port) :=
    match SplitHostPort addr with
    | .ok split => split
    | .error _ => (addr, [])
  let ips ← ResolvePublic ParseIP host
  dialChecked ParseIP network host port ips

end

/-- What `SafeDialContext` does with the answer of the resolver. -/
def dialAnswer (network : String) (addr host port : List Char) :
    Except String (List (Option IP)) → Dial Unit
  | .error err => throw ("safenet: DNS lookup failed: " ++ err)
  | .ok ips =>
    match ips.find? IsReservedOrPrivate with
    | some ip =>
      throw (String.ofList ("safenet: connection to ".toList ++ host ++ " (".toList ++
        ipString ip ++ ") blocked — target is a private/reserved address".toList))
    | none => do
      match ← attempt (dialEach network port ips "") with
      | .ok () => return ()
      | .error lastErr =>
        if ips.length > 0 then throw lastErr else perform (.dial network addr)

def SafeDialContext (AllowLocalNetwork : Bool) (network : String) (addr : List Char) :
    Dial Unit := do
  if AllowLocalNetwork then perform (.dial network addr)
  else
    match SplitHostPort addr with
    | .error err => throw ("safenet: invalid address: " ++ err)
    | .ok (host, port) =>
      let answer ← attempt (perform (.lookup host))
      dialAnswer network addr host port answer

/-- The text of an address that is not private, with a port. -/
def Public (addr : List Char) : Prop :=
  ∃ ip port, IsReservedOrPrivate ip = false ∧ addr = JoinHostPort (ipString ip) port

/-- What is dialed is public. -/
def DialsPublic : Op → Prop
  | .dial _ addr => Public addr
  | _ => True

/-- Nothing is dialed. -/
def NoDial : Op → Prop
  | .dial _ _ => False
  | _ => True

def NoLookup : Op → Prop
  | .lookup _ => False
  | _ => True

/-- Only public addresses are dialed, and none after an answer with a private address. -/
def SafeRun (answer : ℕ → (op : Op) → Answer op) (p : Dial Unit) : Prop :=
  (∀ op ∈ Calls.trace answer p.run, DialsPublic op) ∧
    ∀ n host ips, (Calls.trace answer p.run)[n]? = some (.lookup host) →
      answer n (.lookup host) = .ok ips → (∃ ip ∈ ips, IsReservedOrPrivate ip = true) →
      ∀ op ∈ Calls.trace answer p.run, NoDial op

/-- A run without a lookup. -/
theorem safeRun_of_uses {answer : ℕ → (op : Op) → Answer op} {p : Dial Unit}
    (hpublic : Calls.Uses DialsPublic p.run) (hlookup : Calls.Uses NoLookup p.run) :
    SafeRun answer p := by
  refine ⟨Calls.mem_trace_of_uses hpublic, ?_⟩
  intro n host ips hn
  exact False.elim (Calls.mem_trace_of_uses hlookup _ (List.mem_of_getElem? hn))

/-- A run whose one lookup comes first. -/
theorem safeRun_lookup {answer : ℕ → (op : Op) → Answer op} {host : List Char}
    {next : Answer (.lookup host) → Dial Unit}
    (hpublic : Calls.Uses DialsPublic (next (answer 0 (.lookup host))).run)
    (hlookup : Calls.Uses NoLookup (next (answer 0 (.lookup host))).run)
    (hprivate : ∀ ips, answer 0 (.lookup host) = .ok ips →
      (∃ ip ∈ ips, IsReservedOrPrivate ip = true) →
      Calls.Uses NoDial (next (answer 0 (.lookup host))).run) :
    SafeRun answer (attempt (perform (.lookup host)) >>= next) := by
  have htrace : Calls.trace answer (attempt (perform (.lookup host)) >>= next).run =
      .lookup host :: Calls.trace (fun n => answer (n + 1)) (next (answer 0 (.lookup host))).run :=
    rfl
  rw [SafeRun, htrace]
  constructor
  · intro op hop
    rcases List.mem_cons.mp hop with rfl | hrest
    · exact trivial
    · exact Calls.mem_trace_of_uses hpublic op hrest
  · intro n host' ips hn hanswer hips op hop
    cases n with
    | zero =>
      obtain rfl : host = host' := by simpa using hn
      rcases List.mem_cons.mp hop with rfl | hrest
      · exact trivial
      · exact Calls.mem_trace_of_uses (hprivate ips hanswer hips) op hrest
    | succ n =>
      -- No later call is a lookup.
      have hmem := List.mem_of_getElem? (List.getElem?_cons_succ ▸ hn)
      exact False.elim (Calls.mem_trace_of_uses hlookup _ hmem)

theorem uses_dialEach {P : Op → Prop} {network : String} {port : List Char}
    {ips : List (Option IP)} (h : ∀ ip ∈ ips, P (.dial network (JoinHostPort (ipString ip) port)))
    (lastErr : String) : (dialEach network port ips lastErr).Uses P := by
  induction ips generalizing lastErr with
  | nil => exact trivial
  | cons ip ips ih =>
    refine ⟨h ip List.mem_cons_self, fun a => ?_⟩
    cases a with
    | ok u => exact trivial
    | error err => exact ih (fun ip hip => h ip (List.mem_cons_of_mem _ hip)) err

/-- The dials to the addresses of a list, and what is done when they all failed. -/
theorem uses_dials {P : Op → Prop} {network : String} {port : List Char}
    {ips : List (Option IP)} {f : Except String Unit → Dial Unit}
    (h : ∀ ip ∈ ips, P (.dial network (JoinHostPort (ipString ip) port)))
    (hf : ∀ r, Calls.Uses P (f r).run) :
    Calls.Uses P (attempt (dialEach network port ips "") >>= f).run := by
  refine Calls.uses_bind (Calls.uses_bind (uses_dialEach h "") fun _ => trivial) ?_
  intro r
  cases r with
  | error err => exact trivial
  | ok r => exact hf r

section

variable {ParseIP : List Char → Option IP}

theorem checkAnswer_ok {host : List Char} {answer : Except String (List (Option IP))}
    {ips : List (Option IP)} (h : checkAnswer host answer = .ok ips) :
    answer = .ok ips ∧ ∀ ip ∈ ips, IsReservedOrPrivate ip = false := by
  cases answer with
  | error err => cases h
  | ok ips' =>
    rw [checkAnswer] at h
    split_ifs at h with hempty hprivate
    obtain rfl := Except.ok.inj h
    refine ⟨rfl, fun ip hip => ?_⟩
    by_contra hreserved
    exact hprivate (List.any_eq_true.mpr ⟨ip, hip, by simpa using hreserved⟩)

theorem uses_dialChecked {P : Op → Prop} {network : String} {host port : List Char}
    {ips : List (Option IP)}
    (h : ∀ ip ∈ ips, P (.dial network (JoinHostPort (ipString ip) port))) :
    Calls.Uses P (dialChecked ParseIP network host port ips).run := by
  apply uses_dials h
  intro r
  cases r with
  | ok u => exact trivial
  | error lastErr =>
    by_cases hliteral : (ParseIP host).isSome = true
    · simp only [if_pos hliteral]
      exact trivial
    · simp only [if_neg hliteral]
      exact trivial

/-- The dials after the check of an answer. -/
theorem uses_checked {P : Op → Prop} {network : String} {host port : List Char}
    {answer : Except String (List (Option IP))}
    (h : ∀ ips, checkAnswer host answer = .ok ips →
      ∀ ip ∈ ips, P (.dial network (JoinHostPort (ipString ip) port))) :
    Calls.Uses P (resultOf (checkAnswer host answer) >>=
      dialChecked ParseIP network host port).run := by
  cases hcheck : checkAnswer host answer with
  | error err => exact trivial
  | ok ips => exact uses_dialChecked (h ips hcheck)

/-- All that a guarded dial asks for. -/
theorem uses_guardDial {P : Op → Prop} {network : String} (hlookup : ∀ host, P (.lookup host))
    (hdial : ∀ ip port, IsReservedOrPrivate ip = false →
      P (.dial network (JoinHostPort (ipString ip) port))) (addr : List Char) :
    Calls.Uses P (guardDial ParseIP network addr).run := by
  obtain ⟨host, port, hguard⟩ : ∃ host port, guardDial ParseIP network addr =
      ResolvePublic ParseIP host >>= dialChecked ParseIP network host port := by
    rw [guardDial]
    split
    exact ⟨_, _, rfl⟩
  rw [hguard]
  cases hparse : ParseIP host with
  | some ip =>
    simp only [ResolvePublic, hparse]
    by_cases hprivate : IsReservedOrPrivate (some ip) = true
    · rw [if_pos hprivate]
      exact trivial
    · rw [if_neg hprivate]
      have hpublic : IsReservedOrPrivate (some ip) = false := by simpa using hprivate
      refine uses_dialChecked fun ip' hip => hdial ip' port ?_
      rw [List.mem_singleton.mp hip]
      exact hpublic
  | none =>
    have hname : ResolvePublic ParseIP host >>= dialChecked ParseIP network host port =
        attempt (perform (.lookup host)) >>= fun answer =>
          resultOf (checkAnswer host answer) >>= dialChecked ParseIP network host port := by
      simp only [ResolvePublic, hparse]
      rfl
    rw [hname]
    refine ⟨hlookup host, fun answer => uses_checked fun ips hips ip hip => ?_⟩
    exact hdial ip port ((checkAnswer_ok hips).2 ip hip)

theorem safeRun_guardDial (answer : ℕ → (op : Op) → Answer op) (network : String)
    (addr : List Char) : SafeRun answer (guardDial ParseIP network addr) := by
  obtain ⟨host, port, hguard⟩ : ∃ host port, guardDial ParseIP network addr =
      ResolvePublic ParseIP host >>= dialChecked ParseIP network host port := by
    rw [guardDial]
    split
    exact ⟨_, _, rfl⟩
  rw [hguard]
  cases hparse : ParseIP host with
  | some ip =>
    -- A literal: no lookup, and the one address is checked.
    simp only [ResolvePublic, hparse]
    by_cases hprivate : IsReservedOrPrivate (some ip) = true
    · rw [if_pos hprivate]
      exact safeRun_of_uses trivial trivial
    · rw [if_neg hprivate]
      have hpublic : IsReservedOrPrivate (some ip) = false := by simpa using hprivate
      apply safeRun_of_uses
      · refine uses_dialChecked fun ip' hip => ⟨ip', port, ?_, rfl⟩
        rw [List.mem_singleton.mp hip]
        exact hpublic
      · exact uses_dialChecked fun _ _ => trivial
  | none =>
    have hname : ResolvePublic ParseIP host >>= dialChecked ParseIP network host port =
        attempt (perform (.lookup host)) >>= fun answer =>
          resultOf (checkAnswer host answer) >>= dialChecked ParseIP network host port := by
      simp only [ResolvePublic, hparse]
      rfl
    rw [hname]
    apply safeRun_lookup
    · refine uses_checked fun ips hips ip hip => ⟨ip, port, ?_, rfl⟩
      exact (checkAnswer_ok hips).2 ip hip
    · exact uses_checked fun _ _ _ _ => trivial
    · intro ips hanswer hreserved
      refine uses_checked fun ips' hips ip hip => ?_
      -- The check lets no answer with a private address through.
      obtain ⟨heq, hpublic⟩ := checkAnswer_ok hips
      obtain ⟨ip', hip', hprivate⟩ := hreserved
      obtain rfl := Except.ok.inj (hanswer.symm.trans heq)
      exact absurd (hpublic ip' hip') (by simp [hprivate])

end

theorem SafeDialContext_eq {network : String} {addr host port : List Char}
    (h : SplitHostPort addr = .ok (host, port)) :
    SafeDialContext false network addr =
      attempt (perform (.lookup host)) >>= dialAnswer network addr host port := by
  simp only [SafeDialContext, h]
  rfl

theorem uses_dialAnswer {P : Op → Prop} {network : String} {addr host port : List Char}
    {answer : Except String (List (Option IP))}
    (hdial : ∀ ips, answer = .ok ips → (∀ ip ∈ ips, IsReservedOrPrivate ip = false) →
      ∀ ip ∈ ips, P (.dial network (JoinHostPort (ipString ip) port)))
    (hname : answer = .ok [] → P (.dial network addr)) :
    Calls.Uses P (dialAnswer network addr host port answer).run := by
  cases answer with
  | error err => exact trivial
  | ok ips =>
    cases hfind : ips.find? IsReservedOrPrivate with
    | some ip =>
      simp only [dialAnswer, hfind]
      exact trivial
    | none =>
      have hpublic (ip : Option IP) (hip : ip ∈ ips) : IsReservedOrPrivate ip = false := by
        simpa using List.find?_eq_none.mp hfind ip hip
      simp only [dialAnswer, hfind]
      apply uses_dials (hdial ips rfl hpublic)
      intro r
      cases r with
      | ok u => exact trivial
      | error lastErr =>
        by_cases hlength : ips.length > 0
        · simp only [if_pos hlength]
          exact trivial
        · -- No address came back: the name itself is dialed.
          simp only [if_neg hlength]
          have hempty : ips = [] := List.length_eq_zero_iff.mp (by omega)
          exact ⟨hname (by rw [hempty]), fun _ => trivial⟩

/-- `SafeDialContext` is safe unless the resolver gives it no address and no error. -/
theorem safeRun_SafeDialContext (answer : ℕ → (op : Op) → Answer op) (network : String)
    (addr : List Char) : SafeRun answer (SafeDialContext false network addr) ↔
      ∀ host port, SplitHostPort addr = .ok (host, port) →
        answer 0 (.lookup host) = .ok [] → Public addr := by
  cases hsplit : SplitHostPort addr with
  | error err =>
    have hfails : SafeDialContext false network addr =
        throw ("safenet: invalid address: " ++ err) := by
      simp only [SafeDialContext, hsplit]
      rfl
    rw [hfails]
    exact iff_of_true (safeRun_of_uses trivial trivial) nofun
  | ok split =>
    obtain ⟨host, port⟩ := split
    rw [SafeDialContext_eq hsplit]
    constructor
    · rintro ⟨hpublic, -⟩ host' port' heq hempty
      obtain ⟨rfl, rfl⟩ : host = host' ∧ port = port' := by simpa using heq
      have htrace : Calls.trace answer (attempt (perform (.lookup host)) >>=
          dialAnswer network addr host port).run = .lookup host ::
            Calls.trace (fun n => answer (n + 1))
              (dialAnswer network addr host port (answer 0 (.lookup host))).run := rfl
      rw [htrace, hempty] at hpublic
      exact hpublic (.dial network addr) (List.mem_cons_of_mem _ List.mem_cons_self)
    · intro hname
      apply safeRun_lookup
      · apply uses_dialAnswer
        · exact fun ips _ hpublic ip hip => ⟨ip, port, hpublic ip hip, rfl⟩
        · exact hname host port rfl
      · exact uses_dialAnswer (fun _ _ _ _ _ => trivial) fun _ => trivial
      · intro ips hanswer ⟨ip, hip, hprivate⟩
        apply uses_dialAnswer
        · intro ips' hips hpublic
          obtain rfl := Except.ok.inj (hanswer.symm.trans hips)
          exact absurd (hpublic ip hip) (by simp [hprivate])
        · intro hempty
          obtain rfl := Except.ok.inj (hanswer.symm.trans hempty)
          cases hip

/-- Both dials are safe exactly when the resolver does not leave `SafeDialContext` without an
address and without an error, or what it is given is a public address already. -/
theorem guarded_dials_safe_iff (ParseIP : List Char → Option IP)
    (answer : ℕ → (op : Op) → Answer op) (network : String) (addr : List Char) :
    SafeRun answer (guardDial ParseIP network addr) ∧
        SafeRun answer (SafeDialContext false network addr) ↔
      ∀ host port, SplitHostPort addr = .ok (host, port) →
        answer 0 (.lookup host) = .ok [] → Public addr := by
  rw [safeRun_SafeDialContext]
  exact and_iff_right (safeRun_guardDial answer network addr)

/-- The text of an address does not start as a name such as `router` does. -/
theorem not_public_router : ¬Public "router:80".toList := by
  rintro ⟨ip, port, -, heq⟩
  have hall : addressChars.all (· ≠ 'r') := by decide
  have hfirst : ∀ c ∈ addressChars, c ≠ 'r' := fun c hc =>
    of_decide_eq_true (List.all_eq_true.mp hall c hc)
  rw [JoinHostPort] at heq
  split_ifs at heq
  · cases heq
  · cases htext : ipString ip with
    | nil =>
      rw [htext] at heq
      cases heq
    | cons c cs =>
      rw [htext] at heq
      obtain ⟨hc, -⟩ := List.cons.inj heq
      have hmem : c ∈ addressChars := mem_ipString (htext ▸ List.mem_cons_self)
      exact hfirst c hmem hc.symm

/-- A network whose resolver answers with no address and no error. -/
def noAddress : (op : Op) → Answer op
  | .lookup _ => .ok []
  | .dial _ _ => .ok ()
  | .now | .nextProxyTurn => (0 : ℕ)
  | .ctxErr => false
  | .getChecked _ => none
  | .setChecked _ _ => ()

theorem SafeDialContext_dials_name :
    ¬SafeRun (fun _ => noAddress) (SafeDialContext false "tcp" "router:80".toList) := by
  rw [safeRun_SafeDialContext]
  intro h
  exact not_public_router (h "router".toList "80".toList (by decide) rfl)

end Swazz.GuardedDial
