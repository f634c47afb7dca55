import Swazz.SendRequest
import Swazz.StepSystem
import Mathlib.Logic.Function.Basic

/-! The renewal of an expired session by workers that share it: whether a request that was found
expired is stale, or the session itself. A call holds its lock from the comparison to its end. -/
namespace Swazz.Reauth

open Utf8 hiding runes
open EntryMap SendRequest StepSystem

/-- `config.GlobalHeaders` and `config.Cookies`. -/
structure Session where
  headers : Headers
  cookies : Headers
  headers_nodup : (keys headers).Nodup
  cookies_nodup : (keys cookies).Nodup

structure Config where
  AuthHeaders : List Text
  AuthCookies : List Text
  /-- Whether `AuthSequence` has steps. -/
  hasSequence : Bool
  /-- Whether `AuthProbeURL` is set. -/
  hasProbe : Bool
  settings : Settings

/-- `m[k]` -/
def read (m : Headers) (k : Text) : Text := (get? m k).getD []

/-- Neither auth headers nor auth cookies are named. -/
def Config.unnamed (cfg : Config) : Bool := cfg.AuthHeaders.isEmpty && cfg.AuthCookies.isEmpty

/-- `MaybeReauthenticate`: the session is no longer the one that the request was sent with. -/
def isFresh (cfg : Config) (s : Session) (reqHeaders reqCookies : Headers) : Bool :=
  cfg.AuthHeaders.any (fun h => read s.headers h ≠ read reqHeaders h) ||
    cfg.AuthCookies.any (fun c => read s.cookies c ≠ read reqCookies c) ||
    (cfg.unnamed && (s.headers.any (fun e => read reqHeaders e.1 ≠ e.2) ||
      s.cookies.any fun e => read reqCookies e.1 ≠ e.2))

/-- The headers of a request as `sendRequest` hands them to `MaybeReauthenticate`: merged in one
world, and sent with the CSRF token of another. -/
def sentHeaders (cfg : Config) (s : Session) (merging sending : World) (random : Text) (c : Call) :
    Headers :=
  withCookies s.cookies (csrfHeaders sending c
    (addContentType c (addUserAgent cfg.settings random (mergeHeaders merging c s.headers))))

/-- A request that was sent; `builtAt` counts the renewals before it was built. -/
structure Sent where
  headers : Headers
  cookies : Headers
  builtAt : ℕ

inductive Answer where
  | refreshed (s : Session)
  | notRefreshed
  | failed

/-- A call that returned: how many renewals there were before its request was built, when it
decided and when it returned, and whether it ran the auth sequence. -/
structure CallMade where
  builtAt : ℕ
  before : ℕ
  after : ℕ
  ran : Bool
  answer : Answer

/-- The call that holds the lock and runs the auth sequence. -/
structure Holder where
  builtAt : ℕ
  before : ℕ

structure State (W : Type) where
  session : Session
  /-- What the auth sequences obtained, in order. -/
  renewed : List Session
  sent : W → Option Sent
  holder : Option Holder
  calls : List CallMade

def start (W : Type) (s : Session) : State W := ⟨s, [], fun _ => none, none, []⟩

inductive Action (W : Type) where
  /-- A worker sends a request that it builds from the session. -/
  | send (w : W) (merging sending : World) (random : Text) (c : Call)
  /-- Its request was not found expired. -/
  | settle (w : W)
  /-- `MaybeReauthenticate`; `alive` is what the probe says. -/
  | call (w : W) (alive : Bool)
  /-- The auth sequence ends, with a session or with an error. -/
  | finish (outcome : Option Session)

section Step

variable {W : Type} [DecidableEq W]

def step (cfg : Config) (st : State W) : Action W → Option (State W)
  | .send w merging sending random c =>
    match st.sent w with
    | some _ => none
    | none => some { st with
        sent := Function.update st.sent w (some
          ⟨sentHeaders cfg st.session merging sending random c, st.session.cookies,
            st.renewed.length⟩) }
  | .settle w => some { st with sent := Function.update st.sent w none }
  | .call w alive =>
    match st.holder, st.sent w with
    | none, some r =>
      let st' := { st with sent := Function.update st.sent w none }
      let now := st.renewed.length
      if isFresh cfg st.session r.headers r.cookies then
        some { st' with calls := st.calls ++ [⟨r.builtAt, now, now, false, .refreshed st.session⟩] }
      else if cfg.hasProbe && alive then
        some { st' with calls := st.calls ++ [⟨r.builtAt, now, now, false, .notRefreshed⟩] }
      else some { st' with holder := some ⟨r.builtAt, now⟩ }
    | _, _ => none
  | .finish outcome =>
    match st.holder with
    | none => none
    | some h =>
      let now := st.renewed.length
      if !cfg.hasSequence then
        -- `RunAuthSequence` has nothing to do, and that is no error
        some { st with
          holder := none
          calls := st.calls ++ [⟨h.builtAt, h.before, now, true, .refreshed st.session⟩] }
      else
        match outcome with
        | none => some { st with
            holder := none
            calls := st.calls ++ [⟨h.builtAt, h.before, now, true, .failed⟩] }
        | some s => some { st with
            session := s
            renewed := st.renewed ++ [s]
            holder := none
            calls := st.calls ++ [⟨h.builtAt, h.before, now + 1, true, .refreshed s⟩] }

end Step

/-- What is claimed of a call: it runs the auth sequence exactly if there was no renewal since its
request was built, otherwise it has a session to return, and a session that it returns is the last
of the renewals and later than its request. -/
def CallMade.Right (renewed : List Session) (c : CallMade) : Prop :=
  (c.ran = true ↔ c.builtAt = c.before) ∧
    (c.ran = false → ∃ s, c.answer = .refreshed s) ∧
    ∀ s, c.answer = .refreshed s → c.builtAt < c.after ∧ renewed[c.after - 1]? = some s

/-! ### When the comparison tells -/

/-- The configured headers that are compared, with their values. -/
def comparedHeaders (cfg : Config) (s : Session) : List (Text × Text) :=
  if cfg.unnamed then s.headers else cfg.AuthHeaders.map fun h => (h, read s.headers h)

def comparedCookies (cfg : Config) (s : Session) : List (Text × Text) :=
  if cfg.unnamed then s.cookies else cfg.AuthCookies.map fun c => (c, read s.cookies c)

/-- Headers and cookies carry what is compared, as it is configured. -/
def Carries (cfg : Config) (s : Session) (headers cookies : Headers) : Prop :=
  (∀ e ∈ comparedHeaders cfg s, read headers e.1 = e.2) ∧
    ∀ e ∈ comparedCookies cfg s, read cookies e.1 = e.2

variable {cfg : Config} {s : Session} {headers cookies : Headers}

theorem isFresh_iff : isFresh cfg s headers cookies = true ↔ ¬Carries cfg s headers cookies := by
  rw [isFresh, Carries, comparedHeaders, comparedCookies]
  by_cases hnames : cfg.unnamed = true
  · have hempty := hnames
    rw [Config.unnamed, Bool.and_eq_true, List.isEmpty_iff, List.isEmpty_iff] at hempty
    rw [hnames, hempty.1, hempty.2]
    simp only [List.any_nil, Bool.false_or, Bool.true_and, Bool.or_eq_true, List.any_eq_true,
      decide_eq_true_eq, if_true, not_and_or, not_forall]
    simp only [exists_prop, ne_eq]
  · rw [Bool.not_eq_true] at hnames
    rw [hnames]
    simp only [Bool.false_and, Bool.or_false, Bool.or_eq_true, List.any_eq_true, decide_eq_true_eq,
      Bool.false_eq_true, if_false, List.forall_mem_map, not_and_or, not_forall, exists_prop, ne_eq]
    simp only [eq_comm]

/-- The cookies of a request are those of the session. -/
theorem read_comparedCookies : ∀ e ∈ comparedCookies cfg s, read s.cookies e.1 = e.2 := by
  intro e he
  rw [comparedCookies] at he
  split at he
  · rw [read, get?_of_mem s.cookies_nodup he]
    rfl
  · obtain ⟨c, -, rfl⟩ := List.mem_map.mp he
    rfl

section Carried

variable {merging sending : World} {random : Text} {c : Call} {k v : Text}

/-- What is sent for a configured text. -/
def substituted (w : World) (v : Text) : Text := w.subStateVars (w.subVarsLocked v)

theorem get?_mergeHeaders (hk : (k, v) ∈ s.headers) :
    get? (mergeHeaders merging c s.headers) k = some (substituted merging v) := by
  have hkeys : keys (s.headers.map fun e => (e.1, substituted merging e.2)) = keys s.headers := by
    rw [keys, List.map_map]
    rfl
  have hmem : (k, substituted merging v) ∈
      s.headers.map fun e => (e.1, substituted merging e.2) := List.mem_map.mpr ⟨(k, v), hk, rfl⟩
  have hnodup := s.headers_nodup
  rw [← hkeys] at hnodup
  exact (get?_setAll hnodup (List.mem_map.mpr ⟨_, hmem, rfl⟩)).trans (get?_of_mem hnodup hmem)

/-- A header that is set where there was none of its name leaves the others. -/
theorem get?_set_unless {m : Headers} {name lower value : Text} (hk : get? m k = some v)
    (hnone : hasHeader m lower = false) (hname : equalFold name lower = true) :
    get? (set m name value) k = some v := by
  rw [get?_set_ne, hk]
  rintro rfl
  have hmem : name ∈ keys m := by
    by_contra hn
    rw [get?_eq_none.mpr hn] at hk
    cases hk
  rw [hasHeader_of_mem hmem hname] at hnone
  cases hnone

theorem isCSRFName_token : isCSRFName (ascii "X-CSRF-Token") = true := by
  have hlower : (GoStrings.runes (ascii "X-CSRF-Token")).map GoStrings.lowerRune =
      [120, 45, 99, 115, 114, 102, 45, 116, 111, 107, 101, 110] := by decide
  rw [isCSRFName, hlower]
  decide

theorem get?_csrfHeaders {m : Headers} (hk : get? m k = some v)
    (hcsrf : sending.injects c = true → isCSRFName k = false) :
    get? (csrfHeaders sending c m) k = some v := by
  rw [csrfHeaders]
  split_ifs with hinjects
  · rw [injectHeaders]
    split_ifs
    · rw [get?_replaceAt isCSRFName (hcsrf hinjects), hk]
    · rw [get?_set_ne, hk]
      rintro rfl
      have hname := hcsrf hinjects
      rw [isCSRFName_token] at hname
      cases hname
  · exact hk

/-- A configured header is carried with its variables replaced, unless the CSRF token or the cookies
stand in its place. -/
theorem read_sentHeaders (hk : (k, v) ∈ s.headers)
    (hcsrf : sending.injects c = true → isCSRFName k = false)
    (hcookie : s.cookies = [] ∨ ascii "Cookie" ≠ k) :
    read (sentHeaders cfg s merging sending random c) k = substituted merging v := by
  have hmerged : get? (mergeHeaders merging c s.headers) k = some (substituted merging v) :=
    get?_mergeHeaders hk
  have hagent : get? (addUserAgent cfg.settings random (mergeHeaders merging c s.headers)) k =
      some (substituted merging v) := by
    rw [addUserAgent]
    split_ifs with hnone
    · exact hmerged
    all_goals exact get?_set_unless hmerged (eq_false_of_ne_true hnone) (by decide)
  have htype : get? (addContentType c
      (addUserAgent cfg.settings random (mergeHeaders merging c s.headers))) k =
        some (substituted merging v) := by
    rw [addContentType]
    split_ifs with hnone
    · rw [Bool.and_eq_true, Bool.not_eq_true'] at hnone
      exact get?_set_unless hagent hnone.2 (by decide)
    · exact hagent
  have hinjected := get?_csrfHeaders htype hcsrf
  rw [read, sentHeaders, withCookies]
  split_ifs with hcookies
  · rw [hinjected]
    rfl
  · rw [get?_set_ne (hcookie.resolve_left hcookies), hinjected]
    rfl

end Carried

/-! ### Every run -/

section Runs

variable {W : Type} [DecidableEq W] {st st' : State W}

/-- A request carries what is compared as it is configured, there is an auth sequence to run, and
what a renewal obtains differs, where it is compared, from every request that is still out. -/
def Admits (cfg : Config) (st : State W) : Action W → Prop
  | .send _ merging sending random c => ∀ e ∈ comparedHeaders cfg st.session,
      read (sentHeaders cfg st.session merging sending random c) e.1 = e.2
  | .call _ _ => cfg.hasSequence = true
  | .finish (some s) => ∀ w r, st.sent w = some r → ¬Carries cfg s r.headers r.cookies
  | .settle _ | .finish none => True

structure Inv (cfg : Config) (st : State W) : Prop where
  older : ∀ w r, st.sent w = some r → r.builtAt ≤ st.renewed.length
  carries : ∀ w r, st.sent w = some r →
    (Carries cfg st.session r.headers r.cookies ↔ r.builtAt = st.renewed.length)
  last : st.renewed ≠ [] → st.renewed[st.renewed.length - 1]? = some st.session
  holder : ∀ h, st.holder = some h →
    h.builtAt = h.before ∧ h.before = st.renewed.length ∧ cfg.hasSequence = true
  right : ∀ c ∈ st.calls, c.Right st.renewed

omit [DecidableEq W] in
theorem inv_start (cfg : Config) (s : Session) : Inv cfg (start W s) where
  older w r h := by cases h
  carries w r h := by cases h
  last h := absurd rfl h
  holder h hh := by cases hh
  right c hc := by cases hc

/-- What is right stays right when there is another renewal. -/
theorem CallMade.Right.snoc {c : CallMade} {renewed : List Session} (h : c.Right renewed)
    (s : Session) : c.Right (renewed ++ [s]) := by
  obtain ⟨hran, hanswer, hrefreshed⟩ := h
  refine ⟨hran, hanswer, fun t ht => ?_⟩
  obtain ⟨hlt, hlast⟩ := hrefreshed t ht
  exact ⟨hlt, List.getElem?_append_left (List.getElem?_eq_some_iff.mp hlast).1 ▸ hlast⟩

theorem Inv.send (h : Inv cfg st) {w : W} {merging sending : World} {random : Text} {c : Call}
    (hG : Admits cfg st (.send w merging sending random c))
    (hstep : step cfg st (.send w merging sending random c) = some st') : Inv cfg st' := by
  rw [step] at hstep
  split at hstep
  · cases hstep
  · cases hstep
    have hcases : ∀ w' r, Function.update st.sent w (some
        ⟨sentHeaders cfg st.session merging sending random c, st.session.cookies,
          st.renewed.length⟩) w' = some r → st.sent w' = some r ∨
          r = ⟨sentHeaders cfg st.session merging sending random c, st.session.cookies,
            st.renewed.length⟩ := by
      intro w' r hr
      by_cases hw : w' = w
      · rw [hw, Function.update_self] at hr
        exact Or.inr (Option.some.inj hr).symm
      · rw [Function.update_of_ne hw] at hr
        exact Or.inl hr
    refine ⟨?_, ?_, h.last, h.holder, h.right⟩
    · intro w' r hr
      rcases hcases w' r hr with hr | rfl
      · exact h.older w' r hr
      · exact le_rfl
    · intro w' r hr
      rcases hcases w' r hr with hr | rfl
      · exact h.carries w' r hr
      · exact iff_of_true ⟨hG, read_comparedCookies⟩ rfl

/-- Without one of its requests a state keeps the invariant. -/
theorem Inv.settle (h : Inv cfg st) (w : W) :
    Inv cfg { st with sent := Function.update st.sent w none } := by
  have hsent : ∀ w' r, Function.update st.sent w none w' = some r → st.sent w' = some r := by
    intro w' r hr
    by_cases hw : w' = w
    · rw [hw, Function.update_self] at hr
      cases hr
    · rwa [Function.update_of_ne hw] at hr
  exact ⟨fun w' r hr => h.older w' r (hsent w' r hr), fun w' r hr => h.carries w' r (hsent w' r hr),
    h.last, h.holder, h.right⟩

omit [DecidableEq W] in
/-- A call that is right may be added. -/
theorem Inv.made (h : Inv cfg st) {c : CallMade} (hc : c.Right st.renewed) :
    Inv cfg { st with calls := st.calls ++ [c] } := by
  refine ⟨h.older, h.carries, h.last, h.holder, fun c' hc' => ?_⟩
  rcases List.mem_append.mp hc' with hc' | hc'
  · exact h.right c' hc'
  · rw [List.mem_singleton.mp hc']
    exact hc

theorem Inv.call (h : Inv cfg st) (hprobe : cfg.hasProbe = false) {w : W} {alive : Bool}
    (hG : Admits cfg st (.call w alive)) (hstep : step cfg st (.call w alive) = some st') :
    Inv cfg st' := by
  rw [step] at hstep
  split at hstep
  case h_2 => cases hstep
  case h_1 r hholder hr =>
    have hcarries := h.carries w r hr
    rw [hprobe] at hstep
    by_cases hfresh : isFresh cfg st.session r.headers r.cookies = true
    · -- the session is not the one of the request, so there was a renewal since
      rw [if_pos hfresh] at hstep
      cases hstep
      have hne : r.builtAt ≠ st.renewed.length := fun heq => isFresh_iff.mp hfresh (hcarries.mpr heq)
      have hlt : r.builtAt < st.renewed.length := lt_of_le_of_ne (h.older w r hr) hne
      refine (h.settle w).made ⟨?_, fun _ => ⟨_, rfl⟩, ?_⟩
      · exact iff_of_false Bool.false_ne_true hne
      · intro s hs
        cases hs
        exact ⟨hlt, h.last (List.ne_nil_of_length_pos (by omega))⟩
    · rw [if_neg hfresh, Bool.false_and, if_neg (by decide)] at hstep
      cases hstep
      have heq := hcarries.mp (not_not.mp fun hn => hfresh (isFresh_iff.mpr hn))
      have hsettled := h.settle w
      refine ⟨hsettled.older, hsettled.carries, hsettled.last, fun holder hh => ?_, hsettled.right⟩
      cases hh
      exact ⟨heq, rfl, hG⟩

theorem Inv.finish (h : Inv cfg st) {outcome : Option Session}
    (hG : Admits cfg st (.finish outcome)) (hstep : step cfg st (.finish outcome) = some st') :
    Inv cfg st' := by
  rw [step] at hstep
  split at hstep
  case h_1 => cases hstep
  case h_2 holder hholder =>
    obtain ⟨hbuilt, hbefore, hsequence⟩ := h.holder holder hholder
    rw [hsequence] at hstep
    cases outcome with
    | none =>
      cases hstep
      have hmade := h.made (c := ⟨holder.builtAt, holder.before, st.renewed.length, true, .failed⟩)
        ⟨iff_of_true rfl hbuilt, fun hran => (by cases hran), fun s hs => (by cases hs)⟩
      exact ⟨hmade.older, hmade.carries, hmade.last, fun _ hh => (by cases hh), hmade.right⟩
    | some s =>
      cases hstep
      refine ⟨?_, ?_, ?_, fun _ hh => (by cases hh), ?_⟩
      · intro w r hr
        have := h.older w r hr
        rw [List.length_append, List.length_singleton]
        omega
      · intro w r hr
        have := h.older w r hr
        rw [List.length_append, List.length_singleton]
        exact iff_of_false (hG w r hr) (by omega)
      · intro _
        simp
      · intro c hc
        rcases List.mem_append.mp hc with hc | hc
        · exact (h.right c hc).snoc s
        · rw [List.mem_singleton.mp hc]
          refine ⟨iff_of_true rfl hbuilt, fun hran => (by cases hran), fun t ht => ?_⟩
          cases ht
          refine ⟨?_, by simp⟩
          change holder.builtAt < st.renewed.length + 1
          omega

theorem Inv.step (h : Inv cfg st) (hprobe : cfg.hasProbe = false) {a : Action W}
    (hG : Admits cfg st a) (hstep : Reauth.step cfg st a = some st') : Inv cfg st' := by
  cases a with
  | send w merging sending random c => exact h.send hG hstep
  | settle w =>
    cases hstep
    exact h.settle w
  | call w alive => exact h.call hprobe hG hstep
  | finish outcome => exact h.finish hG hstep

/-- While the comparison tells an old request from a new one, an expired session is renewed once. -/
theorem session_renewed_once (hprobe : cfg.hasProbe = false)
    (h : ReachesUnder (Reauth.step cfg) (Admits cfg) (start W s) st) :
    ∀ c ∈ st.calls, c.Right st.renewed := by
  have hinv := h.invariant (I := Inv cfg) (inv_start cfg s) fun t a u hi hG hstep =>
    hi.step hprobe hG hstep
  exact hinv.right

/-- Two workers with one cookie: the first renews it, the second is given what the first obtained. -/
theorem session_renewed_once_cookie :
    let session (sid : String) : Session :=
      ⟨[], [(ascii "sid", ascii sid)], by decide, List.nodup_singleton _⟩
    let cfg : Config := ⟨[], [ascii "sid"], true, false, ⟨false⟩⟩
    ∃ st, ReachesUnder (Reauth.step cfg) (Admits cfg) (start Bool (session "1")) st ∧
      st.calls = [⟨0, 0, 1, true, .refreshed (session "2")⟩,
        ⟨0, 1, 1, false, .refreshed (session "2")⟩] ∧
      ∀ c ∈ st.calls, c.Right st.renewed := by
  intro session cfg
  let w : World := ⟨[], [], []⟩
  let c : Call := ⟨ascii "http://h", ascii "/", ascii "GET", .null, [], [], []⟩
  let sent (n : ℕ) : Sent :=
    ⟨sentHeaders cfg (session "1") w w [] c, [(ascii "sid", ascii "1")], n⟩
  let both : Bool → Option Sent := Function.update (Function.update (fun _ => none) true (some (sent 0)))
    false (some (sent 0))
  have hsend (b : Bool) (st : State Bool) : Admits cfg st (.send b w w [] c) := by
    rintro e he
    cases he
  have hcall (b : Bool) (st : State Bool) : Admits cfg st (.call b true) :=
    show cfg.hasSequence = true from rfl
  have hbuilt : ReachesUnder (Reauth.step cfg) (Admits cfg) (start Bool (session "1"))
      ⟨session "1", [], both, none, []⟩ :=
    (ReachesUnder.tail Relation.ReflTransGen.refl (hsend true _) rfl).tail (hsend false _) rfl
  have hheld : ReachesUnder (Reauth.step cfg) (Admits cfg) (start Bool (session "1"))
      ⟨session "1", [], Function.update both true none, some ⟨0, 0⟩, []⟩ :=
    hbuilt.tail (hcall true _) rfl
  have hdiffers : ¬Carries cfg (session "2") (sent 0).headers (sent 0).cookies := by
    rintro ⟨-, hcookies⟩
    exact absurd (hcookies (ascii "sid", ascii "2") (List.mem_singleton.mpr rfl)) (by decide)
  have hrenewed : ReachesUnder (Reauth.step cfg) (Admits cfg) (start Bool (session "1"))
      ⟨session "2", [session "2"], Function.update both true none, none,
        [⟨0, 0, 1, true, .refreshed (session "2")⟩]⟩ := by
    refine hheld.tail (a := .finish (some (session "2"))) ?_ rfl
    rintro (_ | _) r hr
    · cases hr
      exact hdiffers
    · cases hr
  have hboth := hrenewed.tail (hcall false _) rfl
  exact ⟨_, hboth, rfl, session_renewed_once rfl hboth⟩

/-- A request that does not carry what is compared is told of a renewal that there was not. -/
theorem fresh_without_renewal (merging sending : World) (random : Text) (c : Call)
    (h : ∃ e ∈ comparedHeaders cfg s, read (sentHeaders cfg s merging sending random c) e.1 ≠ e.2)
    (w : W) : ∃ st, Reaches (Reauth.step cfg) (start W s) st ∧
      st.calls = [⟨0, 0, 0, false, .refreshed s⟩] := by
  have hfresh : isFresh cfg s (sentHeaders cfg s merging sending random c) s.cookies = true := by
    rw [isFresh_iff]
    rintro ⟨hheaders, -⟩
    obtain ⟨e, he, hne⟩ := h
    exact hne (hheaders e he)
  have hsend : Reaches (Reauth.step cfg) (start W s) _ :=
    ReachesUnder.tail Relation.ReflTransGen.refl (a := .send w merging sending random c) trivial rfl
  have hcall : Reauth.step cfg { start W s with
      sent := Function.update (start W s).sent w (some
        ⟨sentHeaders cfg s merging sending random c, s.cookies, 0⟩) } (.call w true) =
      some { start W s with
        sent := Function.update (Function.update (start W s).sent w (some
          ⟨sentHeaders cfg s merging sending random c, s.cookies, 0⟩)) w none
        calls := [⟨0, 0, 0, false, .refreshed s⟩] } := by
    simp only [Reauth.step, start, Function.update_self]
    exact if_pos hfresh
  exact ⟨_, hsend.tail trivial hcall, rfl⟩

end Runs

/-- A configured header that refers to a variable. -/
theorem template_is_always_fresh :
    let session : Session := ⟨[(ascii "A", ascii "B \x7b\x7bt\x7d\x7d")], [], by decide, by decide⟩
    let cfg : Config := ⟨[ascii "A"], [], true, false, ⟨false⟩⟩
    ¬∀ st, Reaches (Reauth.step cfg) (start Unit session) st →
      ∀ c ∈ st.calls, c.Right st.renewed := by
  intro session cfg hall
  let w : World := ⟨[(ascii "t", ascii "x")], [], []⟩
  let c : Call := ⟨ascii "http://h", ascii "/", ascii "GET", .null, [], [], []⟩
  have hread : read (sentHeaders cfg session w w [] c) (ascii "A") =
      substituted w (ascii "B \x7b\x7bt\x7d\x7d") :=
    read_sentHeaders List.mem_cons_self (fun h => (by cases h)) (Or.inl rfl)
  have hreplaced : w.subVarsLocked (ascii "B \x7b\x7bt\x7d\x7d") = ascii "B x" := rfl
  have hvalue : substituted w (ascii "B \x7b\x7bt\x7d\x7d") ≠ ascii "B \x7b\x7bt\x7d\x7d" := by
    rw [substituted, hreplaced, World.subStateVars, if_neg (by decide)]
    decide
  have hmem : (ascii "A", ascii "B \x7b\x7bt\x7d\x7d") ∈ comparedHeaders cfg session :=
    List.mem_singleton.mpr rfl
  obtain ⟨st, hreach, hcalls⟩ :=
    fresh_without_renewal w w [] c ⟨_, hmem, fun heq => hvalue (hread.symm.trans heq)⟩ ()
  have hright := hall st hreach _ (hcalls ▸ List.mem_cons_self)
  exact absurd (hright.1.mpr rfl) (by decide)

end Swazz.Reauth
