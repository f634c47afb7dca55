import Swazz.InfiniteRun
import Swazz.McpCalls

/-! Each call over a client gets its own answer, none is lost in the map of pending calls, and
each returns once it is woken, unless its request never ends. -/
namespace Swazz.Mcp

open FloatText
open StepSystem (Reaches InfiniteRun)

def rank : Pc → ℕ
  | .entered => 6
  | .registered => 5
  | .checking => 4
  | .sending => 3
  | .waiting => 2
  | .failing _ => 1
  | .returned _ => 0

/-- How far a call is from its return; a response on its way to the channel counts too. -/
def distance (c : Call) : ℕ :=
  2 * rank c.pc + if c.chan.buffer = none ∧ c.chan.closed = false then 1 else 0

/-- A call after a step of anyone. -/
structure CallLater (c d : Call) : Prop where
  distance_le : distance d ≤ distance c
  ctxDone : c.ctxDone = true → d.ctxDone = true
  pc : distance d = distance c → d.pc = c.pc

/-- A client after a step. -/
structure Later (s t : Client) : Prop where
  nextID_le : s.nextID ≤ t.nextID
  streamEnded : s.streamEnded = true → t.streamEnded = true
  processDone : s.processDone = true → t.processDone = true
  swept : s.closing = .swept → s.isClosed = true → t.closing = .swept ∧ t.isClosed = true
  calls : ∀ (i : ℕ) (c : Call), s.calls[i]? = some c →
    ∃ d : Call, t.calls[i]? = some d ∧ CallLater c d

variable {transport : Transport} {s t u : Client} {i j n : ℕ} {c d e : Call}

theorem CallLater.refl (c : Call) : CallLater c c := ⟨le_rfl, id, fun _ => rfl⟩

theorem CallLater.trans (h : CallLater c d) (h' : CallLater d e) : CallLater c e := by
  refine ⟨h'.distance_le.trans h.distance_le, fun hc => h'.ctxDone (h.ctxDone hc), fun heq => ?_⟩
  have hle := h.distance_le
  have hle' := h'.distance_le
  exact (h'.pc (by omega)).trans (h.pc (by omega))

theorem callLater_of_lt (h : distance d < distance c) (hctx : c.ctxDone = true → d.ctxDone = true) :
    CallLater c d :=
  ⟨h.le, hctx, fun heq => absurd heq h.ne⟩

theorem Later.trans (h : Later s t) (h' : Later t u) : Later s u := by
  refine ⟨h.nextID_le.trans h'.nextID_le, fun hs => h'.streamEnded (h.streamEnded hs),
    fun hs => h'.processDone (h.processDone hs), ?_, ?_⟩
  · intro hswept hclosed
    obtain ⟨hswept, hclosed⟩ := h.swept hswept hclosed
    exact h'.swept hswept hclosed
  · intro i c hc
    obtain ⟨d, hd, hcd⟩ := h.calls i c hc
    obtain ⟨e, he, hde⟩ := h'.calls i d hd
    exact ⟨e, he, hcd.trans hde⟩

/-- A step that leaves the calls as they are. -/
theorem later_of_calls (hcalls : t.calls = s.calls) (hid : s.nextID ≤ t.nextID)
    (hstream : s.streamEnded = true → t.streamEnded = true)
    (hdone : s.processDone = true → t.processDone = true)
    (hswept : s.closing = .swept → s.isClosed = true → t.closing = .swept ∧ t.isClosed = true) :
    Later s t :=
  ⟨hid, hstream, hdone, hswept, fun _ c hc => ⟨c, hcalls.symm ▸ hc, CallLater.refl c⟩⟩

theorem later_setCall (hi : s.calls[i]? = some c) (h : CallLater c d) :
    Later s (s.setCall i d) := by
  refine ⟨le_rfl, id, id, fun hswept hclosed => ⟨hswept, hclosed⟩, ?_⟩
  intro j e he
  by_cases hj : j = i
  · subst hj
    have hec : e = c := Option.some.inj (he.symm.trans hi)
    exact ⟨d, List.getElem?_set_self (lt_of_getElem? hi), hec ▸ h⟩
  · exact ⟨e, (List.getElem?_set_ne (Ne.symm hj)).trans he, CallLater.refl e⟩

theorem later_closeChan : Later s (s.closeChan i) := by
  unfold Client.closeChan
  split
  case h_1 => exact later_of_calls rfl le_rfl id id fun hs hc => ⟨hs, hc⟩
  case h_2 c hc =>
    split
    case isTrue => exact later_of_calls rfl le_rfl id id fun hs hc => ⟨hs, hc⟩
    case isFalse => exact later_setCall hc ⟨by simp [distance], id, fun _ => rfl⟩

theorem later_sweep : Later s s.sweep := by
  have hfold (entries : List (String × ℕ)) (s : Client) :
      Later s (entries.foldl (fun s entry => s.closeChan entry.2) s) := by
    induction entries generalizing s with
    | nil => exact later_of_calls rfl le_rfl id id fun hs hc => ⟨hs, hc⟩
    | cons entry entries ih => exact later_closeChan.trans (ih _)
  exact (hfold s.pending s).trans
    (later_of_calls rfl le_rfl id id fun hs hc => ⟨hs, hc⟩)

/-- A call comes nearer to its return; the ends of the client stay as they are. -/
structure Nearer (s t : Client) (i : ℕ) (c : Call) : Prop where
  call : ∃ d, t.calls = s.calls.set i d ∧ distance d < distance c ∧
    (c.ctxDone = true → d.ctxDone = true)
  nextID_le : s.nextID ≤ t.nextID
  streamEnded : t.streamEnded = s.streamEnded
  processDone : t.processDone = s.processDone
  closing : t.closing = s.closing
  isClosed : t.isClosed = s.isClosed

theorem Nearer.later (h : Nearer s t i c) (hi : s.calls[i]? = some c) : Later s t := by
  obtain ⟨d, hcalls, hlt, hctx⟩ := h.call
  refine (later_setCall hi (callLater_of_lt hlt hctx)).trans
    (later_of_calls hcalls h.nextID_le ?_ ?_ ?_)
  · exact fun hs => h.streamEnded.trans hs
  · exact fun hs => h.processDone.trans hs
  · exact fun hs hc => ⟨h.closing.trans hs, h.isClosed.trans hc⟩

/-- A call moves on, and nothing else changes. -/
theorem nearer_setCall (h : distance d < distance c) (hctx : d.ctxDone = c.ctxDone) :
    Nearer s (s.setCall i d) i c :=
  ⟨⟨d, rfl, h, fun hc => hctx.trans hc⟩, le_rfl, rfl, rfl, rfl, rfl⟩

theorem distance_withPc (c : Call) {pc : Pc} (h : rank pc < rank c.pc) :
    distance { c with pc := pc } < distance c := by
  simp only [distance]
  omega

theorem nearer_register (hc : c.pc = .entered) : Nearer s (s.register transport i c) i c := by
  have hbound : 12 ≤ distance c := by simp [distance, hc, rank]
  unfold Client.register
  split
  case isTrue => exact nearer_setCall (distance_withPc c (by rw [hc]; simp [rank])) rfl
  case isFalse =>
    split
    case isTrue => exact nearer_setCall (distance_withPc c (by rw [hc]; simp [rank])) rfl
    case isFalse =>
      refine ⟨⟨_, rfl, lt_of_lt_of_le ?_ hbound, id⟩, Nat.le_succ _, rfl, rfl, rfl, rfl⟩
      simp [distance, rank]

theorem nearer_receive (hc : c.pc = .waiting) (h : s.receive transport i c = some t) :
    Nearer s t i c := by
  have hbound : 4 ≤ distance c := by simp [distance, hc, rank]
  unfold Client.receive at h
  split at h
  case h_1 =>
    injection h with h
    subst h
    refine nearer_setCall (lt_of_lt_of_le ?_ hbound) rfl
    simp only [distance, rank]
    split <;> decide
  case h_2 =>
    injection h with h
    subst h
    exact nearer_setCall (distance_withPc c (by rw [hc]; simp [rank])) rfl
  case h_3 => cases h

theorem nearer_advance {marshals : Bool} (h : advance transport s i marshals c = some t) :
    Nearer s t i c := by
  cases hc : c.pc with
  | entered =>
    simp only [advance, hc, Option.some.injEq] at h
    subst h
    exact nearer_register hc
  | registered =>
    have hgo (pc : Pc) (hlt : rank pc < 5) : Nearer s (s.setCall i { c with pc := pc }) i c :=
      nearer_setCall (distance_withPc c (by rw [hc]; exact hlt)) rfl
    cases marshals <;> cases transport <;>
      simp only [advance, hc, Bool.false_eq_true, if_false, if_true, Option.some.injEq] at h <;>
      subst h <;> exact hgo _ (by simp [rank])
  | checking =>
    have hgo (pc : Pc) (hlt : rank pc < 4) : Nearer s (s.setCall i { c with pc := pc }) i c :=
      nearer_setCall (distance_withPc c (by rw [hc]; exact hlt)) rfl
    simp only [advance, hc] at h
    split at h <;> injection h with h <;> subst h <;> exact hgo _ (by simp [rank])
  | sending => simp [advance, hc] at h
  | waiting =>
    simp only [advance, hc] at h
    exact nearer_receive hc h
  | failing message =>
    simp only [advance, hc, Option.some.injEq] at h
    subst h
    exact ⟨⟨_, rfl, distance_withPc c (by rw [hc]; simp [rank]), id⟩, le_rfl, rfl, rfl, rfl, rfl⟩
  | returned result => simp [advance, hc] at h

theorem nearer_expire (h : expire s i c = some t) : Nearer s t i c := by
  cases hc : c.pc <;> simp only [expire, hc, reduceCtorEq] at h
  obtain ⟨-, h⟩ := Option.ite_none_right_eq_some.mp h
  injection h with h
  exact h ▸ nearer_setCall (distance_withPc c (by rw [hc]; simp [rank])) rfl

theorem nearer_exited (h : exited transport s i c = some t) : Nearer s t i c := by
  cases hc : c.pc <;> cases transport <;> simp only [exited, hc, reduceCtorEq] at h
  obtain ⟨-, h⟩ := Option.ite_none_right_eq_some.mp h
  injection h with h
  exact h ▸ nearer_setCall (distance_withPc c (by rw [hc]; simp [rank])) rfl

theorem nearer_abort (h : abort transport s i c = some t) : Nearer s t i c := by
  cases hc : c.pc <;> cases transport <;> simp only [abort, hc, reduceCtorEq] at h
  obtain ⟨-, h⟩ := Option.ite_none_right_eq_some.mp h
  injection h with h
  exact h ▸ nearer_setCall (distance_withPc c (by rw [hc]; simp [rank])) rfl

theorem nearer_sent {ok : Bool} (h : sent transport s i ok c = some t) : Nearer s t i c := by
  cases hc : c.pc <;> simp only [sent, hc, reduceCtorEq] at h
  have hgo (pc : Pc) (hlt : rank pc < 3) : Nearer s (s.setCall i { c with pc := pc }) i c :=
    nearer_setCall (distance_withPc c (by rw [hc]; exact hlt)) rfl
  cases ok with
  | false =>
    simp only [Bool.false_eq_true, if_false, Option.some.injEq] at h
    exact h ▸ hgo _ (by simp [rank])
  | true =>
    simp only [if_true] at h
    obtain ⟨-, h⟩ := Option.ite_none_left_eq_some.mp h
    injection h with h
    exact h ▸ hgo _ (by simp [rank])

theorem call_of_withCall {f : Call → Option Client} (h : withCall s i f = some t) :
    ∃ c, s.calls[i]? = some c ∧ f c = some t := by
  unfold withCall at h
  split at h
  case h_1 => cases h
  case h_2 c hc => exact ⟨c, hc, h⟩

theorem withCall_eq {f : Call → Option Client} (hi : s.calls[i]? = some c) :
    withCall s i f = f c := by
  simp only [withCall, hi]

theorem later_send {resp : Response} (h : s.send i n resp = some t) : Later s t := by
  unfold Client.send at h
  split at h
  case h_1 => cases h
  case h_2 c hc =>
    split at h
    case isTrue =>
      injection h with h
      exact h ▸ later_of_calls rfl le_rfl id id fun hs hc => ⟨hs, hc⟩
    case isFalse hopen =>
      obtain ⟨hnone, h⟩ := Option.ite_none_left_eq_some.mp h
      injection h with h
      refine h ▸ later_setCall hc (callLater_of_lt ?_ id)
      have hempty : c.chan.buffer = none := by simpa using hnone
      simp [distance, hempty, hopen]

theorem later_respond {resp : Response} (h : respond s resp = some t) : Later s t := by
  unfold respond at h
  split at h
  case h_2 => cases h
  case h_1 =>
    split at h <;> injection h with h <;> subst h <;>
      exact later_of_calls rfl le_rfl id id fun hs hc => ⟨hs, hc⟩

/-- No step of anyone takes a call away from its return. -/
theorem later_step {m : Move} (h : step transport s m = some t) : Later s t := by
  have hflags (u : Client) (hcalls : u.calls = s.sweep.calls) (hid : u.nextID = s.sweep.nextID)
      (hstream : s.sweep.streamEnded = true → u.streamEnded = true)
      (hdone : s.sweep.processDone = true → u.processDone = true)
      (hswept : s.sweep.closing = .swept → s.sweep.isClosed = true →
        u.closing = .swept ∧ u.isClosed = true) : Later s u :=
    later_sweep.trans (later_of_calls hcalls hid.ge hstream hdone hswept)
  cases m with
  | sendRequest =>
    injection h with h
    subst h
    refine ⟨le_rfl, id, id, fun hs hc => ⟨hs, hc⟩, fun i c hc => ⟨c, ?_, CallLater.refl c⟩⟩
    exact (List.getElem?_append_left (lt_of_getElem? hc)).trans hc
  | next i marshals =>
    obtain ⟨c, hc, h⟩ := call_of_withCall h
    exact (nearer_advance h).later hc
  | expire i =>
    obtain ⟨c, hc, h⟩ := call_of_withCall h
    exact (nearer_expire h).later hc
  | exited i =>
    obtain ⟨c, hc, h⟩ := call_of_withCall h
    exact (nearer_exited h).later hc
  | abort i =>
    obtain ⟨c, hc, h⟩ := call_of_withCall h
    exact (nearer_abort h).later hc
  | sent i ok =>
    obtain ⟨c, hc, h⟩ := call_of_withCall h
    exact (nearer_sent h).later hc
  | deadline i =>
    obtain ⟨c, hc, h⟩ := call_of_withCall h
    injection h with h
    exact h ▸ later_setCall hc ⟨le_rfl, fun _ => rfl, fun _ => rfl⟩
  | respond resp => exact later_respond h
  | deliver =>
    simp only [step] at h
    split at h
    case h_2 => cases h
    case h_1 =>
      obtain ⟨u, hsend, rfl⟩ := Option.map_eq_some_iff.mp h
      exact (later_send hsend).trans (later_of_calls rfl le_rfl id id fun hs hc => ⟨hs, hc⟩)
  | endStream =>
    simp only [step] at h
    split at h
    case h_1 =>
      injection h with h
      exact h ▸ hflags _ rfl rfl (fun _ => rfl) id fun hs hc => ⟨hs, hc⟩
    case h_2 =>
      injection h with h
      exact h ▸ later_of_calls rfl le_rfl id id fun hs hc => ⟨hs, hc⟩
    case h_3 => cases h
  | close =>
    simp only [step] at h
    split at h
    case isTrue => exact Option.some.inj h ▸ later_of_calls rfl le_rfl id id fun hs hc => ⟨hs, hc⟩
    case isFalse hopen =>
      injection h with h
      exact h ▸ later_of_calls rfl le_rfl id id fun _ hc => absurd hc hopen
  | sweepClose =>
    obtain ⟨-, h⟩ := Option.ite_none_right_eq_some.mp h
    injection h with h
    exact h ▸ hflags _ rfl rfl id id fun _ hc => ⟨rfl, hc⟩
  | exit =>
    obtain ⟨-, h⟩ := Option.ite_none_right_eq_some.mp h
    injection h with h
    exact h ▸ later_of_calls rfl le_rfl id (fun _ => rfl) fun hs hc => ⟨hs, hc⟩
  | sweepExit =>
    obtain ⟨-, h⟩ := Option.ite_none_right_eq_some.mp h
    injection h with h
    exact h ▸ hflags _ rfl rfl id id fun hs hc => ⟨hs, hc⟩

theorem inv_newClient (transport : Transport) : Inv transport newClient := by
  have hnone {i n : ℕ} : ¬Has newClient i n := by
    rintro (⟨c, hc, -⟩ | ⟨r, hr⟩)
    · simp [newClient] at hc
    · simp [newClient] at hr
  constructor
  · exact fun i c hc => by simp [newClient] at hc
  · exact fun k i hk => by simp [newClient] at hk
  · exact fun i j c d hc => by simp [newClient] at hc
  · exact List.nodup_nil
  · exact fun i n hi => absurd hi hnone
  · exact fun i j n hi => absurd hi hnone
  · exact fun i n r hr => by simp [newClient] at hr
  · exact ⟨by simp [newClient], fun _ _ => rfl, by simp [newClient], by simp [newClient], rfl⟩

/-- Ids stay apart under `idToKey` up to 2^53. -/
theorem inv_of_reaches (h : Reaches (step transport) newClient s) (hsmall : s.nextID < 2 ^ 53) :
    Inv transport s := by
  have hinv : s.nextID < 2 ^ 53 → Inv transport s := by
    refine h.invariant (I := fun s => s.nextID < 2 ^ 53 → Inv transport s)
      (fun _ => inv_newClient transport) ?_
    intro s m t ih _ hstep hsmall
    have hbefore : s.nextID < 2 ^ 53 := (later_step hstep).nextID_le.trans_lt hsmall
    exact inv_step (ih hbefore) hbefore hsmall hstep
  exact hinv hsmall

/-- What a call waits for to return: its deadline, or the end of the client. -/
def Woken (transport : Transport) (s : Client) (c : Call) : Prop :=
  c.ctxDone = true ∨ match transport with
    | .sse => s.closing = .swept ∧ s.isClosed = true ∨ s.streamEnded = true
    | .stdio => s.processDone = true

/-- What ends a request that neither the server nor the process takes. -/
def Cut (transport : Transport) (s : Client) (c : Call) : Prop :=
  match transport with
  | .sse => c.ctxDone = true
  | .stdio => s.processDone = true

def IsWoken (transport : Transport) (i : ℕ) (s : Client) : Prop :=
  ∃ c, s.calls[i]? = some c ∧ Woken transport s c

/-- The request of a call is on its way and nothing cuts it. -/
def Sends (transport : Transport) (i : ℕ) (s : Client) : Prop :=
  ∃ c, s.calls[i]? = some c ∧ c.pc = .sending ∧ ¬Cut transport s c

def Returned (i : ℕ) (s : Client) : Prop :=
  ∃ c, s.calls[i]? = some c ∧ ∃ result, c.pc = .returned result

/-- The steps of the goroutine of a call, the failure of a write to a process that has ended,
and the send of the reader on the channel of the call. -/
def Own (transport : Transport) (i : ℕ) (s : Client) : Move → Prop
  | .next j _ => j = i
  | .expire j => j = i
  | .exited j => j = i
  | .abort j => j = i
  | .sent j ok => j = i ∧ ok = false ∧ transport = .stdio ∧ s.processDone = true
  | .deliver => ∃ n resp, s.reader = .holding i n resp
  | _ => False

/-- A woken call goes on by itself, or the reader holds its response, unless it sends. -/
theorem own_possible (h : Inv transport s) (hi : s.calls[i]? = some c)
    (hwoken : Woken transport s c) : Returned i s ∨ Sends transport i s ∨
      ∃ m, Own transport i s m ∧ (step transport s m).isSome := by
  have hnext (hgo : (advance transport s i true c).isSome) :
      ∃ m, Own transport i s m ∧ (step transport s m).isSome :=
    ⟨.next i true, rfl, by simpa only [step, withCall_eq hi] using hgo⟩
  cases hc : c.pc with
  | entered => exact Or.inr (Or.inr (hnext (by simp [advance, hc])))
  | registered =>
    refine Or.inr (Or.inr (hnext ?_))
    cases transport <;> simp [advance, hc]
  | checking =>
    refine Or.inr (Or.inr (hnext ?_))
    by_cases hclosed : s.isClosed = true <;> simp [advance, hc, hclosed]
  | sending =>
    by_cases hcut : Cut transport s c
    · refine Or.inr (Or.inr ?_)
      cases transport with
      | sse =>
        have hctx : c.ctxDone = true := hcut
        exact ⟨.abort i, rfl, by simp [step, withCall_eq hi, abort, hc, hctx]⟩
      | stdio =>
        exact ⟨.sent i false, ⟨rfl, rfl, rfl, hcut⟩, by simp [step, withCall_eq hi, sent, hc]⟩
    · exact Or.inr (Or.inl ⟨c, hi, hc, hcut⟩)
  | waiting =>
    refine Or.inr (Or.inr ?_)
    rcases hwoken with hctx | hend
    · exact ⟨.expire i, rfl, by simp [step, withCall_eq hi, expire, hc, hctx]⟩
    · cases transport with
      | stdio =>
        have hdone : s.processDone = true := hend
        exact ⟨.exited i, rfl, by simp [step, withCall_eq hi, exited, hc, hdone]⟩
      | sse =>
        have hnil : s.pending = [] := h.flags.swept rfl (hend.imp_left And.left)
        obtain ⟨-, hwhere⟩ := (h.calls i c hi).expecting (by rw [hc]; trivial)
        rcases hwhere with hmem | ⟨n, resp, hheld⟩ | hbuffer | hclosed
        · simp [hnil] at hmem
        · have hchan := ((h.calls i c hi).holds n resp hheld).2.1
          refine ⟨.deliver, ⟨n, resp, hheld⟩, ?_⟩
          simp [step, hheld, Client.send, hi, hchan, emptyChan]
        · obtain ⟨answer, hbuffer⟩ := Option.isSome_iff_exists.mp hbuffer
          exact hnext (by simp [advance, hc, Client.receive, hbuffer])
        · refine hnext ?_
          cases hbuffer : c.chan.buffer <;> simp [advance, hc, Client.receive, hbuffer, hclosed]
  | failing message => exact Or.inr (Or.inr (hnext (by simp [advance, hc])))
  | returned result => exact Or.inl ⟨c, hi, result, hc⟩

/-- How far the call is from its return. -/
def distanceOf (i : ℕ) (s : Client) : ℕ :=
  match s.calls[i]? with
  | none => 0
  | some c => distance c

theorem distanceOf_eq (hi : s.calls[i]? = some c) : distanceOf i s = distance c := by
  simp only [distanceOf, hi]

theorem Woken.later (hwoken : Woken transport s c) (h : Later s t) (hcall : CallLater c d) :
    Woken transport t d := by
  refine hwoken.imp hcall.ctxDone fun hend => ?_
  cases transport with
  | sse => exact hend.imp (fun hs => h.swept hs.1 hs.2) h.streamEnded
  | stdio => exact h.processDone hend

theorem Cut.later (hcut : Cut transport s c) (h : Later s t) (hcall : CallLater c d) :
    Cut transport t d := by
  cases transport with
  | sse => exact hcall.ctxDone hcut
  | stdio => exact h.processDone hcut

/-- A step of its own, or the send of its response, brings a call nearer to its return. -/
theorem distance_own {m : Move} (h : Inv transport s) (hi : s.calls[i]? = some c)
    (hown : Own transport i s m) (hstep : step transport s m = some t) :
    distanceOf i t < distance c := by
  have hnearer {j : ℕ} {f : Call → Option Client} (hji : j = i) (hwith : withCall s j f = some t)
      (hf : f c = some t → Nearer s t i c) : distanceOf i t < distance c := by
    subst hji
    rw [withCall_eq hi] at hwith
    obtain ⟨d, hcalls, hlt, -⟩ := (hf hwith).call
    have hd : t.calls[j]? = some d := by
      rw [hcalls]
      exact List.getElem?_set_self (lt_of_getElem? hi)
    rwa [distanceOf_eq hd]
  cases m with
  | next j marshals =>
    obtain rfl : j = i := hown
    exact hnearer rfl hstep nearer_advance
  | expire j =>
    obtain rfl : j = i := hown
    exact hnearer rfl hstep nearer_expire
  | exited j =>
    obtain rfl : j = i := hown
    exact hnearer rfl hstep nearer_exited
  | abort j =>
    obtain rfl : j = i := hown
    exact hnearer rfl hstep nearer_abort
  | sent j ok =>
    obtain rfl : j = i := hown.1
    exact hnearer rfl hstep nearer_sent
  | deliver =>
    obtain ⟨n, resp, hheld⟩ := hown
    have hchan := ((h.calls i c hi).holds n resp hheld).2.1
    simp only [step, hheld, Client.send, hi, hchan, emptyChan, Bool.false_eq_true, if_false,
      Option.isSome_none, Option.map_some, Option.some.injEq] at hstep
    subst hstep
    rw [distanceOf_eq (List.getElem?_set_self (lt_of_getElem? hi))]
    simp [distance, hchan, emptyChan]
  | _ => exact hown.elim

/-- From the moment it is woken on, a call is on its way to its return. -/
theorem measure_of_woken (run : InfiniteRun (step transport) newClient)
    (hsmall : ∀ k, (run.state k).nextID < 2 ^ 53) (hwoken : IsWoken transport i (run.state n)) :
    run.Measure n (distanceOf i) (Own transport i) (Returned i) (Sends transport i) := by
  have hinv (k : ℕ) : Inv transport (run.state k) := inv_of_reaches (run.reaches k) (hsmall k)
  have hkept {k : ℕ} (hk : n ≤ k) : IsWoken transport i (run.state k) := by
    refine run.kept (I := IsWoken transport i) hwoken ?_ hk
    rintro k m - ⟨c, hc, hwoken⟩ hstep
    obtain ⟨d, hd, hcall⟩ := (later_step hstep).calls i c hc
    exact ⟨d, hd, hwoken.later (later_step hstep) hcall⟩
  constructor
  · intro k hk
    obtain ⟨c, hc, -⟩ := hkept hk
    cases hmove : run.move k with
    | none => rw [run.none_succ k hmove]
    | some m =>
      obtain ⟨d, hd, hcall⟩ := (later_step (run.some_succ k m hmove)).calls i c hc
      rw [distanceOf_eq hc, distanceOf_eq hd]
      exact hcall.distance_le
  · intro k m hk hmove hown
    obtain ⟨c, hc, -⟩ := hkept hk
    rw [distanceOf_eq hc]
    exact distance_own (hinv k) hc hown (run.some_succ k m hmove)
  · intro k hk hsends
    cases hmove : run.move k with
    | none => exact Or.inl (run.none_succ k hmove ▸ hsends)
    | some m =>
      obtain ⟨c, hc, -⟩ := hkept hk
      have hlater := later_step (run.some_succ k m hmove)
      obtain ⟨d, hd, hcall⟩ := hlater.calls i c hc
      obtain ⟨e, he, hpc, hcut⟩ := hsends
      obtain rfl : d = e := Option.some.inj (hd.symm.trans he)
      rcases Nat.lt_or_eq_of_le hcall.distance_le with hlt | heq
      · rw [distanceOf_eq hc, distanceOf_eq hd]
        exact Or.inr hlt
      · exact Or.inl ⟨c, hc, (hcall.pc heq).symm.trans hpc, fun h => hcut (h.later hlater hcall)⟩
  · intro k hk
    obtain ⟨c, hc, hwoken⟩ := hkept hk
    exact own_possible (hinv k) hc hwoken

/-- The responses that the calls returned, and the map of pending calls. -/
structure Answered (transport : Transport) (s : Client) : Prop where
  own : ∀ (i : ℕ) (c : Call) (n : ℕ) (resp : Response), s.calls[i]? = some c →
    c.pc = .returned (.ok (n, resp)) → resp.id = .float64 (ofNat c.id)
  once : ∀ i j n, Has s i n → Has s j n → i = j
  safe : s.panicked = false
  empty : (∀ (i : ℕ) (c : Call), s.calls[i]? = some c → ¬InFlight c.pc) → s.pending = [] ∨
    transport = .stdio ∧ s.processDone = true ∧ s.exitSwept = false

theorem Inv.answered (h : Inv transport s) : Answered transport s := by
  constructor
  · intro i c n resp hi hc
    exact id_of_key ((h.calls i c hi).answered n resp hc).2
  · exact h.once
  · exact h.flags.safe
  · intro hnone
    rcases List.eq_nil_or_concat s.pending with hnil | ⟨rest, ⟨k, i⟩, hpending⟩
    · exact Or.inl hnil
    · have hmem : (k, i) ∈ s.pending := by simp [hpending]
      have hi := List.getElem?_eq_getElem (h.known k i hmem)
      obtain ⟨-, -, -, -, hflight, -⟩ := (h.calls i _ hi).pend k hmem
      obtain ⟨hdone, hswept⟩ := hflight.resolve_left (hnone i _ hi)
      exact Or.inr ⟨h.flags.ended (Or.inl hdone), hdone, hswept⟩

theorem calls_answered (transport : Transport) :
    (∀ s, Reaches (step transport) newClient s → s.nextID < 2 ^ 53 → Answered transport s) ∧
    ∀ run : InfiniteRun (step transport) newClient, (∀ k, (run.state k).nextID < 2 ^ 53) →
      ∀ i n, run.WeaklyFair (Own transport i) → IsWoken transport i (run.state n) →
        ∃ k, n ≤ k ∧ (Returned i (run.state k) ∨ ∀ l, k ≤ l → Sends transport i (run.state l)) :=
  ⟨fun _ hreach hsmall => (inv_of_reaches hreach hsmall).answered,
    fun run hsmall _ _ hfair hwoken => (measure_of_woken run hsmall hwoken).done_or_waits hfair⟩

theorem own_of_returned {m : Move} (hreturned : Returned i s)
    (hreader : ∀ i n resp, s.reader ≠ .holding i n resp) (hown : Own transport i s m) :
    step transport s m = none := by
  obtain ⟨c, hi, result, hc⟩ := hreturned
  cases m with
  | next j marshals =>
    obtain rfl : j = i := hown
    simp [step, withCall_eq hi, advance, hc]
  | expire j =>
    obtain rfl : j = i := hown
    simp [step, withCall_eq hi, expire, hc]
  | exited j =>
    obtain rfl : j = i := hown
    simp [step, withCall_eq hi, exited, hc]
  | abort j =>
    obtain rfl : j = i := hown
    simp [step, withCall_eq hi, abort, hc]
  | sent j ok =>
    obtain rfl : j = i := hown.1
    simp [step, withCall_eq hi, sent, hc]
  | deliver =>
    obtain ⟨n, resp, hheld⟩ := hown
    exact absurd hheld (hreader i n resp)
  | _ => exact hown.elim

def response (id : ℕ) : Response := ⟨.float64 (ofNat id), "{}", nofun⟩

/-- The first call gets its response before its deadline passes. -/
def answeredInTime : List Move :=
  [.sendRequest, .next 0 true, .next 0 true, .respond (response 1), .sent 0 true, .deliver,
    .deadline 0, .next 0 true]

def Call.answer (c : Call) : Option ℕ :=
  match c.pc with
  | .returned (.ok (n, _)) => some n
  | _ => none

def Client.scans (s : Client) : Bool :=
  match s.reader with
  | .scanning => true
  | _ => false

def Call.hasReturned (c : Call) : Bool :=
  match c.pc with
  | .returned _ => true
  | _ => false

theorem Client.reader_of_scans (h : s.scans = true) (i n : ℕ) (resp : Response) :
    s.reader ≠ .holding i n resp := by
  intro hheld
  simp [Client.scans, hheld] at h

theorem Call.returned_of_answer (h : c.answer = some n) :
    ∃ resp, c.pc = .returned (.ok (n, resp)) := by
  unfold Call.answer at h
  split at h
  case h_1 m resp hpc => exact ⟨resp, Option.some.inj h ▸ hpc⟩
  case h_2 => cases h

theorem nextID_le_of_le (run : InfiniteRun (step transport) newClient) {k l : ℕ} (h : k ≤ l) :
    (run.state k).nextID ≤ (run.state l).nextID :=
  run.kept (I := fun s => (run.state k).nextID ≤ s.nextID) le_rfl
    (fun _ _ _ hle hstep => hle.trans (later_step hstep).nextID_le) h

theorem calls_answered_in_time : ∃ run : InfiniteRun (step .sse) newClient,
    (∃ c resp, (run.state 8).calls[0]? = some c ∧ c.pc = .returned (.ok (0, resp)) ∧
      resp.id = .float64 (ofNat c.id)) ∧
    ∃ k, 7 ≤ k ∧ (Returned 0 (run.state k) ∨ ∀ l, k ≤ l → Sends .sse 0 (run.state l)) := by
  have hrun : ((StepSystem.runUnder (step .sse) (fun _ _ => True) newClient answeredInTime).any
      fun s => s.calls.map Call.answer == [some 0] && s.scans && s.nextID == 1) = true := by
    decide +kernel
  have hwoken : ((StepSystem.runUnder (step .sse) (fun _ _ => True) newClient
      (answeredInTime.take 7)).any fun s => s.calls.map Call.ctxDone == [true]) = true := by
    decide +kernel
  obtain ⟨last, hlast, htest⟩ := (Option.any_eq_true _ _).mp hrun
  obtain ⟨s, hs, hctx⟩ := (Option.any_eq_true _ _).mp hwoken
  simp only [Bool.and_eq_true, beq_iff_eq] at htest hctx
  obtain ⟨⟨hanswer, hscans⟩, hid⟩ := htest
  let run := InfiniteRun.stopped (step .sse) newClient last answeredInTime hlast
  have hend {k : ℕ} (hk : 8 ≤ k) : run.state k = last := InfiniteRun.stopped_state hlast hk
  have hsmall (k : ℕ) : (run.state k).nextID < 2 ^ 53 := by
    refine (nextID_le_of_le run (le_max_left k 8)).trans_lt ?_
    rw [hend (le_max_right ..), hid]
    decide
  obtain ⟨c, hcalls, hc⟩ : ∃ c, last.calls = [c] ∧ c.answer = some 0 := by
    simpa [List.map_eq_singleton_iff] using hanswer
  obtain ⟨resp, hpc⟩ := Call.returned_of_answer hc
  have hfirst : last.calls[0]? = some c := by simp [hcalls]
  have hfair : run.WeaklyFair (Own .sse 0) := InfiniteRun.weaklyFair_stopped hlast
    fun m hown => own_of_returned ⟨c, hfirst, _, hpc⟩ (Client.reader_of_scans hscans) hown
  have hseven : IsWoken .sse 0 (run.state 7) := by
    have hstate : run.state 7 = s := by simp only [run, InfiniteRun.stopped, hs, Option.getD_some]
    obtain ⟨d, hd, hdone⟩ : ∃ d, s.calls = [d] ∧ d.ctxDone = true := by
      simpa [List.map_eq_singleton_iff] using hctx
    rw [hstate]
    exact ⟨d, by simp [hd], Or.inl hdone⟩
  have hanswered := (calls_answered .sse).1 last (hend le_rfl ▸ run.reaches 8)
    (hend le_rfl ▸ hsmall 8)
  refine ⟨run, ⟨c, resp, ?_, hpc, hanswered.own 0 c 0 resp hfirst hpc⟩,
    (calls_answered .sse).2 run hsmall 0 7 hfair hseven⟩
  rw [hend le_rfl]
  exact hfirst

/-- A call that has returned stays so. -/
theorem Returned.later (hreturned : Returned i s) (h : Later s t) : Returned i t := by
  obtain ⟨c, hi, result, hc⟩ := hreturned
  obtain ⟨d, hd, hcall⟩ := h.calls i c hi
  have hle := hcall.distance_le
  have hzero : rank c.pc = 0 := by rw [hc]; rfl
  have hrank : rank d.pc = 0 := by
    simp only [distance, hzero] at hle
    split at hle <;> split at hle <;> omega
  cases hpc : d.pc with
  | returned result => exact ⟨d, hd, result, hpc⟩
  | _ => simp [rank, hpc] at hrank

/-- `Close` comes while the POST of the call is on its way. -/
def closedInFlight : List Move :=
  [.sendRequest, .next 0 true, .next 0 true, .close, .sweepClose]

/-- The process is reported as done before its channels are closed. -/
def exitedInFlight : List Move :=
  [.sendRequest, .next 0 true, .next 0 true, .next 0 true, .sent 0 true, .exit, .exited 0]

theorem calls_answered_fails :
    (∃ run : InfiniteRun (step .sse) newClient, (∀ i, run.WeaklyFair (Own .sse i)) ∧
      IsWoken .sse 0 (run.state 5) ∧ ∀ k, ¬Returned 0 (run.state k)) ∧
    ∃ s, Reaches (step .stdio) newClient s ∧
      (∀ (i : ℕ) (c : Call), s.calls[i]? = some c → ¬InFlight c.pc) ∧ s.pending ≠ [] := by
  constructor
  · let call : Call := ⟨.sending, 1, ⟨none, true⟩, false⟩
    let last : Client :=
      { newClient with nextID := 1, isClosed := true, closing := .swept, calls := [call] }
    have hlast : StepSystem.runUnder (step .sse) (fun _ _ => True) newClient closedInFlight =
        some last := rfl
    let run := InfiniteRun.stopped (step .sse) newClient last closedInFlight hlast
    have hend {k : ℕ} (hk : 5 ≤ k) : run.state k = last := InfiniteRun.stopped_state hlast hk
    refine ⟨run, fun i => InfiniteRun.weaklyFair_stopped hlast ?_, ?_, ?_⟩
    · intro m hown
      cases m with
      | next j marshals => rcases j with _ | j <;> rfl
      | expire j => rcases j with _ | j <;> rfl
      | exited j => rcases j with _ | j <;> rfl
      | abort j => rcases j with _ | j <;> rfl
      | sent j ok => cases hown.2.2.1
      | deliver =>
        obtain ⟨n, resp, hheld⟩ := hown
        cases hheld
      | _ => exact hown.elim
    · rw [hend le_rfl]
      exact ⟨call, rfl, Or.inr (Or.inl ⟨rfl, rfl⟩)⟩
    · intro k hk
      have hlater : Returned 0 (run.state (max k 5)) :=
        run.kept (I := Returned 0) hk (fun _ _ _ h hstep => h.later (later_step hstep))
          (le_max_left k 5)
      rw [hend (le_max_right ..)] at hlater
      obtain ⟨c, hc, result, hpc⟩ := hlater
      obtain rfl : call = c := Option.some.inj hc
      cases hpc
  · obtain ⟨s, hreach, htest⟩ := StepSystem.reachesUnder_of_test (step .stdio) (fun _ _ => True)
      newClient exitedInFlight (fun s => s.calls.all Call.hasReturned && !s.pending.isEmpty)
      (by decide)
    simp only [Bool.and_eq_true, Bool.not_eq_true', List.all_eq_true] at htest
    refine ⟨s, hreach, ?_, ?_⟩
    · intro i c hi hflight
      have hc := htest.1 c (List.mem_of_getElem? hi)
      unfold Call.hasReturned at hc
      split at hc
      case h_1 result hpc => exact hflight result hpc
      case h_2 => cases hc
    · intro hnil
      simp [hnil] at htest

end Swazz.Mcp
