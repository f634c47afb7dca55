import Swazz.FollowRun

/-! A run that is followed reports its end once, and leaves the store alone then; it never has two
sockets. -/
namespace Swazz.Following

open StepSystem

variable {Stats Data Hint : Type} {c : Config Hint} {s t : State Stats Data Hint}

/-! ### One socket -/

def SocketState.live (st : SocketState) : Bool := st ≠ .closed

/-- What leads to the next socket: a ticket, a socket that will close, a question about the status
after one has, or a timer; and whether the run is over. -/
structure Chain where
  finished : Bool
  ws : Option ℕ
  tickets : ℕ
  sockets : List SocketState
  statuses : List Bool
  timers : ℕ
  statusTimer : Bool

def State.chain (s : State Stats Data Hint) : Chain :=
  ⟨s.finished, s.ws, s.tickets, s.sockets, s.statuses, s.reconnectTimers, s.statusTimer⟩

def Chain.settle (k : Chain) : Chain where
  finished := true
  ws := k.ws
  tickets := k.tickets
  sockets := match k.ws with
    | some i => k.sockets.modify i SocketState.close
    | none => k.sockets
  statuses := k.statuses
  timers := k.timers - 1
  statusTimer := false

/-- How many of them there are. -/
def Chain.links (k : Chain) : ℕ :=
  k.tickets + k.sockets.countP SocketState.live + k.statuses.count true + k.timers

structure Single (k : Chain) : Prop where
  one : k.finished = false → k.links ≤ 1
  socket : k.sockets.countP SocketState.live ≤ 1
  current : ∀ i st, k.sockets[i]? = some st → st.live = true → k.ws = some i
  shut : k.finished = true → ∀ st ∈ k.sockets, st = .closing ∨ st = .closed
  timer : k.finished = true → k.timers = 0
  status : k.finished = true → k.statusTimer = false

section

variable {k : Chain} {i : ℕ} {st : SocketState}

theorem close_live (st : SocketState) : st.close.live = st.live := by
  cases st <;> rfl

theorem close_cases (st : SocketState) : st.close = .closing ∨ st.close = .closed := by
  cases st <;> first | exact Or.inl rfl | exact Or.inr rfl

theorem countP_modify_close (l : List SocketState) (i : ℕ) :
    (l.modify i SocketState.close).countP SocketState.live = l.countP SocketState.live := by
  induction l generalizing i with
  | nil => cases i <;> rfl
  | cons st l ih =>
    cases i with
    | zero => rw [List.modify_zero_cons, List.countP_cons, List.countP_cons, close_live]
    | succ i => rw [List.modify_succ_cons, List.countP_cons, List.countP_cons, ih]

/-- The sockets after one of them has been closed, or begun to close. -/
theorem getElem?_modify_close {l : List SocketState} {j : ℕ}
    (h : (l.modify i SocketState.close)[j]? = some st) :
    ∃ st', l[j]? = some st' ∧ st'.live = st.live := by
  rw [List.getElem?_modify] at h
  obtain ⟨st', hst', rfl⟩ := Option.map_eq_some_iff.mp h
  refine ⟨st', hst', ?_⟩
  split_ifs
  · exact (close_live st').symm
  · rfl

theorem Single.modify (h : Single k) (i : ℕ) :
    Single { k with sockets := k.sockets.modify i SocketState.close } where
  one hfin := by
    have hone := h.one hfin
    simp only [Chain.links] at hone ⊢
    rw [countP_modify_close]
    exact hone
  socket := by
    show (k.sockets.modify i SocketState.close).countP SocketState.live ≤ 1
    rw [countP_modify_close]
    exact h.socket
  current j st hst hlive := by
    obtain ⟨st', hst', heq⟩ := getElem?_modify_close hst
    exact h.current j st' hst' (heq.trans hlive)
  shut hfin st hst := by
    obtain ⟨j, hj⟩ := List.getElem?_of_mem hst
    rw [List.getElem?_modify] at hj
    obtain ⟨st', hst', rfl⟩ := Option.map_eq_some_iff.mp hj
    split_ifs
    · exact close_cases st'
    · exact h.shut hfin st' (List.mem_of_getElem? hst')
  timer := h.timer
  status := h.status

theorem eq_closed_of_not_live (h : ¬st.live = true) : st = .closed := by
  cases st <;> first | rfl | exact absurd rfl h

/-- At the end the socket is closed, which is the only one. -/
theorem Single.settle (h : Single k) (hfin : k.finished = false) : Single k.settle := by
  have hone := h.one hfin
  have hsockets : k.settle.sockets.countP SocketState.live = k.sockets.countP SocketState.live := by
    rw [Chain.settle]
    cases k.ws with
    | none => rfl
    | some i => exact countP_modify_close k.sockets i
  refine ⟨fun hnot => absurd (show true = false from hnot) (by decide), ?_, ?_, ?_, ?_, fun _ => rfl⟩
  · rw [hsockets]
    exact h.socket
  · intro j st hst hlive
    show k.ws = some j
    rw [Chain.settle] at hst
    cases hws : k.ws with
    | none =>
      rw [hws] at hst
      rw [← hws]
      exact h.current j st hst hlive
    | some i =>
      rw [hws] at hst
      obtain ⟨st', hst', heq⟩ := getElem?_modify_close hst
      rw [← hws]
      exact h.current j st' hst' (heq.trans hlive)
  · intro _ st hst
    obtain ⟨j, hj⟩ := List.getElem?_of_mem hst
    rw [Chain.settle] at hj
    cases hws : k.ws with
    | none =>
      rw [hws] at hj
      refine Or.inr (eq_closed_of_not_live fun hlive => ?_)
      have hcurrent := h.current j st hj hlive
      rw [hws] at hcurrent
      cases hcurrent
    | some i =>
      rw [hws, List.getElem?_modify] at hj
      obtain ⟨st', hst', rfl⟩ := Option.map_eq_some_iff.mp hj
      split_ifs with hij
      · exact close_cases st'
      · -- a socket that is not the current one has closed before
        refine Or.inr (eq_closed_of_not_live fun hlive => ?_)
        have hcurrent := h.current j st' hst' hlive
        rw [hws] at hcurrent
        exact hij (Option.some.inj hcurrent)
  · intro _
    show k.timers - 1 = 0
    rw [Chain.links] at hone
    omega

/-- A new socket comes after all others have closed. -/
theorem single_push (hzero : k.links = 0) (hfin : k.finished = false) :
    Single { k with sockets := k.sockets ++ [.connecting], ws := some k.sockets.length } := by
  have hnone : k.sockets.countP SocketState.live = 0 := by
    rw [Chain.links] at hzero
    omega
  have hcount : (k.sockets ++ [SocketState.connecting]).countP SocketState.live = 1 := by
    rw [List.countP_append, hnone]
    rfl
  refine ⟨?_, ?_, ?_, fun htrue => ?_, fun htrue => ?_, fun htrue => ?_⟩
  · intro _
    simp only [Chain.links] at hzero ⊢
    omega
  · exact Nat.le_of_eq hcount
  · intro i st hst hlive
    rcases Nat.lt_or_ge i k.sockets.length with hlt | hge
    · rw [List.getElem?_append_left hlt] at hst
      exact absurd hlive (List.countP_eq_zero.mp hnone st (List.mem_of_getElem? hst))
    · have hlength := (List.getElem?_eq_some_iff.mp hst).1
      rw [List.length_append, List.length_singleton] at hlength
      have heq : k.sockets.length = i := by omega
      exact congrArg some heq
  · exact absurd (htrue.symm.trans hfin) (by decide)
  · exact absurd (htrue.symm.trans hfin) (by decide)
  · exact absurd (htrue.symm.trans hfin) (by decide)

/-- Tickets, questions and timers may change as long as there is one link at most. -/
theorem Single.relink (h : Single k) (tickets : ℕ) (statuses : List Bool) (timers : ℕ)
    (hlinks : k.finished = false →
      tickets + k.sockets.countP SocketState.live + statuses.count true + timers ≤ 1)
    (htimers : k.finished = true → timers = 0) :
    Single { k with tickets := tickets, statuses := statuses, timers := timers } :=
  ⟨hlinks, h.socket, h.current, h.shut, htimers, h.status⟩

theorem countP_set {l : List SocketState} (hi : l[i]? = some st) (hlive : st.live = true)
    (new : SocketState) : (l.set i new).countP SocketState.live + 1 =
      l.countP SocketState.live + if new.live then 1 else 0 := by
  obtain ⟨hlt, rfl⟩ := List.getElem?_eq_some_iff.mp hi
  have hpos : 0 < l.countP SocketState.live :=
    List.countP_pos_iff.mpr ⟨l[i], List.getElem_mem hlt, hlive⟩
  rw [List.countP_set hlt, if_pos hlive]
  omega

/-- A socket that has not closed opens or closes. -/
theorem Single.set (h : Single k) (hi : k.sockets[i]? = some st) (hlive : st.live = true)
    (new : SocketState) (hnew : k.finished = true → new = .closed) :
    Single { k with sockets := k.sockets.set i new } := by
  have hcount := countP_set hi hlive new
  have hle : (k.sockets.set i new).countP SocketState.live ≤
      k.sockets.countP SocketState.live := by
    split_ifs at hcount <;> omega
  refine ⟨?_, Nat.le_trans hle h.socket, ?_, ?_, h.timer, h.status⟩
  · intro hfin
    have hone := h.one hfin
    simp only [Chain.links] at hone ⊢
    omega
  · intro j st' hst' hlive'
    rw [List.getElem?_set] at hst'
    split_ifs at hst' with hij
    · rw [← hij]
      exact h.current i st hi hlive
    · exact h.current j st' hst' hlive'
  · intro hfin st' hst'
    rcases List.mem_or_eq_of_mem_set hst' with hmem | rfl
    · exact h.shut hfin st' hmem
    · exact Or.inr (hnew hfin)

end

/-! ### What the functions do with it -/

theorem chain_fail (c : Config Hint) (s : State Stats Data Hint) (message : String) :
    (fail c s message).chain = if s.finished then s.chain else s.chain.settle := by
  unfold fail
  split_ifs <;> rfl

theorem chain_complete (c : Config Hint) (s : State Stats Data Hint) (stats : Stats)
    (issue : Option (ScanIssue Hint)) :
    (complete c s stats issue).chain = if s.finished then s.chain else s.chain.settle := by
  unfold complete
  split_ifs <;> rfl

/-- The chain stays, or the run ends. -/
def Ends (k k' : Chain) : Prop := k' = k ∨ (k.finished = false ∧ k' = k.settle)

theorem Single.ends {k k' : Chain} (h : Single k) (hends : Ends k k') : Single k' := by
  rcases hends with rfl | ⟨hfin, rfl⟩
  · exact h
  · exact h.settle hfin

theorem ends_of_ite {k k' : Chain} (h : k' = if k.finished then k else k.settle) : Ends k k' := by
  split_ifs at h with hfin
  · exact Or.inl h
  · exact Or.inr ⟨Bool.eq_false_iff.mpr hfin, h⟩

theorem ends_settleFromStatus (c : Config Hint) (s : State Stats Data Hint)
    (status : ScanStatus Stats) : Ends s.chain (settleFromStatus c s status).1.chain := by
  cases status with
  | failed reason => exact ends_of_ite (chain_fail c s reason)
  | completed stats => exact ends_of_ite (chain_complete c s _ _)
  | active | unknown => exact Or.inl rfl

/-- When it tells that the run has not ended, it has done nothing. -/
theorem settleFromStatus_false {status : ScanStatus Stats}
    (h : (settleFromStatus c s status).2 = false) :
    (settleFromStatus c s status).1 = s ∧ s.finished = false := by
  cases status with
  | failed | completed => cases h
  | active | unknown => exact ⟨rfl, h⟩

theorem ends_onMessage (c : Config Hint) (s : State Stats Data Hint) (now : ℕ)
    (event : RunStreamEvent Stats Data) : Ends s.chain (onMessage c s now event).chain := by
  cases event with
  | complete stats => exact ends_of_ite (chain_complete c _ stats none)
  | error message => exact ends_of_ite (chain_fail c _ message)
  | progress stats =>
    unfold onMessage
    dsimp only
    split_ifs <;> exact Or.inl rfl
  | log info message =>
    unfold onMessage
    dsimp only
    split_ifs <;> exact Or.inl rfl
  | queued | result | ignored => exact Or.inl rfl

theorem chain_includeStoredWarnings (c : Config Hint) (s : State Stats Data Hint)
    (call : StoredCall) (stored : Option Warnings) :
    (includeStoredWarnings c s call stored).chain = s.chain := by
  cases stored with
  | none => rfl
  | some w =>
    unfold includeStoredWarnings
    dsimp only
    split_ifs <;> rfl

theorem chain_changed (s : State Stats Data Hint) (change : IssueChange Hint)
    (store : Store Stats Hint) (wsRef : Ref) : (changed s change store wsRef).chain = s.chain := by
  cases change <;> rfl

theorem count_eraseIdx {l : List Bool} {i : ℕ} {b : Bool} (h : l[i]? = some b) :
    (l.eraseIdx i).count true + b.toNat = l.count true := by
  induction l generalizing i with
  | nil => cases h
  | cons a l ih =>
    cases i with
    | zero =>
      cases h
      cases b <;> simp
    | succ i =>
      have hi : l[i]? = some b := h
      rw [List.eraseIdx_cons_succ, List.count_cons, List.count_cons, ← ih hi]
      omega

theorem single_onDrop (h : Single s.chain) (hlinks : s.chain.links = 0)
    (hfin : s.finished = false) : Single (onDrop s).chain := by
  refine h.relink _ _ _ (fun _ => ?_) (fun htrue => absurd (htrue.symm.trans hfin) (by decide))
  have hcount : (s.statuses ++ [true]).count true = s.statuses.count true + 1 := by
    rw [List.count_append]
    rfl
  show s.tickets + s.sockets.countP SocketState.live + (s.statuses ++ [true]).count true +
    s.reconnectTimers ≤ 1
  have hlinks' : s.tickets + s.sockets.countP SocketState.live + s.statuses.count true +
    s.reconnectTimers = 0 := hlinks
  omega

theorem single_connect (h : Single s.chain) (hlinks : s.chain.links = 0)
    (hfin : s.finished = false) (signedIn : Bool) : Single (connect s signedIn).chain := by
  unfold connect
  split_ifs
  · refine h.relink _ _ _ (fun _ => ?_) (fun htrue => absurd (htrue.symm.trans hfin) (by decide))
    have hlinks' : s.tickets + s.sockets.countP SocketState.live + s.statuses.count true +
      s.reconnectTimers = 0 := hlinks
    show s.tickets + 1 + s.sockets.countP SocketState.live + s.statuses.count true +
      s.reconnectTimers ≤ 1
    omega
  · exact single_push hlinks hfin

theorem single_reconnect (h : Single s.chain) (hlinks : s.chain.links = 0)
    (hfin : s.finished = false) : Single (reconnect s).chain := by
  unfold reconnect
  split_ifs
  · exact h
  · refine h.relink _ _ _ (fun _ => ?_) (fun htrue => absurd (htrue.symm.trans hfin) (by decide))
    have hlinks' : s.tickets + s.sockets.countP SocketState.live + s.statuses.count true +
      s.reconnectTimers = 0 := hlinks
    show s.tickets + s.sockets.countP SocketState.live + s.statuses.count true +
      (s.reconnectTimers + 1) ≤ 1
    omega

/-- One link goes. -/
theorem links_of_one (h : Single s.chain) (hfin : s.finished = false) :
    s.tickets + s.sockets.countP SocketState.live + s.statuses.count true +
      s.reconnectTimers ≤ 1 := h.one hfin

theorem single_ticket (h : Single s.chain) (hpos : s.tickets ≠ 0) (answer : Bool) :
    Single (if s.finished then { s with tickets := s.tickets - 1 }
      else if answer then openSocket { s with tickets := s.tickets - 1 }
      else onDrop { s with tickets := s.tickets - 1 }).chain := by
  have hless : Single ({ s with tickets := s.tickets - 1 } : State Stats Data Hint).chain := by
    refine h.relink (s.tickets - 1) s.statuses s.reconnectTimers (fun hfin => ?_) h.timer
    have hone := links_of_one h hfin
    show s.tickets - 1 + s.sockets.countP SocketState.live + s.statuses.count true +
      s.reconnectTimers ≤ 1
    omega
  split_ifs with hfin
  · exact hless
  · rw [Bool.not_eq_true] at hfin
    have hone := links_of_one h hfin
    refine single_push (k := ({ s with tickets := s.tickets - 1 } :
      State Stats Data Hint).chain) ?_ hfin
    show s.tickets - 1 + s.sockets.countP SocketState.live + s.statuses.count true +
      s.reconnectTimers = 0
    omega
  · rw [Bool.not_eq_true] at hfin
    have hone := links_of_one h hfin
    refine single_onDrop hless ?_ hfin
    show s.tickets - 1 + s.sockets.countP SocketState.live + s.statuses.count true +
      s.reconnectTimers = 0
    omega

theorem single_status {i : ℕ} {dropped : Bool} (h : Single s.chain)
    (hi : s.statuses[i]? = some dropped) (status : ScanStatus Stats) :
    Single (answered c { s with statuses := s.statuses.eraseIdx i } dropped status).chain := by
  have hcount := count_eraseIdx hi
  have hless : Single ({ s with statuses := s.statuses.eraseIdx i } : State Stats Data Hint).chain := by
    refine h.relink s.tickets (s.statuses.eraseIdx i) s.reconnectTimers (fun hfin => ?_) h.timer
    have hone := links_of_one h hfin
    show s.tickets + s.sockets.countP SocketState.live + (s.statuses.eraseIdx i).count true +
      s.reconnectTimers ≤ 1
    omega
  unfold answered
  split_ifs with hdropped
  · rw [Bool.and_eq_true, Bool.not_eq_true'] at hdropped
    obtain ⟨rfl, hgoes⟩ := hdropped
    obtain ⟨heq, hfin⟩ := settleFromStatus_false hgoes
    rw [heq]
    have hone := links_of_one h hfin
    rw [Bool.toNat_true] at hcount
    refine single_reconnect hless ?_ hfin
    show s.tickets + s.sockets.countP SocketState.live + (s.statuses.eraseIdx i).count true +
      s.reconnectTimers = 0
    omega
  · exact hless.ends (ends_settleFromStatus c _ status)

theorem single_closed {i : ℕ} {st : SocketState} (h : Single s.chain)
    (hi : s.sockets[i]? = some st) (hlive : st.live = true) :
    Single (if s.finished || s.ws ≠ some i then { s with sockets := s.sockets.set i .closed }
      else onDrop { s with sockets := s.sockets.set i .closed }).chain := by
  have hset : Single ({ s with sockets := s.sockets.set i .closed } : State Stats Data Hint).chain :=
    h.set hi hlive .closed fun _ => rfl
  split_ifs with hleft
  · exact hset
  · rw [Bool.or_eq_true, not_or, Bool.not_eq_true] at hleft
    have hone := links_of_one h hleft.1
    have hcount := countP_set hi hlive .closed
    refine single_onDrop hset ?_ hleft.1
    show s.tickets + (s.sockets.set i .closed).countP SocketState.live + s.statuses.count true +
      s.reconnectTimers = 0
    have hdead : (if SocketState.closed.live then 1 else 0) = 0 := rfl
    omega

theorem single_opened {i : ℕ} (h : Single s.chain) (hi : s.sockets[i]? = some .connecting) :
    Single ({ s with
      sockets := s.sockets.set i .isOpen
      statuses := if s.receivedAny then s.statuses else s.statuses ++ [false] } :
        State Stats Data Hint).chain := by
  have hset : Single { s.chain with sockets := s.sockets.set i .isOpen } := by
    refine h.set hi rfl .isOpen fun hfin => ?_
    rcases h.shut hfin .connecting (List.mem_of_getElem? hi) with hst | hst <;> cases hst
  refine hset.relink s.tickets _ s.reconnectTimers (fun hfin => ?_) hset.timer
  have hone := hset.one hfin
  split_ifs
  · exact hone
  · rw [List.count_append]
    exact hone

theorem single_reconnectTimer (h : Single s.chain) (hpos : s.reconnectTimers ≠ 0)
    (signedIn : Bool) :
    Single (if s.finished then { s with reconnectTimers := s.reconnectTimers - 1 }
      else connect { s with reconnectTimers := s.reconnectTimers - 1 } signedIn).chain := by
  split_ifs with hfin
  · exact absurd (h.timer hfin) hpos
  · rw [Bool.not_eq_true] at hfin
    have hone := links_of_one h hfin
    have hless : Single ({ s with reconnectTimers := s.reconnectTimers - 1 } :
        State Stats Data Hint).chain := by
      refine h.relink s.tickets s.statuses (s.reconnectTimers - 1) (fun _ => ?_)
        (fun htrue => absurd (htrue.symm.trans hfin) (by decide))
      show s.tickets + s.sockets.countP SocketState.live + s.statuses.count true +
        (s.reconnectTimers - 1) ≤ 1
      omega
    refine single_connect hless ?_ hfin signedIn
    show s.tickets + s.sockets.countP SocketState.live + s.statuses.count true +
      (s.reconnectTimers - 1) = 0
    omega

theorem single_checkStatus (h : Single s.chain) (now : ℕ) : Single (checkStatus s now).chain := by
  unfold checkStatus
  split_ifs
  · exact h
  · refine h.relink s.tickets _ s.reconnectTimers (fun hfin => ?_) h.timer
    have hone := links_of_one h hfin
    dsimp only
    split_ifs
    · rw [List.count_append]
      exact hone
    · exact hone

theorem single_step (h : Single s.chain) (event : Event Stats Data Hint)
    (hstep : step c s event = some t) : Single t.chain := by
  cases event with
  | ticket answer =>
    obtain ⟨hpos, hstep⟩ := Option.ite_none_left_eq_some.mp hstep
    cases hstep
    exact single_ticket h hpos answer
  | opened i =>
    obtain ⟨hi, hstep⟩ := Option.ite_none_right_eq_some.mp hstep
    cases hstep
    exact single_opened h hi
  | message i now event =>
    obtain ⟨-, hstep⟩ := Option.ite_none_right_eq_some.mp hstep
    cases hstep
    cases event with
    | none => exact h
    | some event => exact h.ends (ends_onMessage c s now event)
  | error i =>
    simp only [step] at hstep
    split at hstep <;> cases hstep
    exact h.modify i
  | closing i =>
    simp only [step] at hstep
    split at hstep <;> cases hstep
    exact h.modify i
  | closed i =>
    cases hi : s.sockets[i]? with
    | none => simp [step, hi] at hstep
    | some st =>
      cases st with
      | closed => simp [step, hi] at hstep
      | connecting | isOpen | closing =>
        simp only [step, hi] at hstep
        cases hstep
        exact single_closed h hi rfl
  | status i answer =>
    cases hi : s.statuses[i]? with
    | none => simp [step, hi] at hstep
    | some dropped =>
      simp only [step, hi] at hstep
      cases hstep
      exact single_status h hi answer
  | reconnectTimer signedIn =>
    obtain ⟨hpos, hstep⟩ := Option.ite_none_left_eq_some.mp hstep
    cases hstep
    exact single_reconnectTimer h hpos signedIn
  | statusTimer now =>
    obtain ⟨-, hstep⟩ := Option.ite_none_right_eq_some.mp hstep
    cases hstep
    exact single_checkStatus h now
  | stored i answer =>
    cases hi : s.stored[i]? with
    | none => simp [step, hi] at hstep
    | some call =>
      simp only [step, hi] at hstep
      cases hstep
      rw [chain_includeStoredWarnings]
      exact h
  | stop =>
    cases hstep
    unfold stopFollowing
    split_ifs with hfin
    · exact h
    · exact h.settle (Bool.eq_false_iff.mpr hfin)
  | others change store wsRef =>
    cases hstep
    rw [chain_changed]
    exact h

/-! ### One report -/

def Call.isEnd : Call Stats Data → Bool
  | .onResult _ => false
  | .onComplete _ | .onError _ => true

/-- What tells how a run has ended, and what has been shown of it. -/
structure Report where
  finished : Bool
  ends : ℕ
  stored : List StoredCall
  fresh : ℕ
  tag : Option ℕ
  scans : ℕ
  scansAtEnd : ℕ

def State.report (s : State Stats Data Hint) : Report :=
  ⟨s.finished, s.calls.countP Call.isEnd, s.stored, s.fresh, s.store.scanIssue.map Prod.fst,
    s.scans, s.scansAtEnd⟩

structure Reported (r : Report) : Prop where
  once : r.ends ≤ 1
  before : r.finished = false → r.ends = 0 ∧ r.stored = []
  /-- An issue that was shown at the end is there only as long as no other scan starts. -/
  shown : ∀ call ∈ r.stored, ∀ n, call.shown = some n →
    n < r.fresh ∧ (r.tag = some n → r.scans = r.scansAtEnd)

section

variable {r : Report}

/-- The end: one call at most, and what is asked about later is what is shown then. -/
theorem Reported.finish (h : Reported r) (hfin : r.finished = false) {ends fresh : ℕ}
    {stored : List StoredCall} {tag : Option ℕ} (hends : ends ≤ 1)
    (hstored : ∀ call ∈ stored, call.shown = tag) (htag : ∀ n, tag = some n → n < fresh) :
    Reported ⟨true, r.ends + ends, stored, fresh, tag, r.scans, r.scans⟩ := by
  obtain ⟨hzero, -⟩ := h.before hfin
  refine ⟨?_, fun hnot => absurd (show true = false from hnot) (by decide), ?_⟩
  · show r.ends + ends ≤ 1
    omega
  · intro call hcall n hn
    exact ⟨htag n ((hstored call hcall).symm.trans hn), fun _ => rfl⟩

/-- An answer about the stored warnings, or none. -/
theorem Reported.erase (h : Reported r) (i : ℕ) :
    Reported { r with stored := r.stored.eraseIdx i } where
  once := h.once
  before hfin := ⟨(h.before hfin).1, by
    show r.stored.eraseIdx i = []
    rw [(h.before hfin).2]
    rfl⟩
  shown call hcall := h.shown call (List.mem_of_mem_eraseIdx hcall)

/-- Others show an issue, or take it away. -/
theorem Reported.retag (h : Reported r) {fresh scans : ℕ} {tag : Option ℕ} (hfresh : r.fresh ≤ fresh)
    (htag : ∀ n, tag = some n → r.fresh ≤ n) :
    Reported { r with fresh := fresh, tag := tag, scans := scans } where
  once := h.once
  before := h.before
  shown call hcall n hn := by
    have hless := (h.shown call hcall n hn).1
    refine ⟨Nat.lt_of_lt_of_le hless hfresh, fun heq => ?_⟩
    have hge := htag n heq
    omega

end

theorem report_fail (hfin : s.finished = false) (message : String) :
    (fail c s message).report = ⟨true, s.calls.countP Call.isEnd + (if c.onError then 1 else 0),
      s.stored, s.fresh + 1, some s.fresh, s.scans, s.scans⟩ := by
  have hnot : ¬s.finished = true := by
    rw [hfin]
    exact Bool.false_ne_true
  have hcalls : (fail c s message).calls =
      if c.onError then s.calls ++ [.onError message] else s.calls := by
    rw [fail, if_neg hnot]
    rfl
  have hends : (fail c s message).calls.countP Call.isEnd =
      s.calls.countP Call.isEnd + if c.onError then 1 else 0 := by
    rw [hcalls]
    split_ifs
    · rw [List.countP_append]
      rfl
    · rfl
  rw [State.report, hends, fail, if_neg hnot]
  rfl

theorem reported_fail (h : Reported s.report) (message : String) :
    Reported (fail c s message).report := by
  cases hfin : s.finished with
  | true =>
    rw [fail, if_pos hfin]
    exact h
  | false =>
    rw [report_fail hfin]
    refine h.finish hfin ?_ ?_ ?_
    · split_ifs <;> decide
    · intro call hcall
      have hnone := (h.before hfin).2
      have hcall' : call ∈ s.report.stored := hcall
      rw [hnone] at hcall'
      cases hcall'
    · rintro n hn
      cases hn
      exact Nat.lt_succ_self s.fresh

theorem reported_complete (h : Reported s.report) (stats : Stats)
    (issue : Option (ScanIssue Hint)) : Reported (complete c s stats issue).report := by
  cases hfin : s.finished with
  | true =>
    rw [complete, if_pos hfin]
    exact h
  | false =>
    have hnot : ¬s.finished = true := by
      rw [hfin]
      exact Bool.false_ne_true
    have hends : (s.calls ++ [Call.onComplete stats]).countP Call.isEnd =
        s.calls.countP Call.isEnd + 1 := by
      rw [List.countP_append]
      rfl
    have hnone : s.stored = [] := (h.before hfin).2
    rw [complete, if_neg hnot]
    dsimp only [State.report, showIssue, endRun, settleDown]
    rw [hends]
    refine h.finish hfin (Nat.le_refl 1) ?_ ?_
    · intro call hcall
      rw [hnone] at hcall
      split_ifs at hcall with hissue
      · rw [List.mem_singleton.mp hcall]
      · cases hcall
    · intro n hn
      cases hshow : issue.or (warningsIssue c s.store.runWarnings.count
        s.store.runWarnings.recent) with
      | none =>
        rw [hshow] at hn
        cases hn
      | some i =>
        rw [hshow] at hn
        cases hn
        exact Nat.lt_succ_self s.fresh

theorem reported_settleFromStatus (h : Reported s.report) (status : ScanStatus Stats) :
    Reported (settleFromStatus c s status).1.report := by
  cases status with
  | failed reason => exact reported_fail h reason
  | completed stats => exact reported_complete h _ _
  | active | unknown => exact h

theorem reported_onMessage (h : Reported s.report) (now : ℕ)
    (event : RunStreamEvent Stats Data) : Reported (onMessage c s now event).report := by
  cases event with
  | complete stats => exact reported_complete (s := { s with
      lastActivity := now
      receivedAny := true
      reconnects := 0
      store := { s.store with runStalled := false } }) h stats none
  | error message => exact reported_fail (s := { s with
      lastActivity := now
      receivedAny := true
      reconnects := 0
      store := { s.store with runStalled := false } }) h message
  | progress stats =>
    unfold onMessage
    dsimp only
    split_ifs <;> exact h
  | log info message =>
    unfold onMessage
    dsimp only
    split_ifs <;> exact h
  | result data =>
    have hcalls : (s.calls ++ [Call.onResult data]).countP Call.isEnd =
        s.calls.countP Call.isEnd := by
      rw [List.countP_append]
      rfl
    show Reported ⟨s.finished, (s.calls ++ [Call.onResult data]).countP Call.isEnd, s.stored,
      s.fresh, s.store.scanIssue.map Prod.fst, s.scans, s.scansAtEnd⟩
    rw [hcalls]
    exact h
  | queued | ignored => exact h

theorem reported_includeStoredWarnings (h : Reported s.report) (call : StoredCall)
    (stored : Option Warnings) : Reported (includeStoredWarnings c s call stored).report := by
  cases stored with
  | none => exact h
  | some w =>
    unfold includeStoredWarnings
    dsimp only
    split_ifs
    · exact h
    · exact h
    · cases warningsIssue c w.count w.recent with
      | none => exact h.retag (Nat.le_refl _) (by rintro n ⟨⟩)
      | some issue =>
        refine h.retag (Nat.le_succ _) ?_
        rintro n ⟨⟩
        exact Nat.le_refl _

theorem reported_changed (h : Reported s.report) (change : IssueChange Hint)
    (store : Store Stats Hint) (wsRef : Ref) : Reported (changed s change store wsRef).report := by
  cases change with
  | keep => exact h
  | dismiss => exact h.retag (Nat.le_refl _) (by rintro n ⟨⟩)
  | replace issue =>
    refine h.retag (Nat.le_succ _) ?_
    rintro n ⟨⟩
    exact Nat.le_refl _
  | startScan => exact h.retag (Nat.le_refl _) (by rintro n ⟨⟩)

theorem reported_stop (h : Reported s.report) : Reported (stopFollowing s).report := by
  unfold stopFollowing
  split_ifs with hfin
  · exact h
  · have hnone : s.stored = [] := (h.before (Bool.eq_false_iff.mpr hfin)).2
    refine ⟨h.once, fun hnot => absurd (show true = false from hnot) (by decide), ?_⟩
    intro call hcall
    have hcall' : call ∈ s.stored := hcall
    rw [hnone] at hcall'
    cases hcall'

theorem reported_step (h : Reported s.report) (event : Event Stats Data Hint)
    (hstep : step c s event = some t) : Reported t.report := by
  cases event with
  | ticket answer =>
    obtain ⟨-, hstep⟩ := Option.ite_none_left_eq_some.mp hstep
    cases hstep
    split_ifs <;> exact h
  | opened i =>
    obtain ⟨-, hstep⟩ := Option.ite_none_right_eq_some.mp hstep
    cases hstep
    exact h
  | message i now event =>
    obtain ⟨-, hstep⟩ := Option.ite_none_right_eq_some.mp hstep
    cases hstep
    cases event with
    | none => exact h
    | some event => exact reported_onMessage h now event
  | error i =>
    simp only [step] at hstep
    split at hstep <;> cases hstep
    exact h
  | closing i =>
    simp only [step] at hstep
    split at hstep <;> cases hstep
    exact h
  | closed i =>
    simp only [step] at hstep
    split at hstep <;> cases hstep
    split_ifs <;> exact h
  | status i answer =>
    cases hi : s.statuses[i]? with
    | none => simp [step, hi] at hstep
    | some dropped =>
      simp only [step, hi] at hstep
      cases hstep
      have hsettle := reported_settleFromStatus (c := c)
        (s := { s with statuses := s.statuses.eraseIdx i }) h answer
      unfold answered reconnect
      split_ifs <;> exact hsettle
  | reconnectTimer signedIn =>
    obtain ⟨-, hstep⟩ := Option.ite_none_left_eq_some.mp hstep
    cases hstep
    unfold connect
    split_ifs <;> exact h
  | statusTimer now =>
    obtain ⟨-, hstep⟩ := Option.ite_none_right_eq_some.mp hstep
    cases hstep
    unfold checkStatus
    split_ifs <;> exact h
  | stored i answer =>
    cases hi : s.stored[i]? with
    | none => simp [step, hi] at hstep
    | some call =>
      simp only [step, hi] at hstep
      cases hstep
      exact reported_includeStoredWarnings (h.erase i) call answer
  | stop =>
    cases hstep
    exact reported_stop h
  | others change store wsRef =>
    cases hstep
    exact reported_changed h change store wsRef

/-! ### After the end -/

/-- Stored warnings do not come when there was no issue to be replaced and another scan has been
started, and has ended without an issue. -/
def Meets (s : State Stats Data Hint) : Event Stats Data Hint → Prop
  | .stored i answer => ∀ call ∈ s.stored[i]?, call.shown = none →
    s.scans = s.scansAtEnd ∨ s.store.isRunning = true ∨ s.store.scanIssue.isSome = true ∨
      (answer.all fun w => w.count ≤ call.liveCount) = true
  | _ => True

/-- An event of the call itself, rather than of others. -/
def Event.own : Event Stats Data Hint → Bool
  | .others _ _ _ => false
  | _ => true

/-- The stored warnings replace what was shown at the end, which is still on screen; no scan has
been started since. -/
structure Replaces (s t : State Stats Data Hint) : Prop where
  idle : s.store.isRunning = false
  noScan : s.scans = s.scansAtEnd
  shown : ∃ call ∈ s.stored, s.store.scanIssue.map Prod.fst = call.shown
  only : t.store = { s.store with
    runWarnings := t.store.runWarnings
    scanIssue := t.store.scanIssue }

structure Quiet (s t : State Stats Data Hint) : Prop where
  finished : t.finished = true
  calls : t.calls = s.calls
  sockets : t.sockets.length = s.sockets.length
  store : t.store = s.store ∨ Replaces s t

theorem settleFromStatus_finished (hfin : s.finished = true) (status : ScanStatus Stats) :
    settleFromStatus c s status = (s, true) := by
  cases status with
  | failed reason => rw [settleFromStatus, fail, if_pos hfin]
  | completed stats => rw [settleFromStatus, complete, if_pos hfin]
  | active | unknown => rw [settleFromStatus, hfin]

theorem answered_finished (hfin : s.finished = true) (dropped : Bool)
    (status : ScanStatus Stats) : answered c s dropped status = s := by
  rw [answered, settleFromStatus_finished hfin, Bool.not_true, Bool.and_false,
    if_neg Bool.false_ne_true]

/-- The warnings are shown in place of an issue that is still on screen, so that no scan has been
started since; where there was none, the condition says so. -/
theorem quiet_stored {i : ℕ} {call : StoredCall} {answer : Option Warnings}
    (h : Reported s.report) (hfin : s.finished = true) (hi : s.stored[i]? = some call)
    (hmeets : Meets s (.stored i answer)) :
    Quiet s (includeStoredWarnings c { s with stored := s.stored.eraseIdx i } call answer) := by
  cases answer with
  | none => exact ⟨hfin, rfl, rfl, Or.inl rfl⟩
  | some w =>
    unfold includeStoredWarnings
    dsimp only
    split_ifs with hcount hother
    · exact ⟨hfin, rfl, rfl, Or.inl rfl⟩
    · exact ⟨hfin, rfl, rfl, Or.inl rfl⟩
    · rw [not_or, not_not, Bool.not_eq_true] at hother
      refine ⟨hfin, rfl, rfl, Or.inr ⟨hother.2, ?_, ?_, rfl⟩⟩
      · cases hshown : call.shown with
        | some n =>
          exact (h.shown call (List.mem_of_getElem? hi) n hshown).2 (hother.1.trans hshown)
        | none =>
          rcases hmeets call hi hshown with hscans | hrunning | hissue | hless
          · exact hscans
          · rw [hother.2] at hrunning
            cases hrunning
          · rw [hshown, Option.map_eq_none_iff] at hother
            rw [hother.1] at hissue
            cases hissue
          · exact absurd (by simpa using hless) hcount
      · exact ⟨call, List.mem_of_getElem? hi, hother.1⟩

theorem quiet_step (hsingle : Single s.chain) (h : Reported s.report) (hfin : s.finished = true)
    (event : Event Stats Data Hint) (hown : event.own = true) (hmeets : Meets s event)
    (hstep : step c s event = some t) : Quiet s t := by
  -- the socket has begun to close
  have hshut {i : ℕ} {st : SocketState} (hi : s.sockets[i]? = some st)
      (hne : st ≠ .closing ∧ st ≠ .closed) : False := by
    rcases hsingle.shut hfin st (List.mem_of_getElem? hi) with heq | heq
    · exact hne.1 heq
    · exact hne.2 heq
  cases event with
  | ticket answer =>
    obtain ⟨-, hstep⟩ := Option.ite_none_left_eq_some.mp hstep
    cases hstep
    rw [if_pos hfin]
    exact ⟨hfin, rfl, rfl, Or.inl rfl⟩
  | opened i =>
    obtain ⟨hi, -⟩ := Option.ite_none_right_eq_some.mp hstep
    exact (hshut hi ⟨by decide, by decide⟩).elim
  | message i now event =>
    obtain ⟨hi, -⟩ := Option.ite_none_right_eq_some.mp hstep
    exact (hshut hi ⟨by decide, by decide⟩).elim
  | error i =>
    simp only [step] at hstep
    split at hstep <;> cases hstep
    exact ⟨hfin, rfl, List.length_modify _ _ _, Or.inl rfl⟩
  | closing i =>
    simp only [step] at hstep
    split at hstep <;> cases hstep
    exact ⟨hfin, rfl, List.length_modify _ _ _, Or.inl rfl⟩
  | closed i =>
    simp only [step] at hstep
    split at hstep <;> cases hstep
    have hleft : (s.finished || decide (s.ws ≠ some i)) = true := by
      rw [hfin]
      rfl
    rw [if_pos hleft]
    exact ⟨hfin, rfl, List.length_set, Or.inl rfl⟩
  | status i answer =>
    cases hi : s.statuses[i]? with
    | none => simp [step, hi] at hstep
    | some dropped =>
      simp only [step, hi] at hstep
      cases hstep
      have hsame := answered_finished (c := c)
        (s := { s with statuses := s.statuses.eraseIdx i }) hfin dropped answer
      rw [hsame]
      exact ⟨hfin, rfl, rfl, Or.inl rfl⟩
  | reconnectTimer signedIn =>
    obtain ⟨hpos, -⟩ := Option.ite_none_left_eq_some.mp hstep
    exact absurd (hsingle.timer hfin) hpos
  | statusTimer now =>
    obtain ⟨htimer, -⟩ := Option.ite_none_right_eq_some.mp hstep
    have hoff : s.statusTimer = false := hsingle.status hfin
    rw [hoff] at htimer
    cases htimer
  | stored i answer =>
    cases hi : s.stored[i]? with
    | none => simp [step, hi] at hstep
    | some call =>
      simp only [step, hi] at hstep
      cases hstep
      exact quiet_stored h hfin hi hmeets
  | stop =>
    cases hstep
    rw [stopFollowing, if_pos hfin]
    exact ⟨hfin, rfl, rfl, Or.inl rfl⟩
  | others change store wsRef => cases hown

/-- Others do nothing for this call. -/
theorem others_step (change : IssueChange Hint) (store : Store Stats Hint) (wsRef : Ref) :
    (changed s change store wsRef).finished = s.finished ∧
      (changed s change store wsRef).calls = s.calls ∧
      (changed s change store wsRef).sockets = s.sockets := by
  cases change <;> exact ⟨rfl, rfl, rfl⟩

/-- What a state promises for what follows. -/
structure Settled (c : Config Hint) (s : State Stats Data Hint) : Prop where
  once : s.calls.countP Call.isEnd ≤ 1
  socket : s.sockets.countP SocketState.live ≤ 1
  /-- The end is reported, and following stopped, by what finishes the call. -/
  ended : s.finished = false → s.calls.countP Call.isEnd = 0
  stopped : ∀ t, step c s .stop = some t → t.finished = true ∧ t.calls = s.calls
  quiet : s.finished = true → ∀ event t, event.own = true → Meets s event →
    step c s event = some t → Quiet s t
  after : s.finished = true → ∀ t, ReachesUnder (step c) Meets s t →
    t.finished = true ∧ t.calls = s.calls ∧ t.sockets.length = s.sockets.length

theorem invariant_step (h : Single s.chain ∧ Reported s.report) (event : Event Stats Data Hint)
    (hstep : step c s event = some t) : Single t.chain ∧ Reported t.report :=
  ⟨single_step h.1 event hstep, reported_step h.2 event hstep⟩

theorem finished_after (h : Single s.chain ∧ Reported s.report) (hfin : s.finished = true)
    (hreach : ReachesUnder (step c) Meets s t) :
    t.finished = true ∧ t.calls = s.calls ∧ t.sockets.length = s.sockets.length := by
  have hall : (Single t.chain ∧ Reported t.report) ∧
      t.finished = true ∧ t.calls = s.calls ∧ t.sockets.length = s.sockets.length := by
    refine ReachesUnder.invariant (I := fun u => (Single u.chain ∧ Reported u.report) ∧
      u.finished = true ∧ u.calls = s.calls ∧ u.sockets.length = s.sockets.length)
      ⟨h, hfin, rfl, rfl⟩ ?_ hreach
    rintro u event v ⟨hu, hufin, hcalls, hsockets⟩ hmeets hstep
    refine ⟨invariant_step hu event hstep, ?_⟩
    cases hown : event.own with
    | true =>
      have hquiet := quiet_step hu.1 hu.2 hufin event hown hmeets hstep
      exact ⟨hquiet.finished, hquiet.calls.trans hcalls, hquiet.sockets.trans hsockets⟩
    | false =>
      cases event with
      | others change store wsRef =>
        cases hstep
        obtain ⟨hfin', hcalls', hsockets'⟩ := others_step (s := u) change store wsRef
        rw [hfin', hcalls', hsockets']
        exact ⟨hufin, hcalls, hsockets⟩
      | _ => cases hown
  exact hall.2

theorem settled (h : Single s.chain ∧ Reported s.report) : Settled c s where
  once := h.2.once
  socket := h.1.socket
  ended hfin := (h.2.before hfin).1
  stopped t hstep := by
    cases hstep
    unfold stopFollowing
    split_ifs with hfin
    · exact ⟨hfin, rfl⟩
    · exact ⟨rfl, rfl⟩
  quiet hfin event _ hown hmeets hstep := quiet_step h.1 h.2 hfin event hown hmeets hstep
  after hfin _ hreach := finished_after h hfin hreach

theorem invariant_start (store : Store Stats Hint) (wsRef : Ref) (fresh now : ℕ)
    (signedIn : Bool) :
    Single (start store wsRef fresh now signedIn : State Stats Data Hint).chain ∧
      Reported (start store wsRef fresh now signedIn : State Stats Data Hint).report := by
  constructor
  · refine single_connect ?_ rfl rfl signedIn
    refine ⟨fun _ => Nat.zero_le 1, Nat.zero_le 1, ?_, ?_, ?_, ?_⟩
    · intro i st hst
      cases hst
    · intro hfin
      cases hfin
    · intro hfin
      cases hfin
    · intro hfin
      cases hfin
  · unfold start connect
    split_ifs
    · exact ⟨Nat.zero_le 1, fun _ => ⟨rfl, rfl⟩, fun call hcall => absurd hcall List.not_mem_nil⟩
    · exact ⟨Nat.zero_le 1, fun _ => ⟨rfl, rfl⟩, fun call hcall => absurd hcall List.not_mem_nil⟩

/-- One report of the end at most, one socket at most, and quiet after the end. -/
theorem follows_once (c : Config Hint) (store : Store Stats Hint) (wsRef : Ref) (fresh now : ℕ)
    (signedIn : Bool) (s : State Stats Data Hint)
    (h : ReachesUnder (step c) Meets (start store wsRef fresh now signedIn) s) : Settled c s := by
  refine settled (ReachesUnder.invariant (I := fun s => Single s.chain ∧ Reported s.report)
    (invariant_start store wsRef fresh now signedIn) ?_ h)
  intro t event u ht _ hstep
  exact invariant_step ht event hstep

/-- A store without an issue. -/
def clear (isRunning : Bool) : Store ℕ ℕ :=
  ⟨isRunning, false, false, false, none, ⟨0, []⟩, 0⟩

def config : Config ℕ := ⟨fun _ => none, true⟩

theorem follows_once_completed : ∃ s : State ℕ ℕ ℕ,
    (s.finished = true ∧ s.calls.countP Call.isEnd = 1) ∧ Settled config s := by
  have hopened : ReachesUnder (step config) Meets
      (start (clear true) .null 0 0 false : State ℕ ℕ ℕ) _ := ReachesUnder.tail (a := .opened 0) Relation.ReflTransGen.refl trivial rfl
  have hcompleted := hopened.tail
    (a := (.message 0 1 (some (.complete 7)) : Event ℕ ℕ ℕ)) (by exact trivial) rfl
  exact ⟨_, ⟨rfl, rfl⟩, follows_once config (clear true) .null 0 0 false _ hcompleted⟩

/-- The scan completes without warnings; another one is started and ends. -/
def later : List (Event ℕ ℕ ℕ) :=
  [.opened 0, .message 0 1 (some (.complete 7)), .others .startScan (clear true) .other,
    .others .keep (clear false) .other]

/-- The stored warnings of the first scan are shown after the second. -/
theorem shows_after_another : ∃ s t : State ℕ ℕ ℕ,
    Reaches (step config) (start (clear true) .null 0 0 false) s ∧ s.finished = true ∧
    step config s (.stored 0 (some ⟨1, ["skipped"]⟩)) = some t ∧ s.scansAtEnd < s.scans ∧
    s.store.scanIssue.isSome = false ∧ t.store.scanIssue.isSome = true := by
  obtain ⟨s, hreach, htest⟩ := reachesUnder_of_test (step config) (fun _ _ => True)
    (start (clear true) .null 0 0 false) later
    (fun s => s.finished && decide (s.scansAtEnd < s.scans) && !s.store.scanIssue.isSome &&
      (step config s (.stored 0 (some ⟨1, ["skipped"]⟩))).any fun t =>
        t.store.scanIssue.isSome) (by decide)
  simp only [Bool.and_eq_true, Bool.not_eq_true', decide_eq_true_eq] at htest
  obtain ⟨⟨⟨hfin, hscans⟩, hnone⟩, hstep⟩ := htest
  cases ht : step config s (.stored 0 (some ⟨1, ["skipped"]⟩)) with
  | none =>
    rw [ht] at hstep
    cases hstep
  | some t =>
    rw [ht] at hstep
    exact ⟨s, t, hreach, hfin, ht, hscans, hnone, hstep⟩

end Swazz.Following
