import Mathlib.Data.List.Nodup
import Mathlib.Data.List.Pairwise
import Mathlib.Tactic.Push
import Swazz.DeliveryLog

/-! The log keeps what may still be lost, as long as no log takes up the numbers of one that was
discarded. -/
namespace Swazz.AgentDelivery

open StepSystem BinarySearch

variable {δ : Type} {runID : String} {rl : RunLog δ} {h : History δ} {msg : WSEventOut δ}
  {unacked u : List (WSEventOut δ)} {seq : ℕ} {now : ℤ} {keep : Bool}

/-! ## One log -/

theorem goes_on_le (hl : unacked.Pairwise fun a b => a.Seq < b.Seq) :
    unacked.Pairwise fun a b => decide (seq ≤ a.Seq) = true → decide (seq ≤ b.Seq) = true := by
  refine hl.imp fun hlt hle => ?_
  have hle := of_decide_eq_true hle
  exact decide_eq_true (by omega)

theorem goes_on_lt (hl : unacked.Pairwise fun a b => a.Seq < b.Seq) :
    unacked.Pairwise fun a b => decide (seq < a.Seq) = true → decide (seq < b.Seq) = true := by
  refine hl.imp fun hlt hle => ?_
  have hle := of_decide_eq_true hle
  exact decide_eq_true (by omega)

theorem exists_of_insertUnacked_none (hnone : insertUnacked unacked msg = none) :
    ∃ e ∈ unacked, e.Seq = msg.Seq := by
  dsimp only [insertUnacked] at hnone
  split_ifs at hnone with hany
  cases hat : unacked[first (fun e => msg.Seq ≤ e.Seq) unacked]? with
  | none =>
    rw [hat] at hany
    cases hany
  | some e =>
    rw [hat] at hany
    exact ⟨e, List.mem_of_getElem? hat, of_decide_eq_true hany⟩

theorem mem_insertUnacked (hsome : insertUnacked unacked msg = some u) (e : WSEventOut δ) :
    e ∈ u ↔ e = msg ∨ e ∈ unacked := by
  dsimp only [insertUnacked] at hsome
  split_ifs at hsome with hany
  obtain rfl := Option.some.inj hsome
  rw [List.mem_append, List.mem_cons, or_left_comm, ← List.mem_append, List.take_append_drop]

theorem increasing_insertUnacked (hl : unacked.Pairwise fun a b => a.Seq < b.Seq)
    (hsome : insertUnacked unacked msg = some u) : u.Pairwise fun a b => a.Seq < b.Seq := by
  dsimp only [insertUnacked] at hsome
  split_ifs at hsome with hany
  obtain rfl := Option.some.inj hsome
  have hbelow : ∀ a ∈ unacked.take (first (fun e => msg.Seq ≤ e.Seq) unacked), a.Seq < msg.Seq := by
    intro a ha
    exact Nat.lt_of_not_le (of_decide_eq_false (not_of_mem_take (goes_on_le hl) ha))
  have habove : ∀ b ∈ unacked.drop (first (fun e => msg.Seq ≤ e.Seq) unacked), msg.Seq < b.Seq := by
    intro b hb
    have hle := of_decide_eq_true (of_mem_drop (goes_on_le hl) hb)
    apply Nat.lt_of_le_of_ne hle
    intro heq
    -- the first of the later ones does not have its number, and is not above the others
    cases hdrop : unacked.drop (first (fun e => msg.Seq ≤ e.Seq) unacked) with
    | nil =>
      rw [hdrop] at hb
      cases hb
    | cons c rest =>
      have hc : unacked[first (fun e => msg.Seq ≤ e.Seq) unacked]? = some c := by
        rw [← List.head?_drop, hdrop]
        rfl
      have hne : c.Seq ≠ msg.Seq := by
        intro hceq
        apply hany
        rw [hc]
        exact decide_eq_true hceq
      have hcle := of_decide_eq_true (of_mem_drop (goes_on_le hl) (hdrop ▸ List.mem_cons_self))
      have hpair := hl.sublist (List.drop_sublist (first (fun e => msg.Seq ≤ e.Seq) unacked) unacked)
      rw [hdrop] at hpair hb
      rcases List.mem_cons.mp hb with rfl | hmem
      · exact hne heq.symm
      · have hlt := (List.pairwise_cons.mp hpair).1 b hmem
        omega
  rw [List.pairwise_append, List.pairwise_cons]
  refine ⟨hl.sublist (List.take_sublist _ _), ⟨habove, hl.sublist (List.drop_sublist _ _)⟩, ?_⟩
  intro a ha b hb
  rcases List.mem_cons.mp hb with rfl | hb
  · exact hbelow a ha
  · exact Nat.lt_trans (hbelow a ha) (habove b hb)

theorem mem_ack (hl : rl.unacked.Pairwise fun a b => a.Seq < b.Seq) (e : WSEventOut δ) :
    e ∈ (rl.ack seq now).unacked ↔ e ∈ rl.unacked ∧ seq < e.Seq := by
  constructor
  · intro he
    exact ⟨List.mem_of_mem_drop he, of_decide_eq_true (of_mem_drop (goes_on_lt hl) he)⟩
  · rintro ⟨he, hlt⟩
    rw [← List.take_append_drop (first (fun e => seq < e.Seq) rl.unacked) rl.unacked] at he
    rcases List.mem_append.mp he with he | he
    · exact absurd hlt (of_decide_eq_false (not_of_mem_take (goes_on_lt hl) he))
    · exact he

/-- With what its log numbered, each of them once. -/
structure Known (runID : String) (rl : RunLog δ) (h : History δ) : Prop
    extends Keeps runID rl h where
  named : ∀ e ∈ h.stamped, e.RunID = runID ∧ e.Exec = rl.exec ∧ e.Seq ≤ rl.nextSeq
  unique : ∀ a ∈ h.stamped, ∀ b ∈ h.stamped, a.Seq = b.Seq → a = b
  numbered : ∀ e ∈ h.sent, e ∈ h.stamped

theorem known_new (exec : String) : Known runID (RunLog.new exec now : RunLog δ) ⟨[], [], []⟩ where
  increasing := List.Pairwise.nil
  own _ he := absurd he List.not_mem_nil
  bounds _ he := absurd he List.not_mem_nil
  written := Nat.le_refl 0
  capped := Nat.zero_le _
  complete _ he := absurd he List.not_mem_nil
  sent _ he := absurd he List.not_mem_nil
  trims _ ht := absurd ht List.not_mem_nil
  named _ he := absurd he List.not_mem_nil
  unique _ ha := absurd ha List.not_mem_nil
  numbered _ he := absurd he List.not_mem_nil

theorem Known.number (hk : Known runID rl h) (e : WSEventOut δ) (now : ℤ) (hrun : e.RunID = runID)
    (hexec : e.Exec = rl.exec) (hseq : e.Seq = rl.nextSeq + 1) :
    Known runID { rl with nextSeq := rl.nextSeq + 1, touched := now }
      { h with stamped := h.stamped ++ [e] } where
  increasing := hk.increasing
  own := hk.own
  bounds := hk.bounds
  written := Nat.le_succ_of_le hk.written
  capped := hk.capped
  complete := hk.complete
  sent := hk.sent
  trims := hk.trims
  named a ha := by
    rcases List.mem_append.mp ha with ha | ha
    · obtain ⟨hr, he, hle⟩ := hk.named a ha
      exact ⟨hr, he, Nat.le_succ_of_le hle⟩
    · rw [List.mem_singleton.mp ha]
      exact ⟨hrun, hexec, Nat.le_of_eq hseq⟩
  unique a ha b hb heq := by
    rcases List.mem_append.mp ha with ha | ha <;> rcases List.mem_append.mp hb with hb | hb
    · exact hk.unique a ha b hb heq
    · rw [List.mem_singleton.mp hb] at heq
      have hle := (hk.named a ha).2.2
      omega
    · rw [List.mem_singleton.mp ha] at heq
      have hle := (hk.named b hb).2.2
      omega
    · rw [List.mem_singleton.mp ha, List.mem_singleton.mp hb]
  numbered a ha := List.mem_append_left _ (hk.numbered a ha)

theorem Known.disable (hk : Known runID rl h) :
    Known runID { rl with unacked := [] } { h with sent := [], trims := [] } where
  increasing := List.Pairwise.nil
  own _ he := absurd he List.not_mem_nil
  bounds _ he := absurd he List.not_mem_nil
  written := hk.written
  capped := Nat.zero_le _
  complete _ he := absurd he List.not_mem_nil
  sent _ he := absurd he List.not_mem_nil
  trims _ ht := absurd ht List.not_mem_nil
  named := hk.named
  unique := hk.unique
  numbered _ he := absurd he List.not_mem_nil

theorem Known.ack (hk : Known runID rl h) : Known runID (rl.ack seq now) h where
  increasing := hk.increasing.sublist (List.drop_sublist _ _)
  own e he := hk.own e ((mem_ack hk.increasing e).mp he).1
  bounds e he := by
    obtain ⟨he, hlt⟩ := (mem_ack hk.increasing e).mp he
    obtain ⟨hacked, hwritten⟩ := hk.bounds e he
    exact ⟨Nat.max_lt.mpr ⟨hacked, hlt⟩, hwritten⟩
  written := hk.written
  capped := by
    refine Nat.le_trans ?_ hk.capped
    exact (List.drop_sublist _ _).length_le
  complete e he hlt := by
    obtain ⟨hacked, hseq⟩ := Nat.max_lt.mp hlt
    refine (hk.complete e he hacked).imp_left fun hmem => ?_
    exact (mem_ack hk.increasing e).mpr ⟨hmem, hseq⟩
  sent e he := hk.sent e ((mem_ack hk.increasing e).mp he).1
  trims := hk.trims
  named := hk.named
  unique := hk.unique
  numbered := hk.numbered

theorem Known.wrote (hk : Known runID rl h) (now : ℤ) (hseq : seq ≤ rl.nextSeq) :
    Known runID { rl with writtenSeq := max rl.writtenSeq seq, touched := now } h :=
  { hk with
    bounds := fun e he => by
      obtain ⟨hacked, hwritten⟩ := hk.bounds e he
      exact ⟨hacked, Nat.le_trans hwritten (Nat.le_max_left _ _)⟩
    written := Nat.max_le.mpr ⟨hk.written, hseq⟩ }

theorem Known.numbered_append (hk : Known runID rl h) (hmsg : msg ∈ h.stamped) :
    ∀ e ∈ h.sent ++ [msg], e ∈ h.stamped := by
  intro e he
  rcases List.mem_append.mp he with he | he
  · exact hk.numbered e he
  · rwa [List.mem_singleton.mp he]

/-- A message that is acknowledged or kept already changes nothing. -/
theorem Known.again (hk : Known runID rl h) (hmsg : msg ∈ h.stamped)
    (hsafe : msg.Seq ≤ rl.ackedSeq ∨ msg ∈ rl.unacked) :
    Known runID rl { h with sent := h.sent ++ [msg] } :=
  { hk with
    complete := fun e he hlt => by
      rcases List.mem_append.mp he with he | he
      · exact hk.complete e he hlt
      · rw [List.mem_singleton.mp he] at hlt ⊢
        rcases hsafe with hle | hmem
        · omega
        · exact Or.inl hmem
    sent := fun e he => List.mem_append_left _ (hk.sent e he)
    numbered := hk.numbered_append hmsg }

theorem length_drop_tooOld (u : List (WSEventOut δ)) :
    (u.drop (tooOld u)).length ≤ maxUnackedPerRun := by
  rw [List.length_drop, tooOld]
  split_ifs <;> omega

theorem lengths_of_tooOld (hne : tooOld u ≠ 0) :
    maxUnackedPerRun < (u.take (tooOld u)).length + (u.drop (tooOld u)).length ∧
      (u.drop (tooOld u)).length = maxUnackedPerRun / 2 := by
  rw [← List.length_append, List.take_append_drop, List.length_drop]
  unfold tooOld at hne ⊢
  split_ifs at hne ⊢ with hlt
  · exact ⟨hlt, by omega⟩
  · exact absurd rfl hne

theorem Known.send (hk : Known runID rl h) (hmsg : msg ∈ h.stamped) (hlt : rl.ackedSeq < msg.Seq)
    (hle : msg.Seq ≤ rl.writtenSeq) (hu : insertUnacked rl.unacked msg = some u) {dropped : Bool} :
    Known runID { rl with unacked := u.drop (tooOld u), dropped := dropped }
      { h with
        sent := h.sent ++ [msg]
        trims := h.trims ++
          if tooOld u = 0 then [] else [(u.take (tooOld u), u.drop (tooOld u))] } := by
  have hincreasing := increasing_insertUnacked hk.increasing hu
  have hmem : ∀ e ∈ u.drop (tooOld u), e = msg ∨ e ∈ rl.unacked := fun e he =>
    (mem_insertUnacked hu e).mp (List.mem_of_mem_drop he)
  refine ⟨⟨hincreasing.sublist (List.drop_sublist _ _), ?_, ?_, hk.written,
    length_drop_tooOld u, ?_, ?_, ?_⟩, hk.named, hk.unique, hk.numbered_append hmsg⟩
  · intro e he
    rcases hmem e he with rfl | he
    · obtain ⟨hrun, hexec, -⟩ := hk.named e hmsg
      exact ⟨hrun, hexec⟩
    · exact hk.own e he
  · intro e he
    rcases hmem e he with rfl | he
    · exact ⟨hlt, hle⟩
    · exact hk.bounds e he
  · intro e he hacked
    have hbefore : e ∈ u ∨ ∃ t ∈ h.trims, e ∈ t.1 := by
      rw [mem_insertUnacked hu]
      rcases List.mem_append.mp he with he | he
      · exact (hk.complete e he hacked).imp_left Or.inr
      · exact Or.inl (Or.inl (List.mem_singleton.mp he))
    rcases hbefore with hin | ⟨t, ht, hin⟩
    · rw [← List.take_append_drop (tooOld u) u] at hin
      rcases List.mem_append.mp hin with hin | hin
      · -- it is one of those that are dropped now
        refine Or.inr ⟨(u.take (tooOld u), u.drop (tooOld u)), List.mem_append_right _ ?_, hin⟩
        have hne : tooOld u ≠ 0 := by
          intro hzero
          rw [hzero] at hin
          cases hin
        rw [if_neg hne]
        exact List.mem_cons_self
      · exact Or.inl hin
    · exact Or.inr ⟨t, List.mem_append_left _ ht, hin⟩
  · intro e he
    rcases hmem e he with rfl | he
    · exact List.mem_append_right _ List.mem_cons_self
    · exact List.mem_append_left _ (hk.sent e he)
  · intro t ht
    rcases List.mem_append.mp ht with ht | ht
    · exact hk.trims t ht
    · split_ifs at ht with hzero
      · cases ht
      · rw [List.mem_singleton.mp ht]
        obtain ⟨hlong, hhalf⟩ := lengths_of_tooOld hzero
        rw [← List.take_append_drop (tooOld u) u] at hincreasing
        exact ⟨hlong, hhalf, (List.pairwise_append.mp hincreasing).2.2⟩

theorem Known.write (hk : Known runID rl h) (keep : Bool) (now : ℤ) (hmsg : msg ∈ h.stamped) :
    Known runID (rl.written msg keep now) (h.written rl msg keep) := by
  have hwrote := hk.wrote now (hk.named msg hmsg).2.2
  unfold RunLog.written History.written
  cases keep with
  | false => exact hwrote
  | true =>
    dsimp only
    rw [if_pos rfl]
    unfold RunLog.trims
    by_cases hle : msg.Seq ≤ rl.ackedSeq
    · rw [if_pos (Or.inr hle), if_pos hle, List.append_nil]
      exact hwrote.again hmsg (Or.inl hle)
    · rw [if_neg (by simpa using hle), if_neg hle]
      cases hu : insertUnacked rl.unacked msg with
      | none =>
        -- the kept message with its number is the message itself
        obtain ⟨e, he, heq⟩ := exists_of_insertUnacked_none hu
        have hsame := hk.unique e (hk.numbered e (hk.sent e he)) msg hmsg heq
        dsimp only
        rw [List.append_nil]
        exact hwrote.again hmsg (Or.inr (hsame ▸ he))
      | some u =>
        exact hwrote.send hmsg (Nat.lt_of_not_le hle) (Nat.le_max_right _ _) hu

/-! ## Runs -/

/-- A write for the present execution of a run is one of a message that its log numbered, and the
numbers do not run out. -/
def Current (s : State δ) : Action δ → Prop
  | .written msg _ _ => ∀ rl, s.runs msg.RunID = some rl → rl.exec = msg.Exec →
      msg ∈ (s.hist msg.RunID).stamped
  | .stamp msg _ _ => ∀ rl, s.runs msg.RunID = some rl → rl.nextSeq + 1 < 2 ^ 64
  | _ => True

def Inv (s : State δ) : Prop :=
  ∀ runID rl, s.runs runID = some rl → Known runID rl (s.hist runID)

variable {s t : State δ}

/-- A change to the log and the history of one run. -/
theorem Inv.update (hs : Inv s) {runID : String} {rl : RunLog δ} {h : History δ}
    (hk : Known runID rl h) {t : State δ}
    (hruns : t.runs = Function.update s.runs runID (some rl))
    (hhist : t.hist = Function.update s.hist runID h) : Inv t := by
  intro r rl' hrl
  rw [hruns] at hrl
  rw [hhist]
  by_cases hr : r = runID
  · subst hr
    rw [Function.update_self] at hrl ⊢
    rwa [← Option.some.inj hrl]
  · rw [Function.update_of_ne hr] at hrl ⊢
    exact hs r rl' hrl

theorem Inv.same (hs : Inv s) (runID : String) {t : State δ} (hruns : t.runs = s.runs)
    (hhist : t.hist = Function.update s.hist runID (s.hist runID)) : Inv t := by
  intro r rl hrl
  rw [hhist, Function.update_eq_self]
  exact hs r rl (hruns ▸ hrl)

theorem Inv.stamp {exec : String} (hs : Inv s) (hG : Current s (.stamp msg exec now))
    (ht : step s (.stamp msg exec now) = some t) : Inv t := by
  cases hrl : s.runs msg.RunID with
  | none =>
    simp only [AgentDelivery.step, DeliveryLog.stamp, hrl, DeliveryLog.number] at ht
    obtain rfl := Option.some.inj ht
    have hnew : Known msg.RunID (RunLog.new (if msg.Exec = "" then exec else msg.Exec) now)
      (⟨[], [], []⟩ : History δ) := known_new _
    exact hs.update (hnew.number { msg with Seq := 1, Exec := _ } now rfl rfl rfl) rfl
      (by simp only [State.stampedIn, hrl]; rfl)
  | some rl =>
    have hwrap : (rl.nextSeq + 1) % 2 ^ 64 = rl.nextSeq + 1 := Nat.mod_eq_of_lt (hG rl hrl)
    by_cases hlate : msg.Exec ≠ "" ∧ msg.Exec ≠ rl.exec
    · simp only [AgentDelivery.step, DeliveryLog.stamp, hrl, if_pos hlate] at ht
      obtain rfl := Option.some.inj ht
      exact hs
    · simp only [AgentDelivery.step, DeliveryLog.stamp, hrl, if_neg hlate, DeliveryLog.number,
        hwrap] at ht
      obtain rfl := Option.some.inj ht
      exact hs.update ((hs msg.RunID rl hrl).number
          { msg with Seq := rl.nextSeq + 1, Exec := rl.exec } now rfl rfl rfl) rfl
        (by simp only [State.stampedIn, hrl])

theorem Inv.step {a : Action δ} (hs : Inv s) (hG : Current s a) (ht : step s a = some t) :
    Inv t := by
  cases a with
  | setEnabled enabled =>
    obtain rfl := Option.some.inj ht
    intro r rl hrl
    obtain ⟨rl', hrl', rfl⟩ := Option.map_eq_some_iff.mp hrl
    cases enabled with
    | true => exact hs r rl' hrl'
    | false => exact (hs r rl' hrl').disable
  | reset runID exec now =>
    obtain rfl := Option.some.inj ht
    exact hs.update (known_new exec) rfl rfl
  | stamp msg exec now => exact hs.stamp hG ht
  | written msg sent now =>
    obtain rfl := Option.some.inj ht
    cases hrl : s.runs msg.RunID with
    | none =>
      exact hs.same msg.RunID (by simp only [DeliveryLog.written, hrl])
        (by simp only [State.writtenIn, hrl])
    | some rl =>
      by_cases hexec : rl.exec = msg.Exec
      · have hwrite := (hs msg.RunID rl hrl).write (s.enabled && sent) now (hG rl hrl hexec)
        exact hs.update hwrite (by simp only [DeliveryLog.written, hrl, if_pos hexec]; rfl)
          (by simp only [State.writtenIn, hrl, if_pos hexec])
      · exact hs.same msg.RunID (by simp only [DeliveryLog.written, hrl, if_neg hexec])
          (by simp only [State.writtenIn, hrl, if_neg hexec])
  | ack runID exec seq now =>
    obtain rfl := Option.some.inj ht
    have hhist : s.hist = Function.update s.hist runID (s.hist runID) :=
      (Function.update_eq_self _ _).symm
    cases hrl : s.runs runID with
    | none => exact hs.same runID (by simp only [DeliveryLog.ack, hrl]) hhist
    | some rl =>
      by_cases hexec : rl.exec = exec
      · exact hs.update (hs runID rl hrl).ack
          (by simp only [DeliveryLog.ack, hrl, if_pos hexec]; rfl) hhist
      · exact hs.same runID (by simp only [DeliveryLog.ack, hrl, if_neg hexec]) hhist
  | gc isActive now =>
    obtain rfl := Option.some.inj ht
    intro r rl hrl
    exact hs r rl (Option.filter_eq_some_iff.mp hrl).1

/-! ## The replay -/

theorem flatMap_eq_of_nodup {ι α : Type} {f : ι → List α} {l : List ι} {i : ι} (hl : l.Nodup)
    (hi : i ∈ l ∨ f i = []) (hf : ∀ j ∈ l, j ≠ i → f j = []) : l.flatMap f = f i := by
  induction l with
  | nil => exact (hi.resolve_left List.not_mem_nil).symm
  | cons j l ih =>
    obtain ⟨hnot, hl⟩ := List.nodup_cons.mp hl
    rw [List.flatMap_cons]
    by_cases hji : j = i
    · subst hji
      have hrest : l.flatMap f = [] := by
        rw [List.flatMap_eq_nil_iff]
        intro k hk
        exact hf k (List.mem_cons_of_mem _ hk) fun heq => hnot (heq ▸ hk)
      rw [hrest, List.append_nil]
    · rw [hf j List.mem_cons_self hji, List.nil_append]
      refine ih hl (hi.imp_left fun hmem => ?_) fun k hk => hf k (List.mem_cons_of_mem _ hk)
      exact (List.mem_cons.mp hmem).resolve_left fun heq => hji heq.symm

theorem filter_replay (hs : Inv s) {order : List String} {isActive : String → Bool}
    (horder : order.Nodup) (hall : ∀ runID, (s.runs runID).isSome → runID ∈ order)
    (runID : String) :
    (s.replay order isActive).filter (·.RunID = runID) = s.unacked runID := by
  have hown : ∀ r, ∀ e ∈ s.unacked r, e.RunID = r := by
    intro r e he
    unfold DeliveryLog.unacked at he
    cases hrl : s.runs r with
    | none =>
      rw [hrl] at he
      cases he
    | some rl =>
      rw [hrl] at he
      exact ((hs r rl hrl).own e he).1
  have hself : (s.unacked runID).filter (·.RunID = runID) = s.unacked runID :=
    List.filter_eq_self.mpr fun e he => decide_eq_true (hown runID e he)
  unfold DeliveryLog.replay
  rw [List.filter_flatMap]
  refine (flatMap_eq_of_nodup (i := runID) ?_ ?_ ?_).trans hself
  · exact (List.mergeSort_perm _ _).nodup_iff.mpr (horder.filter _)
  · rw [List.mem_mergeSort, List.mem_filter]
    by_cases hempty : s.unacked runID = []
    · exact Or.inr (by simp [hempty])
    · refine Or.inl ⟨hall runID ?_, by simpa using hempty⟩
      cases hrl : s.runs runID with
      | none => exact absurd (by simp [DeliveryLog.unacked, hrl]) hempty
      | some rl => rfl
  · intro r _ hne
    refine List.filter_eq_nil_iff.mpr fun e he => ?_
    simpa [hown r e he] using hne

theorem Inv.sound (hs : Inv s) : Sound s where
  keeps runID rl hrl := (hs runID rl hrl).toKeeps
  replay _ _ horder hall runID := filter_replay hs horder hall runID

theorem log_keeps_what_may_be_lost (h : ReachesUnder step Current State.new s) : Sound s := by
  have hnew : Inv (State.new : State δ) := fun _ _ hrl => by cases hrl
  exact (h.invariant hnew fun _ _ _ hs hG ht => hs.step hG ht).sound

instance decidableCurrent [DecidableEq δ] (s : State δ) (a : Action δ) : Decidable (Current s a) :=
  match a with
  | .written msg _ _ => inferInstanceAs (Decidable (∀ rl, s.runs msg.RunID = some rl →
      rl.exec = msg.Exec → msg ∈ (s.hist msg.RunID).stamped))
  | .stamp msg _ _ => inferInstanceAs (Decidable (∀ rl, s.runs msg.RunID = some rl →
      rl.nextSeq + 1 < 2 ^ 64))
  | .setEnabled _ | .reset _ _ _ | .ack _ _ _ _ | .gc _ _ => isTrue trivial

/-- The first event is carried over and written after the second one. -/
def carried : List (Action ℕ) :=
  [.setEnabled true, .reset "run" "e" 0, .stamp ⟨"run", 7, 0, ""⟩ "" 1,
    .stamp ⟨"run", 8, 0, ""⟩ "" 2, .written ⟨"run", 8, 2, "e"⟩ true 3,
    .written ⟨"run", 7, 1, "e"⟩ true 4, .ack "run" "e" 1 5]

theorem log_keeps_what_may_be_lost_carried :
    ∃ s : State ℕ, Sound s ∧ s.unacked "run" = [⟨"run", 8, 2, "e"⟩] := by
  obtain ⟨s, hreach, hkept⟩ := reachesUnder_of_test step Current State.new carried
    (fun s => s.unacked "run" = [⟨"run", 8, 2, "e"⟩]) (by decide)
  exact ⟨s, log_keeps_what_may_be_lost hreach, of_decide_eq_true hkept⟩

/-- What callers do: they write and acknowledge what was given a number, and execution ids that are
drawn are new. -/
def Proper (s : State δ) : Action δ → Prop
  | .written msg _ _ => msg ∈ s.stamped
  | .ack runID exec seq _ => ∃ msg ∈ s.stamped, msg.RunID = runID ∧ msg.Exec = exec ∧ msg.Seq = seq
  | .reset _ exec _ => exec ∉ s.execs
  | .stamp msg exec _ => exec ∉ s.execs ∧ (msg.Exec = "" ∨ msg.Exec ∈ s.execs)
  | _ => True

instance decidableProper [DecidableEq δ] (s : State δ) (a : Action δ) : Decidable (Proper s a) :=
  match a with
  | .written msg _ _ => inferInstanceAs (Decidable (msg ∈ s.stamped))
  | .ack runID exec seq _ => inferInstanceAs (Decidable (∃ msg ∈ s.stamped,
      msg.RunID = runID ∧ msg.Exec = exec ∧ msg.Seq = seq))
  | .reset _ exec _ => inferInstanceAs (Decidable (exec ∉ s.execs))
  | .stamp msg exec _ => inferInstanceAs (Decidable (exec ∉ s.execs ∧
      (msg.Exec = "" ∨ msg.Exec ∈ s.execs)))
  | .setEnabled _ | .gc _ _ => isTrue trivial

/-- The log of an execution is discarded while its first event is carried over. A late event of the
execution then gets the number of that event. -/
def discarded : List (Action ℕ) :=
  [.setEnabled true, .reset "run" "e" 0, .stamp ⟨"run", 7, 0, "e"⟩ "f" 1,
    .stamp ⟨"run", 8, 0, "e"⟩ "g" 2, .written ⟨"run", 8, 2, "e"⟩ true 3,
    .gc (fun _ => false) (2 * idleRunLogTTL), .stamp ⟨"run", 9, 0, "e"⟩ "h" (2 * idleRunLogTTL),
    .written ⟨"run", 7, 1, "e"⟩ true (2 * idleRunLogTTL),
    .written ⟨"run", 9, 1, "e"⟩ true (2 * idleRunLogTTL)]

/-- Whether the late event is written and not acknowledged, and neither kept nor dropped. -/
def lost (s : State ℕ) : Bool :=
  (s.runs "run").any fun rl => rl.ackedSeq < 1 ∧ ⟨"run", 9, 1, "e"⟩ ∈ (s.hist "run").sent ∧
    ⟨"run", 9, 1, "e"⟩ ∉ rl.unacked ∧ (s.hist "run").trims = []

theorem late_event_lost : ∃ s : State ℕ, ReachesUnder step Proper State.new s ∧ ¬Sound s := by
  obtain ⟨s, hreach, hlost⟩ := reachesUnder_of_test step Proper State.new discarded lost (by decide)
  refine ⟨s, hreach, fun hsound => ?_⟩
  unfold lost at hlost
  cases hrl : s.runs "run" with
  | none =>
    rw [hrl] at hlost
    cases hlost
  | some rl =>
    rw [hrl] at hlost
    obtain ⟨hacked, hsent, hnot, htrims⟩ := of_decide_eq_true hlost
    rcases (hsound.keeps "run" rl hrl).complete _ hsent hacked with hkept | ⟨t, ht, -⟩
    · exact hnot hkept
    · rw [htrims] at ht
      cases ht

end Swazz.AgentDelivery
