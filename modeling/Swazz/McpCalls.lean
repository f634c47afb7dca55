import Swazz.Mcp

/-! What holds of a client, its calls and its map of pending calls in any interleaving. -/
namespace Swazz.Mcp

open FloatText

/-- The goroutine has not returned. -/
def InFlight (pc : Pc) : Prop := ∀ result, pc ≠ .returned result

/-- From its registration on, and as long as the call may still get a response. -/
def Expecting : Pc → Prop
  | .registered | .checking | .sending | .waiting => True
  | _ => False

def emptyChan : Chan := ⟨none, false⟩

/-- What a call, its channel and its entry have to do with each other. -/
structure CallInv (transport : Transport) (s : Client) (i : ℕ) (c : Call) : Prop where
  start : c.pc = .entered → c.id = 0 ∧ c.chan = emptyChan
  id_le : c.id ≤ s.nextID
  pend : ∀ k, (k, i) ∈ s.pending → 0 < c.id ∧ k = c.key ∧ c.chan = emptyChan ∧
    (∀ n resp, s.reader ≠ .holding i n resp) ∧
    (InFlight c.pc ∨ s.processDone = true ∧ s.exitSwept = false) ∧
    (s.exitSwept = true → c.pc ≠ .waiting)
  holds : ∀ n resp, s.reader = .holding i n resp → 0 < c.id ∧ c.chan = emptyChan ∧
    idToKey resp.id = c.key
  buffered : ∀ n resp, c.chan.buffer = some (n, resp) → 0 < c.id ∧ c.chan.closed = false ∧
    idToKey resp.id = c.key
  answered : ∀ n resp, c.pc = .returned (.ok (n, resp)) → 0 < c.id ∧ idToKey resp.id = c.key
  expecting : Expecting c.pc → 0 < c.id ∧ ((c.key, i) ∈ s.pending ∨
    (∃ n resp, s.reader = .holding i n resp) ∨ c.chan.buffer.isSome = true ∨
    c.chan.closed = true)

/-- Where the response with a number is. -/
def Has (s : Client) (i n : ℕ) : Prop :=
  (∃ c, s.calls[i]? = some c ∧ ((∃ resp, c.chan.buffer = some (n, resp)) ∨
    ∃ resp, c.pc = .returned (.ok (n, resp)))) ∨ ∃ resp, s.reader = .holding i n resp

/-- Where the client stands in its ends. -/
structure Flags (transport : Transport) (s : Client) : Prop where
  closing : s.closing ≠ .idle → s.isClosed = true
  swept : transport = .sse → s.closing = .swept ∨ s.streamEnded = true → s.pending = []
  ended : s.processDone = true ∨ s.exitSwept = true → transport = .stdio
  exited : s.exitSwept = true → s.processDone = true
  safe : s.panicked = false

/-- What holds as long as fewer than 2^53 calls were registered. -/
structure Inv (transport : Transport) (s : Client) : Prop where
  calls : ∀ i c, s.calls[i]? = some c → CallInv transport s i c
  known : ∀ k i, (k, i) ∈ s.pending → i < s.calls.length
  ids : ∀ (i j : ℕ) (c d : Call), s.calls[i]? = some c → s.calls[j]? = some d → 0 < c.id → c.id = d.id → i = j
  keys : (s.pending.map Prod.fst).Nodup
  arrived : ∀ i n, Has s i n → n < s.received
  once : ∀ i j n, Has s i n → Has s j n → i = j
  held : ∀ i n resp, s.reader = .holding i n resp → i < s.calls.length
  flags : Flags transport s

variable {transport : Transport} {s t : Client} {i j n : ℕ} {c d : Call}

theorem key_inj {a b : ℕ} (ha : a < 2 ^ 53) (hb : b < 2 ^ 53)
    (h : idToKey (.uint64 a) = idToKey (.uint64 b)) : a = b := by
  have htext : formatFloat (ofNat a) = formatFloat (ofNat b) := by
    have hlist := congrArg String.toList h
    simpa [idToKey, String.toList_append] using hlist
  exact ofNat_inj ha hb (formatFloat_injective htext)

/-- A response whose key is that of a call carries the id of the call, as JSON has it. -/
theorem id_of_key {resp : Response} {a : ℕ} (h : idToKey resp.id = idToKey (.uint64 a)) :
    resp.id = .float64 (ofNat a) := by
  have hlist := congrArg String.toList h
  cases hid : resp.id with
  | null => simp [hid, idToKey] at hlist
  | string v => simp [hid, idToKey] at hlist
  | uint64 v => exact absurd hid (resp.decoded v)
  | float64 v =>
    have htext : formatFloat v = formatFloat (ofNat a) := by simpa [hid, idToKey] using hlist
    rw [formatFloat_injective htext]
  | other printed => simp [hid, idToKey] at hlist

theorem lt_of_getElem? (h : s.calls[i]? = some c) : i < s.calls.length :=
  (List.getElem?_eq_some_iff.mp h).1

theorem getElem?_setCall (hi : s.calls[i]? = some c) {c' : Call} (hj : (s.setCall i c').calls[j]?
    = some d) : j = i ∧ d = c' ∨ j ≠ i ∧ s.calls[j]? = some d := by
  by_cases hji : j = i
  · subst hji
    have hself : (s.calls.set j c')[j]? = some c' := List.getElem?_set_self (lt_of_getElem? hi)
    exact Or.inl ⟨rfl, (Option.some.inj (hself.symm.trans hj)).symm⟩
  · exact Or.inr ⟨hji, (List.getElem?_set_ne (Ne.symm hji)).symm.trans hj⟩

/-- A call goes on by itself. -/
theorem inv_setCall (h : Inv transport s) (hi : s.calls[i]? = some c) {c' : Call}
    (hid : c'.id = c.id) (hc : CallInv transport s i c')
    (hhas : ∀ n, ((∃ resp, c'.chan.buffer = some (n, resp)) ∨
      ∃ resp, c'.pc = .returned (.ok (n, resp))) → Has s i n) :
    Inv transport (s.setCall i c') := by
  have hlength : (s.setCall i c').calls.length = s.calls.length := List.length_set
  have hplace {j n : ℕ} (hj : Has (s.setCall i c') j n) : Has s j n := by
    rcases hj with ⟨d, hd, hplace⟩ | hheld
    · rcases getElem?_setCall hi hd with ⟨rfl, rfl⟩ | ⟨-, hold⟩
      · exact hhas n hplace
      · exact Or.inl ⟨d, hold, hplace⟩
    · exact Or.inr hheld
  constructor
  · intro j d hd
    rcases getElem?_setCall hi hd with ⟨rfl, rfl⟩ | ⟨-, hold⟩
    · exact ⟨hc.start, hc.id_le, hc.pend, hc.holds, hc.buffered, hc.answered, hc.expecting⟩
    · have hold := h.calls j d hold
      exact ⟨hold.start, hold.id_le, hold.pend, hold.holds, hold.buffered, hold.answered,
        hold.expecting⟩
  · intro k j hj
    rw [hlength]
    exact h.known k j hj
  · intro j k d e hd he
    rcases getElem?_setCall hi hd with ⟨hj, hdc⟩ | ⟨-, hdold⟩
    · rcases getElem?_setCall hi he with ⟨hk, -⟩ | ⟨-, heold⟩
      · exact fun _ _ => hj.trans hk.symm
      · rw [hj, hdc, hid]
        exact h.ids i k c e hi heold
    · rcases getElem?_setCall hi he with ⟨hk, hec⟩ | ⟨-, heold⟩
      · rw [hk, hec, hid]
        exact h.ids j i d c hdold hi
      · exact h.ids j k d e hdold heold
  · exact h.keys
  · exact fun j n hj => h.arrived j n (hplace hj)
  · exact fun j k n hj hk => h.once j k n (hplace hj) (hplace hk)
  · intro j n resp hj
    rw [hlength]
    exact h.held j n resp hj
  · exact ⟨h.flags.closing, h.flags.swept, h.flags.ended, h.flags.exited, h.flags.safe⟩

/-- Nothing changes but the ends of the client and the count of its responses. -/
theorem Inv.frame (h : Inv transport s) (hcalls : t.calls = s.calls)
    (hid : t.nextID = s.nextID) (hpending : t.pending = s.pending)
    (hreader : ∀ i n resp, t.reader = .holding i n resp ↔ s.reader = .holding i n resp)
    (hreceived : s.received ≤ t.received)
    (hends : s.pending = [] ∨
      (s.processDone = true → t.processDone = true) ∧ t.exitSwept = s.exitSwept)
    (hflags : Flags transport t) : Inv transport t := by
  have hhas {j n : ℕ} : Has t j n ↔ Has s j n := by simp only [Has, hcalls, hreader]
  constructor
  · intro j d hd
    rw [hcalls] at hd
    have hold := h.calls j d hd
    refine ⟨hold.start, hid ▸ hold.id_le, ?_, ?_, hold.buffered, hold.answered, ?_⟩
    · intro k hk
      rw [hpending] at hk
      obtain ⟨hpos, hkey, hchan, hreads, hflight, hexit⟩ := hold.pend k hk
      rcases hends with hnil | ⟨hdone, hswept⟩
      · simp [hnil] at hk
      · refine ⟨hpos, hkey, hchan, fun n resp hr => hreads n resp ((hreader j n resp).mp hr), ?_,
          hswept ▸ hexit⟩
        rw [hswept]
        exact hflight.imp_right fun hp => ⟨hdone hp.1, hp.2⟩
    · intro n resp hr
      exact hold.holds n resp ((hreader j n resp).mp hr)
    · intro he
      simp only [hpending, hreader]
      exact hold.expecting he
  · intro k j hj
    rw [hcalls]
    exact h.known k j (hpending ▸ hj)
  · rw [hcalls]
    exact h.ids
  · rw [hpending]
    exact h.keys
  · exact fun j n hj => (h.arrived j n (hhas.mp hj)).trans_le hreceived
  · exact fun j k n hj hk => h.once j k n (hhas.mp hj) (hhas.mp hk)
  · intro j n resp hr
    rw [hcalls]
    exact h.held j n resp ((hreader j n resp).mp hr)
  · exact hflags

theorem mem_delete {key k : String} :
    (k, j) ∈ (s.delete key).pending ↔ (k, j) ∈ s.pending ∧ k ≠ key := by
  simp [Client.delete]

theorem mem_of_lookup {key : String} (h : s.lookup key = some i) : (key, i) ∈ s.pending := by
  obtain ⟨⟨k, j⟩, hfind, rfl⟩ := Option.map_eq_some_iff.mp h
  have hk : k = key := by simpa using List.find?_some hfind
  exact hk ▸ List.mem_of_find?_eq_some hfind

theorem nodup_delete {key : String} (h : (s.pending.map Prod.fst).Nodup) :
    ((s.delete key).pending.map Prod.fst).Nodup :=
  h.sublist (List.filter_sublist.map Prod.fst)

/-- Two calls of one key are the same call. -/
theorem Inv.eq_of_key (h : Inv transport s) (hsmall : s.nextID < 2 ^ 53)
    (hi : s.calls[i]? = some c) (hj : s.calls[j]? = some d) (hpos : 0 < c.id)
    (hkey : c.key = d.key) : i = j := by
  have hc := (h.calls i c hi).id_le
  have hd := (h.calls j d hj).id_le
  exact h.ids i j c d hi hj hpos (key_inj (by omega) (by omega) hkey)

/-- A call that expects no response deletes its entry. -/
theorem inv_delete (h : Inv transport s) (hsmall : s.nextID < 2 ^ 53)
    (hi : s.calls[i]? = some c) (hc : ¬Expecting c.pc) : Inv transport (s.delete c.key) := by
  constructor
  · intro j d hd
    have hold := h.calls j d hd
    refine ⟨hold.start, hold.id_le, fun k hk => hold.pend k (mem_delete.mp hk).1, hold.holds,
      hold.buffered, hold.answered, ?_⟩
    intro he
    obtain ⟨hpos, hwhere⟩ := hold.expecting he
    refine ⟨hpos, hwhere.imp_left fun hmem => mem_delete.mpr ⟨hmem, ?_⟩⟩
    intro hkey
    have hji := h.eq_of_key hsmall hd hi hpos hkey
    subst hji
    have hdc : d = c := Option.some.inj (hd.symm.trans hi)
    exact hc (hdc ▸ he)
  · exact fun k j hj => h.known k j (mem_delete.mp hj).1
  · exact h.ids
  · exact nodup_delete h.keys
  · exact h.arrived
  · exact h.once
  · exact h.held
  · refine ⟨h.flags.closing, ?_, h.flags.ended, h.flags.exited, h.flags.safe⟩
    intro hsse hends
    simp [Client.delete, h.flags.swept hsse hends]

/-- The reader takes a channel out of the map. -/
theorem inv_take (h : Inv transport s) (hsmall : s.nextID < 2 ^ 53) {resp : Response}
    (hscan : s.reader = .scanning) (hlook : s.lookup (idToKey resp.id) = some i) :
    Inv transport { s.delete (idToKey resp.id) with
      reader := .holding i s.received resp
      received := s.received + 1 } := by
  have hmem := mem_of_lookup hlook
  have hlt := h.known _ _ hmem
  obtain ⟨c, hc⟩ : ∃ c, s.calls[i]? = some c := ⟨_, List.getElem?_eq_getElem hlt⟩
  obtain ⟨hcpos, hckey, hcchan, -⟩ := (h.calls i c hc).pend _ hmem
  have hnone {j n : ℕ} {r : Response} : s.reader ≠ .holding j n r := by simp [hscan]
  constructor
  · intro j d hd
    have hold := h.calls j d hd
    refine ⟨hold.start, hold.id_le, ?_, ?_, hold.buffered, hold.answered, ?_⟩
    · intro k hk
      obtain ⟨hk, hne⟩ := mem_delete.mp hk
      obtain ⟨hpos, hkey, hchan, -, hrest⟩ := hold.pend k hk
      refine ⟨hpos, hkey, hchan, ?_, hrest⟩
      rintro n r hr
      injection hr with hij
      subst hij
      have hdc : d = c := Option.some.inj (hd.symm.trans hc)
      exact hne (hkey.trans (hdc ▸ hckey.symm))
    · intro n r hr
      injection hr with hij hn hresp
      subst hij hresp
      have hdc : d = c := Option.some.inj (hd.symm.trans hc)
      exact hdc ▸ ⟨hcpos, hcchan, hckey⟩
    · intro he
      obtain ⟨hpos, hwhere⟩ := hold.expecting he
      refine ⟨hpos, ?_⟩
      rcases hwhere with hpend | ⟨n, r, hr⟩ | hchan
      · by_cases hij : i = j
        · exact Or.inr (Or.inl ⟨s.received, resp, by rw [hij]⟩)
        · refine Or.inl (mem_delete.mpr ⟨hpend, fun hkey => hij ?_⟩)
          exact (h.eq_of_key hsmall hd hc hpos (hkey.trans hckey)).symm
      · exact absurd hr hnone
      · exact Or.inr (Or.inr hchan)
  · exact fun k j hj => h.known k j (mem_delete.mp hj).1
  · exact h.ids
  · exact nodup_delete h.keys
  · rintro j n (hplace | ⟨r, hr⟩)
    · exact (h.arrived j n (Or.inl hplace)).trans (Nat.lt_succ_self _)
    · injection hr with _ hn
      exact hn ▸ Nat.lt_succ_self _
  · -- The number of this response is new.
    rintro j k n (hj | ⟨r, hr⟩) (hk | ⟨r', hr'⟩)
    · exact h.once j k n (Or.inl hj) (Or.inl hk)
    · injection hr' with _ hn
      exact absurd (h.arrived j n (Or.inl hj)) (by omega)
    · injection hr with _ hn
      exact absurd (h.arrived k n (Or.inl hk)) (by omega)
    · injection hr with hij
      injection hr' with hik
      exact hij.symm.trans hik
  · intro j n r hr
    injection hr with hij
    exact hij ▸ hlt
  · refine ⟨h.flags.closing, ?_, h.flags.ended, h.flags.exited, h.flags.safe⟩
    intro hsse hends
    simp [Client.delete, h.flags.swept hsse hends]

/-- A response is put on the channel of its call. -/
theorem inv_deliver (h : Inv transport s) {resp : Response} (hheld : s.reader = .holding i n resp)
    (hsend : s.send i n resp = some t) : Inv transport { t with reader := .scanning } := by
  obtain ⟨c, hc⟩ : ∃ c, s.calls[i]? = some c :=
    ⟨_, List.getElem?_eq_getElem (h.held i n resp hheld)⟩
  obtain ⟨hpos, hchan, hkey⟩ := (h.calls i c hc).holds n resp hheld
  let c' : Call := { c with chan := ⟨some (n, resp), false⟩ }
  obtain rfl : s.setCall i c' = t := by
    simpa [Client.send, hc, hchan, emptyChan, c'] using hsend
  have hhas {j k : ℕ} (hj : Has { s.setCall i c' with reader := .scanning } j k) : Has s j k := by
    rcases hj with ⟨d, hd, hplace⟩ | ⟨r, hr⟩
    · rcases getElem?_setCall hc hd with ⟨rfl, rfl⟩ | ⟨-, hold⟩
      · rcases hplace with ⟨r, hr⟩ | hanswered
        · injection hr with hr
          injection hr with hn
          exact Or.inr ⟨resp, hn ▸ hheld⟩
        · exact Or.inl ⟨c, hc, Or.inr hanswered⟩
      · exact Or.inl ⟨d, hold, hplace⟩
    · cases hr
  have hlength : (s.setCall i c').calls.length = s.calls.length := List.length_set
  constructor
  · intro j d hd
    rcases getElem?_setCall hc hd with ⟨rfl, rfl⟩ | ⟨hne, hold⟩
    · have hold := h.calls j c hc
      refine ⟨?_, hold.id_le, ?_, ?_, ?_, hold.answered, ?_⟩
      · exact fun he => absurd (hold.start he).1 (Nat.ne_of_gt hpos)
      · exact fun k hk => absurd hheld ((hold.pend k hk).2.2.2.1 n resp)
      · exact nofun
      · intro m r hr
        injection hr with hr
        injection hr with _ hr
        exact ⟨hpos, rfl, hr ▸ hkey⟩
      · exact fun _ => ⟨hpos, Or.inr (Or.inr (Or.inl rfl))⟩
    · have hold := h.calls j d hold
      refine ⟨hold.start, hold.id_le, ?_, nofun, hold.buffered, hold.answered, ?_⟩
      · intro k hk
        obtain ⟨hdpos, hdkey, hdchan, -, hrest⟩ := hold.pend k hk
        exact ⟨hdpos, hdkey, hdchan, nofun, hrest⟩
      · intro he
        obtain ⟨hdpos, hwhere⟩ := hold.expecting he
        refine ⟨hdpos, hwhere.imp_right ?_⟩
        rintro (⟨m, r, hr⟩ | hchan)
        · injection hheld.symm.trans hr with hij
          exact absurd hij.symm hne
        · exact Or.inr hchan
  · exact fun k j hj => hlength.symm ▸ h.known k j hj
  · intro j k d e hd he hdpos hde
    rcases getElem?_setCall hc hd with ⟨hj, hdc⟩ | ⟨-, hdold⟩
    · rcases getElem?_setCall hc he with ⟨hk, -⟩ | ⟨-, heold⟩
      · exact hj.trans hk.symm
      · rw [hj]
        exact h.ids i k c e hc heold hpos (by rw [← hde, hdc])
    · rcases getElem?_setCall hc he with ⟨hk, hec⟩ | ⟨-, heold⟩
      · rw [hk]
        exact h.ids j i d c hdold hc hdpos (by rw [hde, hec])
      · exact h.ids j k d e hdold heold hdpos hde
  · exact h.keys
  · exact fun j k hj => h.arrived j k (hhas hj)
  · exact fun j k m hj hk => h.once j k m (hhas hj) (hhas hk)
  · exact nofun
  · exact ⟨h.flags.closing, h.flags.swept, h.flags.ended, h.flags.exited, h.flags.safe⟩

/-- The section under the lock at the start of a call. -/
theorem inv_register (h : Inv transport s) (hi : s.calls[i]? = some c) (hc : c.pc = .entered)
    (hsmall : (s.register transport i c).nextID < 2 ^ 53) :
    Inv transport (s.register transport i c) := by
  obtain ⟨hzero, hchan⟩ := (h.calls i c hi).start hc
  have hnopend {k : String} : (k, i) ∉ s.pending := fun hk =>
    absurd hzero (Nat.ne_of_gt ((h.calls i c hi).pend k hk).1)
  have hnoheld {n : ℕ} {r : Response} : s.reader ≠ .holding i n r := fun hr =>
    absurd hzero (Nat.ne_of_gt ((h.calls i c hi).holds n r hr).1)
  have hrefused (message : String) :
      Inv transport (s.setCall i { c with pc := .returned (.error message) }) := by
    have hold := h.calls i c hi
    refine inv_setCall h hi rfl ⟨nofun, hold.id_le, fun k hk => absurd hk hnopend,
      hold.holds, hold.buffered, nofun, fun he => he.elim⟩ ?_
    · rintro n (hbuffer | ⟨r, hr⟩)
      · exact Or.inl ⟨c, hi, Or.inl hbuffer⟩
      · cases hr
  by_cases hclosed : s.isClosed = true
  · simpa [Client.register, hclosed] using hrefused errClosedPipe
  · by_cases hended : transport = .sse ∧ s.streamEnded = true
    · simpa [Client.register, hclosed, hended] using hrefused errStreamEnded
    · let c' : Call := { c with pc := .registered, id := s.nextID + 1, chan := ⟨none, false⟩ }
      have heq : s.register transport i c = { s.setCall i c' with
          nextID := s.nextID + 1
          pending := (c'.key, i) :: (s.delete c'.key).pending } := by
        unfold Client.register
        rw [if_neg hclosed, if_neg hended]
        rfl
      rw [heq] at hsmall ⊢
      have hlength : (s.setCall i c').calls.length = s.calls.length := List.length_set
      have hhas {j n : ℕ} (hj : Has { s.setCall i c' with
          nextID := s.nextID + 1
          pending := (c'.key, i) :: (s.delete c'.key).pending } j n) : Has s j n := by
        rcases hj with ⟨d, hd, hplace⟩ | hheld
        · rcases getElem?_setCall hi hd with ⟨rfl, rfl⟩ | ⟨-, hold⟩
          · rcases hplace with ⟨r, hr⟩ | ⟨r, hr⟩ <;> cases hr
          · exact Or.inl ⟨d, hold, hplace⟩
        · exact Or.inr hheld
      constructor
      · intro j d hd
        rcases getElem?_setCall hi hd with ⟨rfl, rfl⟩ | ⟨hne, hdold⟩
        · refine ⟨nofun, le_rfl, ?_, fun n r hr => absurd hr hnoheld, nofun, nofun, ?_⟩
          · intro k hk
            rcases List.mem_cons.mp hk with hk | hk
            · injection hk with hk
              exact ⟨Nat.succ_pos _, hk, rfl, fun _ _ => hnoheld, Or.inl nofun, nofun⟩
            · exact absurd (mem_delete.mp hk).1 hnopend
          · exact fun _ => ⟨Nat.succ_pos _, Or.inl (List.mem_cons_self ..)⟩
        · have hold := h.calls j d hdold
          refine ⟨hold.start, Nat.le_succ_of_le hold.id_le, ?_, hold.holds, hold.buffered,
            hold.answered, ?_⟩
          · intro k hk
            rcases List.mem_cons.mp hk with hk | hk
            · injection hk with _ hji
              exact absurd hji hne
            · exact hold.pend k (mem_delete.mp hk).1
          · intro he
            obtain ⟨hpos, hwhere⟩ := hold.expecting he
            refine ⟨hpos, hwhere.imp_left fun hmem => List.mem_cons_of_mem _
              (mem_delete.mpr ⟨hmem, fun hkey => ?_⟩)⟩
            -- The new id is above those of all calls.
            have hle := hold.id_le
            have hlt : d.id < 2 ^ 53 := by
              have : s.nextID + 1 < 2 ^ 53 := hsmall
              omega
            have heq : d.id = s.nextID + 1 := key_inj hlt hsmall hkey
            omega
      · intro k j hj
        rw [hlength]
        rcases List.mem_cons.mp hj with hj | hj
        · injection hj with _ hji
          exact hji ▸ lt_of_getElem? hi
        · exact h.known k j (mem_delete.mp hj).1
      · intro j k d e hd he hpos hde
        rcases getElem?_setCall hi hd with ⟨hj, hdc⟩ | ⟨-, hdold⟩
        · rcases getElem?_setCall hi he with ⟨hk, -⟩ | ⟨-, heold⟩
          · exact hj.trans hk.symm
          · have hle := (h.calls k e heold).id_le
            have : d.id = s.nextID + 1 := by rw [hdc]
            omega
        · rcases getElem?_setCall hi he with ⟨hk, hec⟩ | ⟨-, heold⟩
          · have hle := (h.calls j d hdold).id_le
            have : e.id = s.nextID + 1 := by rw [hec]
            omega
          · exact h.ids j k d e hdold heold hpos hde
      · refine List.nodup_cons.mpr ⟨?_, nodup_delete h.keys⟩
        intro hmem
        obtain ⟨⟨k, j⟩, hk, hkey⟩ := List.mem_map.mp hmem
        exact (mem_delete.mp hk).2 hkey
      · exact fun j n hj => h.arrived j n (hhas hj)
      · exact fun j k n hj hk => h.once j k n (hhas hj) (hhas hk)
      · exact fun j n r hr => hlength.symm ▸ h.held j n r hr
      · refine ⟨h.flags.closing, ?_, h.flags.ended, h.flags.exited, h.flags.safe⟩
        rintro hsse (hswept | hstream)
        · have hswept : s.closing = .swept := hswept
          exact absurd (h.flags.closing (by simp [hswept])) hclosed
        · exact absurd ⟨hsse, hstream⟩ hended

/-- A further goroutine enters `sendRequest`. -/
theorem inv_sendRequest (h : Inv transport s) :
    Inv transport { s with calls := s.calls ++ [⟨.entered, 0, emptyChan, false⟩] } := by
  have hmember {j : ℕ} {d : Call} (hd : (s.calls ++ [⟨.entered, 0, emptyChan, false⟩])[j]? =
      some d) : s.calls[j]? = some d ∨ j = s.calls.length ∧ d = ⟨.entered, 0, emptyChan, false⟩ := by
    rcases Nat.lt_trichotomy j s.calls.length with hlt | heq | hgt
    · exact Or.inl ((List.getElem?_append_left hlt).symm.trans hd)
    · subst heq
      exact Or.inr ⟨rfl, by simpa using hd.symm⟩
    · simp [List.getElem?_append_right hgt.le, Nat.sub_ne_zero_of_lt hgt] at hd
  have hhas {j n : ℕ} (hj : Has { s with
      calls := s.calls ++ [⟨.entered, 0, emptyChan, false⟩] } j n) : Has s j n := by
    rcases hj with ⟨d, hd, hplace⟩ | hheld
    · rcases hmember hd with hold | ⟨-, rfl⟩
      · exact Or.inl ⟨d, hold, hplace⟩
      · rcases hplace with ⟨r, hr⟩ | ⟨r, hr⟩ <;> cases hr
    · exact Or.inr hheld
  constructor
  · intro j d hd
    rcases hmember hd with hold | ⟨rfl, rfl⟩
    · have hold := h.calls j d hold
      exact ⟨hold.start, hold.id_le, hold.pend, hold.holds, hold.buffered, hold.answered,
        hold.expecting⟩
    · exact ⟨fun _ => ⟨rfl, rfl⟩, Nat.zero_le _,
        fun k hk => absurd (h.known k _ hk) (Nat.lt_irrefl _),
        fun n r hr => absurd (h.held _ n r hr) (Nat.lt_irrefl _), nofun, nofun, fun he => he.elim⟩
  · intro k j hj
    have hlt := h.known k j hj
    simp only [List.length_append, List.length_singleton]
    omega
  · intro j k d e hd he hpos hde
    rcases hmember hd with hdold | ⟨-, rfl⟩
    · rcases hmember he with heold | ⟨-, rfl⟩
      · exact h.ids j k d e hdold heold hpos hde
      · exact absurd hde (Nat.ne_of_gt hpos)
    · exact absurd hpos (Nat.lt_irrefl 0)
  · exact h.keys
  · exact fun j n hj => h.arrived j n (hhas hj)
  · exact fun j k n hj hk => h.once j k n (hhas hj) (hhas hk)
  · intro j n r hr
    have hlt := h.held j n r hr
    simp only [List.length_append, List.length_singleton]
    omega
  · exact ⟨h.flags.closing, h.flags.swept, h.flags.ended, h.flags.exited, h.flags.safe⟩

def Call.shut (c : Call) : Call := { c with chan := { c.chan with closed := true } }

/-- The channels of the calls in a list are closed. -/
def shutCalls (calls : List Call) (indices : List ℕ) : List Call :=
  calls.mapIdx fun i c => if i ∈ indices then c.shut else c

theorem foldl_closeChan (entries : List (String × ℕ)) (s : Client)
    (hnodup : (entries.map Prod.snd).Nodup)
    (hopen : ∀ i ∈ entries.map Prod.snd, ∃ c, s.calls[i]? = some c ∧ c.chan.closed = false) :
    entries.foldl (fun s entry => s.closeChan entry.2) s =
      { s with calls := shutCalls s.calls (entries.map Prod.snd) } := by
  induction entries generalizing s with
  | nil =>
    have hcalls : shutCalls s.calls [] = s.calls := by
      apply List.ext_getElem?
      intro j
      simp [shutCalls]
    simp only [List.foldl_nil, List.map_nil, hcalls]
  | cons entry entries ih =>
    obtain ⟨hfirst, hnodup⟩ := List.nodup_cons.mp hnodup
    obtain ⟨c, hc, hcopen⟩ := hopen entry.2 (List.mem_cons_self ..)
    have hclose : s.closeChan entry.2 = s.setCall entry.2 c.shut := by
      simp [Client.closeChan, hc, hcopen, Call.shut]
    rw [List.foldl_cons, hclose, ih _ hnodup]
    · have hcalls : shutCalls (s.calls.set entry.2 c.shut) (entries.map Prod.snd) =
          shutCalls s.calls (entry.2 :: entries.map Prod.snd) := by
        apply List.ext_getElem?
        intro j
        simp only [shutCalls, List.getElem?_mapIdx]
        by_cases hj : j = entry.2
        · subst hj
          rw [List.getElem?_set_self (lt_of_getElem? hc), hc]
          simp [hfirst]
        · have hmem : j ∈ entry.2 :: entries.map Prod.snd ↔ j ∈ entries.map Prod.snd :=
            List.mem_cons.trans (or_iff_right hj)
          rw [List.getElem?_set_ne (Ne.symm hj)]
          simp only [hmem]
      simp only [Client.setCall, List.map_cons, hcalls]
    · intro j hj
      have hne : j ≠ entry.2 := fun h => hfirst (h ▸ hj)
      obtain ⟨d, hd, hdopen⟩ := hopen j (List.mem_cons_of_mem _ hj)
      exact ⟨d, (List.getElem?_set_ne (Ne.symm hne)).trans hd, hdopen⟩

/-- All channels in the map are open, and each belongs to one entry. -/
theorem sweep_eq (h : Inv transport s) :
    s.sweep = { s with pending := [], calls := shutCalls s.calls (s.pending.map Prod.snd) } := by
  have howner {k : String} {j : ℕ} (hmem : (k, j) ∈ s.pending) :
      ∃ c, s.calls[j]? = some c ∧ k = c.key ∧ c.chan = emptyChan := by
    have hc := List.getElem?_eq_getElem (h.known k j hmem)
    obtain ⟨-, hkey, hchan, -⟩ := (h.calls j _ hc).pend k hmem
    exact ⟨_, hc, hkey, hchan⟩
  have hnodup : (s.pending.map Prod.snd).Nodup := by
    refine (List.Nodup.of_map _ h.keys).map_on ?_
    rintro ⟨k, j⟩ hk ⟨k', j'⟩ hk' (rfl : j = j')
    obtain ⟨c, hc, hkey, -⟩ := howner hk
    obtain ⟨c', hc', hkey', -⟩ := howner hk'
    have hcc : c = c' := Option.some.inj (hc.symm.trans hc')
    rw [hkey, hkey', hcc]
  have hopen : ∀ j ∈ s.pending.map Prod.snd, ∃ c, s.calls[j]? = some c ∧
      c.chan.closed = false := by
    intro j hj
    obtain ⟨⟨k, j⟩, hk, rfl⟩ := List.mem_map.mp hj
    obtain ⟨c, hc, -, hchan⟩ := howner hk
    exact ⟨c, hc, by rw [hchan]; rfl⟩
  simp only [Client.sweep, foldl_closeChan s.pending s hnodup hopen]

theorem getElem?_shutCalls {calls : List Call} {indices : List ℕ}
    (h : (shutCalls calls indices)[j]? = some d) :
    ∃ c, calls[j]? = some c ∧ d = if j ∈ indices then c.shut else c := by
  rw [shutCalls, List.getElem?_mapIdx] at h
  obtain ⟨c, hc, rfl⟩ := Option.map_eq_some_iff.mp h
  exact ⟨c, hc, rfl⟩

/-- A sweep leaves no entry. -/
theorem inv_sweep (h : Inv transport s) : Inv transport s.sweep := by
  rw [sweep_eq h]
  have hlength : (shutCalls s.calls (s.pending.map Prod.snd)).length = s.calls.length := by
    simp [shutCalls]
  have hsame {j : ℕ} {d : Call}
      (hd : (shutCalls s.calls (s.pending.map Prod.snd))[j]? = some d) :
      ∃ c, s.calls[j]? = some c ∧ d.pc = c.pc ∧ d.id = c.id ∧
        d.chan.buffer = c.chan.buffer := by
    obtain ⟨c, hc, rfl⟩ := getElem?_shutCalls hd
    refine ⟨c, hc, ?_⟩
    split <;> exact ⟨rfl, rfl, rfl⟩
  have hhas {j n : ℕ} (hj : Has { s with
      pending := []
      calls := shutCalls s.calls (s.pending.map Prod.snd) } j n) : Has s j n := by
    rcases hj with ⟨d, hd, hplace⟩ | hheld
    · obtain ⟨c, hc, hpc, -, hbuffer⟩ := hsame hd
      exact Or.inl ⟨c, hc, hpc ▸ hbuffer ▸ hplace⟩
    · exact Or.inr hheld
  constructor
  · intro j d hd
    obtain ⟨c, hc, rfl⟩ := getElem?_shutCalls hd
    have hold := h.calls j c hc
    by_cases hj : j ∈ s.pending.map Prod.snd
    · obtain ⟨⟨k, j⟩, hk, rfl⟩ := List.mem_map.mp hj
      obtain ⟨hpos, -, hchan, hreads, -⟩ := hold.pend k hk
      rw [if_pos hj]
      refine ⟨?_, hold.id_le, nofun, fun n r hr => absurd hr (hreads n r), ?_, hold.answered,
        fun _ => ⟨hpos, Or.inr (Or.inr (Or.inr rfl))⟩⟩
      · exact fun he => absurd (hold.start he).1 (Nat.ne_of_gt hpos)
      · intro n r hr
        have hnone : c.chan.buffer = none := by rw [hchan]; rfl
        exact absurd (hnone.symm.trans hr) nofun
    · rw [if_neg hj]
      refine ⟨hold.start, hold.id_le, nofun, hold.holds, hold.buffered, hold.answered, ?_⟩
      intro he
      obtain ⟨hpos, hwhere⟩ := hold.expecting he
      refine ⟨hpos, Or.inr (hwhere.resolve_left fun hmem => hj ?_)⟩
      exact List.mem_map_of_mem (f := Prod.snd) hmem
  · exact nofun
  · intro j k d e hd he
    obtain ⟨c, hc, -, hcid, -⟩ := hsame hd
    obtain ⟨c', hc', -, hcid', -⟩ := hsame he
    rw [hcid, hcid']
    exact h.ids j k c c' hc hc'
  · exact List.nodup_nil
  · exact fun j n hj => h.arrived j n (hhas hj)
  · exact fun j k n hj hk => h.once j k n (hhas hj) (hhas hk)
  · exact fun j n r hr => hlength.symm ▸ h.held j n r hr
  · exact ⟨h.flags.closing, fun _ _ => rfl, h.flags.ended, h.flags.exited, h.flags.safe⟩

/-- A call moves on; the map and the channels stay as they are. -/
theorem inv_goOn (h : Inv transport s) (hi : s.calls[i]? = some c) (pc : Pc)
    (hstart : pc ≠ .entered) (hanswer : ∀ answer, pc ≠ .returned (.ok answer))
    (hexpecting : Expecting pc → Expecting c.pc)
    (hpend : ∀ k, (k, i) ∈ s.pending →
      (InFlight pc ∨ s.processDone = true ∧ s.exitSwept = false) ∧
      (s.exitSwept = true → pc ≠ .waiting)) :
    Inv transport (s.setCall i { c with pc := pc }) := by
  have hold := h.calls i c hi
  refine inv_setCall h hi rfl ⟨fun he => absurd he hstart, hold.id_le, ?_, hold.holds,
    hold.buffered, fun n r hr => absurd hr (hanswer (n, r)),
    fun he => hold.expecting (hexpecting he)⟩ ?_
  · intro k hk
    obtain ⟨hpos, hkey, hchan, hreads, -⟩ := hold.pend k hk
    exact ⟨hpos, hkey, hchan, hreads, hpend k hk⟩
  · rintro n (hbuffer | ⟨r, hr⟩)
    · exact Or.inl ⟨c, hi, Or.inl hbuffer⟩
    · exact absurd hr (hanswer (n, r))

/-- A step after which the call is in flight, and does not wait yet. -/
theorem inv_goOn_of_inFlight (h : Inv transport s) (hi : s.calls[i]? = some c) (pc : Pc)
    (hstart : pc ≠ .entered) (hflight : InFlight pc) (hwaiting : pc ≠ .waiting)
    (hexpecting : Expecting pc → Expecting c.pc) :
    Inv transport (s.setCall i { c with pc := pc }) :=
  inv_goOn h hi pc hstart (fun answer => hflight (.ok answer)) hexpecting
    fun _ _ => ⟨Or.inl hflight, fun _ => hwaiting⟩

theorem inv_receive (h : Inv transport s) (hi : s.calls[i]? = some c)
    (hstep : s.receive transport i c = some t) : Inv transport t := by
  have hold := h.calls i c hi
  -- With a response or closed, the channel is not the empty one of an entry.
  have hgone (hchan : c.chan ≠ emptyChan) : (∀ k, (k, i) ∉ s.pending) ∧
      ∀ n r, s.reader ≠ .holding i n r :=
    ⟨fun k hk => hchan (hold.pend k hk).2.2.1, fun n r hr => hchan (hold.holds n r hr).2.1⟩
  cases hbuffer : c.chan.buffer with
  | some answer =>
    obtain ⟨n, resp⟩ := answer
    simp only [Client.receive, hbuffer, Option.some.injEq] at hstep
    subst hstep
    obtain ⟨hpos, -, hkey⟩ := hold.buffered n resp hbuffer
    obtain ⟨hnopend, hnoheld⟩ := hgone fun hchan => by simp [hchan, emptyChan] at hbuffer
    refine inv_setCall h hi rfl ⟨nofun, hold.id_le, fun k hk => absurd hk (hnopend k),
      fun m r hr => absurd hr (hnoheld m r), nofun, ?_, fun he => he.elim⟩ ?_
    · rintro m r hr
      injection hr with hr
      injection hr with hr
      injection hr with _ hr
      exact hr ▸ ⟨hpos, hkey⟩
    · rintro m (⟨r, hr⟩ | ⟨r, hr⟩)
      · cases hr
      · injection hr with hr
        injection hr with hr
        injection hr with hm hr
        exact Or.inl ⟨c, hi, Or.inl ⟨resp, hm ▸ hbuffer⟩⟩
  | none =>
    cases hclosed : c.chan.closed with
    | false => simp [Client.receive, hbuffer, hclosed] at hstep
    | true =>
      simp only [Client.receive, hbuffer, hclosed, Option.some.injEq] at hstep
      subst hstep
      obtain ⟨hnopend, -⟩ := hgone fun hchan => by simp [hchan, emptyChan] at hclosed
      exact inv_goOn h hi _ nofun nofun (fun he => he.elim) fun k hk => absurd hk (hnopend k)

theorem inv_advance (h : Inv transport s) (hi : s.calls[i]? = some c) {marshals : Bool}
    (hsmall : s.nextID < 2 ^ 53) (hsmall' : t.nextID < 2 ^ 53)
    (hstep : advance transport s i marshals c = some t) : Inv transport t := by
  cases hc : c.pc with
  | entered =>
    simp only [advance, hc, Option.some.injEq] at hstep
    subst hstep
    exact inv_register h hi hc hsmall'
  | registered =>
    have hgo (pc : Pc) (hstart : pc ≠ .entered) (hflight : InFlight pc)
        (hwaiting : pc ≠ .waiting) : Inv transport (s.setCall i { c with pc := pc }) :=
      inv_goOn_of_inFlight h hi pc hstart hflight hwaiting fun _ => by rw [hc]; trivial
    cases marshals with
    | false =>
      simp only [advance, hc, Bool.false_eq_true, if_false, Option.some.injEq] at hstep
      subst hstep
      exact hgo _ nofun nofun nofun
    | true =>
      cases transport with
      | sse =>
        simp only [advance, hc, if_true, Option.some.injEq] at hstep
        subst hstep
        exact hgo _ nofun nofun nofun
      | stdio =>
        simp only [advance, hc, if_true, Option.some.injEq] at hstep
        subst hstep
        exact hgo _ nofun nofun nofun
  | checking =>
    simp only [advance, hc] at hstep
    split at hstep
    · injection hstep with hstep
      subst hstep
      exact inv_goOn_of_inFlight h hi _ nofun nofun nofun fun he => he.elim
    · injection hstep with hstep
      subst hstep
      exact inv_goOn_of_inFlight h hi _ nofun nofun nofun fun _ => by rw [hc]; trivial
  | sending => simp [advance, hc] at hstep
  | waiting =>
    simp only [advance, hc] at hstep
    exact inv_receive h hi hstep
  | failing message =>
    simp only [advance, hc, Option.some.injEq] at hstep
    subst hstep
    have hdeleted := inv_delete h hsmall hi (by rw [hc]; exact fun he => he)
    refine inv_goOn hdeleted hi _ nofun nofun (fun he => he.elim) ?_
    -- Its own entry is gone.
    intro k hk
    obtain ⟨hk, hne⟩ := mem_delete.mp hk
    exact absurd ((h.calls i c hi).pend k hk).2.1 hne
  | returned result => simp [advance, hc] at hstep

theorem inv_expire (h : Inv transport s) (hi : s.calls[i]? = some c)
    (hstep : expire s i c = some t) : Inv transport t := by
  cases hc : c.pc <;> simp only [expire, hc, reduceCtorEq] at hstep
  split at hstep
  · injection hstep with hstep
    subst hstep
    exact inv_goOn_of_inFlight h hi _ nofun nofun nofun fun he => he.elim
  · cases hstep

theorem inv_abort (h : Inv transport s) (hi : s.calls[i]? = some c)
    (hstep : abort transport s i c = some t) : Inv transport t := by
  cases hc : c.pc <;> cases transport <;> simp only [abort, hc, reduceCtorEq] at hstep
  split at hstep
  · injection hstep with hstep
    subst hstep
    exact inv_goOn_of_inFlight h hi _ nofun nofun nofun fun he => he.elim
  · cases hstep

/-- The entry stays for the sweep of `waitProcess`. -/
theorem inv_exited (h : Inv transport s) (hi : s.calls[i]? = some c)
    (hstep : exited transport s i c = some t) : Inv transport t := by
  cases hc : c.pc <;> cases transport <;> simp only [exited, hc, reduceCtorEq] at hstep
  split at hstep
  case isFalse => cases hstep
  case isTrue hdone =>
    injection hstep with hstep
    subst hstep
    refine inv_goOn h hi _ nofun nofun (fun he => he.elim) fun k hk => ⟨Or.inr ⟨hdone, ?_⟩, nofun⟩
    exact Bool.eq_false_iff.mpr fun hswept =>
      ((h.calls i c hi).pend k hk).2.2.2.2.2 hswept hc

theorem inv_sent (h : Inv transport s) (hi : s.calls[i]? = some c) {ok : Bool}
    (hstep : sent transport s i ok c = some t) : Inv transport t := by
  cases hc : c.pc <;> simp only [sent, hc, reduceCtorEq] at hstep
  cases ok with
  | false =>
    simp only [Bool.false_eq_true, if_false, Option.some.injEq] at hstep
    subst hstep
    exact inv_goOn_of_inFlight h hi _ nofun nofun nofun fun he => he.elim
  | true =>
    simp only [if_true] at hstep
    split at hstep
    case isTrue => cases hstep
    case isFalse hopen =>
      injection hstep with hstep
      subst hstep
      refine inv_goOn h hi _ nofun nofun (fun _ => by rw [hc]; trivial) fun k hk =>
        ⟨Or.inl nofun, fun hswept => ?_⟩
      -- Nothing is written to a process that is gone.
      exact absurd ⟨h.flags.ended (Or.inr hswept), h.flags.exited hswept⟩ hopen

theorem inv_deadline (h : Inv transport s) (hi : s.calls[i]? = some c) :
    Inv transport (s.setCall i { c with ctxDone := true }) := by
  have hold := h.calls i c hi
  exact inv_setCall h hi rfl ⟨hold.start, hold.id_le, hold.pend, hold.holds, hold.buffered,
    hold.answered, hold.expecting⟩ fun _ hplace => Or.inl ⟨c, hi, hplace⟩

theorem inv_respond (h : Inv transport s) (hsmall : s.nextID < 2 ^ 53) {resp : Response}
    (hstep : respond s resp = some t) : Inv transport t := by
  unfold respond at hstep
  split at hstep
  case h_2 => cases hstep
  case h_1 hscan =>
    split at hstep
    case h_1 =>
      injection hstep with hstep
      subst hstep
      exact h.frame rfl rfl rfl (fun _ _ _ => Iff.rfl) (Nat.le_succ _) (Or.inr ⟨id, rfl⟩)
        ⟨h.flags.closing, h.flags.swept, h.flags.ended, h.flags.exited, h.flags.safe⟩
    case h_2 i hlook =>
      injection hstep with hstep
      subst hstep
      exact inv_take h hsmall hscan hlook

theorem inv_step {m : Move} (h : Inv transport s) (hsmall : s.nextID < 2 ^ 53)
    (hsmall' : t.nextID < 2 ^ 53) (hstep : step transport s m = some t) : Inv transport t := by
  have hcall {i : ℕ} {f : Call → Option Client} (hwith : withCall s i f = some t) :
      ∃ c, s.calls[i]? = some c ∧ f c = some t := by
    unfold withCall at hwith
    split at hwith
    case h_1 => cases hwith
    case h_2 c hc => exact ⟨c, hc, hwith⟩
  cases m with
  | sendRequest =>
    injection hstep with hstep
    exact hstep ▸ inv_sendRequest h
  | next i marshals =>
    obtain ⟨c, hc, hstep⟩ := hcall hstep
    exact inv_advance h hc hsmall hsmall' hstep
  | expire i =>
    obtain ⟨c, hc, hstep⟩ := hcall hstep
    exact inv_expire h hc hstep
  | exited i =>
    obtain ⟨c, hc, hstep⟩ := hcall hstep
    exact inv_exited h hc hstep
  | abort i =>
    obtain ⟨c, hc, hstep⟩ := hcall hstep
    exact inv_abort h hc hstep
  | sent i ok =>
    obtain ⟨c, hc, hstep⟩ := hcall hstep
    exact inv_sent h hc hstep
  | deadline i =>
    obtain ⟨c, hc, hstep⟩ := hcall hstep
    injection hstep with hstep
    exact hstep ▸ inv_deadline h hc
  | respond resp => exact inv_respond h hsmall hstep
  | deliver =>
    simp only [step] at hstep
    split at hstep
    case h_2 => cases hstep
    case h_1 i n resp hheld =>
      obtain ⟨u, hsend, rfl⟩ := Option.map_eq_some_iff.mp hstep
      exact inv_deliver h hheld hsend
  | endStream =>
    simp only [step] at hstep
    split at hstep
    case h_1 hscan =>
      injection hstep with hstep
      subst hstep
      have hswept := inv_sweep h
      have hreader {i n : ℕ} {r : Response} : s.sweep.reader ≠ .holding i n r := by
        rw [sweep_eq h]
        simp [hscan]
      refine hswept.frame rfl rfl rfl ?_ le_rfl (Or.inl rfl) ?_
      · exact fun i n r => ⟨nofun, fun hr => absurd hr hreader⟩
      · exact ⟨hswept.flags.closing, fun _ _ => rfl, hswept.flags.ended, hswept.flags.exited,
          hswept.flags.safe⟩
    case h_2 hscan =>
      injection hstep with hstep
      subst hstep
      refine h.frame rfl rfl rfl ?_ le_rfl (Or.inr ⟨id, rfl⟩) ?_
      · exact fun i n r => ⟨nofun, fun hr => by simp [hscan] at hr⟩
      · exact ⟨h.flags.closing, nofun, h.flags.ended, h.flags.exited, h.flags.safe⟩
    case h_3 => cases hstep
  | close =>
    simp only [step] at hstep
    split at hstep
    case isTrue => exact Option.some.inj hstep ▸ h
    case isFalse =>
      injection hstep with hstep
      subst hstep
      refine h.frame rfl rfl rfl (fun _ _ _ => Iff.rfl) le_rfl (Or.inr ⟨id, rfl⟩) ?_
      refine ⟨fun _ => rfl, ?_, h.flags.ended, h.flags.exited, h.flags.safe⟩
      rintro hsse (hmarked | hstream)
      · cases hmarked
      · exact h.flags.swept hsse (Or.inr hstream)
  | sweepClose =>
    simp only [step] at hstep
    split at hstep
    case isFalse => cases hstep
    case isTrue hmarked =>
      injection hstep with hstep
      subst hstep
      have hswept := inv_sweep h
      refine hswept.frame rfl rfl rfl (fun _ _ _ => Iff.rfl) le_rfl (Or.inl rfl) ?_
      refine ⟨fun _ => hswept.flags.closing ?_, fun _ _ => rfl, hswept.flags.ended,
        hswept.flags.exited, hswept.flags.safe⟩
      rw [sweep_eq h]
      simp [hmarked.2]
  | exit =>
    simp only [step] at hstep
    split at hstep
    case isFalse => cases hstep
    case isTrue hdone =>
      injection hstep with hstep
      subst hstep
      refine h.frame rfl rfl rfl (fun _ _ _ => Iff.rfl) le_rfl (Or.inr ⟨fun _ => rfl, rfl⟩) ?_
      exact ⟨h.flags.closing, h.flags.swept, fun _ => hdone.1, fun _ => rfl, h.flags.safe⟩
  | sweepExit =>
    simp only [step] at hstep
    split at hstep
    case isFalse => cases hstep
    case isTrue hdone =>
      injection hstep with hstep
      subst hstep
      have hswept := inv_sweep h
      refine hswept.frame rfl rfl rfl (fun _ _ _ => Iff.rfl) le_rfl (Or.inl rfl) ?_
      refine ⟨hswept.flags.closing, fun _ _ => rfl, fun _ => hdone.1, fun _ => ?_,
        hswept.flags.safe⟩
      rw [sweep_eq h]
      exact hdone.2.1

end Swazz.Mcp
