import Swazz.OobStore

/-! Every out-of-band token is accounted for once, in any order of the calls. -/
namespace Swazz.Oob

open StepSystem BoundedMap

/-- A new store with a limit, with or without a callback. -/
def Store.made (limit : ℤ) (callback : Bool) : Store :=
  if callback then (newStoreWithLimit limit).onFirstDrop else newStoreWithLimit limit

/-- A token that is handed over: nil contexts are left out. -/
def withContext (p : String × Option ℕ) : Option (String × ℕ) := p.2.map fun ctx => (p.1, ctx)

variable {R : Type}

def State.tokens (s : State R) : List String := s.registered.map (·.1)

/-- Something has been dropped in the period. -/
abbrev State.DroppedIn (s : State R) (p : ℕ) : Prop := p ∈ s.dropped.map (·.2)

/-- The accounts of a run's tokens. -/
structure State.Accounted (s : State R) : Prop where
  distinct : s.tokens.Nodup
  once : ∀ t, s.fates t = s.tokens.count t
  waiting : s.store.m.entries.Sublist s.registered
  contextless : ∀ t ∈ s.discarded, (t, none) ∈ s.registered
  flag : s.store.dropped = true ↔ s.DroppedIn s.period
  periods : ∀ d ∈ s.dropped, d.2 ≤ s.period
  notified : ∀ p, (s.calls.map (·.1)).count p + s.owed.count p =
    if s.store.onDrop = true ∧ s.DroppedIn p then 1 else 0

theorem waiting_nodup (store : Store) : store.waiting.Nodup :=
  Map.entries_nodup store.inStep.toLinked

theorem gone_nodup (before after : Store) : (gone before after).Nodup :=
  (waiting_nodup before).filter _

/-- In a list without repetition a token is there once or not at all. -/
theorem count_of_nodup {l : List String} (h : l.Nodup) (t : String) :
    l.count t = if t ∈ l then 1 else 0 := by
  split_ifs with ht
  · exact List.count_eq_one_of_mem h ht
  · exact List.count_eq_zero_of_not_mem ht

/-- What leaves the store and what stays in it was there. -/
theorem count_gone {before after : Store} (h : ∀ t ∈ after.waiting, t ∈ before.waiting)
    (t : String) :
    after.waiting.count t + (gone before after).count t = before.waiting.count t := by
  have hgone : t ∈ gone before after ↔ t ∈ before.waiting ∧ t ∉ after.waiting := by simp [gone]
  rw [count_of_nodup (waiting_nodup after), count_of_nodup (waiting_nodup before),
    count_of_nodup (gone_nodup before after)]
  simp only [hgone]
  have ht := h t
  by_cases hafter : t ∈ after.waiting <;> by_cases hbefore : t ∈ before.waiting <;> simp_all

/-- What a registration of a new token does to the store. -/
theorem registerUUID_cases (store : Store) {uuid : String} (ctx : Option ℕ)
    (hnew : uuid ∉ store.waiting) :
    (store.m.entries.length < store.m.limit ∧
        (store.registerUUID uuid ctx).1.m.entries = store.m.entries ++ [(uuid, ctx)] ∧
        gone store (store.registerUUID uuid ctx).1 = [] ∧
        (store.registerUUID uuid ctx).1.dropped = store.dropped ∧
        (store.registerUUID uuid ctx).2 = false) ∨
      (store.m.entries.length = store.m.limit ∧ ∃ oldest rest,
        store.m.entries = oldest :: rest ∧
        (store.registerUUID uuid ctx).1.m.entries = rest ++ [(uuid, ctx)] ∧
        gone store (store.registerUUID uuid ctx).1 = [oldest.1] ∧
        (store.registerUUID uuid ctx).1.dropped = true ∧
        (store.registerUUID uuid ctx).2 = (!store.dropped && store.onDrop)) := by
  have hidx : store.m.idx uuid = none := by
    rw [Map.idx_eq_none store.inStep.toLinked]
    intro e he hkey
    apply hnew
    rw [← hkey]
    exact List.mem_map.mpr ⟨(e.key, e.val), List.mem_map.mpr ⟨e, he, rfl⟩, rfl⟩
  obtain ⟨-, ⟨hroom, hset, hentries⟩ | ⟨hfull, hset, oldest, rest, hold, hentries⟩⟩ :=
    Map.set_absent store.inStep ctx hidx
  · left
    refine ⟨hroom, hentries, ?_, by simp [Store.registerUUID, hset],
      by simp [Store.registerUUID, hset]⟩
    rw [gone, List.filter_eq_nil_iff]
    intro t ht
    have hkept : t ∈ (store.registerUUID uuid ctx).1.waiting := by
      rw [Store.waiting]
      change t ∈ (store.m.set uuid ctx).1.entries.map (·.1)
      rw [hentries, List.map_append]
      exact List.mem_append_left _ ht
    simpa using hkept
  · right
    refine ⟨hfull, oldest, rest, hold, hentries, ?_, by simp [Store.registerUUID, hset],
      by simp [Store.registerUUID, hset]⟩
    have hnodup := waiting_nodup store
    have hbefore : store.waiting = oldest.1 :: rest.map (·.1) := by
      rw [Store.waiting, hold, List.map_cons]
    have hafter : (store.registerUUID uuid ctx).1.waiting = rest.map (·.1) ++ [uuid] := by
      change (store.m.set uuid ctx).1.entries.map (·.1) = _
      rw [hentries, List.map_append]
      rfl
    rw [hbefore] at hnodup hnew
    have hoff : oldest.1 ∉ rest.map (·.1) ++ [uuid] := by
      intro hmem
      rcases List.mem_append.mp hmem with hrest | hself
      · exact (List.nodup_cons.mp hnodup).1 hrest
      · exact hnew (List.mem_singleton.mp hself ▸ List.mem_cons_self)
    have hrest : (rest.map (·.1)).filter (fun t => t ∉ rest.map (·.1) ++ [uuid]) = [] := by
      rw [List.filter_eq_nil_iff]
      intro t ht
      have hkept : t ∈ rest.map (·.1) ++ [uuid] := List.mem_append_left [uuid] ht
      simp only [decide_eq_true_eq, not_not]
      exact hkept
    rw [gone, hbefore, hafter, List.filter_cons_of_pos (by simpa using hoff), hrest]

/-- The loop of `TakePending`, over entries of the map. -/
theorem takeKeys_entries (l : List (String × Option ℕ)) {m : Tokens} (h : m.InStep)
    (hsub : ∀ p ∈ l, p ∈ m.entries) (hl : (l.map (·.1)).Nodup) :
    (takeKeys m (l.map (·.1))).1 = l.filterMap withContext ∧
      (takeKeys m (l.map (·.1))).2.entries = m.entries.filter fun p => p.1 ∉ l.map (·.1) := by
  induction l generalizing m with
  | nil => exact ⟨rfl, by simp [takeKeys]⟩
  | cons p l ih =>
    obtain ⟨hkey, hrest⟩ := List.nodup_cons.mp hl
    obtain ⟨hentries, hfound⟩ := Map.delete_entries h.toLinked p.1
    have hvalue : (m.delete p.1).1 = some p.2 := by
      have hmem := hsub p List.mem_cons_self
      rcases hfound with ⟨-, habsent⟩ | ⟨v, hv, hmem'⟩
      · exact absurd (List.mem_map.mpr ⟨p, hmem, rfl⟩) habsent
      · -- The map has one entry for the key.
        have hsame := List.inj_on_of_nodup_map (Map.entries_nodup h.toLinked) hmem hmem' rfl
        rw [hv, hsame]
    have hsub' : ∀ q ∈ l, q ∈ (m.delete p.1).2.entries := by
      intro q hq
      rw [hentries]
      have hne : q.1 ≠ p.1 := fun he => hkey (List.mem_map.mpr ⟨q, hq, he⟩)
      exact List.mem_filter.mpr ⟨hsub q (List.mem_cons_of_mem p hq), decide_eq_true hne⟩
    obtain ⟨htaken, hleft⟩ := ih (Map.delete_inStep h p.1) hsub' hrest
    have hfilter : (m.delete p.1).2.entries.filter (fun q => q.1 ∉ l.map (·.1)) =
        m.entries.filter fun q => q.1 ∉ (p :: l).map (·.1) := by
      rw [hentries, List.filter_filter]
      apply List.filter_congr
      intro q _
      rw [Bool.eq_iff_iff]
      simp only [Bool.and_eq_true, decide_eq_true_eq, List.map_cons, List.mem_cons, not_or]
      exact and_comm
    cases hctx : p.2 with
    | none =>
      have hloop : takeKeys m ((p :: l).map (·.1)) = takeKeys (m.delete p.1).2 (l.map (·.1)) := by
        simp [takeKeys, hvalue, hctx]
      have hnone : withContext p = none := by simp [withContext, hctx]
      rw [hloop, htaken, hleft, hfilter, List.filterMap_cons_none hnone]
      exact ⟨rfl, rfl⟩
    | some ctx =>
      have hloop : takeKeys m ((p :: l).map (·.1)) =
          ((p.1, ctx) :: (takeKeys (m.delete p.1).2 (l.map (·.1))).1,
            (takeKeys (m.delete p.1).2 (l.map (·.1))).2) := by
        simp [takeKeys, hvalue, hctx]
      have hsome : withContext p = some (p.1, ctx) := by simp [withContext, hctx]
      rw [hloop, List.filterMap_cons_some hsome, ← htaken, ← hfilter, ← hleft]
      exact ⟨rfl, rfl⟩

/-- What `TakePending` takes: the most recently registered, the newest first. -/
theorem takeLocked_spec (store : Store) (n : ℤ) :
    (store.takeLocked n).1 = (store.m.entries.reverse.take n.toNat).filterMap withContext ∧
      (store.takeLocked n).2.m.entries = store.m.entries.filter fun p =>
        p.1 ∉ store.waiting.reverse.take n.toNat := by
  have hkeys : store.m.newestKeys n = (store.m.entries.reverse.take n.toNat).map (·.1) := by
    rw [Map.newestKeys_eq, List.map_take, List.map_reverse]
  have hmem : ∀ p ∈ store.m.entries.reverse.take n.toNat, p ∈ store.m.entries := fun p hp =>
    List.mem_reverse.mp (List.mem_of_mem_take hp)
  have hnodup : ((store.m.entries.reverse.take n.toNat).map (·.1)).Nodup := by
    rw [List.map_take, List.map_reverse]
    exact ((List.nodup_reverse.mpr (waiting_nodup store))).sublist (List.take_sublist _ _)
  obtain ⟨htaken, hleft⟩ := takeKeys_entries _ store.inStep hmem hnodup
  rw [← hkeys] at htaken hleft
  have hnewest : store.waiting.reverse.take n.toNat = store.m.newestKeys n :=
    (Map.newestKeys_eq store.m n).symm
  rw [hnewest]
  exact ⟨htaken, hleft⟩

/-- Looking up a token takes it out of the store when it waits there. -/
theorem getAndRemoveUUID_spec (store : Store) (uuid : String) :
    (store.getAndRemoveUUID uuid).2.waiting = store.waiting.filter (· ≠ uuid) ∧
      ((store.getAndRemoveUUID uuid).1.isSome = true ↔ uuid ∈ store.waiting) := by
  obtain ⟨hentries, hfound⟩ := Map.delete_entries store.inStep.toLinked uuid
  constructor
  · calc (store.getAndRemoveUUID uuid).2.waiting
        = ((store.m.entries.filter fun p => p.1 ≠ uuid).map (·.1)) := by
          rw [← hentries]
          rfl
      _ = store.waiting.filter (· ≠ uuid) := by
          rw [Store.waiting, List.filter_map]
          rfl
  · change ((store.m.delete uuid).1.isSome = true ↔ _)
    rcases hfound with ⟨hnone, habsent⟩ | ⟨v, hv, hmem⟩
    · rw [hnone]
      exact ⟨nofun, fun h => absurd h habsent⟩
    · rw [hv]
      exact ⟨fun _ => List.mem_map.mpr ⟨_, hmem, rfl⟩, fun _ => rfl⟩

variable {s : State R}

theorem State.Accounted.waiting_tokens (h : s.Accounted) :
    s.store.waiting.Sublist s.tokens := h.waiting.map _

/-- Drops of other periods are not those of this one. -/
theorem not_droppedIn (h : s.Accounted) {p : ℕ} (hp : s.period < p) : ¬s.DroppedIn p := by
  intro hmem
  obtain ⟨d, hd, rfl⟩ := List.mem_map.mp hmem
  exact absurd (h.periods d hd) (by omega)

theorem accounted_init (limit : ℤ) (callback : Bool) (heap : Heap R) :
    (init (.made limit callback) heap).Accounted := by
  have hentries : (Store.made limit callback).m.entries = [] := by cases callback <;> rfl
  have hflag : (Store.made limit callback).dropped = false := by cases callback <;> rfl
  exact {
    distinct := List.nodup_nil
    once := by
      intro t
      have hwaiting : (Store.made limit callback).waiting = [] := by rw [Store.waiting, hentries]; rfl
      simp [State.fates, init, hwaiting, State.tokens]
    waiting := by
      rw [init, hentries]
    contextless := nofun
    flag := by simp [init, hflag, State.DroppedIn]
    periods := nofun
    notified := by simp [init, State.DroppedIn] }

/-- A token registered while the store has room waits there. -/
theorem accounted_room (h : s.Accounted) {uuid : String} {ctx : Option ℕ} {store : Store}
    (hnew : uuid ∉ s.tokens) (hentries : store.m.entries = s.store.m.entries ++ [(uuid, ctx)])
    (hflag : store.dropped = s.store.dropped) (hcallback : store.onDrop = s.store.onDrop) :
    ({ s with store := store, registered := s.registered ++ [(uuid, ctx)] } : State R).Accounted :=
  { distinct := by
      rw [State.tokens, List.map_append]
      exact List.Nodup.append h.distinct (List.nodup_singleton uuid)
        (List.disjoint_singleton.mpr hnew)
    once := by
      intro t
      have hwaiting : store.waiting = s.store.waiting ++ [uuid] := by
        rw [Store.waiting, hentries, List.map_append]
        rfl
      have hbefore := h.once t
      simp only [State.fates, State.tokens, hwaiting, List.count_append, List.map_append] at hbefore ⊢
      simp only [List.map_cons, List.map_nil]
      omega
    waiting := by
      rw [hentries]
      exact h.waiting.append (List.Sublist.refl _)
    contextless := fun t ht => List.mem_append_left _ (h.contextless t ht)
    flag := by rw [hflag]; exact h.flag
    periods := h.periods
    notified := by rw [hcallback]; exact h.notified }

/-- A token registered while the store is full makes the oldest leave. -/
theorem accounted_full (h : s.Accounted) {uuid : String} {ctx : Option ℕ} {store : Store}
    {oldest : String × Option ℕ} {rest : List (String × Option ℕ)} (hnew : uuid ∉ s.tokens)
    (hold : s.store.m.entries = oldest :: rest)
    (hentries : store.m.entries = rest ++ [(uuid, ctx)]) (hflag : store.dropped = true)
    (hcallback : store.onDrop = s.store.onDrop) :
    ({ s with
      store := store
      registered := s.registered ++ [(uuid, ctx)]
      dropped := s.dropped ++ [(oldest.1, s.period)]
      owed := if (!s.store.dropped && s.store.onDrop) = true then s.owed ++ [s.period]
        else s.owed } : State R).Accounted :=
  { distinct := by
      rw [State.tokens, List.map_append]
      exact List.Nodup.append h.distinct (List.nodup_singleton uuid)
        (List.disjoint_singleton.mpr hnew)
    once := by
      intro t
      have hwaiting : store.waiting = rest.map (·.1) ++ [uuid] := by
        rw [Store.waiting, hentries, List.map_append]
        rfl
      have hbefore := h.once t
      have holdest : s.store.waiting = oldest.1 :: rest.map (·.1) := by
        rw [Store.waiting, hold, List.map_cons]
      simp only [State.fates, State.tokens, hwaiting, holdest, List.count_append,
        List.map_append, List.count_cons, List.map_cons, List.map_nil, List.count_nil] at hbefore ⊢
      omega
    waiting := by
      rw [hentries]
      have hrest : rest.Sublist s.registered :=
        (List.sublist_cons_self oldest rest).trans (hold ▸ h.waiting)
      exact hrest.append (List.Sublist.refl _)
    contextless := fun t ht => List.mem_append_left _ (h.contextless t ht)
    flag := by simp [hflag, State.DroppedIn]
    periods := by
      intro d hd
      rcases List.mem_append.mp hd with hd | hd
      · exact h.periods d hd
      · obtain rfl := List.mem_singleton.mp hd
        exact Nat.le_refl _
    notified := by
      intro p
      have hbefore := h.notified p
      have hflag := h.flag
      have hin : p ∈ (s.dropped ++ [(oldest.1, s.period)]).map (·.2) ↔
          s.DroppedIn p ∨ p = s.period := by simp [State.DroppedIn]
      simp only [State.DroppedIn, hin, hcallback] at hbefore ⊢
      by_cases hp : p = s.period
      · -- Only the first drop of the period leaves a call to be made.
        subst hp
        cases hc : s.store.onDrop <;> cases hd : s.store.dropped <;>
          simp_all [State.DroppedIn, List.count_append]
      · have hne : (s.period == p) = false := by simpa using Ne.symm hp
        have howed : (if (!s.store.dropped && s.store.onDrop) = true then s.owed ++ [s.period]
            else s.owed).count p = s.owed.count p := by
          split_ifs
          · simp [List.count_append, List.count_cons, hne]
          · rfl
        rw [howed, hbefore]
        exact if_congr (and_congr_right fun _ => (or_iff_left hp).symm) rfl rfl }

/-- A callback leaves the calls to be made and has been called. -/
theorem accounted_notify (h : s.Accounted) {i p : ℕ} (hi : s.owed[i]? = some p) :
    ({ s with owed := s.owed.eraseIdx i, calls := s.calls ++ [(p, s.period)] } :
      State R).Accounted :=
  { h with
    notified := by
      intro q
      have hbefore := h.notified q
      obtain ⟨hlt, rfl⟩ := List.getElem?_eq_some_iff.mp hi
      have hperm : s.owed.Perm (s.owed[i] :: s.owed.eraseIdx i) :=
        (List.getElem_cons_eraseIdx_perm hlt).symm
      have hcount := hperm.count_eq q
      rw [← hbefore, hcount, List.map_append, List.count_append, List.count_cons]
      simp only [List.map_cons, List.map_nil, List.count_cons, List.count_nil]
      omega }

/-- Tokens that leave the store with one fate each stay accounted for. -/
theorem accounted_left (h : s.Accounted) {s' : State R} (hregistered : s'.registered = s.registered)
    (hentries : s'.store.m.entries.Sublist s.store.m.entries)
    (hfates : ∀ t, s'.fates t = s.fates t) (hdiscarded : ∀ t ∈ s'.discarded, (t, none) ∈ s.registered)
    (hflag : s'.store.dropped = true ↔ s'.DroppedIn s'.period)
    (hdropped : s'.dropped = s.dropped) (hperiod : s.period ≤ s'.period)
    (hcallback : s'.store.onDrop = s.store.onDrop) (howed : s'.owed = s.owed)
    (hcalls : s'.calls = s.calls) : s'.Accounted :=
  { distinct := by rw [State.tokens, hregistered]; exact h.distinct
    once := by
      intro t
      rw [hfates, State.tokens, hregistered]
      exact h.once t
    waiting := by
      rw [hregistered]
      exact hentries.trans h.waiting
    contextless := by
      rw [hregistered]
      exact hdiscarded
    flag := hflag
    periods := by
      intro d hd
      rw [hdropped] at hd
      exact Nat.le_trans (h.periods d hd) hperiod
    notified := by
      intro p
      simp only [State.DroppedIn, hcalls, howed, hcallback, hdropped]
      exact h.notified p }

theorem getAndRemove_accounted (h : s.Accounted) {s' : State R} (uuid : String)
    (hstep : step s (.getAndRemove uuid) = some s') : s'.Accounted := by
  obtain ⟨hwaiting, hfound⟩ := getAndRemoveUUID_spec s.store uuid
  have hentries : (s.store.getAndRemoveUUID uuid).2.m.entries.Sublist s.store.m.entries := by
    change ((s.store.m.delete uuid).2.entries.Sublist _)
    rw [(Map.delete_entries s.store.inStep.toLinked uuid).1]
    exact List.filter_sublist
  have hs' : s' = { s with
      store := (s.store.getAndRemoveUUID uuid).2
      matched := if (s.store.getAndRemoveUUID uuid).1.isSome then s.matched ++ [uuid]
        else s.matched } := (Option.some.inj hstep).symm
  subst hs'
  refine accounted_left h rfl hentries ?_ h.contextless h.flag rfl (Nat.le_refl _) rfl rfl rfl
  intro t
  simp only [State.fates]
  by_cases hmem : uuid ∈ s.store.waiting
  · rw [if_pos (hfound.mpr hmem), hwaiting]
    by_cases ht : t = uuid
    · -- It waited once, and is matched once more.
      subst ht
      have hzero : (s.store.waiting.filter (· ≠ t)).count t = 0 :=
        List.count_eq_zero_of_not_mem (by simp)
      have hone : s.store.waiting.count t = 1 :=
        List.count_eq_one_of_mem (waiting_nodup s.store) hmem
      rw [hzero, hone, List.count_append, List.count_singleton_self]
      omega
    · have hsame : (s.store.waiting.filter (· ≠ uuid)).count t = s.store.waiting.count t :=
        List.count_filter (by simpa using ht)
      have hother : [uuid].count t = 0 := List.count_eq_zero_of_not_mem (by simpa using ht)
      rw [hsame, List.count_append, hother]
      omega
  · have hall : s.store.waiting.filter (· ≠ uuid) = s.store.waiting := by
      rw [List.filter_eq_self]
      intro t ht
      exact decide_eq_true fun he => hmem (he ▸ ht)
    rw [if_neg (mt hfound.mp hmem), hwaiting, hall]

theorem withContext_sublist (l : List (String × Option ℕ)) :
    ((l.filterMap withContext).map (·.1)).Sublist (l.map (·.1)) := by
  induction l with
  | nil => exact List.Sublist.refl _
  | cons p l ih =>
    obtain ⟨t, _ | ctx⟩ := p
    · rw [List.filterMap_cons_none rfl]
      exact ih.cons t
    · have hsome : withContext (t, some ctx) = some (t, ctx) := rfl
      rw [List.filterMap_cons_some hsome]
      exact ih.cons_cons t

theorem takePending_accounted (h : s.Accounted) {s' : State R} (n : ℤ)
    (hstep : step s (.takePending n) = some s') : s'.Accounted := by
  obtain ⟨htaken, hentries⟩ := takeLocked_spec s.store n
  let batch := (s.store.takePending s.heap n).1
  let store := (s.store.takePending s.heap n).2
  have hs' : s' = { s with
      store := store
      taken := s.taken ++ [batch]
      discarded := s.discarded ++ (gone s.store store).filter fun t => t ∉ batch.map (·.uuid) } :=
    (Option.some.inj hstep).symm
  let keys := s.store.waiting.reverse.take n.toNat
  have hkeys : (s.store.m.entries.reverse.take n.toNat).map (·.1) = keys := by
    rw [List.map_take, List.map_reverse]
    rfl
  have hbatch : batch.map (·.uuid) = (s.store.takeLocked n).1.map (·.1) := List.map_map
  have hsublist : (batch.map (·.uuid)).Sublist keys := by
    rw [hbatch, htaken, ← hkeys]
    exact withContext_sublist _
  have hafter : store.waiting = s.store.waiting.filter fun t => t ∉ keys := by
    rw [Store.waiting, show store.m.entries = _ from hentries, Store.waiting, List.filter_map]
    rfl
  have hgone (t : String) : t ∈ gone s.store store ↔ t ∈ s.store.waiting ∧ t ∈ keys := by
    rw [gone, hafter, List.mem_filter, decide_eq_true_eq, List.mem_filter, decide_eq_true_eq]
    tauto
  have hkept : ∀ t ∈ store.waiting, t ∈ s.store.waiting := by
    intro t ht
    rw [hafter] at ht
    exact (List.mem_filter.mp ht).1
  subst hs'
  refine accounted_left h rfl (hentries ▸ List.filter_sublist) ?_ ?_ h.flag rfl (Nat.le_refl _)
    rfl rfl rfl
  · intro t
    have hnodup : (batch.map (·.uuid)).Nodup := by
      have hkeysNodup : keys.Nodup :=
        (List.nodup_reverse.mpr (waiting_nodup s.store)).sublist (List.take_sublist _ _)
      exact hkeysNodup.sublist hsublist
    -- What is handed over is part of what has left the store.
    have hpart : ((gone s.store store).filter fun t => t ∉ batch.map (·.uuid)).count t +
        (batch.map (·.uuid)).count t = (gone s.store store).count t := by
      rw [count_of_nodup ((gone_nodup _ _).filter _), count_of_nodup hnodup,
        count_of_nodup (gone_nodup _ _)]
      simp only [List.mem_filter, decide_eq_true_eq]
      by_cases hmem : t ∈ batch.map (·.uuid)
      · have hin := hsublist.subset hmem
        have hwaits : t ∈ s.store.waiting := List.mem_reverse.mp (List.mem_of_mem_take hin)
        rw [if_neg (fun hboth => hboth.2 hmem), if_pos hmem, if_pos ((hgone t).mpr ⟨hwaits, hin⟩)]
      · simp only [hmem, not_false_eq_true, and_true, if_false, Nat.add_zero]
    have htotal := count_gone hkept t
    simp only [State.fates, List.flatten_append, List.map_append, List.count_append,
      List.flatten_cons, List.flatten_nil, List.append_nil]
    omega
  · intro t ht
    rcases List.mem_append.mp ht with hold | hnew
    · exact h.contextless t hold
    · obtain ⟨hleft, hnot⟩ := List.mem_filter.mp hnew
      obtain ⟨-, hin⟩ := (hgone t).mp hleft
      rw [← hkeys] at hin
      obtain ⟨⟨t', ctx⟩, hp, rfl⟩ := List.mem_map.mp hin
      have hentry := List.mem_reverse.mp (List.mem_of_mem_take hp)
      cases ctx with
      | none => exact h.waiting.subset hentry
      | some ctx =>
        -- A token with a context is handed over.
        refine absurd ?_ (of_decide_eq_true hnot)
        rw [hbatch, htaken]
        exact List.mem_map.mpr ⟨(t', ctx), List.mem_filterMap.mpr ⟨_, hp, rfl⟩, rfl⟩

theorem clear_accounted (h : s.Accounted) {s' : State R} (hstep : step s .clear = some s') :
    s'.Accounted := by
  cases hstep
  have hwaiting : s.store.clear.waiting = [] := rfl
  have hgone : gone s.store s.store.clear = s.store.waiting := by
    rw [gone, hwaiting, List.filter_eq_self]
    exact fun t _ => by simp
  refine accounted_left h rfl (List.nil_sublist _) ?_ h.contextless ?_ rfl (Nat.le_succ _) rfl rfl rfl
  · intro t
    simp only [State.fates, hgone, hwaiting, List.count_append, List.count_nil]
    omega
  · have hfresh := not_droppedIn h (Nat.lt_succ_self s.period)
    exact ⟨nofun, fun hdrop => absurd hdrop hfresh⟩

theorem register_accounted (h : s.Accounted) {s' : State R} (uuid : String) (ctx : Option ℕ)
    (hstep : step s (.register uuid ctx) = some s') : s'.Accounted := by
  rw [step] at hstep
  split_ifs at hstep with hold
  have hnew : uuid ∉ s.store.waiting := fun hmem => hold (h.waiting_tokens.subset hmem)
  rcases registerUUID_cases s.store ctx hnew with
    ⟨-, hentries, hgone, hflag, hnotify⟩ | ⟨-, oldest, rest, hfull, hentries, hgone, hflag, hnotify⟩
  · simp only [hgone, hnotify, List.map_nil, List.append_nil] at hstep
    cases hstep
    exact accounted_room h hold hentries hflag rfl
  · simp only [hgone, hnotify, List.map_cons, List.map_nil] at hstep
    cases hstep
    exact accounted_full h hold hfull hentries hflag rfl

theorem step_accounted (h : s.Accounted) {move : Move R} {s' : State R}
    (hstep : step s move = some s') : s'.Accounted := by
  cases move with
  | register uuid ctx => exact register_accounted h uuid ctx hstep
  | notify i =>
    obtain ⟨p, hi, rfl⟩ := Option.map_eq_some_iff.mp hstep
    exact accounted_notify h hi
  | getAndRemove uuid => exact getAndRemove_accounted h uuid hstep
  | updateRequest uuid req =>
    cases hstep
    exact { h with }
  | takePending n => exact takePending_accounted h n hstep
  | clear => exact clear_accounted h hstep

theorem reaches_accounted (limit : ℤ) (callback : Bool) (heap : Heap R)
    (h : Reaches step (init (.made limit callback) heap) s) : s.Accounted :=
  ReachesUnder.invariant (I := State.Accounted) (accounted_init limit callback heap)
    (fun _ _ _ hI _ hstep => step_accounted hI hstep) h

theorem step_limit {move : Move R} {s' : State R} (hstep : step s move = some s') :
    s'.store.m.limit = s.store.m.limit := by
  cases move with
  | register uuid ctx =>
    rw [step] at hstep
    split_ifs at hstep
    cases hstep
    exact Map.set_limit s.store.m uuid ctx
  | notify i =>
    obtain ⟨p, -, rfl⟩ := Option.map_eq_some_iff.mp hstep
    rfl
  | getAndRemove uuid =>
    cases hstep
    exact Map.delete_limit s.store.m uuid
  | updateRequest uuid req =>
    cases hstep
    rfl
  | takePending n =>
    cases hstep
    exact (takeKeys_inStep _ s.store.inStep).2
  | clear =>
    cases hstep
    rfl

theorem reaches_limit (limit : ℤ) (callback : Bool) (heap : Heap R)
    (h : Reaches step (init (.made limit callback) heap) s) :
    s.store.m.limit = (max limit 1).toNat := by
  have hmade : (Store.made limit callback).m.limit = (max limit 1).toNat := by
    have hnew : (Map.new limit : Tokens).limit = (max limit 1).toNat := by
      rw [Map.new]
      split_ifs with hlow <;> simp only <;> omega
    cases callback <;> exact hnew
  exact ReachesUnder.invariant (I := fun s => s.store.m.limit = (max limit 1).toNat) hmade
    (fun _ _ _ hI _ hstep => (step_limit hstep).trans hI) h

/-- Only a registration into a full store drops a token, the one that has waited longest. -/
theorem step_dropped (h : s.Accounted) {move : Move R} {s' : State R}
    (hstep : step s move = some s') : s'.dropped = s.dropped ∨ ∃ uuid ctx oldest rest,
      move = .register uuid ctx ∧ s.store.waiting.length = s.store.m.limit ∧
      s.store.waiting = oldest :: rest ∧ s'.store.waiting = rest ++ [uuid] ∧
      s'.dropped = s.dropped ++ [(oldest, s.period)] := by
  cases move with
  | register uuid ctx =>
    rw [step] at hstep
    split_ifs at hstep with hold
    have hnew : uuid ∉ s.store.waiting := fun hmem => hold (h.waiting_tokens.subset hmem)
    rcases registerUUID_cases s.store ctx hnew with
      ⟨-, -, hgone, -, -⟩ | ⟨hfull, oldest, rest, hbefore, hafter, hgone, -, -⟩
    · left
      cases hstep
      change s.dropped ++ (gone s.store (s.store.registerUUID uuid ctx).1).map _ = _
      rw [hgone, List.map_nil, List.append_nil]
    · right
      refine ⟨uuid, ctx, oldest.1, rest.map (·.1), rfl, ?_, ?_, ?_, ?_⟩
      · rw [Store.waiting, List.length_map, hfull]
      · rw [Store.waiting, hbefore, List.map_cons]
      · cases hstep
        change (s.store.registerUUID uuid ctx).1.m.entries.map (·.1) = _
        rw [hafter, List.map_append]
        rfl
      · cases hstep
        change s.dropped ++ (gone s.store (s.store.registerUUID uuid ctx).1).map _ = _
        rw [hgone]
        rfl
  | notify i =>
    obtain ⟨p, -, rfl⟩ := Option.map_eq_some_iff.mp hstep
    exact Or.inl rfl
  | getAndRemove uuid | updateRequest uuid req | takePending n | clear =>
    cases hstep
    exact Or.inl rfl

/-- In every order of the calls each registered token waits, has been matched once, handed over
once, taken without a context, dropped or cleared; drops, hand-overs and callbacks are as they
should be. -/
theorem tokens_accounted (limit : ℤ) (callback : Bool) (heap : Heap R)
    (h : Reaches step (init (.made limit callback) heap) s) :
    (∀ t, s.fates t = if t ∈ s.tokens then 1 else 0) ∧
    (∀ t ∈ s.discarded, (t, none) ∈ s.registered) ∧
    s.store.waiting.Sublist s.tokens ∧ s.tokens.Nodup ∧
    s.store.waiting.length ≤ (max limit 1).toNat ∧
    (∀ p, (s.calls.map (·.1)).count p + s.owed.count p =
      if s.store.onDrop = true ∧ s.DroppedIn p then 1 else 0) ∧
    (∀ move s', step s move = some s' → s'.dropped = s.dropped ∨ ∃ uuid ctx oldest rest,
      move = .register uuid ctx ∧ s.store.waiting.length = (max limit 1).toNat ∧
      s.store.waiting = oldest :: rest ∧ s'.store.waiting = rest ++ [uuid] ∧
      s'.dropped = s.dropped ++ [(oldest, s.period)]) ∧
    ∀ n s', step s (.takePending n) = some s' →
      s'.taken = s.taken ++
        [((s.store.m.entries.reverse.take n.toNat).filterMap withContext).map
          (pendingToken s.heap)] ∧
      s'.store.waiting =
        s.store.waiting.filter fun t => t ∉ s.store.waiting.reverse.take n.toNat := by
  have hacc := reaches_accounted limit callback heap h
  have hlimit := reaches_limit limit callback heap h
  refine ⟨?_, hacc.contextless, hacc.waiting_tokens, hacc.distinct, ?_, hacc.notified, ?_, ?_⟩
  · intro t
    rw [hacc.once t]
    exact count_of_nodup hacc.distinct t
  · rw [← hlimit, Store.waiting, List.length_map, Map.entries, List.length_map]
    exact s.store.inStep.bound
  · intro move s' hstep
    rw [← hlimit]
    exact step_dropped hacc hstep
  · intro n s' hstep
    obtain ⟨htaken, hentries⟩ := takeLocked_spec s.store n
    cases hstep
    constructor
    · rw [← htaken]
    · change (s.store.takeLocked n).2.m.entries.map (·.1) = _
      rw [hentries, Store.waiting, List.filter_map]
      rfl

/-- The memory of the runs below. -/
def someContexts : Heap Unit := fun _ => ⟨[], [], .text [], none⟩

/-- A full store drops the first of two tokens, which is then accounted for as dropped. -/
theorem tokens_accounted_full : ∃ s : State Unit,
    Reaches step (init (.made 1 true) someContexts) s ∧ s.dropped = [("a", 0)] ∧
      s.store.waiting = ["b"] ∧ s.fates "a" = 1 := by
  obtain ⟨s, hs, hp⟩ := reachesUnder_of_test step (fun _ _ => True)
    (init (.made 1 true) someContexts) [.register "a" (some 0), .register "b" (some 1)]
    (fun s => s.dropped = [("a", 0)] ∧ s.store.waiting = ["b"] ∧ "a" ∈ s.tokens)
    (by decide)
  obtain ⟨hdropped, hwaiting, htoken⟩ := of_decide_eq_true hp
  refine ⟨s, hs, hdropped, hwaiting, ?_⟩
  rw [(tokens_accounted 1 true someContexts hs).1 "a", if_pos htoken]

/-- A token without a context is taken from the store and is in none of the lists; and a
callback that is called after a `Clear` falls into a period without a drop, so that there is
none in the period of the drop. -/
theorem token_lost_callback_late :
    (∃ s : State Unit, Reaches step (init (.made 1 true) someContexts) s ∧ "a" ∈ s.tokens ∧
      "a" ∉ s.store.waiting ∧ "a" ∉ s.matched ∧ "a" ∉ s.taken.flatten.map (·.uuid) ∧
      "a" ∉ s.dropped.map (·.1) ∧ "a" ∉ s.cleared) ∧
    ∃ s : State Unit, Reaches step (init (.made 1 true) someContexts) s ∧
      s.store.onDrop = true ∧ s.dropped = [("a", 0)] ∧ s.period = 1 ∧ s.calls = [(0, 1)] := by
  constructor
  · obtain ⟨s, hs, hp⟩ := reachesUnder_of_test step (fun _ _ => True)
      (init (.made 1 true) someContexts) [.register "a" none, .takePending 1]
      (fun s => "a" ∈ s.tokens ∧ "a" ∉ s.store.waiting ∧ "a" ∉ s.matched ∧
        "a" ∉ s.taken.flatten.map (·.uuid) ∧ "a" ∉ s.dropped.map (·.1) ∧ "a" ∉ s.cleared)
      (by decide)
    exact ⟨s, hs, of_decide_eq_true hp⟩
  · obtain ⟨s, hs, hp⟩ := reachesUnder_of_test step (fun _ _ => True)
      (init (.made 1 true) someContexts)
      [.register "a" (some 0), .register "b" (some 1), .clear, .notify 0]
      (fun s => s.store.onDrop = true ∧ s.dropped = [("a", 0)] ∧ s.period = 1 ∧
        s.calls = [(0, 1)]) (by decide)
    exact ⟨s, hs, of_decide_eq_true hp⟩

end Swazz.Oob
