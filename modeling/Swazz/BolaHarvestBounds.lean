import Swazz.BolaHarvest

/-! What the harvest keeps, over every interleaving of its calls, and the IDs that are taken of it
for a prefix: bounded, unique, and those of the nearest prefixes first. -/
namespace Swazz.Bola

open Utf8 hiding runes
open GoUrl EntryMap FillUp GoStrings StepSystem

variable {F : Type} (fl : Floats F)

/-! ### Harvesting -/

/-- The response has the value under an ID's key, and no such key was sent with it. -/
def Returned (c : Harvest F) (id : Text) : Prop :=
  ∃ key, (key, id) ∈ walkScalars fl [] c.respBody ∧ isIDParam key ∧
    ∀ e ∈ c.sent.flatMap (walkScalars fl []), lower e.1 = lower key → e.2 ≠ id

/-- What makes a value one that is kept for a prefix. -/
structure Kept (calls : List (Harvest F)) (p id : Text) : Prop where
  replayable : isReplayableID id = true
  returned : ∃ c ∈ calls, c.admitted = true ∧ c.prefixOf = p ∧ Returned fl c id

theorem Kept.append {calls : List (Harvest F)} {p id : Text} (h : Kept fl calls p id)
    (more : List (Harvest F)) : Kept fl (calls ++ more) p id := by
  obtain ⟨c, hc, hreturned⟩ := h.returned
  exact ⟨h.replayable, c, List.mem_append_left _ hc, hreturned⟩

theorem returned_of_mem {c : Harvest F} {id : Text} (h : id ∈ c.harvested fl) :
    Returned fl c id := by
  rw [Harvest.harvested, List.mem_map] at h
  obtain ⟨e, he, rfl⟩ := h
  rw [List.mem_filter, Bool.and_eq_true, decide_eq_true_eq] at he
  obtain ⟨hmem, hkey, hecho⟩ := he
  refine ⟨e.1, hmem, hkey, fun e' he' hlower hvalue => hecho ?_⟩
  have heq : echoKey e = echoKey e' := by
    rw [echoKey, echoKey, hlower, hvalue]
  rw [heq]
  exact List.mem_map_of_mem he'

theorem kept_newIDs {calls : List (Harvest F)} {c : Harvest F} (hc : c ∈ calls)
    (hadmitted : c.admitted = true) {id : Text} (h : id ∈ c.newIDs fl) :
    Kept fl calls c.prefixOf id := by
  rw [Harvest.newIDs, List.mem_mergeSort, List.mem_filter, List.mem_dedup] at h
  exact ⟨h.2, c, hc, hadmitted, rfl, returned_of_mem fl h.1⟩

/-- What a step does to the lists, to the calls that are about to store, and to the calls. -/
theorem step_cases {st st' : State F} {a : Action F} (h : step fl st a = some st') :
    (∃ c, (∀ q, st'.ids q = st.ids q) ∧ st'.calls = st.calls ++ [c] ∧
      (st'.pending = st.pending ∨
        c.admitted = true ∧ st'.pending = st.pending ++ [(c.prefixOf, c.newIDs fl)])) ∨
    ∃ e ∈ st.pending, st'.calls = st.calls ∧ (∀ e' ∈ st'.pending, e' ∈ st.pending) ∧
      ∀ q, st'.ids q =
        if q = e.1 then fillUp maxHarvestedIDsPerPrefix (st.ids q) e.2 else st.ids q := by
  cases a with
  | harvest c =>
    left
    dsimp only [step] at h
    split_ifs at h with hskip
    · obtain rfl := Option.some.inj h
      exact ⟨c, fun _ => rfl, rfl, Or.inl rfl⟩
    · obtain rfl := Option.some.inj h
      have hadmitted : c.admitted = true := by
        by_contra hnot
        exact hskip (by simp [eq_false_of_ne_true hnot])
      exact ⟨c, fun _ => rfl, rfl, Or.inr ⟨hadmitted, rfl⟩⟩
  | store i =>
    right
    dsimp only [step] at h
    split at h
    · cases h
    · next p newIDs hi =>
      have hmem : (p, newIDs) ∈ st.pending := List.mem_of_getElem? hi
      have hrest : ∀ e' ∈ st.pending.eraseIdx i, e' ∈ st.pending :=
        fun e' he' => List.mem_of_mem_eraseIdx he'
      split_ifs at h with hsame
      · obtain rfl := Option.some.inj h
        refine ⟨(p, newIDs), hmem, rfl, hrest, fun q => ?_⟩
        split_ifs with hq
        · rw [hq]
          exact hsame.symm
        · rfl
      · obtain rfl := Option.some.inj h
        refine ⟨(p, newIDs), hmem, rfl, hrest, fun q => ?_⟩
        show (get? (set st.harvestedIDs p _) q).getD [] = _
        split_ifs with hq
        · rw [hq, get?_set_self]
          rfl
        · rw [get?_set_ne (Ne.symm hq)]
          rfl

structure Inv (st : State F) : Prop where
  nodup : ∀ p, (st.ids p).Nodup
  length_le : ∀ p, (st.ids p).length ≤ maxHarvestedIDsPerPrefix
  kept : ∀ p, ∀ id ∈ st.ids p, Kept fl st.calls p id
  pending : ∀ e ∈ st.pending, ∀ id ∈ e.2, Kept fl st.calls e.1 id

theorem inv_start : Inv fl (start F) where
  nodup _ := List.nodup_nil
  length_le _ := Nat.zero_le _
  kept _ _ h := absurd h List.not_mem_nil
  pending _ h := absurd h List.not_mem_nil

theorem Inv.next {st st' : State F} {a : Action F} (hi : Inv fl st)
    (h : Bola.step fl st a = some st') : Inv fl st' := by
  rcases step_cases fl h with ⟨c, hids, hcalls, hpending⟩ | ⟨e, he, hcalls, hpending, hids⟩
  · refine ⟨?_, ?_, ?_, ?_⟩
    · intro p
      rw [hids]
      exact hi.nodup p
    · intro p
      rw [hids]
      exact hi.length_le p
    · intro p id hid
      rw [hids] at hid
      rw [hcalls]
      exact (hi.kept p id hid).append fl _
    · intro e he id hid
      rw [hcalls]
      rcases hpending with hsame | ⟨hadmitted, hmore⟩
      · rw [hsame] at he
        exact (hi.pending e he id hid).append fl _
      · rw [hmore, List.mem_append, List.mem_singleton] at he
        rcases he with he | rfl
        · exact (hi.pending e he id hid).append fl _
        · exact kept_newIDs fl (List.mem_append_right _ List.mem_cons_self) hadmitted hid
  · refine ⟨?_, ?_, ?_, ?_⟩
    · intro p
      rw [hids]
      split_ifs
      · exact nodup_fillUp (hi.nodup p)
      · exact hi.nodup p
    · intro p
      rw [hids]
      split_ifs
      · exact length_fillUp_le (hi.length_le p)
      · exact hi.length_le p
    · intro p id hid
      rw [hids] at hid
      rw [hcalls]
      split_ifs at hid with hp
      · rcases mem_fillUp hid with hold | hnew
        · exact hi.kept p id hold
        · rw [hp]
          exact hi.pending e he id hnew
      · exact hi.kept p id hid
    · intro e' he' id hid
      rw [hcalls]
      exact hi.pending e' (hpending e' he') id hid

theorem inv_of_reaches {st : State F} (h : Reaches (step fl) (start F) st) : Inv fl st :=
  ReachesUnder.invariant (inv_start fl) (fun _ _ _ hi _ hstep => hi.next fl hstep) h

/-- No value is replaced or moved: later ones come behind those there are. -/
theorem ids_prefix {st t : State F} (h : Reaches (step fl) st t) (p : Text) :
    st.ids p <+: t.ids p := by
  induction h with
  | refl => exact List.prefix_rfl
  | tail _ hlast ih =>
    obtain ⟨a, -, ha⟩ := hlast
    refine ih.trans ?_
    rcases step_cases fl ha with ⟨c, hids, -⟩ | ⟨e, -, -, -, hids⟩
    · rw [hids]
    · rw [hids]
      split_ifs
      · exact prefix_fillUp
      · exact List.prefix_rfl

/-! ### Choosing IDs -/

/-- Every harvested ID, with its repetitions. -/
def State.allIDs (st : State F) : List Text := st.idsOf (keys st.harvestedIDs)

/-- How far from a prefix an ID was harvested. -/
def State.distance (st : State F) (p id : Text) : ℕ :=
  if id ∈ st.ids p then 0
  else if id ∈ st.idsOf (st.related p) then 1
  else 2

/-- The IDs that are offered to a prefix, the nearest first, with their repetitions. -/
def State.offered (st : State F) (p : Text) : List Text :=
  st.ids p ++ st.idsOf (st.related p) ++ st.idsOf (st.other p)

theorem mem_idsOf {st : State F} {prefixes : List Text} {id : Text} :
    id ∈ st.idsOf prefixes ↔ ∃ q ∈ prefixes, id ∈ st.ids q :=
  List.mem_flatMap

theorem mem_keys_of_mem_ids {st : State F} {p id : Text} (h : id ∈ st.ids p) :
    p ∈ keys st.harvestedIDs := by
  by_contra hnot
  rw [State.ids, get?_eq_none.mpr hnot] at h
  exact List.not_mem_nil h

theorem mem_sortedPrefixes {st : State F} {f : Text → Bool} {q : Text} :
    q ∈ st.sortedPrefixes f ↔ q ∈ keys st.harvestedIDs ∧ f q = true := by
  rw [State.sortedPrefixes, List.mem_mergeSort, List.mem_filter]

theorem mem_related {st : State F} {p q : Text} :
    q ∈ st.related p ↔ q ∈ keys st.harvestedIDs ∧ q ≠ p ∧ arePrefixesRelated p q = true := by
  rw [State.related, mem_sortedPrefixes, Bool.and_eq_true, decide_eq_true_eq]

theorem mem_other {st : State F} {p q : Text} :
    q ∈ st.other p ↔ q ∈ keys st.harvestedIDs ∧ q ≠ p ∧ arePrefixesRelated p q = false := by
  rw [State.other, mem_sortedPrefixes, Bool.and_eq_true, decide_eq_true_eq, Bool.not_eq_true']

/-- The three classes of prefixes are all of them. -/
theorem mem_offered {st : State F} {p id : Text} : id ∈ st.offered p ↔ id ∈ st.allIDs := by
  rw [State.offered, List.mem_append, List.mem_append, mem_idsOf, mem_idsOf, State.allIDs, mem_idsOf]
  constructor
  · rintro ((hown | ⟨q, hq, hid⟩) | ⟨q, hq, hid⟩)
    · exact ⟨p, mem_keys_of_mem_ids hown, hown⟩
    · exact ⟨q, (mem_related.mp hq).1, hid⟩
    · exact ⟨q, (mem_other.mp hq).1, hid⟩
  · rintro ⟨q, hq, hid⟩
    by_cases hp : q = p
    · exact Or.inl (Or.inl (hp ▸ hid))
    · cases hrelated : arePrefixesRelated p q with
      | true => exact Or.inl (Or.inr ⟨q, mem_related.mpr ⟨hq, hp, hrelated⟩, hid⟩)
      | false => exact Or.inr ⟨q, mem_other.mpr ⟨hq, hp, hrelated⟩, hid⟩

/-- The IDs that are taken for a prefix: as many different ones as there are or as the limit
allows, nearer ones before farther ones, and none while a nearer one is left. -/
structure NearFirst (st : State F) (p : Text) (limit : ℕ) : Prop where
  nodup : (st.harvestedIDsFor p limit).Nodup
  length_eq : (st.harvestedIDsFor p limit).length = min limit st.allIDs.toFinset.card
  mem : ∀ id ∈ st.harvestedIDsFor p limit, id ∈ st.allIDs
  sorted : (st.harvestedIDsFor p limit).Pairwise fun a b => st.distance p a ≤ st.distance p b
  nearest : ∀ a ∈ st.harvestedIDsFor p limit, ∀ b ∈ st.allIDs,
    b ∉ st.harvestedIDsFor p limit → st.distance p a ≤ st.distance p b

theorem ranked_offered (st : State F) (p : Text) : Ranked (st.distance p) (st.offered p) := by
  intro i a hi b hb hlt
  have hown : a ∉ st.ids p := by
    intro ha
    rw [State.distance, State.distance, if_pos ha] at hlt
    exact Nat.not_lt_zero _ hlt
  rw [State.distance, State.distance, if_neg hown] at hlt
  rw [State.offered, List.append_assoc] at hi ⊢
  by_cases hb' : b ∈ st.ids p
  · exact subset_take hi hown hb'
  · rw [if_neg hb'] at hlt
    rw [← List.append_assoc] at hi ⊢
    -- the two are of different classes, so the farther one is of neither of the first two
    have hrelated : b ∈ st.idsOf (st.related p) ∧ a ∉ st.idsOf (st.related p) := by
      split_ifs at hlt with hb1 ha1 ha1
      · omega
      · exact ⟨hb1, ha1⟩
      · omega
      · omega
    refine subset_take hi ?_ (List.mem_append_right _ hrelated.1)
    rw [List.mem_append, not_or]
    exact ⟨hown, hrelated.2⟩

theorem nearFirst (st : State F) (p : Text) (limit : ℕ) : NearFirst st p limit where
  nodup := nodup_fillUp List.nodup_nil
  length_eq := by
    rw [State.harvestedIDsFor, length_fillUp]
    congr 2
    ext id
    rw [List.mem_toFinset, List.mem_toFinset]
    exact mem_offered
  mem id h := mem_offered.mp ((mem_fillUp h).resolve_left List.not_mem_nil)
  sorted := pairwise_fillUp (ranked_offered st p)
  nearest _ ha _ hb hout := le_of_not_mem_fillUp (ranked_offered st p) ha (mem_offered.mpr hb) hout

end Swazz.Bola
