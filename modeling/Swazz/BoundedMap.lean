import Mathlib.Data.Int.Notation
import Mathlib.Data.List.Nodup
import Mathlib.Logic.Function.Basic

/-! A map with a size limit that drops its least recently set entries first: a list in the
order of the sets, and an index from each key to its element of the list. -/
namespace Swazz.BoundedMap

/-- An element of the list; `id` stands for its address. -/
structure Element (K V : Type) where
  id : ℕ
  key : K
  val : V
  deriving DecidableEq

/-- Front of the list: the least recently set. `next` is the next free address. -/
structure Map (K V : Type) where
  limit : ℕ
  ll : List (Element K V)
  idx : K → Option ℕ
  next : ℕ

variable {K V : Type}

namespace Map

def new (limit : ℤ) : Map K V := ⟨if limit < 1 then 1 else limit.toNat, [], fun _ => none, 0⟩

section

variable [DecidableEq K]

/-- A new element at the back of the list, and its key in the index. -/
def push (m : Map K V) (k : K) (v : V) : Map K V :=
  ⟨m.limit, m.ll ++ [⟨m.next, k, v⟩], Function.update m.idx k (some m.next), m.next + 1⟩

/-- An element taken from the list, and its key from the index. -/
def remove (m : Map K V) (el : ℕ) (k : K) : Map K V :=
  { m with ll := m.ll.filter (·.id ≠ el), idx := Function.update m.idx k none }

/-- Stores a value as the most recent entry, and whether that dropped another one. -/
def set (m : Map K V) (k : K) (v : V) : Map K V × Bool :=
  match m.idx k with
  | some el =>
    let stored := m.ll.map fun e => if e.id = el then { e with val := v } else e
    ({ m with ll := stored.filter (·.id ≠ el) ++ stored.filter (·.id = el) }, false)
  | none =>
    let pushed := m.push k v
    match pushed.ll.head? with
    | some oldest =>
      if pushed.ll.length > m.limit then (pushed.remove oldest.id oldest.key, true)
      else (pushed, false)
    | none => (pushed, false)

def get (m : Map K V) (k : K) : Option V :=
  (m.idx k).bind fun el => (m.ll.find? (·.id = el)).map (·.val)

def delete (m : Map K V) (k : K) : Option V × Map K V :=
  match m.idx k with
  | none => (none, m)
  | some el => ((m.ll.find? (·.id = el)).map (·.val), m.remove el k)

end

/-- The keys of at most `n` entries, the most recently set first. -/
def newestKeys (m : Map K V) (n : ℤ) : List K := (m.ll.reverse.map (·.key)).take n.toNat

def clear (m : Map K V) : Map K V := { m with ll := [], idx := fun _ => none }

/-- What the map holds, in the order of the sets. -/
def entries (m : Map K V) : List (K × V) := m.ll.map fun e => (e.key, e.val)

/-- List and index are in step. -/
structure Linked (m : Map K V) : Prop where
  ids : (m.ll.map (·.id)).Nodup
  fresh : ∀ e ∈ m.ll, e.id < m.next
  index : ∀ k el, m.idx k = some el ↔ ∃ e ∈ m.ll, e.key = k ∧ e.id = el

/-- Between two operations the map is also within its limit. -/
structure InStep (m : Map K V) : Prop extends Linked m where
  bound : m.ll.length ≤ m.limit
  positive : 1 ≤ m.limit

variable {m : Map K V}

theorem new_inStep (limit : ℤ) : (new limit : Map K V).InStep where
  ids := List.nodup_nil
  fresh _ he := by cases he
  index k el := by simp [new]
  bound := Nat.zero_le _
  positive := by
    rw [new]
    split_ifs with h
    · exact Nat.le_refl 1
    · simp only
      omega

theorem clear_inStep (h : m.InStep) : m.clear.InStep where
  ids := List.nodup_nil
  fresh _ he := by cases he
  index k el := by simp [clear]
  bound := Nat.zero_le _
  positive := h.positive

theorem eq_of_id (h : m.Linked) {e e' : Element K V} (he : e ∈ m.ll) (he' : e' ∈ m.ll)
    (hid : e.id = e'.id) : e = e' :=
  List.inj_on_of_nodup_map h.ids he he' hid

theorem eq_of_key (h : m.Linked) {e e' : Element K V} (he : e ∈ m.ll) (he' : e' ∈ m.ll)
    (hkey : e.key = e'.key) : e = e' := by
  have hidx : m.idx e.key = some e.id := (h.index e.key e.id).mpr ⟨e, he, rfl, rfl⟩
  have hidx' : m.idx e.key = some e'.id := (h.index e.key e'.id).mpr ⟨e', he', hkey.symm, rfl⟩
  exact eq_of_id h he he' (Option.some.inj (hidx.symm.trans hidx'))

/-- No key has two elements. -/
theorem keys_nodup (h : m.Linked) : (m.ll.map (·.key)).Nodup :=
  List.Nodup.map_on (fun _ he _ he' hkey => eq_of_key h he he' hkey) (List.Nodup.of_map _ h.ids)

theorem idx_eq_none (h : m.Linked) {k : K} : m.idx k = none ↔ ∀ e ∈ m.ll, e.key ≠ k := by
  rw [Option.eq_none_iff_forall_ne_some]
  constructor
  · intro hnone e he hkey
    exact hnone e.id ((h.index k e.id).mpr ⟨e, he, hkey, rfl⟩)
  · intro hkeys el hel
    obtain ⟨e, he, hkey, -⟩ := (h.index k el).mp hel
    exact hkeys e he hkey

/-- The element that the index names. -/
theorem find_of_idx (h : m.Linked) {k : K} {el : ℕ} (hidx : m.idx k = some el) :
    ∃ e ∈ m.ll, e.key = k ∧ e.id = el ∧ m.ll.find? (·.id = el) = some e := by
  obtain ⟨e, he, hkey, hid⟩ := (h.index k el).mp hidx
  refine ⟨e, he, hkey, hid, ?_⟩
  cases hfind : m.ll.find? (·.id = el) with
  | none => exact absurd hid (by simpa using List.find?_eq_none.mp hfind e he)
  | some e' =>
    have hid' : e'.id = el := by simpa using List.find?_some hfind
    rw [eq_of_id h (List.mem_of_find?_eq_some hfind) he (hid'.trans hid.symm)]

/-- A key that is not there has no entry. -/
theorem not_mem_keys (h : m.Linked) {k : K} (hidx : m.idx k = none) :
    k ∉ m.entries.map (·.1) := by
  intro hmem
  obtain ⟨p, hp, hkey⟩ := List.mem_map.mp hmem
  obtain ⟨e, he, rfl⟩ := List.mem_map.mp hp
  exact (idx_eq_none h).mp hidx e he hkey

theorem entries_nodup (h : m.Linked) : (m.entries.map (·.1)).Nodup := by
  have hkeys : m.entries.map (·.1) = m.ll.map (·.key) := by simp [entries, Function.comp_def]
  rw [hkeys]
  exact keys_nodup h

theorem newestKeys_eq (m : Map K V) (n : ℤ) :
    m.newestKeys n = (m.entries.map (·.1)).reverse.take n.toNat := by
  simp [newestKeys, entries, List.map_reverse, Function.comp_def]

variable [DecidableEq K]

/-- A value stored under a key that is there: its element moves to the back. -/
theorem set_present_inStep (h : m.InStep) {k : K} {el : ℕ} (v : V) (hidx : m.idx k = some el) :
    (m.set k v).1.InStep := by
  let stored := m.ll.map fun e => if e.id = el then { e with val := v } else e
  have hset : (m.set k v).1 =
      { m with ll := stored.filter (·.id ≠ el) ++ stored.filter (·.id = el) } := by
    rw [set, hidx]
  have hperm : (stored.filter (·.id ≠ el) ++ stored.filter (·.id = el)).Perm stored := by
    have h := List.filter_append_perm (fun e : Element K V => decide (e.id ≠ el)) stored
    simpa using h
  have hids : stored.map (·.id) = m.ll.map (·.id) := by
    rw [List.map_map]
    apply List.map_congr_left
    intro e _
    simp only [Function.comp]
    split_ifs <;> rfl
  -- The elements keep their addresses and keys.
  have hmem (P : K → ℕ → Prop) :
      (∃ e ∈ stored, P e.key e.id) ↔ ∃ e ∈ m.ll, P e.key e.id := by
    constructor
    · rintro ⟨e, he, hP⟩
      obtain ⟨e', he', rfl⟩ := List.mem_map.mp he
      refine ⟨e', he', ?_⟩
      split_ifs at hP <;> exact hP
    · rintro ⟨e, he, hP⟩
      refine ⟨_, List.mem_map.mpr ⟨e, he, rfl⟩, ?_⟩
      split_ifs <;> exact hP
  rw [hset]
  exact {
    ids := ((hperm.map _).nodup_iff).mpr (hids ▸ h.ids)
    fresh := by
      intro e he
      obtain ⟨e', he', hid⟩ := (hmem fun _ id => id = e.id).mp ⟨e, hperm.mem_iff.mp he, rfl⟩
      exact hid ▸ h.fresh e' he'
    index := by
      intro k' el'
      rw [h.index k' el', ← hmem fun key id => key = k' ∧ id = el']
      simp only [hperm.mem_iff]
    bound := by
      simp only [hperm.length_eq]
      simpa [stored] using h.bound
    positive := h.positive }

theorem push_linked (h : m.Linked) {k : K} (v : V) (hidx : m.idx k = none) :
    (m.push k v).Linked where
  ids := by
    have hnew : m.next ∉ m.ll.map (·.id) := by
      intro hmem
      obtain ⟨e, he, hid⟩ := List.mem_map.mp hmem
      exact absurd (h.fresh e he) (by omega)
    rw [push, List.map_append]
    exact List.Nodup.append h.ids (List.nodup_singleton _) (by simpa using hnew)
  fresh e he := by
    rcases List.mem_append.mp he with hold | hnew
    · exact Nat.lt_succ_of_lt (h.fresh e hold)
    · rw [List.mem_singleton.mp hnew]
      exact Nat.lt_succ_self _
  index k' el := by
    have hmem (e : Element K V) :
        e ∈ (m.push k v).ll ↔ e ∈ m.ll ∨ e = ⟨m.next, k, v⟩ := by simp [push]
    by_cases hk : k' = k
    · subst hk
      have hself : (m.push k' v).idx k' = some m.next := Function.update_self _ _ _
      rw [hself]
      constructor
      · intro hel
        exact ⟨⟨m.next, k', v⟩, (hmem _).mpr (Or.inr rfl), rfl, Option.some.inj hel⟩
      · rintro ⟨e, he, hkey, hid⟩
        rcases (hmem e).mp he with hold | rfl
        · exact absurd hkey ((idx_eq_none h).mp hidx e hold)
        · exact congrArg some hid
    · have hother : (m.push k v).idx k' = m.idx k' := Function.update_of_ne hk _ _
      rw [hother, h.index]
      constructor
      · rintro ⟨e, he, hkey, hid⟩
        exact ⟨e, (hmem e).mpr (Or.inl he), hkey, hid⟩
      · rintro ⟨e, he, hkey, hid⟩
        rcases (hmem e).mp he with hold | rfl
        · exact ⟨e, hold, hkey, hid⟩
        · exact absurd hkey.symm hk

theorem remove_linked (h : m.Linked) {e : Element K V} (he : e ∈ m.ll) :
    (m.remove e.id e.key).Linked where
  ids := List.Nodup.sublist (List.filter_sublist.map _) h.ids
  fresh e' he' := h.fresh e' (List.mem_filter.mp he').1
  index k el := by
    have hmem (e' : Element K V) :
        e' ∈ (m.remove e.id e.key).ll ↔ e' ∈ m.ll ∧ e'.id ≠ e.id := by simp [remove]
    by_cases hk : k = e.key
    · subst hk
      have hself : (m.remove e.id e.key).idx e.key = none := Function.update_self _ _ _
      rw [hself]
      constructor
      · exact nofun
      · rintro ⟨e', he', hkey, -⟩
        obtain ⟨hold, hid⟩ := (hmem e').mp he'
        exact absurd (congrArg Element.id (eq_of_key h hold he hkey)) hid
    · have hother : (m.remove e.id e.key).idx k = m.idx k := Function.update_of_ne hk _ _
      rw [hother, h.index]
      constructor
      · rintro ⟨e', he', hkey, hid⟩
        refine ⟨e', (hmem e').mpr ⟨he', fun hsame => hk ?_⟩, hkey, hid⟩
        rw [← hkey, eq_of_id h he' he hsame]
      · rintro ⟨e', he', hkey, hid⟩
        exact ⟨e', ((hmem e').mp he').1, hkey, hid⟩

theorem entries_remove (h : m.Linked) {e : Element K V} (he : e ∈ m.ll) :
    (m.remove e.id e.key).entries = m.entries.filter fun p => p.1 ≠ e.key := by
  rw [entries, entries, remove, List.filter_map]
  congr 1
  apply List.filter_congr
  intro e' he'
  have hsame : e'.id = e.id ↔ e'.key = e.key :=
    ⟨fun hid => congrArg Element.key (eq_of_id h he' he hid),
      fun hkey => congrArg Element.id (eq_of_key h he' he hkey)⟩
  simp [hsame]

/-- Without its first element the list is the rest. -/
theorem remove_head (h : m.Linked) {oldest : Element K V} {rest : List (Element K V)}
    (hll : m.ll = oldest :: rest) : (m.remove oldest.id oldest.key).ll = rest := by
  have hids := h.ids
  rw [hll, List.map_cons, List.nodup_cons] at hids
  have hrest : ∀ e ∈ rest, e.id ≠ oldest.id := fun e he hid =>
    hids.1 (hid ▸ List.mem_map.mpr ⟨e, he, rfl⟩)
  have hfilter : rest.filter (fun e => e.id ≠ oldest.id) = rest := by
    rw [List.filter_eq_self]
    exact fun e he => decide_eq_true (hrest e he)
  calc (m.remove oldest.id oldest.key).ll
      = (oldest :: rest).filter (fun e => e.id ≠ oldest.id) := by rw [remove, hll]
    _ = rest.filter (fun e => e.id ≠ oldest.id) := List.filter_cons_of_neg (by simp)
    _ = rest := hfilter

/-- A new key is put at the back, and when the map is full the oldest entry makes room. -/
theorem set_absent (h : m.InStep) {k : K} (v : V) (hidx : m.idx k = none) :
    (m.set k v).1.InStep ∧
      ((m.entries.length < m.limit ∧ (m.set k v).2 = false ∧
          (m.set k v).1.entries = m.entries ++ [(k, v)]) ∨
        (m.entries.length = m.limit ∧ (m.set k v).2 = true ∧ ∃ oldest rest,
          m.entries = oldest :: rest ∧ (m.set k v).1.entries = rest ++ [(k, v)])) := by
  have hlinked : (m.push k v).Linked := push_linked h.toLinked v hidx
  have hlength : m.entries.length = m.ll.length := List.length_map _
  have hpushed : (m.push k v).ll.length = m.ll.length + 1 := by simp [push]
  have hentries : (m.push k v).entries = m.entries ++ [(k, v)] := by simp [entries, push]
  cases hll : m.ll with
  | nil =>
    -- An empty map has room, as its limit is at least one.
    have hempty : m.ll.length = 0 := by rw [hll]; rfl
    have hroom : ¬(m.push k v).ll.length > m.limit := by
      have hpos := h.positive
      omega
    have hset : m.set k v = (m.push k v, false) := by
      have hhead : (m.push k v).ll.head? = some ⟨m.next, k, v⟩ := by simp [push, hll]
      simp only [set, hidx, hhead, if_neg hroom]
    have hbound : (m.push k v).ll.length ≤ m.limit := by omega
    have hfree : m.entries.length < m.limit := by omega
    rw [hset]
    exact ⟨⟨hlinked, hbound, h.positive⟩, Or.inl ⟨hfree, rfl, hentries⟩⟩
  | cons oldest rest =>
    let added : Element K V := ⟨m.next, k, v⟩
    have hfirst : (m.push k v).ll = oldest :: (rest ++ [added]) := by simp [push, hll, added]
    have hhead : (m.push k v).ll.head? = some oldest := by rw [hfirst]; rfl
    by_cases hfull : (m.push k v).ll.length > m.limit
    · have hset : m.set k v = ((m.push k v).remove oldest.id oldest.key, true) := by
        simp only [set, hidx, hhead, if_pos hfull]
      have hbound := h.bound
      have hrest := remove_head hlinked hfirst
      have hmem : oldest ∈ (m.push k v).ll := by rw [hfirst]; exact List.mem_cons_self
      rw [hset]
      refine ⟨⟨remove_linked hlinked hmem, ?_, h.positive⟩, Or.inr ⟨by omega, rfl,
        (oldest.key, oldest.val), rest.map fun e => (e.key, e.val), ?_, ?_⟩⟩
      · rw [hrest]
        have hsize : (rest ++ [added]).length = m.ll.length := by rw [hll]; simp
        rw [hsize]
        exact hbound
      · rw [entries, hll]
        rfl
      · rw [entries, hrest]
        simp [added]
    · have hset : m.set k v = (m.push k v, false) := by
        simp only [set, hidx, hhead, if_neg hfull]
      have hbound : (m.push k v).ll.length ≤ m.limit := by omega
      have hfree : m.entries.length < m.limit := by omega
      rw [hset]
      exact ⟨⟨hlinked, hbound, h.positive⟩, Or.inl ⟨hfree, rfl, hentries⟩⟩

theorem set_inStep (h : m.InStep) (k : K) (v : V) : (m.set k v).1.InStep := by
  cases hidx : m.idx k with
  | some el => exact set_present_inStep h v hidx
  | none => exact (set_absent h v hidx).1

theorem set_limit (m : Map K V) (k : K) (v : V) : (m.set k v).1.limit = m.limit := by
  rw [set]
  split
  · rfl
  · dsimp only
    split
    · split_ifs <;> rfl
    · rfl

theorem delete_limit (m : Map K V) (k : K) : (m.delete k).2.limit = m.limit := by
  rw [delete]
  split <;> rfl

theorem delete_inStep (h : m.InStep) (k : K) : (m.delete k).2.InStep := by
  cases hidx : m.idx k with
  | none =>
    simp only [delete, hidx]
    exact h
  | some el =>
    obtain ⟨e, he, rfl, rfl, -⟩ := find_of_idx h.toLinked hidx
    simp only [delete, hidx]
    have hle : (m.remove e.id e.key).ll.length ≤ m.ll.length := List.length_filter_le _ _
    exact ⟨remove_linked h.toLinked he, Nat.le_trans hle h.bound, h.positive⟩

/-- A deleted entry is handed back and gone, the others stay in their order. -/
theorem delete_entries (h : m.Linked) (k : K) :
    (m.delete k).2.entries = m.entries.filter (fun p => p.1 ≠ k) ∧
      ((m.delete k).1 = none ∧ k ∉ m.entries.map (·.1) ∨
        ∃ v, (m.delete k).1 = some v ∧ (k, v) ∈ m.entries) := by
  cases hidx : m.idx k with
  | none =>
    have habsent := not_mem_keys h hidx
    simp only [delete, hidx]
    have hall : m.entries.filter (fun p => p.1 ≠ k) = m.entries := by
      rw [List.filter_eq_self]
      intro p hp
      exact decide_eq_true fun hkey => habsent (hkey ▸ List.mem_map.mpr ⟨p, hp, rfl⟩)
    exact ⟨hall.symm, Or.inl ⟨trivial, habsent⟩⟩
  | some el =>
    obtain ⟨e, he, rfl, rfl, hfind⟩ := find_of_idx h hidx
    simp only [delete, hidx, hfind, Option.map_some]
    refine ⟨entries_remove h he, Or.inr ⟨e.val, rfl, ?_⟩⟩
    exact List.mem_map.mpr ⟨e, he, rfl⟩

end Map

end Swazz.BoundedMap
