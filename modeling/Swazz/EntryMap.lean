import Mathlib.Data.List.Basic

/-! Maps as lists of entries, in the order that they are ranged over. -/
namespace EntryMap

variable {K V : Type*} [DecidableEq K]

def get? : List (K × V) → K → Option V
  | [], _ => none
  | (k', v) :: m, k => if k' = k then some v else get? m k

def keys (m : List (K × V)) : List K := m.map Prod.fst

def set : List (K × V) → K → V → List (K × V)
  | [], k, v => [(k, v)]
  | (k', v') :: m, k, v => if k' = k then (k, v) :: m else (k', v') :: set m k v

/-- Each entry of the second map, put into the first. -/
def setAll (m entries : List (K × V)) : List (K × V) := entries.foldl (fun m e => set m e.1 e.2) m

/-- The map with the values of some keys replaced. -/
def replaceAt (p : K → Bool) (v : V) (m : List (K × V)) : List (K × V) :=
  m.map fun e => if p e.1 then (e.1, v) else e

variable {m entries : List (K × V)} {k k' : K} {v : V}

theorem get?_eq_none : get? m k = none ↔ k ∉ keys m := by
  induction m with
  | nil => simp [get?, keys]
  | cons e m ih =>
    by_cases hk : e.1 = k
    · simp [get?, keys, hk]
    · rw [get?, if_neg hk, ih]
      simp only [keys, List.map_cons, List.mem_cons, not_or]
      exact (and_iff_right (Ne.symm hk)).symm

theorem get?_of_mem (h : (keys m).Nodup) {e : K × V} (he : e ∈ m) : get? m e.1 = some e.2 := by
  induction m with
  | nil => cases he
  | cons e' m ih =>
    rw [keys, List.map_cons, List.nodup_cons] at h
    rcases List.mem_cons.mp he with rfl | he
    · rw [get?, if_pos rfl]
    · rw [get?, if_neg, ih h.2 he]
      intro heq
      exact h.1 (heq ▸ List.mem_map_of_mem he)

theorem mem_keys_set : k ∈ keys (set m k' v) ↔ k = k' ∨ k ∈ keys m := by
  induction m with
  | nil => simp [set, keys]
  | cons e m ih =>
    rw [set]
    split_ifs with hk
    · simp [keys, hk]
    · simp only [keys, List.map_cons, List.mem_cons] at ih ⊢
      rw [ih]
      exact or_left_comm

theorem get?_set_self : get? (set m k v) k = some v := by
  induction m with
  | nil => simp [set, get?]
  | cons e m ih =>
    rw [set]
    split_ifs with hk
    · simp [get?]
    · rw [get?, if_neg hk, ih]

theorem get?_set_ne (h : k' ≠ k) : get? (set m k' v) k = get? m k := by
  induction m with
  | nil => simp [set, get?, h]
  | cons e m ih =>
    rw [set]
    split_ifs with hk
    · rw [get?, if_neg h, get?, if_neg (hk ▸ h)]
    · rw [get?, get?, ih]

omit [DecidableEq K] in
theorem keys_replaceAt (p : K → Bool) : keys (replaceAt p v m) = keys m := by
  rw [keys, replaceAt, List.map_map, keys]
  refine List.map_congr_left fun e _ => ?_
  rw [Function.comp_apply]
  split <;> rfl

theorem get?_replaceAt (p : K → Bool) (hk : p k = false) : get? (replaceAt p v m) k = get? m k := by
  induction m with
  | nil => rfl
  | cons e m ih =>
    rw [replaceAt, List.map_cons, ← replaceAt, get?]
    by_cases he : e.1 = k
    · rw [he, hk]
      simp [get?, he]
    · have hkey : (if p e.1 then (e.1, v) else e).1 = e.1 := by split <;> rfl
      rw [hkey, if_neg he, get?, if_neg he, ih]

theorem get?_setAll_of_not_mem (h : k ∉ keys entries) : get? (setAll m entries) k = get? m k := by
  induction entries generalizing m with
  | nil => rfl
  | cons e entries ih =>
    rw [keys, List.map_cons, List.mem_cons, not_or] at h
    rw [setAll, List.foldl_cons, ← setAll, ih h.2, get?_set_ne (Ne.symm h.1)]

/-- A map with each key once, put into another. -/
theorem get?_setAll (h : (keys entries).Nodup) (hk : k ∈ keys entries) :
    get? (setAll m entries) k = get? entries k := by
  induction entries generalizing m with
  | nil => cases hk
  | cons e entries ih =>
    rw [keys, List.map_cons, List.nodup_cons] at h
    rw [setAll, List.foldl_cons, ← setAll, get?]
    by_cases he : e.1 = k
    · rw [if_pos he, get?_setAll_of_not_mem (he ▸ h.1), he, get?_set_self]
    · rw [if_neg he]
      refine ih h.2 ?_
      rw [keys, List.map_cons, List.mem_cons] at hk
      exact hk.resolve_left (Ne.symm he)

end EntryMap
