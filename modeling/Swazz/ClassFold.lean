import Mathlib.Data.List.AList
import Mathlib.Data.List.Induction

/-! Grouping a list by a key: a map from the keys to what was made of the class so far, and the
keys in the order in which they were met. -/
namespace ClassFold

variable {α κ γ : Type} [DecidableEq κ]

structure Groups (κ γ : Type) [DecidableEq κ] where
  table : AList fun _ : κ => γ
  order : List κ

variable (key : α → κ) (first : α → γ) (add : γ → α → γ)

/-- The first of a class makes its entry, the others are added to it. -/
def put (g : Groups κ γ) (x : α) : Groups κ γ :=
  match g.table.lookup (key x) with
  | none => ⟨g.table.insert (key x) (first x), g.order ++ [key x]⟩
  | some c => ⟨g.table.insert (key x) (add c x), g.order⟩

def collect (xs : List α) : Groups κ γ := xs.foldl (put key first add) ⟨∅, []⟩

/-- The entries in the order of their keys. -/
def Groups.entries (g : Groups κ γ) : List γ := g.order.filterMap fun k => g.table.lookup k

/-- What is made of the members of one class. -/
def classFold (xs : List α) : Option γ :=
  match xs with
  | [] => none
  | x :: xs => some (xs.foldl add (first x))

def members (k : κ) (xs : List α) : List α := xs.filter (key · = k)

variable {key first add}

theorem classFold_concat (xs : List α) (x : α) : classFold first add (xs ++ [x]) =
    some ((classFold first add xs).elim (first x) (add · x)) := by
  cases xs with
  | nil => rfl
  | cons y xs => simp [classFold]

theorem members_concat (k : κ) (xs : List α) (x : α) :
    members key k (xs ++ [x]) = if key x = k then members key k xs ++ [x] else members key k xs := by
  rw [members, List.filter_append]
  split
  · rename_i h
    rw [List.filter_cons_of_pos (by simpa using h)]
    rfl
  · rename_i h
    rw [List.filter_cons_of_neg (by simpa using h)]
    exact List.append_nil _

variable (key first add)

/-- One entry for each class, made of its members in their order. -/
theorem collect_spec (xs : List α) :
    (∀ k, (collect key first add xs).table.lookup k = classFold first add (members key k xs)) ∧
      (collect key first add xs).order.Nodup ∧
      ∀ k, k ∈ (collect key first add xs).order ↔ ∃ x ∈ xs, key x = k := by
  induction xs using List.reverseRecOn with
  | nil =>
    refine ⟨fun k => rfl, List.nodup_nil, fun k => ?_⟩
    simp [collect]
  | append_singleton xs x ih =>
    obtain ⟨hlookup, hnodup, hmem⟩ := ih
    have hstep : collect key first add (xs ++ [x]) =
        put key first add (collect key first add xs) x := by
      rw [collect, List.foldl_append]
      rfl
    rw [hstep, put]
    cases hx : (collect key first add xs).table.lookup (key x) with
    | none =>
      have hnew : key x ∉ (collect key first add xs).order := by
        intro hin
        obtain ⟨y, hy, hkey⟩ := (hmem (key x)).mp hin
        have hclass := hlookup (key x)
        rw [hx] at hclass
        have hmember : y ∈ members key (key x) xs := List.mem_filter.mpr ⟨hy, decide_eq_true hkey⟩
        cases hcases : members key (key x) xs with
        | nil =>
          rw [hcases] at hmember
          cases hmember
        | cons z zs =>
          rw [hcases] at hclass
          cases hclass
      refine ⟨fun k => ?_, ?_, fun k => ?_⟩
      · rw [members_concat]
        by_cases hk : key x = k
        · subst hk
          rw [AList.lookup_insert, if_pos rfl, classFold_concat, ← hlookup, hx]
          rfl
        · rw [AList.lookup_insert_ne (Ne.symm hk), if_neg hk, hlookup]
      · exact List.nodup_append.mpr ⟨hnodup, List.nodup_singleton _, by
          intro a ha b hb
          rw [List.mem_singleton.mp hb]
          exact ne_of_mem_of_not_mem ha hnew⟩
      · simp only [List.mem_append, hmem, List.mem_singleton]
        constructor
        · rintro (⟨y, hy, hkey⟩ | rfl)
          · exact ⟨y, Or.inl hy, hkey⟩
          · exact ⟨x, Or.inr rfl, rfl⟩
        · rintro ⟨y, hy | rfl, hkey⟩
          · exact Or.inl ⟨y, hy, hkey⟩
          · exact Or.inr hkey.symm
    | some c =>
      have hold : ∃ y ∈ xs, key y = key x := by
        have hclass := hlookup (key x)
        rw [hx] at hclass
        cases hcases : members key (key x) xs with
        | nil =>
          rw [hcases] at hclass
          cases hclass
        | cons z zs =>
          have hz : z ∈ members key (key x) xs := hcases ▸ List.mem_cons_self
          obtain ⟨hz, hkey⟩ := List.mem_filter.mp hz
          exact ⟨z, hz, of_decide_eq_true hkey⟩
      refine ⟨fun k => ?_, hnodup, fun k => ?_⟩
      · rw [members_concat]
        by_cases hk : key x = k
        · subst hk
          rw [AList.lookup_insert, if_pos rfl, classFold_concat, ← hlookup, hx]
          rfl
        · rw [AList.lookup_insert_ne (Ne.symm hk), if_neg hk, hlookup]
      · simp only [hmem, List.mem_append, List.mem_singleton]
        constructor
        · rintro ⟨y, hy, hkey⟩
          exact ⟨y, Or.inl hy, hkey⟩
        · rintro ⟨y, hy | rfl, hkey⟩
          · exact ⟨y, hy, hkey⟩
          · obtain ⟨z, hz, hzkey⟩ := hold
            exact ⟨z, hz, hzkey.trans hkey⟩

/-- The entries belong to the keys one by one. -/
theorem entries_spec (xs : List α) :
    List.Forall₂ (fun k c => classFold first add (members key k xs) = some c)
      (collect key first add xs).order (collect key first add xs).entries := by
  obtain ⟨hlookup, -, hmem⟩ := collect_spec key first add xs
  have hall : ∀ k ∈ (collect key first add xs).order, ∃ x ∈ xs, key x = k := fun k => (hmem k).mp
  rw [Groups.entries]
  generalize (collect key first add xs).order = order at hall
  induction order with
  | nil => exact List.Forall₂.nil
  | cons k order ih =>
    obtain ⟨x, hx, hkey⟩ := hall k List.mem_cons_self
    have hmember : x ∈ members key k xs := List.mem_filter.mpr ⟨hx, decide_eq_true hkey⟩
    cases hcases : members key k xs with
    | nil =>
      rw [hcases] at hmember
      cases hmember
    | cons z zs =>
      have hk : (collect key first add xs).table.lookup k = some (zs.foldl add (first z)) := by
        rw [hlookup, hcases]
        rfl
      rw [List.filterMap_cons, hk]
      refine List.Forall₂.cons ?_ (ih fun k' hk' => hall k' (List.mem_cons_of_mem k hk'))
      rw [hcases]
      rfl

/-- The classes of distinct keys together hold the elements with one of these keys. -/
theorem flatMap_members {order : List κ} (h : order.Nodup) (xs : List α) :
    (order.flatMap fun k => members key k xs).Perm (xs.filter (key · ∈ order)) := by
  induction order with
  | nil => simp
  | cons k order ih =>
    obtain ⟨hk, hnodup⟩ := List.nodup_cons.mp h
    have hsplit := List.filter_append_perm (fun x => decide (key x = k))
      (xs.filter (key · ∈ k :: order))
    have hfirst : (xs.filter (key · ∈ k :: order)).filter (fun x => decide (key x = k)) =
        members key k xs := by
      rw [List.filter_filter, members]
      refine List.filter_congr fun x _ => ?_
      by_cases hx : key x = k <;> simp [hx]
    have hrest : (xs.filter (key · ∈ k :: order)).filter (fun x => !decide (key x = k)) =
        xs.filter (key · ∈ order) := by
      rw [List.filter_filter]
      refine List.filter_congr fun x _ => ?_
      by_cases hx : key x = k
      · simp [hx, hk]
      · simp [hx]
    rw [hfirst, hrest] at hsplit
    rw [List.flatMap_cons]
    exact ((ih hnodup).append_left _).trans hsplit

theorem flatMap_members_of_forall {order : List κ} (h : order.Nodup) {xs : List α}
    (hall : ∀ x ∈ xs, key x ∈ order) : (order.flatMap fun k => members key k xs).Perm xs := by
  have hfilter : xs.filter (key · ∈ order) = xs :=
    List.filter_eq_self.mpr fun x hx => decide_eq_true (hall x hx)
  have hperm := flatMap_members key h xs
  rwa [hfilter] at hperm

end ClassFold
