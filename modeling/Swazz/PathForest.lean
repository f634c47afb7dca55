import Mathlib.Data.List.Basic
import Mathlib.Data.List.Nodup
import Mathlib.Data.List.Perm.Basic
import Swazz.ListIndex

/-! A forest whose leaves are listed with their paths, depth first, while the paths lie in arrays
that are shared for as long as they have room: which leaves are read under their own path when
all of them are there. -/
namespace PathForest

/-- Named items: one that is passed over, a leaf, or a node with items of its own. -/
inductive Forest (κ α : Type) where
  | nil
  | skip (name : κ) (rest : Forest κ α)
  | leaf (name : κ) (a : α) (rest : Forest κ α)
  | node (name : κ) (children rest : Forest κ α)

variable {κ α : Type}

namespace Forest

def names : Forest κ α → List κ
  | nil => []
  | skip k rest => k :: rest.names
  | leaf k _ rest => k :: rest.names
  | node k _ rest => k :: rest.names

/-- The leaves with the names from the root to them. -/
def leaves : Forest κ α → List κ → List (List κ × α)
  | nil, _ => []
  | skip _ rest, p => rest.leaves p
  | leaf k a rest, p => (p ++ [k], a) :: rest.leaves p
  | node k children rest, p => children.leaves (p ++ [k]) ++ rest.leaves p

/-- The names of each level are different. -/
def Distinct : Forest κ α → Prop
  | nil => True
  | skip k rest => k ∉ rest.names ∧ rest.Distinct
  | leaf k _ rest => k ∉ rest.names ∧ rest.Distinct
  | node k children rest => k ∉ rest.names ∧ children.Distinct ∧ rest.Distinct

end Forest

/-- A leaf that was found: in the shared array up to a length, or under a path that is settled. -/
inductive Found (κ α : Type) where
  | shared (len : ℕ) (a : α)
  | own (path : List κ) (a : α)

/-- What is read when the shared array holds these cells. -/
def Found.read (cells : List κ) : Found κ α → List κ × α
  | shared len a => (cells.take len, a)
  | own path a => (path, a)

def Found.settle (cells : List κ) (f : Found κ α) : Found κ α :=
  .own (f.read cells).1 (f.read cells).2

/-- Goes through the items under the path `p`. The array of the path has room for so many more
names, and holds `tail` after the path; an item writes its name there, or gets an array of its own,
whose size `grow` gives by the length of the full one. -/
def visit (grow : ℕ → ℕ) : Forest κ α → List κ → ℕ → List κ → List κ × List (Found κ α)
  | .nil, _, _, tail => (tail, [])
  | .skip _ rest, p, 0, tail => visit grow rest p 0 tail
  | .skip k rest, p, room + 1, tail => visit grow rest p (room + 1) (k :: tail.drop 1)
  | .leaf k a rest, p, 0, tail =>
    let later := visit grow rest p 0 tail
    (later.1, .own (p ++ [k]) a :: later.2)
  | .leaf k a rest, p, room + 1, tail =>
    let later := visit grow rest p (room + 1) (k :: tail.drop 1)
    (later.1, .shared (p.length + 1) a :: later.2)
  | .node k children rest, p, 0, tail =>
    let inner := visit grow children (p ++ [k]) (grow p.length - (p.length + 1)) []
    let later := visit grow rest p 0 tail
    (later.1, inner.2.map (Found.settle (p ++ [k] ++ inner.1)) ++ later.2)
  | .node k children rest, p, room + 1, tail =>
    let inner := visit grow children (p ++ [k]) room (tail.drop 1)
    let later := visit grow rest p (room + 1) (k :: inner.1)
    (later.1, inner.2 ++ later.2)

/-- What is read of the leaves in the end. -/
def reads (grow : ℕ → ℕ) (F : Forest κ α) (p : List κ) (room : ℕ) (tail : List κ) :
    List (List κ × α) :=
  (visit grow F p room tail).2.map (Found.read (p ++ (visit grow F p room tail).1))

/-- Whether a leaf shares the array of the path. -/
def leafIn : ℕ → Forest κ α → Bool
  | _, .nil => false
  | room, .skip _ rest => leafIn room rest
  | 0, .leaf _ _ rest => leafIn 0 rest
  | _ + 1, .leaf _ _ _ => true
  | 0, .node _ _ rest => leafIn 0 rest
  | room + 1, .node _ children rest => leafIn room children || leafIn (room + 1) rest

/-- Every item but the last has no leaf in the shared array, on all levels. -/
def Good (grow : ℕ → ℕ) : Forest κ α → ℕ → ℕ → Prop
  | .nil, _, _ => True
  | .skip _ rest, n, room => Good grow rest n room
  | .leaf _ _ rest, n, room => (room = 0 ∨ rest.names = []) ∧ Good grow rest n room
  | .node _ children rest, n, 0 =>
    Good grow children (n + 1) (grow n - (n + 1)) ∧ Good grow rest n 0
  | .node _ children rest, n, room + 1 =>
    (leafIn room children = false ∨ rest.names = []) ∧ Good grow children (n + 1) room ∧
      Good grow rest n (room + 1)

variable {grow : ℕ → ℕ} {F : Forest κ α} {p tail : List κ} {room : ℕ}

theorem eq_nil_of_names (h : F.names = []) : F = .nil := by
  cases F with
  | nil => rfl
  | skip => cases h
  | leaf => cases h
  | node => cases h

/-! ## In a good order all is read right -/

theorem own_of_leafIn (h : leafIn room F = false) :
    ∀ f ∈ (visit grow F p room tail).2, ∃ path a, f = .own path a := by
  induction F generalizing p room tail with
  | nil => exact fun f hf => nomatch hf
  | skip k rest ih =>
    cases room with
    | zero => exact ih h
    | succ room => exact ih h
  | leaf k a rest ih =>
    cases room with
    | zero =>
      intro f hf
      rcases List.mem_cons.mp hf with rfl | hf
      · exact ⟨_, _, rfl⟩
      · exact ih h f hf
    | succ room => cases h
  | node k children rest ihc ih =>
    cases room with
    | zero =>
      intro f hf
      rcases List.mem_append.mp hf with hf | hf
      · obtain ⟨g, -, rfl⟩ := List.mem_map.mp hf
        exact ⟨_, _, rfl⟩
      · exact ih h f hf
    | succ room =>
      obtain ⟨hc, hrest⟩ := Bool.or_eq_false_iff.mp h
      intro f hf
      rcases List.mem_append.mp hf with hf | hf
      · exact ihc hc f hf
      · exact ih hrest f hf

theorem map_read_of_own {found : List (Found κ α)} (h : ∀ f ∈ found, ∃ path a, f = .own path a)
    (cells cells' : List κ) : found.map (Found.read cells) = found.map (Found.read cells') := by
  refine List.map_congr_left fun f hf => ?_
  obtain ⟨path, a, rfl⟩ := h f hf
  rfl

theorem map_read_settle (cells cells' : List κ) (found : List (Found κ α)) :
    (found.map (Found.settle cells)).map (Found.read cells') = found.map (Found.read cells) := by
  rw [List.map_map]
  rfl

theorem reads_of_good (h : Good grow F p.length room) : reads grow F p room tail = F.leaves p := by
  induction F generalizing p room tail with
  | nil => rfl
  | skip k rest ih =>
    cases room with
    | zero => exact ih h
    | succ room => exact ih h
  | leaf k a rest ih =>
    obtain ⟨hlast, hrest⟩ := h
    cases room with
    | zero => exact congrArg ((p ++ [k], a) :: ·) (ih hrest)
    | succ room =>
      have hnil := eq_nil_of_names (hlast.resolve_left (Nat.succ_ne_zero room))
      subst hnil
      have hcells : (p ++ k :: tail.drop 1).take (p.length + 1) = p ++ [k] := by
        rw [List.take_length_add_append]
        rfl
      exact congrArg (fun path => [(path, a)]) hcells
  | node k children rest ihc ih =>
    have hlen : (p ++ [k]).length = p.length + 1 := by simp
    cases room with
    | zero =>
      obtain ⟨hchildren, hrest⟩ := h
      rw [← hlen] at hchildren
      have hinner : reads grow children (p ++ [k]) _ [] = _ := ihc hchildren
      have hlater : reads grow rest p 0 tail = _ := ih hrest
      rw [reads] at hinner hlater
      simp only [reads, visit, List.map_append, map_read_settle, Forest.leaves]
      rw [← hlater, ← hinner, hlen]
    | succ room =>
      obtain ⟨hlast, hchildren, hrest⟩ := h
      rw [← hlen] at hchildren
      have hinner : reads grow children (p ++ [k]) room (tail.drop 1) = _ := ihc hchildren
      have hlater : reads grow rest p (room + 1)
          (k :: (visit grow children (p ++ [k]) room (tail.drop 1)).1) = _ := ih hrest
      rw [reads] at hinner hlater
      simp only [reads, visit, List.map_append, Forest.leaves]
      rw [← hlater, ← hinner]
      congr 1
      rcases hlast with hno | hnil
      · exact map_read_of_own (own_of_leafIn hno) _ _
      · rw [eq_nil_of_names hnil, visit, List.append_assoc]
        rfl

/-! ## In any other order a leaf is lost -/

theorem leaves_start {t : List κ} {a : α} (h : (t, a) ∈ F.leaves p) :
    ∃ k ∈ F.names, p ++ [k] <+: t := by
  induction F generalizing p with
  | nil => cases h
  | skip k rest ih =>
    obtain ⟨k', hk', hstart⟩ := ih h
    exact ⟨k', List.mem_cons_of_mem _ hk', hstart⟩
  | leaf k a' rest ih =>
    rcases List.mem_cons.mp h with heq | h
    · cases heq
      exact ⟨k, List.mem_cons_self, List.prefix_refl _⟩
    · obtain ⟨k', hk', hstart⟩ := ih h
      exact ⟨k', List.mem_cons_of_mem _ hk', hstart⟩
  | node k children rest ihc ih =>
    rcases List.mem_append.mp h with h | h
    · obtain ⟨k', -, hstart⟩ := ihc h
      exact ⟨k, List.mem_cons_self, (List.prefix_append (p ++ [k]) [k']).trans hstart⟩
    · obtain ⟨k', hk', hstart⟩ := ih h
      exact ⟨k', List.mem_cons_of_mem _ hk', hstart⟩

theorem length_visit (h : tail.length ≤ room) : (visit grow F p room tail).1.length ≤ room := by
  induction F generalizing p room tail with
  | nil => exact h
  | skip k rest ih =>
    cases room with
    | zero => exact ih h
    | succ room => exact ih (by simp; omega)
  | leaf k a rest ih =>
    cases room with
    | zero => exact ih h
    | succ room => exact ih (by simp; omega)
  | node k children rest ihc ih =>
    cases room with
    | zero => exact ih h
    | succ room =>
      have hinner := @ihc (p ++ [k]) (tail.drop 1) room (by simp; omega)
      exact ih (Nat.succ_le_succ hinner)

theorem visit_zero (F : Forest κ α) (p tail : List κ) : (visit grow F p 0 tail).1 = tail := by
  induction F with
  | nil => rfl
  | skip k rest ih => exact ih
  | leaf k a rest ih => exact ih
  | node k children rest _ ih => exact ih

/-- The name of the last item stays in the array. -/
theorem visit_tail (h : F.names ≠ []) :
    ∃ k ∈ F.names, ∃ tail', (visit grow F p (room + 1) tail).1 = k :: tail' := by
  induction F generalizing tail with
  | nil => exact (h rfl).elim
  | skip k rest ih =>
    by_cases hrest : rest.names = []
    · exact ⟨k, List.mem_cons_self, tail.drop 1, by rw [eq_nil_of_names hrest]; rfl⟩
    · obtain ⟨k', hk', htail⟩ := @ih (k :: tail.drop 1) hrest
      exact ⟨k', List.mem_cons_of_mem _ hk', htail⟩
  | leaf k a rest ih =>
    by_cases hrest : rest.names = []
    · exact ⟨k, List.mem_cons_self, tail.drop 1, by rw [eq_nil_of_names hrest]; rfl⟩
    · obtain ⟨k', hk', htail⟩ := @ih (k :: tail.drop 1) hrest
      exact ⟨k', List.mem_cons_of_mem _ hk', htail⟩
  | node k children rest ihc ih =>
    by_cases hrest : rest.names = []
    · exact ⟨k, List.mem_cons_self, _, by rw [eq_nil_of_names hrest]; rfl⟩
    · obtain ⟨k', hk', htail⟩ :=
        @ih (k :: (visit grow children (p ++ [k]) room (tail.drop 1)).1) hrest
      exact ⟨k', List.mem_cons_of_mem _ hk', htail⟩

/-- Where a found leaf lies: shared below the room, or under a path of its own beyond it. -/
def Placed (names : List κ) (p : List κ) (room : ℕ) : Found κ α → Prop
  | .shared len _ => p.length < len
  | .own path _ => p.length + room < path.length ∧ ∃ k ∈ names, p ++ [k] <+: path

theorem Placed.mono {names names' p : List κ} {f : Found κ α} (h : Placed names p room f)
    (hsub : names ⊆ names') : Placed names' p room f := by
  cases f with
  | shared len a => exact h
  | own path a =>
    obtain ⟨hlen, k, hk, hstart⟩ := h
    exact ⟨hlen, k, hsub hk, hstart⟩

theorem Placed.read_start {names : List κ} {f : Found κ α} (h : Placed names p room f)
    (tail : List κ) : p <+: (f.read (p ++ tail)).1 := by
  cases f with
  | shared len a =>
    exact List.prefix_take_iff.mpr ⟨List.prefix_append _ _, Nat.le_of_lt h⟩
  | own path a =>
    obtain ⟨-, k, -, hstart⟩ := h
    exact (List.prefix_append p [k]).trans hstart

theorem placed_visit : ∀ f ∈ (visit grow F p room tail).2, Placed F.names p room f := by
  induction F generalizing p room tail with
  | nil => exact fun f hf => nomatch hf
  | skip k rest ih =>
    cases room with
    | zero => exact fun f hf => (ih f hf).mono (List.subset_cons_self _ _)
    | succ room => exact fun f hf => (ih f hf).mono (List.subset_cons_self _ _)
  | leaf k a rest ih =>
    cases room with
    | zero =>
      intro f hf
      rcases List.mem_cons.mp hf with rfl | hf
      · exact ⟨by simp, k, List.mem_cons_self, List.prefix_refl _⟩
      · exact (ih f hf).mono (List.subset_cons_self _ _)
    | succ room =>
      intro f hf
      rcases List.mem_cons.mp hf with rfl | hf
      · exact Nat.lt_succ_self _
      · exact (ih f hf).mono (List.subset_cons_self _ _)
  | node k children rest ihc ih =>
    cases room with
    | zero =>
      intro f hf
      rcases List.mem_append.mp hf with hf | hf
      · obtain ⟨g, hg, rfl⟩ := List.mem_map.mp hf
        have hstart := (ihc g hg).read_start
          (visit grow children (p ++ [k]) (grow p.length - (p.length + 1)) []).1
        have hlen := hstart.length_le
        rw [List.length_append, List.length_singleton] at hlen
        exact ⟨hlen, k, List.mem_cons_self, hstart⟩
      · exact (ih f hf).mono (List.subset_cons_self _ _)
    | succ room =>
      intro f hf
      rcases List.mem_append.mp hf with hf | hf
      · have hplaced := ihc f hf
        cases f with
        | shared len a =>
          have hlt : (p ++ [k]).length < len := hplaced
          rw [List.length_append] at hlt
          exact Nat.lt_of_le_of_lt (Nat.le_add_right _ _) hlt
        | own path a =>
          obtain ⟨hlen, k', -, hstart⟩ := hplaced
          rw [List.length_append, List.length_singleton] at hlen
          exact ⟨by omega, k, List.mem_cons_self,
            (List.prefix_append (p ++ [k]) [k']).trans hstart⟩
      · exact (ih f hf).mono (List.subset_cons_self _ _)

theorem leaf_of_leafIn (h : leafIn room F = true) :
    ∃ t a, (t, a) ∈ F.leaves p ∧ t.length ≤ p.length + room := by
  induction F generalizing p room with
  | nil => cases h
  | skip k rest ih => exact ih h
  | leaf k a rest ih =>
    cases room with
    | zero =>
      obtain ⟨t, a', hmem, hlen⟩ := ih h
      exact ⟨t, a', List.mem_cons_of_mem _ hmem, hlen⟩
    | succ room => exact ⟨p ++ [k], a, List.mem_cons_self, by simp⟩
  | node k children rest ihc ih =>
    cases room with
    | zero =>
      obtain ⟨t, a, hmem, hlen⟩ := ih h
      exact ⟨t, a, List.mem_append_right _ hmem, hlen⟩
    | succ room =>
      rcases Bool.or_eq_true_iff.mp h with h | h
      · obtain ⟨t, a, hmem, hlen⟩ := @ihc (p ++ [k]) room h
        rw [List.length_append, List.length_singleton] at hlen
        exact ⟨t, a, List.mem_append_left _ hmem, by omega⟩
      · obtain ⟨t, a, hmem, hlen⟩ := @ih p (room + 1) h
        exact ⟨t, a, List.mem_append_right _ hmem, hlen⟩

/-- A leaf's path is read nowhere any more. -/
def Lost (t cells : List κ) (found : List (Found κ α)) : Prop :=
  cells.take t.length ≠ t ∧ ∀ path a, Found.own path a ∈ found → path ≠ t

theorem Lost.read_ne {t cells : List κ} {found : List (Found κ α)} (h : Lost t cells found)
    {f : Found κ α} (hf : f ∈ found) : (f.read cells).1 ≠ t := by
  cases f with
  | own path a => exact h.2 path a hf
  | shared len a =>
    intro heq
    have hstart : t <+: cells := heq ▸ List.take_prefix len cells
    exact h.1 (List.prefix_iff_eq_take.mp hstart).symm

theorem name_eq {k k' : κ} {t : List κ} (h : p ++ [k] <+: t) (h' : p ++ [k'] <+: t) : k = k' := by
  have hstart := List.prefix_of_prefix_length_le h h' (by simp)
  have heq := hstart.eq_of_length (by simp)
  exact List.singleton_inj.mp (List.append_cancel_left heq)

/-- Under another name nothing is read at the place of the path. -/
theorem take_ne {k k' : κ} {t tail' : List κ} (h : p ++ [k] <+: t) (hne : k ≠ k') :
    (p ++ k' :: tail').take t.length ≠ t := by
  intro heq
  have hstart : t <+: p ++ k' :: tail' := heq ▸ List.take_prefix _ _
  have hother : p ++ [k'] <+: p ++ k' :: tail' := ⟨tail', by simp⟩
  exact hne (name_eq (h.trans hstart) hother)

theorem own_ne {k : κ} {t path : List κ} {a : α} (h : p ++ [k] <+: t) (hk : k ∉ F.names)
    (hpath : Found.own path a ∈ (visit grow F p room tail).2) : path ≠ t := by
  rintro rfl
  obtain ⟨-, k', hk', hstart⟩ := placed_visit _ hpath
  exact hk (name_eq hstart h ▸ hk')

/-- After another name nothing is read of the paths under this one. -/
theorem tail_ne {k : κ} {t : List κ} (cells : List κ) (h : p ++ [k] <+: t) (hk : k ∉ F.names)
    (hne : F.names ≠ []) : (p ++ (visit grow F p (room + 1) cells).1).take t.length ≠ t := by
  obtain ⟨k', hk', tail', hcells⟩ := @visit_tail _ _ grow F p cells room hne
  rw [hcells]
  exact take_ne h fun heq => hk (heq ▸ hk')

theorem exists_lost (hdistinct : F.Distinct) (htail : tail.length ≤ room)
    (h : ¬Good grow F p.length room) :
    ∃ t a, (t, a) ∈ F.leaves p ∧
      Lost t (p ++ (visit grow F p room tail).1) (visit grow F p room tail).2 := by
  induction F generalizing p room tail with
  | nil => exact (h trivial).elim
  | skip k rest ih =>
    cases room with
    | zero => exact ih hdistinct.2 htail h
    | succ room => exact ih hdistinct.2 (by simp; omega) h
  | leaf k a rest ih =>
    obtain ⟨hk, hrest⟩ := hdistinct
    cases room with
    | zero =>
      have hbad : ¬Good grow rest p.length 0 := fun hgood => h ⟨Or.inl rfl, hgood⟩
      obtain ⟨t, b, hmem, hlost⟩ := ih hrest htail hbad
      obtain ⟨k', hk', hstart⟩ := leaves_start hmem
      refine ⟨t, b, List.mem_cons_of_mem _ hmem, hlost.1, fun path c hpath => ?_⟩
      rcases List.mem_cons.mp hpath with heq | hpath
      · cases heq
        rintro rfl
        exact hk (name_eq hstart (List.prefix_refl _) ▸ hk')
      · exact hlost.2 path c hpath
    | succ room =>
      have hne : rest.names ≠ [] := by
        intro hnil
        refine h ⟨Or.inr hnil, ?_⟩
        rw [eq_nil_of_names hnil]
        trivial
      -- the later items overwrite the name of the leaf
      refine ⟨p ++ [k], a, List.mem_cons_self, tail_ne (k :: tail.drop 1) (List.prefix_refl _) hk hne,
        fun path c hpath => ?_⟩
      rcases List.mem_cons.mp hpath with heq | hpath
      · cases heq
      · exact own_ne (List.prefix_refl _) hk hpath
  | node k children rest ihc ih =>
    obtain ⟨hk, hchildren, hrest⟩ := hdistinct
    have hlen : (p ++ [k]).length = p.length + 1 := by simp
    have hunder : ∀ {t : List κ} {a : α}, (t, a) ∈ children.leaves (p ++ [k]) → p ++ [k] <+: t := by
      intro t a hmem
      obtain ⟨k', -, hstart⟩ := leaves_start hmem
      exact (List.prefix_append (p ++ [k]) [k']).trans hstart
    cases room with
    | zero =>
      by_cases hgood : Good grow rest p.length 0
      · have hbad : ¬Good grow children (p ++ [k]).length (grow p.length - (p.length + 1)) := by
          rw [hlen]
          exact fun hgood' => h ⟨hgood', hgood⟩
        obtain ⟨t, a, hmem, hlost⟩ := @ihc (p ++ [k]) [] _ hchildren (Nat.zero_le _) hbad
        refine ⟨t, a, List.mem_append_left _ hmem, ?_, fun path c hpath => ?_⟩
        · have hnil : (visit grow rest p 0 tail).1 = [] :=
            List.length_eq_zero_iff.mp (Nat.le_zero.mp (length_visit htail))
          have hlong := (hunder hmem).length_le
          rw [hlen] at hlong
          intro heq
          have hcells : (p ++ (visit grow rest p 0 tail).1).take t.length = t := heq
          rw [hnil, List.append_nil] at hcells
          have hshort := List.length_take_le t.length p
          have hlength := congrArg List.length hcells
          rw [List.length_take] at hlength
          omega
        · rcases List.mem_append.mp hpath with hpath | hpath
          · obtain ⟨g, hg, hsettle⟩ := List.mem_map.mp hpath
            cases hsettle
            exact hlost.read_ne hg
          · exact own_ne (hunder hmem) hk hpath
      · obtain ⟨t, a, hmem, hlost⟩ := ih hrest htail hgood
        obtain ⟨k', hk', hstart⟩ := leaves_start hmem
        refine ⟨t, a, List.mem_append_right _ hmem, hlost.1, fun path c hpath => ?_⟩
        rcases List.mem_append.mp hpath with hpath | hpath
        · obtain ⟨g, hg, hsettle⟩ := List.mem_map.mp hpath
          cases hsettle
          have hown := (placed_visit g hg).read_start
            (visit grow children (p ++ [k]) (grow p.length - (p.length + 1)) []).1
          intro heq
          rw [heq] at hown
          exact hk (name_eq hstart hown ▸ hk')
        · exact hlost.2 path c hpath
    | succ room =>
      have htail' : (tail.drop 1).length ≤ room := by simp; omega
      have hinner := @length_visit _ _ grow children (p ++ [k]) (tail.drop 1) room htail'
      by_cases hgood : Good grow rest p.length (room + 1)
      · by_cases hlast : leafIn room children = false ∨ rest.names = []
        · have hbad : ¬Good grow children (p ++ [k]).length room := by
            rw [hlen]
            exact fun hgood' => h ⟨hlast, hgood', hgood⟩
          obtain ⟨t, a, hmem, hlost⟩ := ihc hchildren htail' hbad
          refine ⟨t, a, List.mem_append_left _ hmem, ?_, fun path c hpath => ?_⟩
          · by_cases hnil : rest.names = []
            · have hcells : p ++ (visit grow (.node k children rest) p (room + 1) tail).1 =
                  p ++ [k] ++ (visit grow children (p ++ [k]) room (tail.drop 1)).1 := by
                rw [eq_nil_of_names hnil, List.append_assoc]
                rfl
              rw [hcells]
              exact hlost.1
            · exact tail_ne (k :: (visit grow children (p ++ [k]) room (tail.drop 1)).1) (hunder hmem) hk hnil
          · rcases List.mem_append.mp hpath with hpath | hpath
            · exact hlost.2 path c hpath
            · exact own_ne (hunder hmem) hk hpath
        · obtain ⟨hleaf, hne⟩ := not_or.mp hlast
          rw [Bool.not_eq_false] at hleaf
          obtain ⟨t, a, hmem, hshort⟩ := @leaf_of_leafIn _ _ children (p ++ [k]) room hleaf
          refine ⟨t, a, List.mem_append_left _ hmem,
            tail_ne (k :: (visit grow children (p ++ [k]) room (tail.drop 1)).1) (hunder hmem) hk hne,
            fun path c hpath => ?_⟩
          rcases List.mem_append.mp hpath with hpath | hpath
          · obtain ⟨hlong, -⟩ := placed_visit _ hpath
            rintro rfl
            omega
          · exact own_ne (hunder hmem) hk hpath
      · obtain ⟨t, a, hmem, hlost⟩ := @ih p
          (k :: (visit grow children (p ++ [k]) room (tail.drop 1)).1) (room + 1) hrest
          (Nat.succ_le_succ hinner) hgood
        obtain ⟨k', hk', hstart⟩ := leaves_start hmem
        refine ⟨t, a, List.mem_append_right _ hmem, hlost.1, fun path c hpath => ?_⟩
        rcases List.mem_append.mp hpath with hpath | hpath
        · obtain ⟨-, k'', -, hown⟩ := placed_visit _ hpath
          rintro rfl
          have hown' := (List.prefix_append (p ++ [k]) [k'']).trans hown
          exact hk (name_eq hstart hown' ▸ hk')
        · exact hlost.2 path c hpath

/-- All leaves are read under their own paths exactly in a good order; in any other the paths are
not even the same in another order. -/
theorem reads_perm_iff (hdistinct : F.Distinct) (htail : tail.length ≤ room) :
    (reads grow F p room tail).Perm (F.leaves p) ↔ Good grow F p.length room := by
  constructor
  · intro hperm
    by_contra hbad
    obtain ⟨t, a, hmem, hlost⟩ := exists_lost hdistinct htail hbad
    obtain ⟨f, hf, hread⟩ := List.mem_map.mp (hperm.mem_iff.mpr hmem)
    exact hlost.read_ne hf (congrArg Prod.fst hread)
  · intro hgood
    rw [reads_of_good hgood]

/-! ## Every order of the items -/

/-- What stands under a name. -/
inductive Item (κ α : Type) where
  | skip
  | leaf (a : α)
  | node (children : Forest κ α)

def Forest.items : Forest κ α → List (κ × Item κ α)
  | .nil => []
  | .skip k rest => (k, .skip) :: rest.items
  | .leaf k a rest => (k, .leaf a) :: rest.items
  | .node k children rest => (k, .node children) :: rest.items

/-- The items are some of `F`'s, below each node all of its items in some order. -/
def Takes : Forest κ α → Forest κ α → Prop
  | .nil, _ => True
  | .skip k rest, F => (k, Item.skip) ∈ F.items ∧ Takes rest F
  | .leaf k a rest, F => (k, Item.leaf a) ∈ F.items ∧ Takes rest F
  | .node k children rest, F =>
    (∃ C, (k, Item.node C) ∈ F.items ∧ children.names.Perm C.names ∧ Takes children C) ∧
      Takes rest F

/-- The items of `F` in some order, on every level. -/
def Arranges (F' F : Forest κ α) : Prop := F'.names.Perm F.names ∧ Takes F' F

/-- The room for the items of a node. -/
def childRoom (grow : ℕ → ℕ) (n : ℕ) : ℕ → ℕ
  | 0 => grow n - (n + 1)
  | room + 1 => room

/-- No item has brothers, or no leaf shares the array. -/
def Level (room : ℕ) (F : Forest κ α) : Prop := F.names.length ≤ 1 ∨ leafIn room F = false

def SafeBelow (grow : ℕ → ℕ) : Forest κ α → ℕ → ℕ → Prop
  | .nil, _, _ => True
  | .skip _ rest, n, room => SafeBelow grow rest n room
  | .leaf _ _ rest, n, room => SafeBelow grow rest n room
  | .node _ children rest, n, room =>
    Level (childRoom grow n room) children ∧
      SafeBelow grow children (n + 1) (childRoom grow n room) ∧ SafeBelow grow rest n room

def Safe (grow : ℕ → ℕ) (F : Forest κ α) (n room : ℕ) : Prop :=
  Level room F ∧ SafeBelow grow F n room

variable {F' C : Forest κ α} {n : ℕ} {k : κ}

theorem leafIn_zero : leafIn 0 F = false := by
  induction F with
  | nil => rfl
  | skip k rest ih => exact ih
  | leaf k a rest ih => exact ih
  | node k children rest _ ih => exact ih

theorem leafIn_of_leaf {a : α} (h : (k, Item.leaf a) ∈ F.items) : leafIn (room + 1) F = true := by
  induction F with
  | nil => cases h
  | skip k' rest ih =>
    rcases List.mem_cons.mp h with heq | h
    · cases heq
    · exact ih h
  | leaf k' a' rest ih => rfl
  | node k' children rest _ ih =>
    rcases List.mem_cons.mp h with heq | h
    · cases heq
    · exact Bool.or_eq_true_iff.mpr (Or.inr (ih h))

theorem leafIn_of_node (h : (k, Item.node C) ∈ F.items) (hleaf : leafIn room C = true) :
    leafIn (room + 1) F = true := by
  induction F with
  | nil => cases h
  | skip k' rest ih =>
    rcases List.mem_cons.mp h with heq | h
    · cases heq
    · exact ih h
  | leaf k' a' rest ih => rfl
  | node k' children rest _ ih =>
    rcases List.mem_cons.mp h with heq | h
    · cases heq
      exact Bool.or_eq_true_iff.mpr (Or.inl hleaf)
    · exact Bool.or_eq_true_iff.mpr (Or.inr (ih h))

theorem leafIn_of_takes (h : Takes F' F) (hleaf : leafIn room F' = true) :
    leafIn room F = true := by
  induction F' generalizing F room with
  | nil => cases hleaf
  | skip k rest ih => exact ih h.2 hleaf
  | leaf k a rest ih =>
    cases room with
    | zero => exact ih h.2 hleaf
    | succ room => exact leafIn_of_leaf h.1
  | node k children rest ihc ih =>
    cases room with
    | zero => exact ih h.2 hleaf
    | succ room =>
      rcases Bool.or_eq_true_iff.mp hleaf with hleaf | hleaf
      · obtain ⟨C, hmem, -, hchildren⟩ := h.1
        exact leafIn_of_node hmem (ihc hchildren hleaf)
      · exact ih h.2 hleaf

theorem safe_of_mem (h : SafeBelow grow F n room) (hmem : (k, Item.node C) ∈ F.items) :
    Safe grow C (n + 1) (childRoom grow n room) := by
  induction F with
  | nil => cases hmem
  | skip k' rest ih =>
    rcases List.mem_cons.mp hmem with heq | hmem
    · cases heq
    · exact ih h hmem
  | leaf k' a rest ih =>
    rcases List.mem_cons.mp hmem with heq | hmem
    · cases heq
    · exact ih h hmem
  | node k' children rest _ ih =>
    rcases List.mem_cons.mp hmem with heq | hmem
    · cases heq
      exact ⟨h.1, h.2.1⟩
    · exact ih h.2.2 hmem

/-- A safe forest is good in each of its orders. -/
theorem good_of_takes (htakes : Takes F' F) (hbelow : SafeBelow grow F n room)
    (hlevel : Level room F') : Good grow F' n room := by
  induction F' generalizing F n room with
  | nil => trivial
  | skip k rest ih =>
    refine ih htakes.2 hbelow (hlevel.imp_left fun h => ?_)
    exact Nat.le_trans (Nat.le_succ _) h
  | leaf k a rest ih =>
    cases room with
    | zero => exact ⟨Or.inl rfl, ih htakes.2 hbelow (Or.inr leafIn_zero)⟩
    | succ room =>
      have hone : (k :: rest.names).length ≤ 1 := hlevel.resolve_right Bool.noConfusion
      have hnil : rest.names = [] :=
        List.length_eq_zero_iff.mp (Nat.le_zero.mp (Nat.le_of_succ_le_succ hone))
      refine ⟨Or.inr hnil, ih htakes.2 hbelow (Or.inl ?_)⟩
      rw [hnil]
      exact Nat.zero_le 1
  | node k children rest ihc ih =>
    obtain ⟨⟨C, hmem, hperm, hchildren⟩, hrest⟩ := htakes
    obtain ⟨hlevel', hbelow'⟩ := safe_of_mem hbelow hmem
    have hgood : Good grow children (n + 1) (childRoom grow n room) := by
      refine ihc hchildren hbelow' ?_
      rcases hlevel' with hone | hno
      · exact Or.inl (hperm.length_eq ▸ hone)
      · refine Or.inr ?_
        rw [← Bool.not_eq_true]
        exact fun hleaf => Bool.false_ne_true (hno.symm.trans (leafIn_of_takes hchildren hleaf))
    cases room with
    | zero => exact ⟨hgood, ih hrest hbelow (Or.inr leafIn_zero)⟩
    | succ room =>
      rcases hlevel with hone | hno
      · have hnil : rest.names = [] :=
          List.length_eq_zero_iff.mp (Nat.le_zero.mp (Nat.le_of_succ_le_succ hone))
        refine ⟨Or.inr hnil, hgood, ih hrest hbelow (Or.inl ?_)⟩
        rw [hnil]
        exact Nat.zero_le 1
      · obtain ⟨hno, hno'⟩ := Bool.or_eq_false_iff.mp hno
        exact ⟨Or.inl hno, hgood, ih hrest hbelow (Or.inr hno')⟩

/-! ## Two orders tell whether a forest is safe -/

/-- The items the other way round on every level, before those of `acc`. -/
def rev : Forest κ α → Forest κ α → Forest κ α
  | .nil, acc => acc
  | .skip k rest, acc => rev rest (.skip k acc)
  | .leaf k a rest, acc => rev rest (.leaf k a acc)
  | .node k children rest, acc => rev rest (.node k (rev children .nil) acc)

theorem names_rev (acc : Forest κ α) : (rev F acc).names = F.names.reverse ++ acc.names := by
  induction F generalizing acc with
  | nil => rfl
  | skip k rest ih =>
    rw [rev, ih]
    simp [Forest.names]
  | leaf k a rest ih =>
    rw [rev, ih]
    simp [Forest.names]
  | node k children rest _ ih =>
    rw [rev, ih]
    simp [Forest.names]

theorem takes_rev {acc G : Forest κ α} (h : ∀ x ∈ F.items, x ∈ G.items) (hacc : Takes acc G) :
    Takes (rev F acc) G := by
  induction F generalizing acc G with
  | nil => exact hacc
  | skip k rest ih =>
    exact ih (fun x hx => h x (List.mem_cons_of_mem _ hx)) ⟨h _ List.mem_cons_self, hacc⟩
  | leaf k a rest ih =>
    exact ih (fun x hx => h x (List.mem_cons_of_mem _ hx)) ⟨h _ List.mem_cons_self, hacc⟩
  | node k children rest ihc ih =>
    refine ih (fun x hx => h x (List.mem_cons_of_mem _ hx))
      ⟨⟨children, h _ List.mem_cons_self, ?_, ihc (fun x hx => hx) trivial⟩, hacc⟩
    rw [names_rev, Forest.names, List.append_nil]
    exact List.reverse_perm _

theorem takes_self {G : Forest κ α} (h : ∀ x ∈ F.items, x ∈ G.items) : Takes F G := by
  induction F generalizing G with
  | nil => trivial
  | skip k rest ih =>
    exact ⟨h _ List.mem_cons_self, ih fun x hx => h x (List.mem_cons_of_mem _ hx)⟩
  | leaf k a rest ih =>
    exact ⟨h _ List.mem_cons_self, ih fun x hx => h x (List.mem_cons_of_mem _ hx)⟩
  | node k children rest ihc ih =>
    exact ⟨⟨children, h _ List.mem_cons_self, List.Perm.refl _, ihc fun x hx => hx⟩,
      ih fun x hx => h x (List.mem_cons_of_mem _ hx)⟩

theorem arranges_self (F : Forest κ α) : Arranges F F :=
  ⟨List.Perm.refl _, takes_self fun _ hx => hx⟩

theorem arranges_rev (F : Forest κ α) : Arranges (rev F .nil) F := by
  refine ⟨?_, takes_rev (fun _ hx => hx) trivial⟩
  rw [names_rev, Forest.names, List.append_nil]
  exact List.reverse_perm _

theorem good_node (h : Good grow F n room) (hmem : (k, Item.node C) ∈ F.items) :
    Good grow C (n + 1) (childRoom grow n room) := by
  induction F with
  | nil => cases hmem
  | skip k' rest ih =>
    rcases List.mem_cons.mp hmem with heq | hmem
    · cases heq
    · exact ih h hmem
  | leaf k' a rest ih =>
    rcases List.mem_cons.mp hmem with heq | hmem
    · cases heq
    · exact ih h.2 hmem
  | node k' children rest _ ih =>
    cases room with
    | zero =>
      rcases List.mem_cons.mp hmem with heq | hmem
      · cases heq
        exact h.1
      · exact ih h.2 hmem
    | succ room =>
      rcases List.mem_cons.mp hmem with heq | hmem
      · cases heq
        exact h.2.1
      · exact ih h.2.2 hmem

theorem leafIn_rev (acc : Forest κ α) :
    leafIn room (rev F acc) = (leafIn room F || leafIn room acc) := by
  induction F generalizing acc room with
  | nil => rfl
  | skip k rest ih => exact ih (.skip k acc)
  | leaf k a rest ih =>
    rw [rev, ih]
    cases room with
    | zero => rfl
    | succ room => simp [leafIn]
  | node k children rest ihc ih =>
    rw [rev, ih]
    cases room with
    | zero => rfl
    | succ room =>
      simp only [leafIn, ihc, Bool.or_false]
      rw [← Bool.or_assoc, Bool.or_comm (leafIn (room + 1) rest)]

theorem node_rev {acc : Forest κ α} (h : (k, Item.node C) ∈ F.items) :
    (k, Item.node (rev C .nil)) ∈ (rev F acc).items := by
  have hkeep : ∀ (G : Forest κ α) {acc : Forest κ α} {x : κ × Item κ α}, x ∈ acc.items →
      x ∈ (rev G acc).items := by
    intro G
    induction G with
    | nil => exact fun hx => hx
    | skip k' rest ih => exact fun hx => ih (List.mem_cons_of_mem _ hx)
    | leaf k' a rest ih => exact fun hx => ih (List.mem_cons_of_mem _ hx)
    | node k' children rest _ ih => exact fun hx => ih (List.mem_cons_of_mem _ hx)
  induction F generalizing acc with
  | nil => cases h
  | skip k' rest ih =>
    rcases List.mem_cons.mp h with heq | h
    · cases heq
    · exact ih h
  | leaf k' a rest ih =>
    rcases List.mem_cons.mp h with heq | h
    · cases heq
    · exact ih h
  | node k' children rest _ ih =>
    rcases List.mem_cons.mp h with heq | h
    · cases heq
      exact hkeep rest List.mem_cons_self
    · exact ih h

/-- In the reversed order the items of `F` stand before those of `acc`. -/
theorem good_rev {acc : Forest κ α} (h : Good grow (rev F acc) n room) :
    Good grow acc n room ∧ (acc.names ≠ [] → leafIn room F = false) := by
  induction F generalizing acc with
  | nil => exact ⟨h, fun _ => rfl⟩
  | skip k rest ih =>
    obtain ⟨hacc, hrest⟩ := ih h
    exact ⟨hacc, fun _ => hrest (List.cons_ne_nil _ _)⟩
  | leaf k a rest ih =>
    obtain ⟨hacc, hrest⟩ := ih h
    refine ⟨hacc.2, fun hne => ?_⟩
    cases hacc.1.resolve_right hne
    exact hrest (List.cons_ne_nil _ _)
  | node k children rest _ ih =>
    obtain ⟨hacc, hrest⟩ := ih h
    have hno := hrest (List.cons_ne_nil _ _)
    cases room with
    | zero => exact ⟨hacc.2, fun _ => hno⟩
    | succ room =>
      refine ⟨hacc.2.2, fun hne => Bool.or_eq_false_iff.mpr ⟨?_, hno⟩⟩
      have hback := hacc.1.resolve_right hne
      rw [leafIn_rev] at hback
      exact (Bool.or_eq_false_iff.mp hback).1

theorem level_of_good (h : Good grow F n room) (h' : Good grow (rev F .nil) n room) :
    Level room F := by
  by_cases hone : F.names.length ≤ 1
  · exact Or.inl hone
  · right
    -- of two items each stands before the other in one of the orders
    cases F with
    | nil => rfl
    | skip k rest =>
      exact (@good_rev _ _ grow rest room n (.skip k .nil) h').2 (List.cons_ne_nil _ _)
    | leaf k a rest =>
      have hrest := (@good_rev _ _ grow rest room n (.leaf k a .nil) h').2 (List.cons_ne_nil _ _)
      have hne : rest.names ≠ [] := fun hnil => hone (by simp [Forest.names, hnil])
      cases h.1.resolve_right hne
      exact hrest
    | node k children rest =>
      have hrest := (@good_rev _ _ grow rest room n (.node k (rev children .nil) .nil) h').2
        (List.cons_ne_nil _ _)
      have hne : rest.names ≠ [] := fun hnil => hone (by simp [Forest.names, hnil])
      cases room with
      | zero => exact hrest
      | succ room => exact Bool.or_eq_false_iff.mpr ⟨h.1.resolve_right hne, hrest⟩

theorem safeBelow_of_good
    (h : ∀ k C, (k, Item.node C) ∈ F.items → Good grow C (n + 1) (childRoom grow n room) ∧
      Good grow (rev C .nil) (n + 1) (childRoom grow n room)) : SafeBelow grow F n room := by
  induction F generalizing n room with
  | nil => trivial
  | skip k rest ih => exact ih fun k C hmem => h k C (List.mem_cons_of_mem _ hmem)
  | leaf k a rest ih => exact ih fun k C hmem => h k C (List.mem_cons_of_mem _ hmem)
  | node k children rest ihc ih =>
    obtain ⟨hgood, hback⟩ := h k children List.mem_cons_self
    refine ⟨level_of_good hgood hback, ihc fun k' C hmem => ?_,
      ih fun k' C hmem => h k' C (List.mem_cons_of_mem _ hmem)⟩
    exact ⟨good_node hgood hmem, good_node hback (node_rev hmem)⟩

theorem safe_of_good (h : Good grow F n room) (h' : Good grow (rev F .nil) n room) :
    Safe grow F n room :=
  ⟨level_of_good h h', safeBelow_of_good fun _ _ hmem =>
    ⟨good_node h hmem, good_node h' (node_rev hmem)⟩⟩

/-! ## The leaves of an order -/

theorem Forest.Distinct.nodup (h : F.Distinct) : F.names.Nodup := by
  induction F with
  | nil => exact List.nodup_nil
  | skip k rest ih => exact List.nodup_cons.mpr ⟨h.1, ih h.2⟩
  | leaf k a rest ih => exact List.nodup_cons.mpr ⟨h.1, ih h.2⟩
  | node k children rest _ ih => exact List.nodup_cons.mpr ⟨h.1, ih h.2.2⟩

theorem map_fst_items (F : Forest κ α) : F.items.map Prod.fst = F.names := by
  induction F with
  | nil => rfl
  | skip k rest ih => exact congrArg (k :: ·) ih
  | leaf k a rest ih => exact congrArg (k :: ·) ih
  | node k children rest _ ih => exact congrArg (k :: ·) ih

theorem mem_names {it : Item κ α} (h : (k, it) ∈ F.items) : k ∈ F.names := by
  rw [← map_fst_items]
  exact List.mem_map_of_mem h

theorem exists_item (h : k ∈ F.names) : ∃ it, (k, it) ∈ F.items := by
  rw [← map_fst_items] at h
  obtain ⟨x, hx, rfl⟩ := List.mem_map.mp h
  exact ⟨x.2, hx⟩

theorem distinct_node (h : F.Distinct) (hmem : (k, Item.node C) ∈ F.items) : C.Distinct := by
  induction F with
  | nil => cases hmem
  | skip k' rest ih =>
    rcases List.mem_cons.mp hmem with heq | hmem
    · cases heq
    · exact ih h.2 hmem
  | leaf k' a rest ih =>
    rcases List.mem_cons.mp hmem with heq | hmem
    · cases heq
    · exact ih h.2 hmem
  | node k' children rest _ ih =>
    rcases List.mem_cons.mp hmem with heq | hmem
    · cases heq
      exact h.2.1
    · exact ih h.2.2 hmem

theorem distinct_of_takes (h : Takes F' F) (hnodup : F'.names.Nodup) (hdistinct : F.Distinct) :
    F'.Distinct := by
  induction F' generalizing F with
  | nil => trivial
  | skip k rest ih =>
    obtain ⟨hk, hrest⟩ := List.nodup_cons.mp hnodup
    exact ⟨hk, ih h.2 hrest hdistinct⟩
  | leaf k a rest ih =>
    obtain ⟨hk, hrest⟩ := List.nodup_cons.mp hnodup
    exact ⟨hk, ih h.2 hrest hdistinct⟩
  | node k children rest ihc ih =>
    obtain ⟨hk, hrest⟩ := List.nodup_cons.mp hnodup
    obtain ⟨C, hmem, hperm, hchildren⟩ := h.1
    have hC := distinct_node hdistinct hmem
    exact ⟨hk, ihc hchildren (hperm.nodup_iff.mpr hC.nodup) hC, ih h.2 hrest hdistinct⟩

variable [DecidableEq κ]

def Item.leaves (p : List κ) : Item κ α → List (List κ × α)
  | .skip => []
  | .leaf a => [(p, a)]
  | .node children => children.leaves p

/-- The leaves under one name. -/
def leavesOf (F : Forest κ α) (p : List κ) (k : κ) : List (List κ × α) :=
  ((F.items.lookup k).map (Item.leaves (p ++ [k]))).getD []

theorem leavesOf_eq (h : F.Distinct) {it : Item κ α} (hmem : (k, it) ∈ F.items) :
    leavesOf F p k = it.leaves (p ++ [k]) := by
  have hnodup : (F.items.map Prod.fst).Nodup := map_fst_items F ▸ h.nodup
  rw [leavesOf, (ListIndex.lookup_eq_some_iff_mem hnodup).mpr hmem]
  rfl

theorem leaves_eq_flatMap (h : F.Distinct) : F.leaves p = F.names.flatMap (leavesOf F p) := by
  have hitems : F.leaves p = F.items.flatMap fun x => x.2.leaves (p ++ [x.1]) := by
    clear h
    induction F with
    | nil => rfl
    | skip k rest ih => exact ih
    | leaf k a rest ih => exact congrArg ((p ++ [k], a) :: ·) ih
    | node k children rest _ ih => exact congrArg (children.leaves (p ++ [k]) ++ ·) ih
  rw [hitems, ← map_fst_items, List.flatMap_map]
  refine List.flatMap_congr fun x hx => (leavesOf_eq h ?_).symm
  exact hx

theorem leaves_perm_flatMap (h : Takes F' F) (hdistinct : F.Distinct) :
    (F'.leaves p).Perm (F'.names.flatMap (leavesOf F p)) := by
  induction F' generalizing F p with
  | nil => exact List.Perm.refl _
  | skip k rest ih =>
    rw [Forest.names, List.flatMap_cons, leavesOf_eq hdistinct h.1]
    exact ih h.2 hdistinct
  | leaf k a rest ih =>
    rw [Forest.names, List.flatMap_cons, leavesOf_eq hdistinct h.1]
    exact (ih h.2 hdistinct).cons _
  | node k children rest ihc ih =>
    obtain ⟨⟨C, hmem, hperm, hchildren⟩, hrest⟩ := h
    have hC := distinct_node hdistinct hmem
    have hinner : (children.leaves (p ++ [k])).Perm (C.leaves (p ++ [k])) := by
      rw [leaves_eq_flatMap hC]
      exact (ihc hchildren hC).trans (hperm.flatMap_right _)
    rw [Forest.names, List.flatMap_cons, leavesOf_eq hdistinct hmem]
    exact hinner.append (ih hrest hdistinct)

theorem leaves_perm (h : Arranges F' F) (hdistinct : F.Distinct) :
    (F'.leaves p).Perm (F.leaves p) := by
  rw [leaves_eq_flatMap hdistinct]
  exact (leaves_perm_flatMap h.2 hdistinct).trans (h.1.flatMap_right _)

/-- The leaves are read under their own paths in every order exactly in a safe forest. -/
theorem all_orders_iff (hdistinct : F.Distinct) (htail : tail.length ≤ room) :
    (∀ F', Arranges F' F → (reads grow F' p room tail).Perm (F.leaves p)) ↔
      Safe grow F p.length room := by
  have hgood : ∀ F', Arranges F' F →
      ((reads grow F' p room tail).Perm (F.leaves p) ↔ Good grow F' p.length room) := by
    intro F' h
    have hF' := distinct_of_takes h.2 (h.1.nodup_iff.mpr hdistinct.nodup) hdistinct
    rw [← reads_perm_iff hF' htail]
    exact ⟨fun hperm => hperm.trans (leaves_perm h hdistinct).symm,
      fun hperm => hperm.trans (leaves_perm h hdistinct)⟩
  constructor
  · intro h
    exact safe_of_good ((hgood F (arranges_self F)).mp (h F (arranges_self F)))
      ((hgood _ (arranges_rev F)).mp (h _ (arranges_rev F)))
  · rintro ⟨hlevel, hbelow⟩ F' h
    refine (hgood F' h).mpr (good_of_takes h.2 hbelow ?_)
    rcases hlevel with hone | hno
    · exact Or.inl (h.1.length_eq ▸ hone)
    · refine Or.inr ?_
      rw [← Bool.not_eq_true]
      exact fun hleaf => Bool.false_ne_true (hno.symm.trans (leafIn_of_takes h.2 hleaf))

end PathForest
