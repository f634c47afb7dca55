import Mathlib.Data.List.Basic
import Mathlib.Data.Set.Basic

/-! Nodes that point to others, some of them from several places, and the trees that they stand
for. Nodes that lose their children in place are missed wherever they are shared. -/
namespace PointerTrees

variable {δ κ : Type*}

/-- The nodes by their addresses. -/
structure PointerGraph (δ κ : Type*) where
  data : ℕ → δ
  children : ℕ → List (κ × ℕ)

inductive Tree (δ κ : Type*) where
  | node (data : δ) (children : List (κ × Tree δ κ))

/-- The tree without what is more than `n` levels down. -/
def Tree.cut : ℕ → Tree δ κ → Tree δ κ
  | 0, .node d _ => .node d []
  | n + 1, .node d cs => .node d (cs.map fun e => (e.1, e.2.cut n))

/-- Each node points to older ones. -/
def PointerGraph.Older (g : PointerGraph δ κ) : Prop := ∀ a, ∀ e ∈ g.children a, e.2 < a

/-- The first `n` levels below a node, as a tree. -/
def PointerGraph.levels (g : PointerGraph δ κ) : ℕ → ℕ → Tree δ κ
  | 0, a => .node (g.data a) []
  | n + 1, a => .node (g.data a) ((g.children a).map fun e => (e.1, g.levels n e.2))

/-- What a node stands for: below it there are at most as many levels as older nodes. -/
def PointerGraph.expand (g : PointerGraph δ κ) (a : ℕ) : Tree δ κ := g.levels a a

/-- The node `b` is reached from `a` by `n` pointers. -/
def PointerGraph.At (g : PointerGraph δ κ) : ℕ → ℕ → ℕ → Prop
  | a, 0, b => b = a
  | a, n + 1, b => ∃ e ∈ g.children a, g.At e.2 n b

open Classical in
/-- The graph after some of its nodes lost their children. -/
noncomputable def PointerGraph.without (g : PointerGraph δ κ) (K : Set ℕ) : PointerGraph δ κ where
  data := g.data
  children a := if a ∈ K then [] else g.children a

variable {g : PointerGraph δ κ} {K : Set ℕ} {a b n : ℕ}

theorem PointerGraph.At.le (hg : g.Older) (h : g.At a n b) : b ≤ a := by
  induction n generalizing a with
  | zero => exact h.le
  | succ n ih =>
    obtain ⟨e, he, hrest⟩ := h
    exact (ih hrest).trans (hg a e he).le

/-- Below a node there is nothing after as many levels as there are older nodes. -/
theorem levels_eq_levels (hg : g.Older) {m : ℕ} (hn : a ≤ n) (hm : a ≤ m) :
    g.levels n a = g.levels m a := by
  induction n generalizing a m with
  | zero =>
    obtain rfl : a = 0 := Nat.le_zero.mp hn
    cases m with
    | zero => rfl
    | succ m =>
      have hnone : g.children 0 = [] :=
        List.eq_nil_iff_forall_not_mem.mpr fun e he => Nat.not_lt_zero _ (hg 0 e he)
      rw [PointerGraph.levels, PointerGraph.levels, hnone]
      rfl
  | succ n ih =>
    cases m with
    | zero =>
      obtain rfl : a = 0 := Nat.le_zero.mp hm
      have hnone : g.children 0 = [] :=
        List.eq_nil_iff_forall_not_mem.mpr fun e he => Nat.not_lt_zero _ (hg 0 e he)
      rw [PointerGraph.levels, PointerGraph.levels, hnone]
      rfl
    | succ m =>
      rw [PointerGraph.levels, PointerGraph.levels]
      congr 1
      refine List.map_congr_left fun e he => ?_
      have hlt : e.2 < a := hg a e he
      rw [ih (Nat.le_of_lt_succ (hlt.trans_le hn)) (Nat.le_of_lt_succ (hlt.trans_le hm))]

theorem expand_eq (hg : g.Older) (a : ℕ) :
    g.expand a = .node (g.data a) ((g.children a).map fun e => (e.1, g.expand e.2)) := by
  rw [PointerGraph.expand, levels_eq_levels hg le_rfl (Nat.le_succ a), PointerGraph.levels]
  congr 1
  refine List.map_congr_left fun e he => ?_
  rw [levels_eq_levels hg (hg a e he).le le_rfl]
  rfl

theorem cut_expand (hg : g.Older) (n a : ℕ) : (g.expand a).cut n = g.levels n a := by
  induction n generalizing a with
  | zero =>
    rw [expand_eq hg]
    rfl
  | succ n ih =>
    rw [expand_eq hg, Tree.cut, PointerGraph.levels, List.map_map]
    congr 1
    exact List.map_congr_left fun e _ => congrArg (Prod.mk e.1) (ih e.2)

theorem children_without_of_mem (h : a ∈ K) : (g.without K).children a = [] := if_pos h

theorem children_without_of_not_mem (h : a ∉ K) : (g.without K).children a = g.children a :=
  if_neg h

theorem PointerGraph.Older.without (hg : g.Older) (K : Set ℕ) : (g.without K).Older := by
  intro a e he
  by_cases hK : a ∈ K
  · rw [children_without_of_mem hK] at he
    cases he
  · rw [children_without_of_not_mem hK] at he
    exact hg a e he

theorem children_without_of_nil (h : g.children a = []) : (g.without K).children a = [] := by
  by_cases hK : a ∈ K
  · exact children_without_of_mem hK
  · rw [children_without_of_not_mem hK, h]

theorem expand_without_eq (hg : g.Older) (K : Set ℕ) (a : ℕ) : (g.without K).expand a =
    .node (g.data a) (((g.without K).children a).map fun e => (e.1, (g.without K).expand e.2)) :=
  expand_eq (hg.without K) a

/-- After some nodes lost their children, one stands for the tree cut at `n` levels when every
node with children is among them if it is met `n` levels down, and none that is met higher. -/
theorem expand_without_iff (hg : g.Older) (n r : ℕ) : (g.without K).expand r = (g.expand r).cut n ↔
    ∀ b, g.children b ≠ [] → (∀ d < n, g.At r d b → b ∉ K) ∧ (g.At r n b → b ∈ K) := by
  rw [cut_expand hg]
  induction n generalizing r with
  | zero =>
    rw [expand_without_eq hg, PointerGraph.levels, Tree.node.injEq, List.map_eq_nil_iff, and_iff_right rfl]
    constructor
    · rintro h b hb
      refine ⟨fun d hd => absurd hd (Nat.not_lt_zero d), ?_⟩
      rintro rfl
      by_contra hout
      exact hb ((children_without_of_not_mem hout).symm.trans h)
    · intro h
      by_cases hr : g.children r = []
      · exact children_without_of_nil hr
      · exact children_without_of_mem ((h r hr).2 rfl)
  | succ n ih =>
    rw [expand_without_eq hg, PointerGraph.levels, Tree.node.injEq, and_iff_right rfl]
    by_cases hr : g.children r = []
    · rw [hr, children_without_of_nil hr]
      refine iff_of_true rfl fun b hb => ⟨?_, ?_⟩
      · intro d _ hat
        cases d with
        | zero =>
          rw [show b = r from hat] at hb
          exact absurd hr hb
        | succ d =>
          obtain ⟨e, he, -⟩ := hat
          rw [hr] at he
          cases he
      · rintro ⟨e, he, -⟩
        rw [hr] at he
        cases he
    · by_cases hK : r ∈ K
      · rw [children_without_of_mem hK]
        refine iff_of_false (fun h => hr (List.map_eq_nil_iff.mp h.symm)) fun h => ?_
        exact (h r hr).1 0 (Nat.succ_pos n) rfl hK
      · rw [children_without_of_not_mem hK, List.map_inj_left]
        constructor
        · intro h b hb
          have hchild : ∀ e ∈ g.children r,
              (∀ d < n, g.At e.2 d b → b ∉ K) ∧ (g.At e.2 n b → b ∈ K) := by
            intro e he
            exact (ih e.2).mp (Prod.mk.inj (h e he)).2 b hb
          refine ⟨?_, ?_⟩
          · intro d hd hat
            cases d with
            | zero => exact hat ▸ hK
            | succ d =>
              obtain ⟨e, he, hrest⟩ := hat
              exact (hchild e he).1 d (Nat.lt_of_succ_lt_succ hd) hrest
          · rintro ⟨e, he, hrest⟩
            exact (hchild e he).2 hrest
        · intro h e he
          refine congrArg (Prod.mk e.1) ((ih e.2).mpr fun b hb => ⟨?_, ?_⟩)
          · exact fun d hd hat => (h b hb).1 (d + 1) (Nat.succ_lt_succ hd) ⟨e, he, hat⟩
          · exact fun hat => (h b hb).2 ⟨e, he, hat⟩

/-! ### Several roots, each with its levels -/

/-- Some root reaches the node above its cut. -/
def PointerGraph.Above (g : PointerGraph δ κ) (roots : List (ℕ × ℕ)) (b : ℕ) : Prop :=
  ∃ e ∈ roots, ∃ d < e.1, g.At e.2 d b

/-- Some root reaches the node where it is cut. -/
def PointerGraph.OnCut (g : PointerGraph δ κ) (roots : List (ℕ × ℕ)) (b : ℕ) : Prop :=
  ∃ e ∈ roots, g.At e.2 e.1 b

/-- Nodes that lost their children on the cuts only, and on all of them as long as none above did:
every root stands for its cut tree when no node with children is both above a cut and on one. -/
theorem forall_expand_without_iff (hg : g.Older) {roots : List (ℕ × ℕ)}
    (hcut : ∀ b ∈ K, g.children b ≠ [] → g.OnCut roots b)
    (hall : (∀ b ∈ K, g.children b ≠ [] → ¬g.Above roots b) →
      ∀ b, g.children b ≠ [] → g.OnCut roots b → b ∈ K) :
    (∀ e ∈ roots, (g.without K).expand e.2 = (g.expand e.2).cut e.1) ↔
      ¬∃ b, g.children b ≠ [] ∧ g.Above roots b ∧ g.OnCut roots b := by
  simp only [expand_without_iff hg]
  constructor
  · rintro h ⟨b, hb, ⟨e, he, d, hd, habove⟩, ⟨e', he', hon⟩⟩
    exact (h e he b hb).1 d hd habove ((h e' he' b hb).2 hon)
  · intro h
    have hkept : ∀ b ∈ K, g.children b ≠ [] → ¬g.Above roots b :=
      fun b hK hb habove => h ⟨b, hb, habove, hcut b hK hb⟩
    intro e he b hb
    refine ⟨fun d hd hat hK => hkept b hK hb ⟨e, he, d, hd, hat⟩, fun hat => ?_⟩
    exact hall hkept b hb ⟨e, he, hat⟩

end PointerTrees
