import Mathlib.Data.List.Forall2

/-! Patterns of items and wildcards: which lists they stand for, a matcher for them, and their
encoding in a smaller alphabet. -/
namespace Wildcards

/-- A part of a pattern: an item, or a stretch of items of a kind. -/
inductive PatternPart (α : Type*) where
  | item (c : α)
  | narrow
  | wide
  deriving DecidableEq

/-- What an item of a pattern is the same as, and what the two kinds of stretches can hold. -/
structure Rules (α : Type*) where
  same : α → α → Bool
  narrow : α → Bool
  wide : α → Bool

variable {α β : Type*}

/-- The pattern stands for the list. -/
inductive Rules.Reads (r : Rules α) : List (PatternPart α) → List α → Prop where
  | nil : r.Reads [] []
  | item {c d : α} {ps : List (PatternPart α)} {s : List α} (hsame : r.same c d)
      (rest : r.Reads ps s) : r.Reads (.item c :: ps) (d :: s)
  | narrow {u : List α} {ps : List (PatternPart α)} {s : List α} (hu : ∀ c ∈ u, r.narrow c)
      (rest : r.Reads ps s) : r.Reads (.narrow :: ps) (u ++ s)
  | wide {u : List α} {ps : List (PatternPart α)} {s : List α} (hu : ∀ c ∈ u, r.wide c)
      (rest : r.Reads ps s) : r.Reads (.wide :: ps) (u ++ s)

/-- Some end of the list is accepted after a stretch of a kind. -/
def stretches (kind : α → Bool) (accepted : List α → Bool) : List α → Bool
  | [] => accepted []
  | c :: s => accepted (c :: s) || kind c && stretches kind accepted s

def Rules.accepts (r : Rules α) : List (PatternPart α) → List α → Bool
  | [], s => s.isEmpty
  | .item _ :: _, [] => false
  | .item c :: ps, d :: s => r.same c d && r.accepts ps s
  | .narrow :: ps, s => stretches r.narrow (r.accepts ps) s
  | .wide :: ps, s => stretches r.wide (r.accepts ps) s

theorem stretches_iff (kind : α → Bool) (accepted : List α → Bool) (s : List α) :
    stretches kind accepted s ↔
      ∃ u v, s = u ++ v ∧ (∀ c ∈ u, kind c) ∧ accepted v := by
  induction s with
  | nil =>
    rw [stretches]
    constructor
    · exact fun h => ⟨[], [], rfl, by simp, h⟩
    · rintro ⟨u, v, huv, -, h⟩
      obtain ⟨rfl, rfl⟩ := List.append_eq_nil_iff.mp huv.symm
      exact h
  | cons c s ih =>
    rw [stretches, Bool.or_eq_true, Bool.and_eq_true, ih]
    constructor
    · rintro (h | ⟨hc, u, v, rfl, hu, h⟩)
      · exact ⟨[], c :: s, rfl, by simp, h⟩
      · exact ⟨c :: u, v, rfl, List.forall_mem_cons.mpr ⟨hc, hu⟩, h⟩
    · rintro ⟨u, v, huv, hu, h⟩
      cases u with
      | nil =>
        rw [List.nil_append] at huv
        rw [← huv] at h
        exact Or.inl h
      | cons d u =>
        obtain ⟨rfl, rfl⟩ := List.cons.inj huv
        obtain ⟨hd, hu⟩ := List.forall_mem_cons.mp hu
        exact Or.inr ⟨hd, u, v, rfl, hu, h⟩

namespace Rules

variable {r : Rules α}

theorem reads_nil {s : List α} : r.Reads [] s ↔ s = [] := by
  constructor
  · rintro ⟨⟩
    rfl
  · rintro rfl
    exact .nil

theorem reads_item {c : α} {ps : List (PatternPart α)} {s : List α} :
    r.Reads (.item c :: ps) s ↔ ∃ d s', s = d :: s' ∧ r.same c d ∧ r.Reads ps s' := by
  constructor
  · rintro ⟨⟩
    exact ⟨_, _, rfl, ‹_›, ‹_›⟩
  · rintro ⟨d, s', rfl, hsame, h⟩
    exact .item hsame h

theorem reads_narrow {ps : List (PatternPart α)} {s : List α} :
    r.Reads (.narrow :: ps) s ↔
      ∃ u v, s = u ++ v ∧ (∀ c ∈ u, r.narrow c) ∧ r.Reads ps v := by
  constructor
  · intro h
    cases h with
    | narrow hu h => exact ⟨_, _, rfl, hu, h⟩
  · rintro ⟨u, v, rfl, hu, h⟩
    exact .narrow hu h

theorem reads_wide {ps : List (PatternPart α)} {s : List α} :
    r.Reads (.wide :: ps) s ↔ ∃ u v, s = u ++ v ∧ (∀ c ∈ u, r.wide c) ∧ r.Reads ps v := by
  constructor
  · intro h
    cases h with
    | wide hu h => exact ⟨_, _, rfl, hu, h⟩
  · rintro ⟨u, v, rfl, hu, h⟩
    exact .wide hu h

/-- The matcher accepts what the pattern stands for. -/
theorem accepts_iff (ps : List (PatternPart α)) (s : List α) : r.accepts ps s ↔ r.Reads ps s := by
  induction ps generalizing s with
  | nil => rw [accepts, reads_nil, List.isEmpty_iff]
  | cons p ps ih =>
    cases p with
    | item c =>
      rw [reads_item]
      cases s with
      | nil => simp [accepts]
      | cons d s =>
        rw [accepts, Bool.and_eq_true, ih]
        constructor
        · exact fun h => ⟨d, s, rfl, h⟩
        · rintro ⟨_, _, hs, h⟩
          obtain ⟨rfl, rfl⟩ := List.cons.inj hs
          exact h
    | narrow =>
      rw [accepts, reads_narrow, stretches_iff]
      simp only [ih]
    | wide =>
      rw [accepts, reads_wide, stretches_iff]
      simp only [ih]

instance (ps : List (PatternPart α)) (s : List α) : Decidable (r.Reads ps s) :=
  decidable_of_iff _ (r.accepts_iff ps s)

/-- Wider rules read more. -/
theorem Reads.mono {t : Rules α} {ps : List (PatternPart α)} {s : List α} (h : r.Reads ps s)
    (hsame : ∀ c d, r.same c d → t.same c d) (hnarrow : ∀ c, r.narrow c → t.narrow c)
    (hwide : ∀ c, r.wide c → t.wide c) : t.Reads ps s := by
  induction h with
  | nil => exact .nil
  | item h _ ih => exact .item (hsame _ _ h) ih
  | narrow hu _ ih => exact .narrow (fun c hc => hnarrow c (hu c hc)) ih
  | wide hu _ ih => exact .wide (fun c hc => hwide c (hu c hc)) ih

/-- A pattern without stretches is read item by item. -/
theorem reads_items (cs s : List α) :
    r.Reads (cs.map .item) s ↔ List.Forall₂ (fun c d => r.same c d) cs s := by
  induction cs generalizing s with
  | nil =>
    rw [List.map_nil, reads_nil, List.forall₂_nil_left_iff]
  | cons c cs ih =>
    rw [List.map_cons, reads_item, List.forall₂_cons_left_iff]
    simp only [ih]
    constructor
    · rintro ⟨d, s', rfl, hsame, h⟩
      exact ⟨d, s', hsame, h, rfl⟩
    · rintro ⟨d, s', hsame, h, rfl⟩
      exact ⟨d, s', rfl, hsame, h⟩

theorem reads_items_append (cs : List α) (ps : List (PatternPart α)) (s : List α) :
    r.Reads (cs.map .item ++ ps) s ↔
      ∃ u v, s = u ++ v ∧ List.Forall₂ (fun c d => r.same c d) cs u ∧ r.Reads ps v := by
  induction cs generalizing s with
  | nil =>
    constructor
    · exact fun h => ⟨[], s, rfl, .nil, h⟩
    · rintro ⟨u, v, rfl, hu, h⟩
      obtain rfl := List.forall₂_nil_left_iff.mp hu
      exact h
  | cons c cs ih =>
    rw [List.map_cons, List.cons_append, reads_item]
    simp only [ih]
    constructor
    · rintro ⟨d, s', rfl, hsame, u, v, rfl, hu, h⟩
      exact ⟨d :: u, v, rfl, .cons hsame hu, h⟩
    · rintro ⟨_, v, rfl, hu, h⟩
      obtain ⟨d, u, hsame, hrest, rfl⟩ := List.forall₂_cons_left_iff.mp hu
      exact ⟨d, u ++ v, rfl, hsame, u, v, rfl, hrest, h⟩

end Rules

/-! ### Encodings -/

/-- An item as a unit that leads and units that follow; the two sorts of units are apart. -/
structure Encoding (α β : Type*) where
  lead : α → β
  follow : α → List β
  follows : β → Prop
  follows_of_mem : ∀ c, ∀ x ∈ follow c, follows x
  not_follows : ∀ c, ¬ follows (lead c)

namespace Encoding

variable (e : Encoding α β)

def encode (c : α) : List β := e.lead c :: e.follow c

def encodePart : PatternPart α → List (PatternPart β)
  | .item c => (e.encode c).map .item
  | .narrow => [.narrow]
  | .wide => [.wide]

/-- The rules for units do what the rules for items do. -/
structure Respects (r : Rules α) (t : Rules β) : Prop where
  follows_of_same : ∀ x y, t.same x y → e.follows y → e.follows x
  length_eq : ∀ c d, t.same (e.lead c) (e.lead d) → (e.follow c).length = (e.follow d).length
  same_iff : ∀ c d, r.same c d ↔
    List.Forall₂ (fun x y => t.same x y) (e.encode c) (e.encode d)
  narrow_iff : ∀ c, ∀ x ∈ e.encode c, t.narrow x ↔ r.narrow c
  wide_iff : ∀ c, ∀ x ∈ e.encode c, t.wide x ↔ r.wide c

variable {e} {r : Rules α} {t : Rules β}

/-- A pattern cannot begin in the middle of an item: only a stretch can hold what follows. -/
theorem Respects.skip (h : e.Respects r t) {ps : List (PatternPart α)} {x v : List β}
    (hx : ∀ y ∈ x, e.follows y) (hreads : t.Reads (ps.flatMap e.encodePart) (x ++ v)) :
    t.Reads (ps.flatMap e.encodePart) v := by
  induction ps generalizing x with
  | nil =>
    have hnil := Rules.reads_nil.mp hreads
    rw [(List.append_eq_nil_iff.mp hnil).2]
    exact .nil
  | cons p ps ih =>
    -- a stretch that ends within what follows, or beyond it
    have hstretch {kind : β → Bool} {u w : List β} (hxv : x ++ v = u ++ w)
        (hu : ∀ c ∈ u, kind c) (hw : t.Reads (ps.flatMap e.encodePart) w) :
        ∃ u' w', v = u' ++ w' ∧ (∀ c ∈ u', kind c) ∧
          t.Reads (ps.flatMap e.encodePart) w' := by
      rcases List.append_eq_append_iff.mp hxv with ⟨u', rfl, rfl⟩ | ⟨x', rfl, rfl⟩
      · exact ⟨u', w, rfl, fun c hc => hu c (List.mem_append_right x hc), hw⟩
      · refine ⟨[], v, rfl, by simp, ih ?_ hw⟩
        exact fun y hy => hx y (List.mem_append_right u hy)
    rw [List.flatMap_cons] at hreads ⊢
    cases p with
    | item c =>
      cases x with
      | nil => exact hreads
      | cons y x =>
        obtain ⟨d, s, hs, hsame, -⟩ := Rules.reads_item.mp hreads
        obtain ⟨rfl, -⟩ := List.cons.inj hs
        exact absurd (h.follows_of_same _ _ hsame (hx y List.mem_cons_self)) (e.not_follows c)
    | narrow =>
      obtain ⟨u, w, hxv, hu, hw⟩ := Rules.reads_narrow.mp hreads
      obtain ⟨u', w', rfl, hu', hw'⟩ := hstretch hxv hu hw
      exact Rules.Reads.narrow hu' hw'
    | wide =>
      obtain ⟨u, w, hxv, hu, hw⟩ := Rules.reads_wide.mp hreads
      obtain ⟨u', w', rfl, hu', hw'⟩ := hstretch hxv hu hw
      exact Rules.Reads.wide hu' hw'

/-- A cut in the encoding of a list, up to what is left of an item. -/
theorem exists_cut {s : List α} {u v : List β} (h : s.flatMap e.encode = u ++ v) :
    ∃ s₁ s₂ x, s = s₁ ++ s₂ ∧ v = x ++ s₂.flatMap e.encode ∧ (∀ y ∈ x, e.follows y) ∧
      ∀ c ∈ s₁, ∃ y ∈ u, y ∈ e.encode c := by
  induction s generalizing u with
  | nil =>
    obtain ⟨rfl, rfl⟩ := List.append_eq_nil_iff.mp h.symm
    exact ⟨[], [], [], rfl, rfl, by simp, by simp⟩
  | cons c s ih =>
    rw [List.flatMap_cons] at h
    rcases List.append_eq_append_iff.mp h with ⟨u', rfl, hs⟩ | ⟨x, hx, rfl⟩
    · obtain ⟨s₁, s₂, x, rfl, hv, hx, hs₁⟩ := ih hs
      refine ⟨c :: s₁, s₂, x, rfl, hv, hx, List.forall_mem_cons.mpr ⟨?_, ?_⟩⟩
      · exact ⟨e.lead c, List.mem_append_left _ List.mem_cons_self, List.mem_cons_self⟩
      · intro d hd
        obtain ⟨y, hy, hyd⟩ := hs₁ d hd
        exact ⟨y, List.mem_append_right _ hy, hyd⟩
    · cases u with
      | nil =>
        rw [List.nil_append] at hx
        refine ⟨[], c :: s, [], rfl, ?_, by simp, by simp⟩
        rw [List.flatMap_cons, hx, List.nil_append]
      | cons y u =>
        obtain ⟨rfl, hfollow⟩ := List.cons.inj hx
        refine ⟨[c], s, x, rfl, rfl, ?_, ?_⟩
        · exact fun z hz => e.follows_of_mem c z (hfollow ▸ List.mem_append_right u hz)
        · intro d hd
          rw [List.mem_singleton.mp hd]
          exact ⟨e.lead c, List.mem_cons_self, List.mem_cons_self⟩

theorem Respects.reads_encode (h : e.Respects r t) {ps : List (PatternPart α)} {s : List α}
    (hreads : r.Reads ps s) : t.Reads (ps.flatMap e.encodePart) (s.flatMap e.encode) := by
  induction hreads with
  | nil => exact .nil
  | item hsame _ ih =>
    rw [List.flatMap_cons, List.flatMap_cons, encodePart, Rules.reads_items_append]
    exact ⟨_, _, rfl, (h.same_iff _ _).mp hsame, ih⟩
  | narrow hu _ ih =>
    rw [List.flatMap_cons, List.flatMap_append]
    refine .narrow (fun x hx => ?_) ih
    obtain ⟨c, hc, hxc⟩ := List.mem_flatMap.mp hx
    exact (h.narrow_iff c x hxc).mpr (hu c hc)
  | wide hu _ ih =>
    rw [List.flatMap_cons, List.flatMap_append]
    refine .wide (fun x hx => ?_) ih
    obtain ⟨c, hc, hxc⟩ := List.mem_flatMap.mp hx
    exact (h.wide_iff c x hxc).mpr (hu c hc)

/-- An encoded pattern reads the encodings of what the pattern reads, and of nothing else. -/
theorem Respects.encode_iff (h : e.Respects r t) (ps : List (PatternPart α)) (s : List α) :
    t.Reads (ps.flatMap e.encodePart) (s.flatMap e.encode) ↔ r.Reads ps s := by
  refine ⟨fun hreads => ?_, h.reads_encode⟩
  induction ps generalizing s with
  | nil =>
    have hnil := Rules.reads_nil.mp hreads
    cases s with
    | nil => exact .nil
    | cons c s => simp [encode] at hnil
  | cons p ps ih =>
    rw [List.flatMap_cons] at hreads
    cases p with
    | item c =>
      obtain ⟨u, v, huv, hu, hv⟩ := (Rules.reads_items_append ..).mp hreads
      cases s with
      | nil =>
        obtain ⟨rfl, -⟩ := List.append_eq_nil_iff.mp huv.symm
        cases hu
      | cons d s =>
        obtain ⟨x, u, hlead, hfollow, rfl⟩ := List.forall₂_cons_left_iff.mp hu
        rw [List.flatMap_cons, encode, List.cons_append, List.cons_append] at huv
        obtain ⟨rfl, hrest⟩ := List.cons.inj huv
        have hlength : (e.follow d).length = u.length :=
          (h.length_eq c d hlead).symm.trans hfollow.length_eq
        obtain ⟨rfl, rfl⟩ := List.append_inj hrest hlength
        exact .item ((h.same_iff c d).mpr (.cons hlead hfollow)) (ih s hv)
    | narrow =>
      obtain ⟨u, v, huv, hu, hv⟩ := Rules.reads_narrow.mp hreads
      obtain ⟨s₁, s₂, x, rfl, rfl, hx, hs₁⟩ := exists_cut huv
      refine .narrow (fun c hc => ?_) (ih s₂ (h.skip hx hv))
      obtain ⟨y, hy, hyc⟩ := hs₁ c hc
      exact (h.narrow_iff c y hyc).mp (hu y hy)
    | wide =>
      obtain ⟨u, v, huv, hu, hv⟩ := Rules.reads_wide.mp hreads
      obtain ⟨s₁, s₂, x, rfl, rfl, hx, hs₁⟩ := exists_cut huv
      refine .wide (fun c hc => ?_) (ih s₂ (h.skip hx hv))
      obtain ⟨y, hy, hyc⟩ := hs₁ c hc
      exact (h.wide_iff c y hyc).mp (hu y hy)

end Encoding

end Wildcards
