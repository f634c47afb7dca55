import Mathlib.Data.List.Pairwise
import Swazz.GraphqlPrinting

/-! Which of the operations made of a valid schema are valid. -/
namespace Swazz.Graphql

open GraphqlText (Selections Operation GqlType)

variable {types : Text → Option TypeDef}

/-! What is asked for, as a tree and as a list. -/

theorem askMembers_ne_nil {sub : Text → Selections} {ns : List Text} :
    askMembers sub ns ≠ .nil ↔ ∃ n ∈ ns, sub n ≠ .nil := by
  induction ns with
  | nil => simp [askMembers]
  | cons n ns ih =>
    rw [askMembers]
    by_cases hsub : sub n = .nil
    · rw [if_pos hsub, ih]
      simp [hsub]
    · rw [if_neg hsub]
      simp [hsub]

theorem askFields_ne_nil {sub : Text → Selections} {fs : List Field} :
    askFields sub fs ≠ .nil ↔
      ∃ f ∈ fs, f.Type.IsLeaf ∨ f.Type.IsComposite ∧ sub f.Type.baseName ≠ .nil := by
  induction fs with
  | nil => simp [askFields]
  | cons f fs ih =>
    rw [askFields]
    by_cases hleaf : f.Type.IsLeaf
    · rw [if_pos hleaf]
      simp [hleaf]
    · rw [if_neg hleaf]
      by_cases hc : f.Type.IsComposite ∧ sub f.Type.baseName ≠ .nil
      · rw [if_pos hc]
        simp [hc]
      · rw [if_neg hc, ih]
        simp only [List.mem_cons, exists_eq_or_imp, hleaf, hc, or_self, false_or]

theorem shown_iff {left : ℕ} {n : Text} : shown types left n = true ↔ ask types left n ≠ .nil := by
  induction left generalizing n with
  | zero => simp [shown, ask]
  | succ left ih =>
    rw [shown, ask]
    cases types n with
    | none => simp
    | some t =>
      by_cases hk : t.Kind = .UNION
      · simp only [hk, if_true, List.any_eq_true, askMembers_ne_nil, ih]
      · simp only [hk, if_false, List.any_eq_true, askFields_ne_nil, ih, decide_eq_true_eq]

def Asked.toPicked (types : Text → Option TypeDef) (a : Asked) : Picked :=
  ⟨a.parent, a.field.Name, [], subOf types a.left a.field.Type⟩

theorem picked_askMembers {sub : Text → Selections} (ns : List Text) (parent : Text) :
    picked (askMembers sub ns) parent = ns.flatMap fun n => picked (sub n) n := by
  induction ns with
  | nil => rfl
  | cons n ns ih =>
    rw [askMembers, List.flatMap_cons]
    by_cases hsub : sub n = .nil
    · rw [if_pos hsub, hsub, ih]
      rfl
    · rw [if_neg hsub, picked, ih]

theorem picked_askFields (left : ℕ) (fs : List Field) (parent : Text) :
    picked (askFields (ask types left) fs) parent = ((fs.filter fun f =>
      f.Type.IsLeaf ∨ f.Type.IsComposite ∧ shown types left f.Type.baseName = true).map
        (⟨left, parent, ·⟩)).map (Asked.toPicked types) := by
  induction fs with
  | nil => rfl
  | cons f fs ih =>
    rw [askFields]
    by_cases hleaf : f.Type.IsLeaf
    · have hsub : subOf types left f.Type = .nil := if_neg fun hc => not_leaf_of_composite hc hleaf
      rw [if_pos hleaf, picked, ih, List.filter_cons_of_pos (by simp [hleaf])]
      simp only [List.map_cons, Asked.toPicked, hsub]
    · rw [if_neg hleaf]
      by_cases hc : f.Type.IsComposite ∧ ask types left f.Type.baseName ≠ .nil
      · have hsub : subOf types left f.Type = ask types left f.Type.baseName := if_pos hc.1
        rw [if_pos hc, picked, ih, List.filter_cons_of_pos (by simp [hc.1, shown_iff, hc.2])]
        simp only [List.map_cons, Asked.toPicked, hsub]
      · rw [if_neg hc, ih, List.filter_cons_of_neg]
        rw [decide_eq_true_eq, shown_iff]
        exact fun h => h.elim hleaf hc

theorem picked_ask (left : ℕ) (n : Text) :
    picked (ask types left n) n = (asked types left n).map (Asked.toPicked types) := by
  induction left generalizing n with
  | zero => rfl
  | succ left ih =>
    rw [ask, asked]
    cases types n with
    | none => rfl
    | some t =>
      by_cases hk : t.Kind = .UNION
      · simp only [hk, if_true, picked_askMembers, List.map_flatMap, ih]
      · simp only [hk, if_false, picked_askFields]

/-- A field that is asked for is one of its parent. -/
theorem mem_asked {left : ℕ} {n : Text} {a : Asked} (h : a ∈ asked types left n) :
    ∃ t, types a.parent = some t ∧ a.field ∈ t.Fields ∧
      (a.field.Type.IsLeaf ∨
        a.field.Type.IsComposite ∧ shown types a.left a.field.Type.baseName = true) := by
  induction left generalizing n with
  | zero => cases h
  | succ left ih =>
    rw [asked] at h
    cases ht : types n with
    | none =>
      rw [ht] at h
      cases h
    | some t =>
      simp only [ht] at h
      split at h
      · obtain ⟨m, -, hm⟩ := List.mem_flatMap.mp h
        exact ih hm
      · obtain ⟨f, hf, rfl⟩ := List.mem_map.mp h
        obtain ⟨hmem, hshown⟩ := List.mem_filter.mp hf
        exact ⟨t, ht, hmem, by simpa using hshown⟩

theorem fieldOf_mem (h : Valid types) {n : Text} {t : TypeDef} (ht : types n = some t) {f : Field}
    (hf : f ∈ t.Fields) : fieldOf types n f.Name = some f := by
  have hdistinct := (h n t ht).2.distinct
  rw [fieldOf, ht, Option.bind_some]
  cases hfind : t.Fields.find? (·.Name = f.Name) with
  | none =>
    rw [List.find?_eq_none] at hfind
    exact absurd (decide_eq_true rfl) (hfind f hf)
  | some g =>
    have hname : g.Name = f.Name := by simpa using List.find?_some hfind
    exact congrArg some (List.inj_on_of_nodup_map hdistinct (List.mem_of_find?_eq_some hfind) hf
      hname)

theorem fieldOf_asked (h : Valid types) {left : ℕ} {n : Text} {a : Asked}
    (ha : a ∈ asked types left n) : fieldOf types a.parent a.field.Name = some a.field := by
  obtain ⟨t, ht, hf, -⟩ := mem_asked ha
  exact fieldOf_mem h ht hf

/-! Selections. -/

theorem argumentsOk_nil {definitions : List (Text × GqlType)} {f : Field} :
    ArgumentsOk definitions f [] ↔ ∀ arg ∈ f.Args, ¬arg.Required := by
  constructor
  · intro h arg harg hrequired
    cases h.required arg harg hrequired
  · exact fun h => ⟨by simp, List.nodup_nil, fun arg harg hr => absurd hr (h arg harg)⟩

/-- What valid selections say about each of their fields. -/
theorem SelectionsOk.picked {definitions : List (Text × GqlType)} {s : Selections} {parent : Text}
    (h : SelectionsOk types definitions s parent) {p : Picked} (hp : p ∈ picked s parent) :
    ∃ f, fieldOf types p.parent p.name = some f ∧ ArgumentsOk definitions f p.args ∧
      SelectionsOk types definitions p.sub f.Type.baseName := by
  induction s generalizing parent with
  | nil => cases hp
  | field name args sub rest ihsub ihrest =>
    obtain ⟨⟨f, hf, hargs, -, -, hsub⟩, hrest⟩ := h
    rcases List.mem_cons.mp hp with rfl | hp
    · exact ⟨f, hf, hargs, hsub⟩
    · exact ihrest hrest hp
  | fragment on sub rest ihsub ihrest =>
    obtain ⟨-, -, -, hsub, hrest⟩ := h
    rcases List.mem_append.mp hp with hp | hp
    · exact ihsub hsub hp
    · exact ihrest hrest hp

theorem selectionsOk_plain (h : Valid types) {definitions : List (Text × GqlType)} {left : ℕ}
    {n : Text} (hok : SelectionsOk types definitions (ask types left n) n) {a : Asked}
    (ha : Below types left n a) : ∀ arg ∈ a.field.Args, ¬arg.Required := by
  have hfield : ∀ {left n a}, SelectionsOk types definitions (ask types left n) n →
      a ∈ asked types left n → ArgumentsOk definitions a.field [] ∧
        SelectionsOk types definitions (subOf types a.left a.field.Type) a.field.Type.baseName := by
    intro left n a hok ha
    have hp : a.toPicked types ∈ picked (ask types left n) n := by
      rw [picked_ask]
      exact List.mem_map_of_mem ha
    obtain ⟨f, hf, hargs, hsub⟩ := hok.picked hp
    have heq : f = a.field := Option.some.inj (hf.symm.trans (fieldOf_asked h ha))
    subst heq
    exact ⟨hargs, hsub⟩
  induction ha with
  | here ha => exact argumentsOk_nil.mp (hfield hok ha).1
  | there ha hc hb ih =>
    have hsub := (hfield hok ha).2
    rw [subOf, if_pos hc] at hsub
    exact ih hsub

theorem selectionsOk_askMembers {definitions : List (Text × GqlType)}
    {sub : Text → Selections} {parent : Text} {ns : List Text}
    (hobject : ∀ n ∈ ns, ∃ t, types n = some t ∧ t.Kind = .OBJECT)
    (hmember : ∀ n ∈ ns, n ∈ possibleTypes types parent)
    (hsub : ∀ n ∈ ns, SelectionsOk types definitions (sub n) n) :
    SelectionsOk types definitions (askMembers sub ns) parent := by
  induction ns with
  | nil => trivial
  | cons n ns ih =>
    have hrest := ih (fun m hm => hobject m (List.mem_cons_of_mem n hm))
      (fun m hm => hmember m (List.mem_cons_of_mem n hm))
      fun m hm => hsub m (List.mem_cons_of_mem n hm)
    rw [askMembers]
    split
    · exact hrest
    · rename_i hne
      obtain ⟨t, ht, hk⟩ := hobject n List.mem_cons_self
      refine ⟨⟨t, ht, Or.inl hk⟩, ⟨n, hmember n List.mem_cons_self, ?_⟩, hne,
        hsub n List.mem_cons_self, hrest⟩
      simp [possibleTypes, ht, hk]

theorem selectionsOk_askFields (h : Valid types) {definitions : List (Text × GqlType)} {left : ℕ}
    {n : Text} {t : TypeDef} (ht : types n = some t) {fs : List Field}
    (hfs : ∀ f ∈ fs, f ∈ t.Fields)
    (hplain : ∀ f ∈ fs, f.Type.IsLeaf ∨
      f.Type.IsComposite ∧ ask types left f.Type.baseName ≠ .nil →
      (∀ arg ∈ f.Args, ¬arg.Required) ∧ (f.Type.IsComposite →
        SelectionsOk types definitions (ask types left f.Type.baseName) f.Type.baseName)) :
    SelectionsOk types definitions (askFields (ask types left) fs) n := by
  induction fs with
  | nil => trivial
  | cons f fs ih =>
    have hrest := ih (fun g hg => hfs g (List.mem_cons_of_mem f hg))
      fun g hg => hplain g (List.mem_cons_of_mem f hg)
    have hfield := fieldOf_mem h ht (hfs f List.mem_cons_self)
    have hf := hplain f List.mem_cons_self
    rw [askFields]
    by_cases hleaf : f.Type.IsLeaf
    · rw [if_pos hleaf]
      refine ⟨⟨f, hfield, argumentsOk_nil.mpr (hf (Or.inl hleaf)).1, fun hc => ?_, fun _ => rfl,
        trivial⟩, hrest⟩
      exact absurd hleaf (not_leaf_of_composite hc)
    rw [if_neg hleaf]
    by_cases hc : f.Type.IsComposite ∧ ask types left f.Type.baseName ≠ .nil
    · rw [if_pos hc]
      obtain ⟨hplain, hsub⟩ := hf (Or.inr hc)
      exact ⟨⟨f, hfield, argumentsOk_nil.mpr hplain, fun _ => hc.2,
        fun hl => absurd hl hleaf, hsub hc.1⟩, hrest⟩
    · rw [if_neg hc]
      exact hrest

theorem asked_member {left : ℕ} {n m : Text} {t : TypeDef} (ht : types n = some t)
    (hk : t.Kind = .UNION) (hm : m ∈ t.PossibleTypes.filterMap TypeRef.name) {a : Asked}
    (ha : a ∈ asked types left m) : a ∈ asked types (left + 1) n := by
  rw [asked, ht]
  simp only [hk, if_true]
  exact List.mem_flatMap.mpr ⟨m, hm, ha⟩

theorem Below.member {left : ℕ} {n m : Text} {t : TypeDef} (ht : types n = some t)
    (hk : t.Kind = .UNION) (hm : m ∈ t.PossibleTypes.filterMap TypeRef.name) {a : Asked}
    (ha : Below types left m a) : Below types (left + 1) n a := by
  cases ha with
  | here ha => exact .here (asked_member ht hk hm ha)
  | there ha hc hb => exact .there (asked_member ht hk hm ha) hc hb

theorem asked_field {left : ℕ} {n : Text} {t : TypeDef} (ht : types n = some t)
    (hk : t.Kind ≠ .UNION) {f : Field} (hf : f ∈ t.Fields)
    (hshown : f.Type.IsLeaf ∨ f.Type.IsComposite ∧ ask types left f.Type.baseName ≠ .nil) :
    (⟨left, n, f⟩ : Asked) ∈ asked types (left + 1) n := by
  rw [asked, ht]
  simp only [hk, if_false]
  refine List.mem_map_of_mem (List.mem_filter.mpr ⟨hf, ?_⟩)
  rw [decide_eq_true_eq, shown_iff]
  exact hshown

theorem Valid.member_object (h : Valid types) {n : Text} {t : TypeDef} (ht : types n = some t)
    {m : Text} (hm : m ∈ t.PossibleTypes.filterMap TypeRef.name) :
    ∃ t', types m = some t' ∧ t'.Kind = .OBJECT := by
  obtain ⟨r, hr, hname⟩ := List.mem_filterMap.mp hm
  obtain ⟨m', t', rfl, ht', hk'⟩ := h.member ht hr
  cases hname
  exact ⟨t', ht', hk'⟩

theorem selectionsOk_ask (h : Valid types) {definitions : List (Text × GqlType)} {left : ℕ}
    {n : Text} (hplain : ∀ a, Below types left n a → ∀ arg ∈ a.field.Args, ¬arg.Required) :
    SelectionsOk types definitions (ask types left n) n := by
  induction left generalizing n with
  | zero => trivial
  | succ left ih =>
    rw [ask]
    cases ht : types n with
    | none => trivial
    | some t =>
      by_cases hk : t.Kind = .UNION
      · simp only [hk, if_true]
        refine selectionsOk_askMembers (fun m => h.member_object ht) (fun m hm => ?_) fun m hm =>
          ih fun a ha => hplain a (ha.member ht hk hm)
        simp only [possibleTypes, ht, hk]
        exact hm
      · simp only [hk, if_false]
        refine selectionsOk_askFields h ht (fun f hf => hf) fun f hf hshown => ?_
        have hmem := asked_field ht hk hf hshown
        exact ⟨hplain _ (.here hmem), fun hc => ih fun a ha => hplain a (.there hmem hc ha)⟩

/-! Merging. -/

theorem mem_picked_subOf {l : ℕ} {r : TypeRef} {p : Picked}
    (h : p ∈ picked (subOf types l r) r.baseName) :
    r.IsComposite ∧ ∃ a ∈ asked types l r.baseName, a.toPicked types = p := by
  by_cases hc : r.IsComposite
  · rw [subOf, if_pos hc, picked_ask] at h
    exact ⟨hc, List.mem_map.mp h⟩
  · rw [subOf, if_neg hc] at h
    cases h

/-- The shapes of what is printed are those of what is asked for. -/
theorem ShapesDiffer.differ (h : Valid types) {x y : TypeRef × Selections}
    (hxy : ShapesDiffer types x y) {l l' : ℕ} (hx : x.2 = subOf types l x.1)
    (hy : y.2 = subOf types l' y.1) : Differ types (l, x.1) (l', y.1) := by
  induction hxy generalizing l l' with
  | top htop => exact .top htop
  | inside hp hq hname hf hg _ ih =>
    simp only at hx hy
    subst hx hy
    obtain ⟨hc, a, ha, rfl⟩ := mem_picked_subOf hp
    obtain ⟨hc', b, hb, rfl⟩ := mem_picked_subOf hq
    cases Option.some.inj (hf.symm.trans (fieldOf_asked h ha))
    cases Option.some.inj (hg.symm.trans (fieldOf_asked h hb))
    exact .inside hc hc' ha hb hname (ih rfl rfl)

theorem Differ.shapesDiffer (h : Valid types) {x y : ℕ × TypeRef} (hxy : Differ types x y) :
    ShapesDiffer types (x.2, subOf types x.1 x.2) (y.2, subOf types y.1 y.2) := by
  induction hxy with
  | top htop => exact .top htop
  | inside hc hc' ha hb hname _ ih =>
    have hmem : ∀ {l : ℕ} {r : TypeRef} {a : Asked}, r.IsComposite → a ∈ asked types l r.baseName →
        a.toPicked types ∈ picked (subOf types l r) r.baseName := by
      intro l r a hc ha
      rw [subOf, if_pos hc, picked_ask]
      exact List.mem_map_of_mem ha
    exact .inside (hmem hc ha) (hmem hc' hb) hname (fieldOf_asked h ha) (fieldOf_asked h hb) ih

theorem conflict_iff (h : Valid types) {l l' : ℕ} {n n' : Text} {a b : Asked}
    (ha : a ∈ asked types l n) (hb : b ∈ asked types l' n')
    (hapart : ¬MayOverlap types a.parent b.parent) :
    Conflict types (a.toPicked types) (b.toPicked types) ↔
      Differ types (a.left, a.field.Type) (b.left, b.field.Type) := by
  constructor
  · intro hconflict
    cases hconflict with
    | shape hf hg hdiffer =>
      cases Option.some.inj (hf.symm.trans (fieldOf_asked h ha))
      cases Option.some.inj (hg.symm.trans (fieldOf_asked h hb))
      exact hdiffer.differ h rfl rfl
    | arguments ho => exact absurd ho hapart
    | inside ho => exact absurd ho hapart
  · intro hdiffer
    exact .shape (fieldOf_asked h ha) (fieldOf_asked h hb) (hdiffer.shapesDiffer h)

theorem asked_parent {left : ℕ} {n : Text} {t : TypeDef} (ht : types n = some t)
    (hk : t.Kind ≠ .UNION) {a : Asked} (ha : a ∈ asked types left n) : a.parent = n := by
  cases left with
  | zero => cases ha
  | succ left =>
    rw [asked, ht] at ha
    simp only [hk, if_false] at ha
    obtain ⟨f, -, rfl⟩ := List.mem_map.mp ha
    rfl

theorem Valid.members_nodup (h : Valid types) {n : Text} {t : TypeDef} (ht : types n = some t) :
    (t.PossibleTypes.filterMap TypeRef.name).Nodup := by
  rw [List.Nodup, List.pairwise_filterMap]
  refine (h n t ht).2.memberNames.imp_of_mem fun hr hr' hne m hm m' hm' heq => hne ?_
  obtain ⟨_, _, rfl, -⟩ := h.member ht hr
  obtain ⟨_, _, rfl, -⟩ := h.member ht hr'
  cases hm
  cases hm'
  exact congrArg (TypeRef.last .OBJECT ∘ some) heq

/-- Fields of one name come from different members of a union: no value has both types. -/
theorem asked_apart (h : Valid types) (left : ℕ) (n : Text) :
    (asked types left n).Pairwise fun a b => a.field.Name = b.field.Name →
      ¬MayOverlap types a.parent b.parent := by
  induction left generalizing n with
  | zero => exact List.Pairwise.nil
  | succ left ih =>
    rw [asked]
    cases ht : types n with
    | none => exact List.Pairwise.nil
    | some t =>
      by_cases hk : t.Kind = .UNION
      · simp only [hk, if_true, List.pairwise_flatMap]
        refine ⟨fun m _ => ih m, (h.members_nodup ht).imp_of_mem fun hm hm' hne a ha b hb _ => ?_⟩
        obtain ⟨t₁, ht₁, hk₁⟩ := h.member_object ht hm
        obtain ⟨t₂, ht₂, hk₂⟩ := h.member_object ht hm'
        rw [asked_parent ht₁ (by rw [hk₁]; decide) ha, asked_parent ht₂ (by rw [hk₂]; decide) hb]
        rintro (heq | hnot | hnot)
        · exact hne heq
        · exact hnot ⟨t₁, ht₁, hk₁⟩
        · exact hnot ⟨t₂, ht₂, hk₂⟩
      · simp only [hk, if_false]
        rw [List.pairwise_map]
        have hdistinct := List.pairwise_map.mp (h n t ht).2.distinct
        exact (hdistinct.sublist List.filter_sublist).imp fun hne heq => absurd heq hne

theorem setMerges_iff (h : Valid types) (left : ℕ) (n : Text) :
    SetMerges types (ask types left n) n ↔ Agree types (asked types left n) := by
  rw [SetMerges, picked_ask, List.pairwise_map, Agree]
  have hapart := asked_apart h left n
  constructor
  · intro hmerge
    refine (hmerge.and hapart).imp_of_mem fun ha hb hab hname hdiffer => ?_
    exact hab.1 hname ((conflict_iff h ha hb (hab.2 hname)).mpr hdiffer)
  · intro hagree
    refine (hagree.and hapart).imp_of_mem fun ha hb hab hname hconflict => ?_
    exact hab.1 hname ((conflict_iff h ha hb (hab.2 hname)).mp hconflict)

theorem AllMerge.picked {s : Selections} {parent : Text} (h : AllMerge types s parent) {p : Picked}
    (hp : p ∈ picked s parent) {f : Field} (hf : fieldOf types p.parent p.name = some f) :
    SetMerges types p.sub f.Type.baseName ∧ AllMerge types p.sub f.Type.baseName := by
  induction s generalizing parent with
  | nil => cases hp
  | field name args sub rest ihsub ihrest =>
    obtain ⟨hsub, hrest⟩ := h
    rcases List.mem_cons.mp hp with rfl | hp
    · exact hsub f hf
    · exact ihrest hrest hp
  | fragment on sub rest ihsub ihrest =>
    obtain ⟨-, hsub, hrest⟩ := h
    rcases List.mem_append.mp hp with hp | hp
    · exact ihsub hsub hp
    · exact ihrest hrest hp

theorem agree_of_allMerge (h : Valid types) {left : ℕ} {n : Text}
    (hall : AllMerge types (ask types left n) n) {a : Asked} (ha : Below types left n a)
    (hc : a.field.Type.IsComposite) : Agree types (asked types a.left a.field.Type.baseName) := by
  have hsub : ∀ {left n a}, AllMerge types (ask types left n) n → a ∈ asked types left n →
      a.field.Type.IsComposite →
      Agree types (asked types a.left a.field.Type.baseName) ∧
        AllMerge types (ask types a.left a.field.Type.baseName) a.field.Type.baseName := by
    intro left n a hall ha hc
    have hp : a.toPicked types ∈ picked (ask types left n) n := by
      rw [picked_ask]
      exact List.mem_map_of_mem ha
    have hsub := hall.picked hp (fieldOf_asked h ha)
    simp only [Asked.toPicked, subOf, if_pos hc] at hsub
    exact ⟨(setMerges_iff h _ _).mp hsub.1, hsub.2⟩
  induction ha with
  | here ha => exact (hsub hall ha hc).1
  | there ha hc' _ ih => exact ih (hsub hall ha hc').2 hc

theorem allMerge_askMembers {sub : Text → Selections} {parent : Text} {ns : List Text}
    (h : ∀ n ∈ ns, SetMerges types (sub n) n ∧ AllMerge types (sub n) n) :
    AllMerge types (askMembers sub ns) parent := by
  induction ns with
  | nil => trivial
  | cons n ns ih =>
    have hrest := ih fun m hm => h m (List.mem_cons_of_mem n hm)
    rw [askMembers]
    split
    · exact hrest
    · obtain ⟨hset, hall⟩ := h n List.mem_cons_self
      exact ⟨hset, hall, hrest⟩

theorem allMerge_askFields (h : Valid types) {left : ℕ} {n : Text} {t : TypeDef}
    (ht : types n = some t) {fs : List Field} (hfs : ∀ f ∈ fs, f ∈ t.Fields)
    (hsub : ∀ f ∈ fs, f.Type.IsComposite → ask types left f.Type.baseName ≠ .nil →
      SetMerges types (ask types left f.Type.baseName) f.Type.baseName ∧
        AllMerge types (ask types left f.Type.baseName) f.Type.baseName) :
    AllMerge types (askFields (ask types left) fs) n := by
  induction fs with
  | nil => trivial
  | cons f fs ih =>
    have hrest := ih (fun g hg => hfs g (List.mem_cons_of_mem f hg))
      fun g hg => hsub g (List.mem_cons_of_mem f hg)
    have hfield := fieldOf_mem h ht (hfs f List.mem_cons_self)
    rw [askFields]
    split
    · exact ⟨fun g _ => ⟨List.Pairwise.nil, trivial⟩, hrest⟩
    · split
      · rename_i hc
        refine ⟨fun g hg => ?_, hrest⟩
        cases Option.some.inj (hfield.symm.trans hg)
        exact hsub f List.mem_cons_self hc.1 hc.2
      · exact hrest

theorem allMerge_ask (h : Valid types) {left : ℕ} {n : Text}
    (hset : Agree types (asked types left n))
    (hbelow : ∀ a, Below types left n a → a.field.Type.IsComposite →
      Agree types (asked types a.left a.field.Type.baseName)) :
    AllMerge types (ask types left n) n := by
  induction left generalizing n with
  | zero => trivial
  | succ left ih =>
    rw [ask]
    cases ht : types n with
    | none => trivial
    | some t =>
      by_cases hk : t.Kind = .UNION
      · simp only [hk, if_true]
        refine allMerge_askMembers fun m hm => ?_
        have hmember : Agree types (asked types left m) := by
          rw [asked, ht] at hset
          simp only [hk, if_true] at hset
          exact (List.pairwise_flatMap.mp hset).1 m hm
        exact ⟨(setMerges_iff h left m).mpr hmember,
          ih hmember fun a ha hc => hbelow a (ha.member ht hk hm) hc⟩
      · simp only [hk, if_false]
        refine allMerge_askFields h ht (fun f hf => hf) fun f hf hc hne => ?_
        have hmem := asked_field ht hk hf (Or.inr ⟨hc, hne⟩)
        have hagree := hbelow _ (.here hmem) hc
        exact ⟨(setMerges_iff h left _).mpr hagree,
          ih hagree fun a ha => hbelow a (.there hmem hc ha)⟩

/-! The operations of a schema. -/

variable {schema : Schema}

theorem ValidSchema.valid (h : ValidSchema schema) : Valid (typesMap schema) := by
  intro n t ht
  have hname : t.Name = n := by simpa using List.find?_some ht
  exact ⟨hname, h.types t (List.mem_reverse.mp (List.mem_of_find?_eq_some ht))⟩

theorem mem_rootFields {root : Text} {field : Field} (h : field ∈ rootFields schema root) :
    ∃ t, typesMap schema root = some t ∧ field ∈ t.Fields := by
  unfold rootFields at h
  cases ht : typesMap schema root with
  | none =>
    rw [ht] at h
    cases h
  | some t =>
    rw [ht] at h
    exact ⟨t, rfl, (List.mem_filter.mp h).1⟩

theorem inner_toGqlType (r : TypeRef) : GqlType.inner r.toGqlType = r.baseName := by
  induction r with
  | last kind name => rfl
  | of kind name ofType ih => cases kind <;> exact ih

/-- The variables of an operation are those of the field's arguments, with their types. -/
theorem argumentsOk_root {field : Field} (h : ValidField types field) :
    ArgumentsOk (field.Args.map fun arg => (arg.Name, arg.Type.toGqlType)) field
      (field.Args.map fun arg => (arg.Name, arg.Name)) := by
  refine ⟨fun a ha => ?_, ?_, fun arg harg _ => ?_⟩
  · obtain ⟨arg, harg, rfl⟩ := List.mem_map.mp ha
    exact ⟨arg, harg, rfl, List.mem_map_of_mem harg⟩
  · rw [List.map_map]
    exact h.distinct
  · rw [List.map_map]
    exact List.mem_map_of_mem harg

theorem subOf_ok (h : Valid types) {definitions : List (Text × GqlType)} {r : TypeRef}
    (houtput : r.IsLeaf ∨ r.IsComposite) :
    ((r.IsComposite → subOf types 3 r ≠ .nil) ∧ (r.IsLeaf → subOf types 3 r = .nil) ∧
        SelectionsOk types definitions (subOf types 3 r) r.baseName ∧
        SetMerges types (subOf types 3 r) r.baseName ∧
        AllMerge types (subOf types 3 r) r.baseName) ↔
      (r.IsComposite → Answerable types r.baseName) := by
  rcases houtput with hleaf | hc
  · have hnot : ¬r.IsComposite := fun hc => not_leaf_of_composite hc hleaf
    rw [subOf, if_neg hnot]
    exact ⟨fun _ hc => absurd hc hnot, fun _ => ⟨fun hc => absurd hc hnot, fun _ => rfl, trivial,
      List.Pairwise.nil, trivial⟩⟩
  · rw [subOf, if_pos hc]
    constructor
    · rintro ⟨hne, -, hok, hset, hall⟩ -
      exact ⟨shown_iff.mpr (hne hc), fun a => selectionsOk_plain h hok,
        (setMerges_iff h 3 _).mp hset, fun a => agree_of_allMerge h hall⟩
    · intro hanswerable
      obtain ⟨hshown, hplain, hagree, hbelow⟩ := hanswerable hc
      exact ⟨fun _ => shown_iff.mp hshown, fun hl => absurd hl (not_leaf_of_composite hc),
        selectionsOk_ask h hplain, (setMerges_iff h 3 _).mpr hagree,
        allMerge_ask h hagree hbelow⟩

theorem validates_operation (h : ValidSchema schema) {isMutation : Bool} {root : Text}
    (hroot : rootType schema (if isMutation then .mutation else .query) = some root)
    {field : Field} (hmem : field ∈ rootFields schema root) :
    Validates schema (operation (typesMap schema) isMutation field) ↔
      (field.Type.IsComposite → Answerable (typesMap schema) field.Type.baseName) := by
  obtain ⟨t, ht, hf⟩ := mem_rootFields hmem
  have hfield := (h.valid root t ht).2.fields field hf
  have hof := fieldOf_mem h.valid ht hf
  rw [← subOf_ok h.valid hfield.output]
  constructor
  · intro hvalid
    obtain ⟨root', hroot', ⟨⟨f, hf', -, hne, hnil, hsub⟩, -⟩, -, hall, -⟩ := hvalid.selections
    cases Option.some.inj (hroot.symm.trans hroot')
    cases Option.some.inj (hof.symm.trans hf')
    obtain ⟨hset, hall⟩ := hall field hof
    exact ⟨hne, hnil, hsub, hset, hall⟩
  · rintro ⟨hne, hnil, hsub, hset, hall⟩
    refine ⟨?_, fun d hd => ?_, fun d hd => ?_, root, hroot, ?_, List.pairwise_singleton _ _, ?_⟩
    · simp only [operation, List.map_map]
      exact hfield.distinct
    · obtain ⟨arg, harg, rfl⟩ := List.mem_map.mp hd
      obtain ⟨hname, hrefers, hinput⟩ := hfield.arguments arg harg
      obtain ⟨n, t', -, hbase, ht', hk⟩ := hrefers.base
      rw [inner_toGqlType, hbase]
      exact ⟨t', ht', hk ▸ hinput⟩
    · obtain ⟨arg, harg, rfl⟩ := List.mem_map.mp hd
      simp only [operation, usedVariables, List.map_map]
      exact List.mem_append_left _ (List.mem_map_of_mem harg)
    · exact ⟨⟨field, hof, argumentsOk_root hfield, hne, hnil, hsub⟩, trivial⟩
    · refine ⟨fun f hf' => ?_, trivial⟩
      cases Option.some.inj (hof.symm.trans hf')
      exact ⟨hset, hall⟩

/-- The operation of one field. -/
theorem wellFormed_queryStr (h : ValidSchema schema) {isMutation : Bool} {root : Text}
    (hroot : rootType schema (if isMutation then .mutation else .query) = some root)
    {field : Field} (hmem : field ∈ rootFields schema root) :
    WellFormed schema (queryStr (typesMap schema) isMutation field) ↔
      (field.Type.IsComposite → Answerable (typesMap schema) field.Type.baseName) := by
  obtain ⟨t, ht, hf⟩ := mem_rootFields hmem
  have hparse := parse_queryStr h.valid isMutation ((h.valid root t ht).2.fields field hf)
  rw [← validates_operation h hroot hmem]
  constructor
  · rintro ⟨op, hop, hvalid⟩
    cases Option.some.inj (hparse.symm.trans hop)
    exact hvalid
  · exact fun hvalid => ⟨_, hparse, hvalid⟩

theorem query_endpointSchema (isMutation : Bool) (field : Field) {ep : EndpointConfig}
    (h : ep.Schema = endpointSchema types isMutation field) :
    ep.query = some (queryStr types isMutation field) := by
  unfold EndpointConfig.query
  rw [h, endpointSchema]
  simp only [List.isEmpty_map]
  cases field.Args.isEmpty with
  | true => rfl
  | false => rfl

/-- The endpoints are those of the fields of the root types. -/
theorem mem_endpoints {defaultPath : Text} {endpoints : List EndpointConfig}
    (h : ParseGraphQLIntrospection schema defaultPath = .ok endpoints) (P : Text → Prop) :
    (∀ ep ∈ endpoints, ∃ q, ep.query = some q ∧ P q) ↔
      ∀ isMutation root, rootType schema (if isMutation then .mutation else .query) = some root →
        ∀ field ∈ rootFields schema root, P (queryStr (typesMap schema) isMutation field) := by
  have hadd : ∀ basePath root isMutation,
      (∀ ep ∈ addEndpoints schema basePath root isMutation, ∃ q, ep.query = some q ∧ P q) ↔
        ∀ field ∈ rootFields schema root, P (queryStr (typesMap schema) isMutation field) := by
    intro basePath root isMutation
    simp only [addEndpoints, List.forall_mem_map]
    refine forall₂_congr fun field _ => ?_
    rw [query_endpointSchema isMutation field rfl]
    simp
  unfold ParseGraphQLIntrospection at h
  split at h
  · cases h
  · cases h
    simp only [List.forall_mem_append, List.forall_mem_flatMap, Option.mem_toList, hadd,
      Bool.forall_bool, Bool.false_eq_true, if_false, if_true, rootType]

/-- The operations that are made of a valid schema are valid exactly when every composite type of
a root field is answerable. -/
theorem operations_well_formed_iff (h : ValidSchema schema) {defaultPath : Text}
    {endpoints : List EndpointConfig}
    (hparse : ParseGraphQLIntrospection schema defaultPath = .ok endpoints) :
    (∀ ep ∈ endpoints, ∃ q, ep.query = some q ∧ WellFormed schema q) ↔
      ∀ (isMutation : Bool) root,
        rootType schema (if isMutation then .mutation else .query) = some root →
        ∀ field ∈ rootFields schema root, field.Type.IsComposite →
          Answerable (typesMap schema) field.Type.baseName := by
  rw [mem_endpoints hparse]
  refine forall₃_congr fun isMutation root hroot => forall₂_congr fun field hmem => ?_
  exact wellFormed_queryStr h hroot hmem

/-! Two schemas. -/

def scalar (name : String) : TypeRef := .last .SCALAR (some name.toList)

def object (name : String) : TypeRef := .last .OBJECT (some name.toList)

def objectType (name : String) (fields : List Field) : TypeDef :=
  ⟨.OBJECT, name.toList, fields, [], [], []⟩

def scalarType (name : String) : TypeDef := ⟨.SCALAR, name.toList, [], [], [], []⟩

/-- `user(id: ID!): User`, where a user has an `id`. -/
def userSchema : Schema where
  QueryType := some "Query".toList
  MutationType := none
  Types := [objectType "Query" [⟨"user".toList, [⟨"id".toList, .of .NON_NULL none (scalar "ID"),
      none⟩], object "User"⟩],
    objectType "User" [⟨"id".toList, [], scalar "ID"⟩], scalarType "ID"]

/-- `a: A` and `b: B`, where an `A` has no field but another `A`, and the field of a `B` has a
required argument. -/
def cyclicSchema : Schema where
  QueryType := some "Query".toList
  MutationType := none
  Types := [objectType "Query" [⟨"a".toList, [], object "A"⟩, ⟨"b".toList, [], object "B"⟩],
    objectType "A" [⟨"a".toList, [], object "A"⟩],
    objectType "B" [⟨"c".toList, [⟨"x".toList, .of .NON_NULL none (scalar "Int"), none⟩],
      scalar "Int"⟩], scalarType "Int"]

theorem isName_of {text : Text} (h : text.head?.any GraphqlText.isNameStart = true)
    (hall : text.all GraphqlText.isNameContinue = true) : GraphqlText.IsName text := by
  refine ⟨?_, fun c hc => List.all_eq_true.mp hall c hc⟩
  cases text with
  | nil => cases h
  | cons c s => exact ⟨c, s, rfl, h⟩

theorem validType_scalar {name : String} (h : GraphqlText.IsName name.toList) :
    ValidType types (scalarType name) :=
  ⟨h, by simp [scalarType], fun _ hf => (List.not_mem_nil hf).elim, List.nodup_nil,
    fun _ hr => (List.not_mem_nil hr).elim, List.nodup_nil⟩

theorem validType_object {name : String} {fields : List Field}
    (h : GraphqlText.IsName name.toList) (hfields : ∀ f ∈ fields, ValidField types f)
    (hdistinct : (fields.map (·.Name)).Nodup) : ValidType types (objectType name fields) :=
  ⟨h, by simp [objectType], hfields, hdistinct, fun _ hr => (List.not_mem_nil hr).elim,
    List.nodup_nil⟩

theorem refers_scalar {name : String} (h : types name.toList = some (scalarType name)) :
    Refers types (scalar name) := ⟨_, _, rfl, h, rfl⟩

theorem refers_object {name : String} {fields : List Field}
    (h : types name.toList = some (objectType name fields)) : Refers types (object name) :=
  ⟨_, _, rfl, h, rfl⟩

theorem validField_plain {name : String} {r : TypeRef} (h : GraphqlText.IsName name.toList)
    (hr : Refers types r) (houtput : r.IsLeaf ∨ r.IsComposite) :
    ValidField types ⟨name.toList, [], r⟩ :=
  ⟨h, hr, houtput, fun _ harg => (List.not_mem_nil harg).elim, List.nodup_nil⟩

theorem validField_required {name arg : String} {r : TypeRef} {leaf : String}
    (h : GraphqlText.IsName name.toList) (harg : GraphqlText.IsName arg.toList)
    (hleaf : Refers types (scalar leaf)) (hr : Refers types r)
    (houtput : r.IsLeaf ∨ r.IsComposite) :
    ValidField types ⟨name.toList, [⟨arg.toList, .of .NON_NULL none (scalar leaf), none⟩], r⟩ := by
  refine ⟨h, hr, houtput, fun a ha => ?_, List.nodup_singleton _⟩
  cases List.mem_singleton.mp ha
  exact ⟨harg, ⟨Or.inr ⟨rfl, by simp [scalar, TypeRef.kind]⟩, hleaf⟩, Or.inl rfl⟩

theorem validSchema_user : ValidSchema userSchema := by
  have hid : Refers (typesMap userSchema) (scalar "ID") := refers_scalar rfl
  refine ⟨by decide, fun t ht => ?_, fun n hn => ?_, fun n hn => (Option.not_mem_none n hn).elim⟩
  · rcases List.mem_cons.mp ht with rfl | ht
    · refine validType_object (isName_of rfl rfl) (fun f hf => ?_) (List.nodup_singleton _)
      cases List.mem_singleton.mp hf
      exact validField_required (isName_of rfl rfl) (isName_of rfl rfl) hid (refers_object rfl)
        (Or.inr (Or.inl rfl))
    rcases List.mem_cons.mp ht with rfl | ht
    · refine validType_object (isName_of rfl rfl) (fun f hf => ?_) (List.nodup_singleton _)
      cases List.mem_singleton.mp hf
      exact validField_plain (isName_of rfl rfl) hid (Or.inl (Or.inl rfl))
    · cases List.mem_singleton.mp ht
      exact validType_scalar (isName_of rfl rfl)
  · cases hn
    exact ⟨_, rfl, rfl⟩

/-- The operation for the user is valid. -/
theorem operations_well_formed_user :
    (addEndpoints userSchema "/graphql".toList "Query".toList false).Forall fun ep =>
      ∃ q, ep.query = some q ∧ WellFormed userSchema q := by
  have hparse : ParseGraphQLIntrospection userSchema [] =
      .ok (addEndpoints userSchema "/graphql".toList "Query".toList false) := by rfl
  refine List.forall_iff_forall_mem.mpr ((operations_well_formed_iff validSchema_user hparse).mpr ?_)
  intro isMutation root hroot field hfield _
  cases isMutation with
  | true => cases hroot
  | false =>
    cases hroot
    cases List.mem_singleton.mp hfield
    have hasked : asked (typesMap userSchema) 3 "User".toList =
        [⟨2, "User".toList, ⟨"id".toList, [], scalar "ID"⟩⟩] := rfl
    have hbelow : ∀ a, Below (typesMap userSchema) 3 "User".toList a →
        a = ⟨2, "User".toList, ⟨"id".toList, [], scalar "ID"⟩⟩ := by
      intro a ha
      cases ha with
      | here h => exact List.mem_singleton.mp (hasked ▸ h)
      | there h hc =>
        cases List.mem_singleton.mp (hasked ▸ h)
        exact absurd hc (by decide)
    refine ⟨rfl, fun a ha => ?_, ?_, fun a ha hc => ?_⟩
    · rw [hbelow a ha]
      simp
    · exact List.pairwise_singleton _ _
    · rw [hbelow a ha] at hc
      exact absurd hc (by decide)

theorem validSchema_cyclic : ValidSchema cyclicSchema := by
  have hint : Refers (typesMap cyclicSchema) (scalar "Int") := refers_scalar rfl
  have ha : Refers (typesMap cyclicSchema) (object "A") := refers_object rfl
  refine ⟨by decide, fun t ht => ?_, fun n hn => ?_, fun n hn => (Option.not_mem_none n hn).elim⟩
  · rcases List.mem_cons.mp ht with rfl | ht
    · refine validType_object (isName_of rfl rfl) (fun f hf => ?_) (by decide)
      rcases List.mem_cons.mp hf with rfl | hf
      · exact validField_plain (isName_of rfl rfl) ha (Or.inr (Or.inl rfl))
      · cases List.mem_singleton.mp hf
        exact validField_plain (isName_of rfl rfl) (refers_object rfl) (Or.inr (Or.inl rfl))
    rcases List.mem_cons.mp ht with rfl | ht
    · refine validType_object (isName_of rfl rfl) (fun f hf => ?_) (List.nodup_singleton _)
      cases List.mem_singleton.mp hf
      exact validField_plain (isName_of rfl rfl) ha (Or.inr (Or.inl rfl))
    rcases List.mem_cons.mp ht with rfl | ht
    · refine validType_object (isName_of rfl rfl) (fun f hf => ?_) (List.nodup_singleton _)
      cases List.mem_singleton.mp hf
      exact validField_required (isName_of rfl rfl) (isName_of rfl rfl) hint hint
        (Or.inl (Or.inl rfl))
    · cases List.mem_singleton.mp ht
      exact validType_scalar (isName_of rfl rfl)
  · cases hn
    exact ⟨_, rfl, rfl⟩

/-- A field of a composite type without selections, and one whose required argument is missing. -/
theorem ill_formed_operations :
    ValidSchema cyclicSchema ∧
      (addEndpoints cyclicSchema "/graphql".toList "Query".toList false).map EndpointConfig.query =
        [some "\x7b a  \x7d".toList, some "\x7b b \x7b c \x7d \x7d".toList] ∧
      ¬WellFormed cyclicSchema "\x7b a  \x7d".toList ∧
      ¬WellFormed cyclicSchema "\x7b b \x7b c \x7d \x7d".toList := by
  have hiff : ∀ field ∈ rootFields cyclicSchema "Query".toList,
      WellFormed cyclicSchema (queryStr (typesMap cyclicSchema) false field) ↔
        (field.Type.IsComposite → Answerable (typesMap cyclicSchema) field.Type.baseName) :=
    fun field => @wellFormed_queryStr _ validSchema_cyclic false _ rfl field
  refine ⟨validSchema_cyclic, by rfl, fun h => ?_, fun h => ?_⟩
  · have hanswerable := (hiff ⟨"a".toList, [], object "A"⟩ List.mem_cons_self).mp h (by decide)
    exact absurd hanswerable.shown (by decide)
  · have hmem : (⟨"b".toList, [], object "B"⟩ : Field) ∈
        rootFields cyclicSchema "Query".toList := List.mem_cons_of_mem _ List.mem_cons_self
    have hanswerable := (hiff _ hmem).mp h (by decide)
    exact hanswerable.plain _ (.here List.mem_cons_self) _ List.mem_cons_self ⟨rfl, rfl⟩

end Swazz.Graphql
