import Swazz.GraphqlRules

/-! The text of an operation is read back as the selections that were asked for. -/
namespace Swazz.Graphql

open GraphqlText

/-- A fragment for each member of a union of which something is asked. -/
def askMembers (sub : Text → Selections) : List Text → Selections
  | [] => .nil
  | n :: ns =>
    if sub n = .nil then askMembers sub ns else .fragment n (sub n) (askMembers sub ns)

/-- The leaves, and the fields of which something is asked. -/
def askFields (sub : Text → Selections) : List Field → Selections
  | [] => .nil
  | f :: fs =>
    if f.Type.IsLeaf then .field f.Name [] .nil (askFields sub fs)
    else if f.Type.IsComposite ∧ sub f.Type.baseName ≠ .nil then
      .field f.Name [] (sub f.Type.baseName) (askFields sub fs)
    else askFields sub fs

/-- The selections of a type, as a tree. -/
def ask (types : Text → Option TypeDef) : ℕ → Text → Selections
  | 0, _ => .nil
  | left + 1, name =>
    match types name with
    | none => .nil
    | some t =>
      if t.Kind = .UNION then
        askMembers (ask types left) (t.PossibleTypes.filterMap TypeRef.name)
      else askFields (ask types left) t.Fields

/-- The text of each selection. -/
def texts : Selections → List Text
  | .nil => []
  | .field f _ sub rest =>
    (f ++ if sub = .nil then [] else ' ' :: braces (texts sub)) :: texts rest
  | .fragment on sub rest =>
    ("... on ".toList ++ on ++ ' ' :: braces (texts sub)) :: texts rest

/-- Nothing, or the braces. -/
def setText (s : Selections) : Text := if s = .nil then [] else braces (texts s)

theorem braces_ne_nil (fields : List Text) : braces fields ≠ [] := by
  simp [braces]

theorem setText_ne_nil {s : Selections} : setText s ≠ [] ↔ s ≠ .nil := by
  unfold setText
  split
  · rename_i h
    simp [h]
  · rename_i h
    simp [h, braces_ne_nil]

theorem texts_eq_nil {s : Selections} : texts s = [] ↔ s = .nil := by
  cases s with
  | nil => simp [texts]
  | field => simp [texts]
  | fragment => simp [texts]

variable {types : Text → Option TypeDef}

/-- A reference to a composite type leads to a type of the schema. -/
theorem Refers.base {r : TypeRef} (h : Refers types r) :
    ∃ n t, (getBaseType r).name = some n ∧ r.baseName = n ∧ types n = some t ∧
      t.Kind = (getBaseType r).kind := by
  induction r with
  | last kind name =>
    obtain ⟨n, t, rfl, ht, hk⟩ := h
    exact ⟨n, t, rfl, rfl, ht, hk⟩
  | of kind name ofType ih => exact ih h.2

/-- The types that the selections of a valid schema come from. -/
def Valid (types : Text → Option TypeDef) : Prop :=
  ∀ n t, types n = some t → t.Name = n ∧ ValidType types t

theorem Valid.member (h : Valid types) {n : Text} {t : TypeDef} (ht : types n = some t) {r : TypeRef}
    (hr : r ∈ t.PossibleTypes) : ∃ m t', r = .last .OBJECT (some m) ∧ types m = some t' ∧
      t'.Kind = .OBJECT :=
  (h n t ht).2.members r hr

theorem not_leaf_of_composite {r : TypeRef} (h : r.IsComposite) : ¬r.IsLeaf := by
  unfold TypeRef.IsComposite TypeRef.IsLeaf Kind.IsComposite Kind.IsLeaf at *
  rcases h with h | h | h <;> simp [h]

theorem texts_askMembers {sub : Text → Selections} {text : TypeRef → Text}
    {members : List TypeRef} (h : ∀ r ∈ members, ∃ n, r = .last .OBJECT (some n))
    (htext : ∀ r ∈ members, text r = setText (sub r.baseName)) :
    (members.filterMap fun r => r.name.bind fun n =>
      if text r ≠ [] then some ("... on ".toList ++ n ++ [' '] ++ text r) else none) =
      texts (askMembers sub (members.filterMap TypeRef.name)) := by
  set F : TypeRef → Option Text := fun r => r.name.bind fun n =>
    if text r ≠ [] then some ("... on ".toList ++ n ++ [' '] ++ text r) else none with hF
  induction members with
  | nil => rfl
  | cons r members ih =>
    obtain ⟨n, rfl⟩ := h _ List.mem_cons_self
    have hr : text (.last .OBJECT (some n)) = setText (sub n) := htext _ List.mem_cons_self
    have hrest := ih (fun r hr => h r (List.mem_cons_of_mem _ hr))
      fun r hr => htext r (List.mem_cons_of_mem _ hr)
    rw [List.filterMap_cons_some (show TypeRef.name (.last .OBJECT (some n)) = some n from rfl),
      askMembers]
    by_cases hsub : sub n = .nil
    · have hnone : F (.last .OBJECT (some n)) = none :=
        if_neg fun hne => setText_ne_nil.mp (hr ▸ hne) hsub
      rw [List.filterMap_cons_none hnone, if_pos hsub, hrest]
    · have hsome : F (.last .OBJECT (some n)) =
          some ("... on ".toList ++ n ++ [' '] ++ setText (sub n)) := by
        rw [← hr]
        exact if_pos (hr ▸ setText_ne_nil.mpr hsub)
      rw [List.filterMap_cons_some hsome, if_neg hsub, texts, hrest, setText, if_neg hsub]
      simp only [List.append_assoc, List.singleton_append]

theorem texts_askFields {left : ℕ} {sub : Text → Selections} {text : TypeRef → Text}
    {fields : List Field} (hleft : 0 < left ∨ ∀ n, sub n = .nil)
    (htext : ∀ f ∈ fields, f.Type.IsComposite → text f.Type = setText (sub f.Type.baseName)) :
    (fields.filterMap fun f =>
      if (getBaseType f.Type).kind = .SCALAR ∨ (getBaseType f.Type).kind = .ENUM then some f.Name
      else if 0 < left ∧ ((getBaseType f.Type).kind = .OBJECT ∨
          (getBaseType f.Type).kind = .INTERFACE ∨ (getBaseType f.Type).kind = .UNION) then
        if text f.Type ≠ [] then some (f.Name ++ [' '] ++ text f.Type) else none
      else none) = texts (askFields sub fields) := by
  set F : Field → Option Text := fun f =>
    if (getBaseType f.Type).kind = .SCALAR ∨ (getBaseType f.Type).kind = .ENUM then some f.Name
    else if 0 < left ∧ ((getBaseType f.Type).kind = .OBJECT ∨
        (getBaseType f.Type).kind = .INTERFACE ∨ (getBaseType f.Type).kind = .UNION) then
      if text f.Type ≠ [] then some (f.Name ++ [' '] ++ text f.Type) else none
    else none with hF
  induction fields with
  | nil => rfl
  | cons f fields ih =>
    have hrest := ih fun f hf => htext f (List.mem_cons_of_mem _ hf)
    have hf := htext f List.mem_cons_self
    rw [askFields]
    by_cases hleaf : f.Type.IsLeaf
    · have hsome : F f = some f.Name := if_pos hleaf
      rw [List.filterMap_cons_some hsome, if_pos hleaf, texts, ← hrest, if_pos rfl,
        List.append_nil]
    rw [if_neg hleaf]
    by_cases hc : f.Type.IsComposite ∧ sub f.Type.baseName ≠ .nil
    · have hpos : 0 < left := hleft.resolve_right fun hnil => hc.2 (hnil _)
      have hsome : F f = some (f.Name ++ [' '] ++ setText (sub f.Type.baseName)) := by
        rw [← hf hc.1]
        refine (if_neg hleaf).trans ((if_pos ⟨hpos, hc.1⟩).trans (if_pos ?_))
        rw [hf hc.1]
        exact setText_ne_nil.mpr hc.2
      rw [List.filterMap_cons_some hsome, if_pos hc, texts, ← hrest, if_neg hc.2, setText,
        if_neg hc.2]
      simp only [List.append_assoc, List.singleton_append]
    · have hnone : F f = none := by
        refine (if_neg hleaf).trans ?_
        by_cases hcomposite : 0 < left ∧ f.Type.IsComposite
        · refine (if_pos hcomposite).trans (if_neg fun hne => hc ⟨hcomposite.2, ?_⟩)
          rw [hf hcomposite.2] at hne
          exact setText_ne_nil.mp hne
        · exact if_neg hcomposite
      rw [List.filterMap_cons_none hnone, if_neg hc, hrest]

theorem setText_texts {s : Selections} {fields : List Text} (h : fields = texts s) :
    (if fields.isEmpty then [] else braces fields) = setText s := by
  subst h
  by_cases hs : s = .nil
  · subst hs
    rfl
  · have hne : texts s ≠ [] := fun hnil => hs (texts_eq_nil.mp hnil)
    simp [setText, hs, hne]

/-- The text of the selections is that of the tree. -/
theorem selectionSet_eq (h : Valid types) (left : ℕ) {r : TypeRef} (hr : Refers types r) :
    selectionSet types left r = setText (ask types left r.baseName) := by
  induction left generalizing r with
  | zero => rfl
  | succ left ih =>
    obtain ⟨n, t, hname, hbase, ht, -⟩ := hr.base
    have hvalid := (h n t ht).2
    rw [hbase]
    simp only [selectionSet, ask, hname, Option.bind_some, ht]
    apply setText_texts
    by_cases hk : t.Kind = .UNION
    · rw [if_pos hk, if_pos hk]
      apply texts_askMembers
      · intro r hr
        obtain ⟨m, -, rfl, -⟩ := h.member ht hr
        exact ⟨m, rfl⟩
      · intro r hr
        obtain ⟨m, t', rfl, ht', hk'⟩ := h.member ht hr
        exact ih ⟨m, t', rfl, ht', hk'⟩
    · rw [if_neg hk, if_neg hk]
      apply texts_askFields
      · rcases Nat.eq_zero_or_pos left with rfl | hpos
        · exact Or.inr fun _ => rfl
        · exact Or.inl hpos
      · exact fun f hf _ => ih (hvalid.fields f hf).refers

/-! The tokens of the text. -/

/-- Selections without arguments, under valid names. -/
def Printable : Selections → Prop
  | .nil => True
  | .field f args sub rest => IsName f ∧ args = [] ∧ Printable sub ∧ Printable rest
  | .fragment on sub rest => IsName on ∧ sub ≠ .nil ∧ Printable sub ∧ Printable rest

theorem Printable.proper {s : Selections} (h : Printable s) : s.Proper := by
  induction s with
  | nil => trivial
  | field f args sub rest ihsub ihrest => exact ⟨ihsub h.2.2.1, ihrest h.2.2.2⟩
  | fragment on sub rest ihsub ihrest => exact ⟨h.2.1, ihsub h.2.2.1, ihrest h.2.2.2⟩

theorem closed_space : Closed [' '] [] := closed_ignored (by decide)

theorem closed_open : Closed "\x7b ".toList [.punctuator '\x7b'] :=
  (closed_punctuator (by decide)).append closed_space

theorem closed_close : Closed " \x7d".toList [.punctuator '\x7d'] :=
  closed_space.append (closed_punctuator (by decide))

theorem closed_braces {fields : List Text} {tokens : List Token}
    (h : Spells ([' '].intercalate fields) tokens) : Closed (braces fields) (braced tokens) :=
  (closed_open.append_spells h).append_closed closed_close (ends_cons (by decide) _)
    (List.cons_ne_nil _ _)

theorem closed_on : Closed "... on ".toList [.spread, .name ['o', 'n']] := by
  have hon : Closed "on ".toList [.name ['o', 'n']] :=
    (spells_name ⟨⟨'o', ['n'], rfl, by decide⟩, List.all_eq_true.mp rfl⟩).append_closed closed_space
      (ends_cons (by decide) _) (List.cons_ne_nil _ _)
  exact (closed_spread.append closed_space).append hon

theorem spells_texts {s : Selections} (h : Printable s) :
    Spells ([' '].intercalate (texts s)) s.tokens := by
  induction s with
  | nil => exact closed_nil.spells
  | field f args sub rest ihsub ihrest =>
    obtain ⟨hname, rfl, hsub, hrest⟩ := h
    have hpiece : Spells (f ++ if sub = .nil then [] else ' ' :: braces (texts sub))
        (.name f :: if sub = .nil then [] else braced sub.tokens) := by
      by_cases hnil : sub = .nil
      · rw [if_pos hnil, if_pos hnil, List.append_nil]
        exact spells_name hname
      · rw [if_neg hnil, if_neg hnil]
        exact ((spells_name hname).append_closed
          (closed_space.append (closed_braces (ihsub hsub))) (ends_cons (by decide) _)
          (List.cons_ne_nil _ _)).spells
    exact spells_intercalate closed_space (ends_cons (by decide) _) (List.cons_ne_nil _ _) hpiece
      (ihrest hrest) fun hnil => by rw [texts_eq_nil.mp hnil]; rfl
  | fragment on sub rest ihsub ihrest =>
    obtain ⟨hname, -, hsub, hrest⟩ := h
    have hpiece : Spells ("... on ".toList ++ on ++ ' ' :: braces (texts sub))
        (.spread :: .name ['o', 'n'] :: .name on :: braced sub.tokens) := by
      rw [List.append_assoc]
      exact closed_on.append_spells ((spells_name hname).append_closed
        (closed_space.append (closed_braces (ihsub hsub))) (ends_cons (by decide) _)
        (List.cons_ne_nil _ _)).spells
    exact spells_intercalate closed_space (ends_cons (by decide) _) (List.cons_ne_nil _ _) hpiece
      (ihrest hrest) fun hnil => by rw [texts_eq_nil.mp hnil]; rfl

theorem printable_askMembers {sub : Text → Selections} {ns : List Text}
    (h : ∀ n ∈ ns, IsName n ∧ Printable (sub n)) : Printable (askMembers sub ns) := by
  induction ns with
  | nil => trivial
  | cons n ns ih =>
    have hrest := ih fun m hm => h m (List.mem_cons_of_mem _ hm)
    obtain ⟨hname, hsub⟩ := h n List.mem_cons_self
    rw [askMembers]
    split
    · exact hrest
    · exact ⟨hname, ‹_›, hsub, hrest⟩

theorem printable_askFields {sub : Text → Selections} {fs : List Field}
    (h : ∀ f ∈ fs, IsName f.Name ∧ Printable (sub f.Type.baseName)) :
    Printable (askFields sub fs) := by
  induction fs with
  | nil => trivial
  | cons f fs ih =>
    have hrest := ih fun g hg => h g (List.mem_cons_of_mem _ hg)
    obtain ⟨hname, hsub⟩ := h f List.mem_cons_self
    rw [askFields]
    split
    · exact ⟨hname, rfl, trivial, hrest⟩
    · split
      · exact ⟨hname, rfl, hsub, hrest⟩
      · exact hrest

theorem printable_ask (h : Valid types) (left : ℕ) (n : Text) : Printable (ask types left n) := by
  induction left generalizing n with
  | zero => trivial
  | succ left ih =>
    rw [ask]
    cases ht : types n with
    | none => trivial
    | some t =>
      obtain ⟨-, hvalid⟩ := h n t ht
      simp only
      split
      · refine printable_askMembers fun m hm => ⟨?_, ih m⟩
        obtain ⟨r, hr, hname⟩ := List.mem_filterMap.mp hm
        obtain ⟨m', t', rfl, ht', -⟩ := h.member ht hr
        cases hname
        obtain ⟨rfl, hvalid'⟩ := h m t' ht'
        exact hvalid'.name
      · exact printable_askFields fun f hf => ⟨(hvalid.fields f hf).name, ih _⟩

/-! The text of the operation. -/

theorem Refers.proper {r : TypeRef} (h : Refers types r) : r.toGqlType.Proper := by
  induction r with
  | last kind name => trivial
  | of kind name ofType ih =>
    obtain ⟨hkind, hof⟩ := h
    rcases hkind with rfl | ⟨rfl, hinner⟩
    · exact ih hof
    · refine ⟨ih hof, fun u hu => ?_⟩
      cases ofType with
      | last kind name => cases hu
      | of kind name ofType =>
        rcases hof.1 with rfl | ⟨rfl, -⟩
        · cases hu
        · exact hinner rfl

/-- A type is written with its wrappers. -/
theorem spells_formatGQLType (h : Valid types) {r : TypeRef} (hr : Refers types r) :
    Spells (formatGQLType r) r.toGqlType.tokens := by
  induction r with
  | last kind name =>
    obtain ⟨n, t, rfl, ht, -⟩ := hr
    obtain ⟨rfl, hvalid⟩ := h n t ht
    exact spells_name hvalid.name
  | of kind name ofType ih =>
    obtain ⟨hkind, hof⟩ := hr
    rcases hkind with rfl | ⟨rfl, -⟩
    · exact ((closed_punctuator (by decide)).append_spells (ih hof)).append_closed
        (closed_punctuator (by decide)) (ends_cons (by decide) _) (List.cons_ne_nil _ _) |>.spells
    · exact ((ih hof).append_closed (closed_punctuator (by decide)) (ends_cons (by decide) _)
        (List.cons_ne_nil _ _)).spells

/-- What is asked of a field: of a leaf, nothing. -/
def subOf (types : Text → Option TypeDef) (left : ℕ) (r : TypeRef) : Selections :=
  if r.IsComposite then ask types left r.baseName else .nil

/-- The operation for a field of a root type. -/
def operation (types : Text → Option TypeDef) (isMutation : Bool) (field : Field) : Operation where
  kind := if isMutation then .mutation else .query
  name := if field.Args = [] then none else some field.Name
  definitions := field.Args.map fun arg => (arg.Name, arg.Type.toGqlType)
  selections := .field field.Name (field.Args.map fun arg => (arg.Name, arg.Name))
    (subOf types 3 field.Type) .nil

theorem spells_pieces {α : Type*} {sep : Text} (hsep : Closed sep []) (hends : Ends sep)
    (hne : sep ≠ []) {piece : α → Text} {tok : α → List Token} {l : List α}
    (h : ∀ a ∈ l, Spells (piece a) (tok a)) :
    Spells (sep.intercalate (l.map piece)) (l.flatMap tok) := by
  induction l with
  | nil => exact closed_nil.spells
  | cons a l ih =>
    rw [List.map_cons, List.flatMap_cons]
    refine spells_intercalate hsep hends hne (h a List.mem_cons_self)
      (ih fun b hb => h b (List.mem_cons_of_mem _ hb)) fun hnil => ?_
    rw [List.map_eq_nil_iff.mp hnil]
    rfl

theorem closed_comma : Closed ", ".toList [] :=
  (closed_ignored (by decide)).append closed_space

theorem closed_colon : Closed ": ".toList [.punctuator ':'] :=
  (closed_punctuator (by decide)).append closed_space

theorem variableTokens_eq (vs : List (Text × GqlType)) :
    variableTokens vs = (vs.flatMap fun v =>
      .punctuator '$' :: .name v.1 :: .punctuator ':' :: v.2.tokens) ++ [.punctuator ')'] := by
  induction vs with
  | nil => rfl
  | cons v vs ih => simp [variableTokens, ih]

theorem argumentTokens_eq (args : List (Text × Text)) :
    argumentTokens args = (args.flatMap fun a =>
      [.name a.1, .punctuator ':', .punctuator '$', .name a.2]) ++ [.punctuator ')'] := by
  induction args with
  | nil => rfl
  | cons a args ih => simp [argumentTokens, ih]

theorem spells_definition (h : Valid types) {arg : InputValue} (harg : ValidArgument types arg) :
    Spells (['$'] ++ arg.Name ++ ": ".toList ++ formatGQLType arg.Type)
      (.punctuator '$' :: .name arg.Name :: .punctuator ':' :: arg.Type.toGqlType.tokens) :=
  (((closed_punctuator (by decide)).append_spells (spells_name harg.name)).append_closed
    closed_colon (ends_cons (by decide) _) (List.cons_ne_nil _ _)).append_spells
    (spells_formatGQLType h harg.refers)

theorem spells_call {arg : InputValue} (harg : ValidArgument types arg) :
    Spells (arg.Name ++ ": $".toList ++ arg.Name)
      [.name arg.Name, .punctuator ':', .punctuator '$', .name arg.Name] :=
  ((spells_name harg.name).append_closed (closed_colon.append (closed_punctuator (by decide)))
    (ends_cons (by decide) _) (List.cons_ne_nil _ _)).append_spells (spells_name harg.name)

theorem spells_kind (isMutation : Bool) :
    Spells (if isMutation then "mutation".toList else "query".toList)
      [.name (if isMutation then GraphqlText.Kind.mutation else .query).text] := by
  cases isMutation with
  | true => exact spells_name ⟨⟨'m', _, rfl, by decide⟩, List.all_eq_true.mp rfl⟩
  | false => exact spells_name ⟨⟨'q', _, rfl, by decide⟩, List.all_eq_true.mp rfl⟩

/-- The selections of the field of a root type, or what stands for them. -/
theorem closed_selection (h : Valid types) {field : Field} (hfield : ValidField types field) :
    Closed (if field.Type.IsComposite then [' '] ++ buildSelectionSet field.Type types 1 else [])
      (if subOf types 3 field.Type = .nil then [] else braced (subOf types 3 field.Type).tokens) := by
  unfold subOf
  by_cases hc : field.Type.IsComposite
  · rw [if_pos hc, if_pos hc, buildSelectionSet, selectionSet_eq h _ hfield.refers]
    by_cases hnil : ask types 3 field.Type.baseName = .nil
    · rw [if_pos hnil, setText, if_pos hnil]
      exact closed_space
    · rw [if_neg hnil, setText, if_neg hnil]
      exact closed_space.append (closed_braces (spells_texts (printable_ask h 3 _)))
  · rw [if_neg hc, if_neg hc, if_pos rfl]
    exact closed_nil

theorem proper_operation (h : Valid types) (isMutation : Bool) (field : Field) :
    (operation types isMutation field).selections.Proper := by
  refine ⟨?_, trivial⟩
  unfold subOf
  split
  · exact (printable_ask h 3 _).proper
  · trivial

/-- The text of the operation for a field is read back as that operation. -/
theorem parse_queryStr (h : Valid types) (isMutation : Bool) {field : Field}
    (hfield : ValidField types field) :
    parse (queryStr types isMutation field) = some (operation types isMutation field) := by
  have hsel := closed_selection h hfield
  have hname := spells_name hfield.name
  have hproper := proper_operation h isMutation field
  have hne : (operation types isMutation field).selections ≠ .nil := Selections.noConfusion
  by_cases hargs : field.Args = []
  · have hmap : ¬field.Args.map (fun arg => ['$'] ++ arg.Name ++ ": ".toList ++
        formatGQLType arg.Type) ≠ [] := by simp [hargs]
    have htext : queryStr types isMutation field = _ := if_neg hmap
    have hop : operation types isMutation field =
        ⟨if isMutation then .mutation else .query, none, [],
          (operation types isMutation field).selections⟩ := by
      simp only [operation, hargs, if_true, List.map_nil]
    have hset : ∀ {t : Text} {k : List Token}, Closed t k →
        Closed (t ++ field.Name ++ (if field.Type.IsComposite then
          [' '] ++ buildSelectionSet field.Type types 1 else []) ++ " \x7d".toList)
          (k ++ [.name field.Name] ++ (if subOf types 3 field.Type = .nil then []
            else braced (subOf types 3 field.Type).tokens) ++ [.punctuator '\x7d']) := by
      intro t k ht
      have hspells := ht.append_spells hname
      refine Spells.append_closed ?_ closed_close (ends_cons (by decide) _)
        (List.cons_ne_nil _ _)
      by_cases hc : field.Type.IsComposite
      · rw [if_pos hc] at hsel ⊢
        exact (hspells.append_closed hsel (ends_cons (by decide) _) (List.cons_ne_nil _ _)).spells
      · have hnil : subOf types 3 field.Type = .nil := if_neg hc
        rw [if_neg hc, if_pos hnil, List.append_nil, List.append_nil]
        exact hspells
    have htokens : (operation types isMutation field).selections.tokens =
        .name field.Name :: if subOf types 3 field.Type = .nil then []
          else braced (subOf types 3 field.Type).tokens := by
      simp only [operation, hargs, List.map_nil, Selections.tokens, GraphqlText.optional,
        List.isEmpty_nil, if_true, List.nil_append, List.append_nil]
    rw [parse, htext, hop]
    cases isMutation with
    | true =>
      have hmutation : Closed "mutation \x7b ".toList
          [.name "mutation".toList, .punctuator '\x7b'] :=
        (spells_kind true).append_closed (closed_space.append closed_open)
          (ends_cons (by decide) _) (List.cons_ne_nil _ _)
      refine (congrArg (Option.bind · parseTokens) (hset hmutation).lex).trans ?_
      rw [← parseTokens_operation _ none (by simp) hproper hne, htokens]
      rfl
    | false =>
      refine (congrArg (Option.bind · parseTokens) (hset closed_open).lex).trans ?_
      refine Eq.trans ?_ (parseTokens_braced hproper hne)
      rw [htokens]
      rfl
  · have hdefs : Spells (", ".toList.intercalate (field.Args.map fun arg =>
        ['$'] ++ arg.Name ++ ": ".toList ++ formatGQLType arg.Type)) _ :=
      spells_pieces closed_comma (ends_cons (by decide) _) (List.cons_ne_nil _ _)
        fun arg harg => spells_definition h (hfield.arguments arg harg)
    have hcalls : Spells (", ".toList.intercalate (field.Args.map fun arg =>
        arg.Name ++ ": $".toList ++ arg.Name)) _ :=
      spells_pieces closed_comma (ends_cons (by decide) _) (List.cons_ne_nil _ _)
        fun arg harg => spells_call (hfield.arguments arg harg)
    have hparen : Closed ['('] [.punctuator '('] := closed_punctuator (by decide)
    have hclose : Closed [')'] [.punctuator ')'] := closed_punctuator (by decide)
    have hhead := (((spells_kind isMutation).append_closed closed_space (ends_cons (by decide) _)
      (List.cons_ne_nil _ _)).append_spells hname).append_closed hparen
      (ends_cons (by decide) _) (List.cons_ne_nil _ _)
    have hsignature := ((hhead.append_spells hdefs).append_closed
      (hclose.append (closed_space.append closed_open)) (ends_cons (by decide) _)
      (List.cons_ne_nil _ _)).append_spells hname
    have hcall := ((hsignature.append_closed hparen (ends_cons (by decide) _)
      (List.cons_ne_nil _ _)).append_spells hcalls).append_closed hclose
      (ends_cons (by decide) _) (List.cons_ne_nil _ _)
    have hlex := ((hcall.append hsel).append closed_close).lex
    have hmap : field.Args.map (fun arg => ['$'] ++ arg.Name ++ ": ".toList ++
        formatGQLType arg.Type) ≠ [] := fun hnil => hargs (List.map_eq_nil_iff.mp hnil)
    have htext : queryStr types isMutation field = _ := if_pos hmap
    rw [parse, htext]
    refine (congrArg (Option.bind · parseTokens) hlex).trans ?_
    have hop : operation types isMutation field =
        ⟨if isMutation then .mutation else .query, some field.Name,
          (operation types isMutation field).definitions,
          (operation types isMutation field).selections⟩ := by
      simp only [operation, if_neg hargs]
    have hopt : ∀ {α : Type} (tokens : List α → List Token) (F : InputValue → α),
        GraphqlText.optional tokens (field.Args.map F) =
          .punctuator '(' :: tokens (field.Args.map F) := by
      intro α tokens F
      cases hcases : field.Args with
      | nil => exact absurd hcases hargs
      | cons a args => rfl
    rw [hop, ← parseTokens_operation _ (some field.Name) ?_ hproper hne]
    · simp only [operation, hopt, variableTokens_eq, argumentTokens_eq, braced, Selections.tokens,
        List.flatMap_map, Option.bind_some, Option.toList_some, List.map_cons, List.map_nil,
        List.cons_append, List.nil_append, List.append_assoc, List.append_nil]
    · intro v hv
      obtain ⟨arg, harg, rfl⟩ := List.mem_map.mp hv
      exact (hfield.arguments arg harg).refers.proper

end Swazz.Graphql
