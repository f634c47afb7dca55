import Swazz.Fingerprint

/-! The fingerprints that a response has in the orders in which its maps can be ranged over. -/
namespace Swazz.Fingerprint

open RunnerAccess (JsString js)
open RunnerAccess renaming Json → Value

/-! ### What a traversal writes -/

abbrev Write := Path × Kind

def own (path : Path) (kind : Kind) : List Write := if path = [] then [] else [(path, kind)]

def emptyMark (path : Path) : List Value → List Write
  | [] => [(path ++ brackets, .emptyArray)]
  | _ :: _ => []

mutual

/-- What each node writes that a traversal without a budget visits, in its order. -/
def visits (path : Path) (value : Value) (depth : ℕ) : List (List Write) :=
  if depth ≥ maxFingerprintDepth then []
  else
    match value with
    | .obj entries => own path .object :: visitsEntries path entries (depth + 1)
    | .arr items => (own path .array ++ emptyMark path items) :: visitsFirst path items (depth + 1)
    | .str _ => [own path .string]
    | .num _ => [own path .number]
    | .bool _ => [own path .boolean]
    | .null => [own path .null]

def visitsEntries (path : Path) (entries : List (JsString × Value)) (depth : ℕ) :
    List (List Write) :=
  match entries with
  | [] => []
  | (k, child) :: entries =>
    visits (childPath path k) child depth ++ visitsEntries path entries depth

def visitsFirst (path : Path) (items : List Value) (depth : ℕ) : List (List Write) :=
  match items with
  | [] => []
  | item :: _ => visits (path ++ brackets) item depth

end

/-- The nodes of a body fit the budget of a traversal. -/
def Fits (v : Value) : Prop := (visits [] v 0).length ≤ maxFingerprintNodes

/-- No two nodes of different types have one path. -/
def Agree (v : Value) : Prop :=
  ∀ p x y, (p, x) ∈ (visits [] v 0).flatten → (p, y) ∈ (visits [] v 0).flatten → x = y

/-- Every node but the root has a path, and no other node has it. -/
def Separate (v : Value) : Prop :=
  (∀ ws ∈ (visits [] v 0).tail, ws ≠ []) ∧ ((visits [] v 0).flatten.map (·.1)).Nodup

def put (out : FieldTypes) (ws : List Write) : FieldTypes :=
  ws.foldl (fun m w => m.insert w.1 w.2) out

theorem put_append (out : FieldTypes) (ws ws' : List Write) :
    put out (ws ++ ws') = put (put out ws) ws' := List.foldl_append

theorem put_own (out : FieldTypes) (path : Path) (kind : Kind) :
    put out (own path kind) = writeOwn path kind out := by
  rw [own, writeOwn]
  split <;> rfl

/-- The result of visiting some nodes as long as the budget lasts. -/
def Fills (ws : List (List Write)) (out : FieldTypes) (count : ℕ) (r : FieldTypes × ℕ) : Prop :=
  r = (put out (ws.take (maxFingerprintNodes - count)).flatten,
    count + min ws.length (maxFingerprintNodes - count))

theorem Fills.append {ws ws' : List (List Write)} {out : FieldTypes} {count : ℕ}
    {r r' : FieldTypes × ℕ} (h : Fills ws out count r) (h' : Fills ws' r.1 r.2 r') :
    Fills (ws ++ ws') out count r' := by
  rw [Fills] at h h' ⊢
  rw [h', h, List.take_append, List.flatten_append, put_append, List.length_append]
  have hleft : maxFingerprintNodes - (count + min ws.length (maxFingerprintNodes - count)) =
      maxFingerprintNodes - count - ws.length := by omega
  simp only [hleft, Prod.mk.injEq, true_and]
  omega

theorem Fills.node {ws : List (List Write)} {out : FieldTypes} {count : ℕ} {w : List Write}
    {r : FieldTypes × ℕ} (hcount : count < maxFingerprintNodes)
    (h : Fills ws (put out w) (count + 1) r) : Fills (w :: ws) out count r := by
  obtain ⟨left, hleft⟩ : ∃ left, maxFingerprintNodes - count = left + 1 :=
    ⟨maxFingerprintNodes - count - 1, by omega⟩
  have hnext : maxFingerprintNodes - (count + 1) = left := by omega
  rw [Fills] at h ⊢
  rw [h, hleft, hnext, List.take_succ_cons, List.flatten_cons, put_append, List.length_cons]
  simp only [Prod.mk.injEq, true_and]
  omega

theorem Fills.nil (out : FieldTypes) (count : ℕ) : Fills [] out count (out, count) := by
  simp [Fills, put]

theorem Fills.leaf {path : Path} {kind : Kind} {out : FieldTypes} {count : ℕ}
    (hcount : count < maxFingerprintNodes) :
    Fills [own path kind] out count (writeOwn path kind out, count + 1) := by
  refine Fills.node hcount ?_
  rw [put_own]
  exact Fills.nil _ _

theorem Fills.full {ws : List (List Write)} {out : FieldTypes} {count : ℕ}
    (h : maxFingerprintNodes ≤ count) : Fills ws out count (out, count) := by
  rw [Fills, Nat.sub_eq_zero_of_le h]
  simp [put]

mutual

theorem traverseSchema_fills (path : Path) (v : Value) (out : FieldTypes) (depth count : ℕ) :
    Fills (visits path v depth) out count (traverseSchema path v out depth count) := by
  rw [traverseSchema.eq_def, visits.eq_def]
  by_cases hd : depth ≥ maxFingerprintDepth
  · rw [if_pos (Or.inl hd), if_pos hd]
    exact Fills.nil _ _
  · rw [if_neg hd]
    by_cases hc : count ≥ maxFingerprintNodes
    · rw [if_pos (Or.inr hc)]
      exact Fills.full hc
    · rw [if_neg (not_or.mpr ⟨hd, hc⟩)]
      have hlt := Nat.lt_of_not_le hc
      match v with
      | .obj entries =>
        refine Fills.node hlt ?_
        rw [put_own]
        exact traverseEntries_fills path entries _ _ _
      | .arr items =>
        refine Fills.node hlt ?_
        rw [put_append, put_own]
        exact traverseFirst_fills path items _ _ _
      | .str _ => exact Fills.leaf hlt
      | .num _ => exact Fills.leaf hlt
      | .bool _ => exact Fills.leaf hlt
      | .null => exact Fills.leaf hlt

theorem traverseEntries_fills (path : Path) (entries : List (JsString × Value)) (out : FieldTypes)
    (depth count : ℕ) : Fills (visitsEntries path entries depth) out count
      (traverseEntries path entries out depth count) := by
  match entries with
  | [] =>
    rw [traverseEntries, visitsEntries]
    exact Fills.nil _ _
  | (k, child) :: entries =>
    rw [traverseEntries, visitsEntries]
    exact (traverseSchema_fills _ child _ _ _).append (traverseEntries_fills path entries _ _ _)

theorem traverseFirst_fills (path : Path) (items : List Value) (out : FieldTypes)
    (depth count : ℕ) : Fills (visitsFirst path items depth) (put out (emptyMark path items)) count
      (traverseFirst path items out depth count) := by
  match items with
  | [] =>
    rw [traverseFirst, visitsFirst]
    exact Fills.nil _ _
  | item :: _ =>
    rw [traverseFirst, visitsFirst]
    exact traverseSchema_fills _ item _ _ _

end

theorem fingerprint_fieldTypes (ranged checked : Value) : (fingerprint ranged checked).fieldTypes =
    put ∅ ((visits [] ranged 0).take maxFingerprintNodes).flatten :=
  congrArg Prod.fst (traverseSchema_fills [] ranged ∅ 0 0)

/-! ### One value in two orders -/

theorem visits_obj (path : Path) (entries : List (JsString × Value)) {depth : ℕ}
    (hd : depth < maxFingerprintDepth) : visits path (.obj entries) depth =
      own path .object :: visitsEntries path entries (depth + 1) := by
  rw [visits.eq_def, if_neg (Nat.not_le_of_lt hd)]

theorem visits_arr (path : Path) (items : List Value) {depth : ℕ}
    (hd : depth < maxFingerprintDepth) : visits path (.arr items) depth =
      (own path .array ++ emptyMark path items) :: visitsFirst path items (depth + 1) := by
  rw [visits.eq_def, if_neg (Nat.not_le_of_lt hd)]

theorem visits_deep (path : Path) (v : Value) {depth : ℕ} (hd : maxFingerprintDepth ≤ depth) :
    visits path v depth = [] := by
  rw [visits.eq_def, if_pos hd]

theorem visitsEntries_eq (path : Path) (entries : List (JsString × Value)) (depth : ℕ) :
    visitsEntries path entries depth =
      entries.flatMap fun e => visits (childPath path e.1) e.2 depth := by
  induction entries with
  | nil => rw [visitsEntries, List.flatMap_nil]
  | cons e entries ih => rw [visitsEntries, ih, List.flatMap_cons]

theorem visits_perm {v w : Value} (h : SameValue v w) (path : Path) (depth : ℕ) :
    (visits path v depth).Perm (visits path w depth) := by
  induction h generalizing path depth with
  | refl v => exact List.Perm.refl _
  | trans _ _ ih ih' => exact (ih path depth).trans (ih' path depth)
  | perm order =>
    rcases Nat.lt_or_ge depth maxFingerprintDepth with hd | hd
    · rw [visits_obj _ _ hd, visits_obj _ _ hd, visitsEntries_eq, visitsEntries_eq]
      exact (order.flatMap_right _).cons _
    · rw [visits_deep _ _ hd, visits_deep _ _ hd]
  | entry below before after k ih =>
    rcases Nat.lt_or_ge depth maxFingerprintDepth with hd | hd
    · rw [visits_obj _ _ hd, visits_obj _ _ hd, visitsEntries_eq, visitsEntries_eq,
        List.flatMap_append, List.flatMap_append, List.flatMap_cons, List.flatMap_cons]
      exact (((ih _ _).append_right _).append_left _).cons _
    · rw [visits_deep _ _ hd, visits_deep _ _ hd]
  | item below before after ih =>
    rcases Nat.lt_or_ge depth maxFingerprintDepth with hd | hd
    · rw [visits_arr _ _ hd, visits_arr _ _ hd]
      cases before with
      | nil =>
        rw [List.nil_append, List.nil_append, visitsFirst, visitsFirst]
        exact (ih _ _).cons _
      | cons b before =>
        rw [List.cons_append, List.cons_append, visitsFirst, visitsFirst]
        exact List.Perm.refl _
    · rw [visits_deep _ _ hd, visits_deep _ _ hd]

theorem inferType_same {v w : Value} (h : SameValue v w) : inferType v = inferType w := by
  induction h with
  | refl v => rfl
  | trans _ _ ih ih' => exact ih.trans ih'
  | perm _ => rfl
  | entry _ _ _ _ _ => rfl
  | item _ _ _ _ => rfl

theorem isErrorText_same {v w : Value} (h : SameValue v w) : isErrorText v = isErrorText w := by
  induction h with
  | refl v => rfl
  | trans _ _ ih ih' => exact ih.trans ih'
  | perm _ => rfl
  | entry _ _ _ _ _ => rfl
  | item _ _ _ _ => rfl

theorem checkErrorStructure_same {v w : Value} (h : SameValue v w) :
    checkErrorStructure v = checkErrorStructure w := by
  induction h with
  | refl v => rfl
  | trans _ _ ih ih' => exact ih.trans ih'
  | perm order =>
    have hkeys := order.filter fun e => isErrorKey e.1
    simp only [checkErrorStructure, order.length_eq, hkeys.length_eq]
    rw [hkeys.any_eq]
  | entry below before after k ih =>
    simp only [checkErrorStructure, List.filter_append, List.filter_cons, List.length_append,
      List.length_cons, List.any_append]
    by_cases hk : isErrorKey k
    · simp only [hk, if_true, List.length_cons, List.any_cons, isErrorText_same below]
    · simp only [hk]
      rfl
  | item _ _ _ _ => rfl

/-! ### Paths below a node -/

theorem le_childPath (path k : Path) : path.length ≤ (childPath path k).length := by
  rw [childPath]
  split
  · rename_i h
    rw [h]
    exact Nat.zero_le _
  · simp only [List.length_append]
    omega

theorem lt_childPath {path : Path} (hne : path ≠ []) (k : Path) :
    path.length < (childPath path k).length := by
  rw [childPath, if_neg hne]
  have : dot.length = 1 := rfl
  simp only [List.length_append]
  omega

theorem lt_brackets (path : Path) : path.length < (path ++ brackets).length := by
  have : brackets.length = 2 := rfl
  rw [List.length_append]
  omega

theorem mem_own {path : Path} {kind : Kind} {w : Write} (h : w ∈ own path kind) :
    path ≠ [] ∧ w = (path, kind) := by
  rw [own] at h
  split at h
  · cases h
  · exact ⟨‹_›, List.mem_singleton.mp h⟩

mutual

/-- No path is shorter than that of the node above it. -/
theorem le_of_mem_visits (path : Path) (v : Value) (depth : ℕ) {w : Write}
    (h : w ∈ (visits path v depth).flatten) : path.length ≤ w.1.length := by
  have hown {kind : Kind} (hw : w ∈ [own path kind].flatten) : path.length ≤ w.1.length := by
    rw [List.flatten_singleton] at hw
    rw [(mem_own hw).2]
  rcases Nat.lt_or_ge depth maxFingerprintDepth with hd | hd
  · match v with
    | .obj entries =>
      rw [visits_obj _ _ hd, List.flatten_cons, List.mem_append] at h
      rcases h with h | h
      · rw [(mem_own h).2]
      · exact le_of_mem_entries path entries _ h
    | .arr items =>
      rw [visits_arr _ _ hd, List.flatten_cons, List.mem_append, List.mem_append] at h
      rcases h with (h | h) | h
      · rw [(mem_own h).2]
      · match items with
        | [] =>
          rw [List.mem_singleton.mp h]
          exact (lt_brackets path).le
      · exact (lt_brackets path).le.trans (le_of_mem_first path items _ h)
    | .str _ =>
      rw [visits.eq_def, if_neg (Nat.not_le_of_lt hd)] at h
      exact hown h
    | .num _ =>
      rw [visits.eq_def, if_neg (Nat.not_le_of_lt hd)] at h
      exact hown h
    | .bool _ =>
      rw [visits.eq_def, if_neg (Nat.not_le_of_lt hd)] at h
      exact hown h
    | .null =>
      rw [visits.eq_def, if_neg (Nat.not_le_of_lt hd)] at h
      exact hown h
  · rw [visits_deep _ _ hd] at h
    cases h

theorem le_of_mem_entries (path : Path) (entries : List (JsString × Value)) (depth : ℕ) {w : Write}
    (h : w ∈ (visitsEntries path entries depth).flatten) : path.length ≤ w.1.length := by
  match entries with
  | [] =>
    rw [visitsEntries] at h
    cases h
  | (k, child) :: entries =>
    rw [visitsEntries, List.flatten_append, List.mem_append] at h
    rcases h with h | h
    · exact (le_childPath path k).trans (le_of_mem_visits _ child _ h)
    · exact le_of_mem_entries path entries _ h

theorem le_of_mem_first (path : Path) (items : List Value) (depth : ℕ) {w : Write}
    (h : w ∈ (visitsFirst path items depth).flatten) : (path ++ brackets).length ≤ w.1.length := by
  match items with
  | [] =>
    rw [visitsFirst] at h
    cases h
  | item :: _ =>
    rw [visitsFirst] at h
    exact le_of_mem_visits _ item _ h

end

theorem mem_entries {path : Path} {entries : List (JsString × Value)} {depth : ℕ} {w : Write} :
    w ∈ (visitsEntries path entries depth).flatten ↔
      ∃ e ∈ entries, w ∈ (visits (childPath path e.1) e.2 depth).flatten := by
  rw [visitsEntries_eq]
  simp only [List.mem_flatten, List.mem_flatMap]
  constructor
  · rintro ⟨ws, ⟨e, he, hws⟩, hw⟩
    exact ⟨e, he, ws, hws, hw⟩
  · rintro ⟨e, he, ws, hws, hw⟩
    exact ⟨ws, ⟨e, he, hws⟩, hw⟩

theorem sizeOf_entry {entries : List (JsString × Value)} {e : JsString × Value} (he : e ∈ entries) :
    sizeOf e.2 < sizeOf (Value.obj entries) := by
  have h := List.sizeOf_lt_of_mem he
  obtain ⟨k, c⟩ := e
  simp only [Prod.mk.sizeOf_spec, Value.obj.sizeOf_spec] at h ⊢
  omega

/-- The entries of a map with a child in another order as the last, or as the first. -/
theorem same_last {before after : List (JsString × Value)} {k : JsString} {v w : Value}
    (h : SameValue v w) : SameValue (.obj (before ++ (k, v) :: after))
      (.obj (before ++ after ++ [(k, w)])) := by
  refine (SameValue.entry h before after k).trans (.perm ?_)
  have := (@List.perm_append_comm _ [(k, w)] after).append_left before
  simpa using this

theorem same_first {before after : List (JsString × Value)} {k : JsString} {v w : Value}
    (h : SameValue v w) : SameValue (.obj (before ++ (k, v) :: after))
      (.obj ((k, w) :: (before ++ after))) :=
  (SameValue.entry h before after k).trans (.perm List.perm_middle)

/-- There is an order in which a write is the last one to its path: those above come last. -/
theorem exists_last (v : Value) (path : Path) (depth : ℕ) {p : Path} {x : Kind}
    (h : (p, x) ∈ (visits path v depth).flatten) : ∃ w, SameValue v w ∧ ∃ pre post,
      (visits path w depth).flatten = pre ++ (p, x) :: post ∧ ∀ q ∈ post, q.1 ≠ p := by
  have hd : depth < maxFingerprintDepth := by
    by_contra hd
    rw [visits_deep _ _ (Nat.le_of_not_lt hd)] at h
    cases h
  have hleaf {kind : Kind} (hv : visits path v depth = [own path kind]) : ∃ w, SameValue v w ∧
      ∃ pre post, (visits path w depth).flatten = pre ++ (p, x) :: post ∧ ∀ q ∈ post, q.1 ≠ p := by
    rw [hv, List.flatten_singleton] at h
    obtain ⟨hne, he⟩ := mem_own h
    refine ⟨v, .refl v, [], [], ?_, by simp⟩
    rw [hv, List.flatten_singleton, own, if_neg hne, he]
    rfl
  match v with
  | .obj entries =>
    rw [visits_obj _ _ hd, List.flatten_cons, List.mem_append] at h
    rcases h with h | h
    · obtain ⟨hne, he⟩ := mem_own h
      refine ⟨_, .refl _, [], (visitsEntries path entries (depth + 1)).flatten, ?_, ?_⟩
      · rw [visits_obj _ _ hd, List.flatten_cons, own, if_neg hne, he]
        rfl
      · -- below a node with a path all paths are longer
        intro q hq hqp
        obtain ⟨e, -, hq⟩ := mem_entries.mp hq
        have hlt := (lt_childPath hne e.1).trans_le (le_of_mem_visits _ e.2 _ hq)
        rw [hqp, (Prod.mk.inj he).1] at hlt
        exact Nat.lt_irrefl _ hlt
    · obtain ⟨⟨k, c⟩, hc, h⟩ := mem_entries.mp h
      have hsize := sizeOf_entry hc
      obtain ⟨c', hcc, pre, post, he, hpost⟩ := exists_last c (childPath path k) (depth + 1) h
      obtain ⟨before, after, rfl⟩ := List.append_of_mem hc
      refine ⟨_, same_last hcc, own path .object ++
        (visitsEntries path (before ++ after) (depth + 1)).flatten ++ pre, post, ?_, hpost⟩
      rw [visits_obj _ _ hd, List.flatten_cons, visitsEntries_eq, List.flatMap_append,
        List.flatMap_singleton, List.flatten_append, he, ← visitsEntries_eq]
      simp only [List.append_assoc]
  | .arr items =>
    rw [visits_arr _ _ hd, List.flatten_cons, List.mem_append, List.mem_append] at h
    rcases h with (h | h) | h
    · obtain ⟨hne, he⟩ := mem_own h
      refine ⟨_, .refl _, [], emptyMark path items ++ (visitsFirst path items (depth + 1)).flatten,
        ?_, ?_⟩
      · rw [visits_arr _ _ hd, List.flatten_cons, own, if_neg hne, he]
        rfl
      · intro q hq hqp
        have hlt : path.length < q.1.length := by
          rcases List.mem_append.mp hq with hq | hq
          · match items with
            | [] =>
              rw [List.mem_singleton.mp hq]
              exact lt_brackets path
          · exact (lt_brackets path).trans_le (le_of_mem_first path items _ hq)
        rw [hqp, (Prod.mk.inj he).1] at hlt
        exact Nat.lt_irrefl _ hlt
    · match items with
      | [] =>
        refine ⟨_, .refl _, own path .array, [], ?_, by simp⟩
        rw [visits_arr _ _ hd, visitsFirst, List.mem_singleton.mp h]
        simp [emptyMark]
    · match hitems : items with
      | [] =>
        rw [visitsFirst] at h
        cases h
      | item :: rest =>
        rw [visitsFirst] at h
        have hsize : sizeOf item < sizeOf (Value.arr items) := by
          rw [hitems, Value.arr.sizeOf_spec, List.cons.sizeOf_spec]
          omega
        obtain ⟨w, hw, pre, post, he, hpost⟩ := exists_last item (path ++ brackets) (depth + 1) h
        refine ⟨_, .item hw [] rest, own path .array ++ pre, post, ?_, hpost⟩
        rw [List.nil_append, visits_arr _ _ hd, visitsFirst, List.flatten_cons, he, emptyMark]
        simp only [List.append_nil, List.append_assoc]
  | .str _ => exact hleaf (by rw [visits.eq_def, if_neg (Nat.not_le_of_lt hd)])
  | .num _ => exact hleaf (by rw [visits.eq_def, if_neg (Nat.not_le_of_lt hd)])
  | .bool _ => exact hleaf (by rw [visits.eq_def, if_neg (Nat.not_le_of_lt hd)])
  | .null => exact hleaf (by rw [visits.eq_def, if_neg (Nat.not_le_of_lt hd)])
termination_by sizeOf v
decreasing_by
  · exact hsize
  · exact hsize

/-- There is an order in which a node comes so early as it is deep: those above come first. -/
theorem exists_early (v : Value) (path : Path) (depth : ℕ) {ws : List Write}
    (h : ws ∈ visits path v depth) : ∃ w, SameValue v w ∧ ∃ pre post,
      visits path w depth = pre ++ ws :: post ∧ depth + pre.length < maxFingerprintDepth := by
  have hd : depth < maxFingerprintDepth := by
    by_contra hd
    rw [visits_deep _ _ (Nat.le_of_not_lt hd)] at h
    cases h
  have hleaf {kind : Kind} (hv : visits path v depth = [own path kind]) : ∃ w, SameValue v w ∧
      ∃ pre post, visits path w depth = pre ++ ws :: post ∧
        depth + pre.length < maxFingerprintDepth := by
    rw [hv] at h
    refine ⟨v, .refl v, [], [], ?_, hd⟩
    rw [hv, List.mem_singleton.mp h]
    rfl
  match v with
  | .obj entries =>
    rw [visits_obj _ _ hd] at h
    rcases List.mem_cons.mp h with rfl | h
    · exact ⟨_, .refl _, [], _, visits_obj _ _ hd, hd⟩
    · rw [visitsEntries_eq] at h
      obtain ⟨⟨k, c⟩, hc, h⟩ := List.mem_flatMap.mp h
      have hsize := sizeOf_entry hc
      obtain ⟨c', hcc, pre, post, he, hpre⟩ := exists_early c (childPath path k) (depth + 1) h
      obtain ⟨before, after, rfl⟩ := List.append_of_mem hc
      refine ⟨_, same_first hcc, own path .object :: pre,
        post ++ visitsEntries path (before ++ after) (depth + 1), ?_, ?_⟩
      · rw [visits_obj _ _ hd, visitsEntries, he]
        simp
      · simp only [List.length_cons]
        omega
  | .arr items =>
    rw [visits_arr _ _ hd] at h
    rcases List.mem_cons.mp h with rfl | h
    · exact ⟨_, .refl _, [], _, visits_arr _ _ hd, hd⟩
    · match hitems : items with
      | [] =>
        rw [visitsFirst] at h
        cases h
      | item :: rest =>
        rw [visitsFirst] at h
        have hsize : sizeOf item < sizeOf (Value.arr items) := by
          rw [hitems, Value.arr.sizeOf_spec, List.cons.sizeOf_spec]
          omega
        obtain ⟨w, hw, pre, post, he, hpre⟩ := exists_early item (path ++ brackets) (depth + 1) h
        refine ⟨_, .item hw [] rest, (own path .array ++ emptyMark path (w :: rest)) :: pre, post,
          ?_, ?_⟩
        · rw [List.nil_append, visits_arr _ _ hd, visitsFirst, he]
          rfl
        · simp only [List.length_cons]
          omega
  | .str _ => exact hleaf (by rw [visits.eq_def, if_neg (Nat.not_le_of_lt hd)])
  | .num _ => exact hleaf (by rw [visits.eq_def, if_neg (Nat.not_le_of_lt hd)])
  | .bool _ => exact hleaf (by rw [visits.eq_def, if_neg (Nat.not_le_of_lt hd)])
  | .null => exact hleaf (by rw [visits.eq_def, if_neg (Nat.not_le_of_lt hd)])
termination_by sizeOf v
decreasing_by
  · exact hsize
  · exact hsize

/-! ### The fingerprint of a value -/

theorem lookup_put_of_not_mem {p : Path} {ws : List Write} (h : ∀ q ∈ ws, q.1 ≠ p)
    (out : FieldTypes) : (put out ws).lookup p = out.lookup p := by
  induction ws generalizing out with
  | nil => rfl
  | cons w ws ih =>
    rw [put, List.foldl_cons, ← put, ih (fun q hq => h q (List.mem_cons_of_mem _ hq)),
      Finmap.lookup_insert_of_ne _ (h w List.mem_cons_self).symm]

theorem lookup_put_last {p : Path} {x : Kind} {pre post : List Write} (h : ∀ q ∈ post, q.1 ≠ p)
    (out : FieldTypes) : (put out (pre ++ (p, x) :: post)).lookup p = some x := by
  rw [put_append, put, List.foldl_cons, ← put, lookup_put_of_not_mem h]
  exact Finmap.lookup_insert _

theorem exists_last_write {p : Path} {ws : List Write} (h : ∃ x, (p, x) ∈ ws) :
    ∃ pre x post, ws = pre ++ (p, x) :: post ∧ ∀ q ∈ post, q.1 ≠ p := by
  induction ws with
  | nil => exact absurd h (by simp)
  | cons w ws ih =>
    by_cases hin : ∃ x, (p, x) ∈ ws
    · obtain ⟨pre, x, post, rfl, hpost⟩ := ih hin
      exact ⟨w :: pre, x, post, rfl, hpost⟩
    · obtain ⟨x, hx⟩ := h
      rcases List.mem_cons.mp hx with rfl | hx
      · refine ⟨[], x, ws, rfl, ?_⟩
        rintro q hq rfl
        exact hin ⟨q.2, hq⟩
      · exact absurd ⟨x, hx⟩ hin

theorem lookup_put_isSome {p : Path} {ws : List Write} (h : ∃ x, (p, x) ∈ ws) (out : FieldTypes) :
    (put out ws).lookup p ≠ none := by
  obtain ⟨pre, x, post, rfl, hpost⟩ := exists_last_write h
  rw [lookup_put_last hpost]
  simp

theorem Fits.fieldTypes {v w : Value} (h : Fits v) (hw : SameValue v w) (checked : Value) :
    (fingerprint w checked).fieldTypes = put ∅ (visits [] w 0).flatten := by
  rw [fingerprint_fieldTypes, List.take_of_length_le]
  rw [← (visits_perm hw [] 0).length_eq]
  exact h

/-- The fingerprint of a value whose nodes fit and agree has of each path its one type. -/
theorem Agree.fieldTypes_eq {v w w' : Value} (hfits : Fits v) (h : Agree v) (hw : SameValue v w)
    (hw' : SameValue v w') (c c' : Value) :
    (fingerprint w c).fieldTypes = (fingerprint w' c').fieldTypes := by
  rw [hfits.fieldTypes hw, hfits.fieldTypes hw']
  have hperm := (visits_perm hw [] 0).flatten
  have hperm' := (visits_perm hw' [] 0).flatten
  refine Finmap.ext_lookup fun p => ?_
  by_cases hp : ∃ x, (p, x) ∈ (visits [] v 0).flatten
  · obtain ⟨x, hx⟩ := hp
    obtain ⟨pre, y, post, he, hpost⟩ := exists_last_write ⟨x, hperm.mem_iff.mp hx⟩
    obtain ⟨pre', y', post', he', hpost'⟩ := exists_last_write ⟨x, hperm'.mem_iff.mp hx⟩
    have hy : y = x := h p y x (hperm.mem_iff.mpr (by rw [he]; simp)) hx
    have hy' : y' = x := h p y' x (hperm'.mem_iff.mpr (by rw [he']; simp)) hx
    rw [he, he', lookup_put_last hpost, lookup_put_last hpost', hy, hy']
  · have hnone {u : Value} (hu : (visits [] v 0).flatten.Perm (visits [] u 0).flatten) :
        ∀ q ∈ (visits [] u 0).flatten, q.1 ≠ p := by
      rintro q hq rfl
      exact hp ⟨q.2, hu.mem_iff.mpr hq⟩
    rw [lookup_put_of_not_mem (hnone hperm), lookup_put_of_not_mem (hnone hperm')]

theorem fingerprint_eq {v w w' c c' : Value} (hw : SameValue v w) (hw' : SameValue v w')
    (hc : SameValue v c) (hc' : SameValue v c')
    (h : (fingerprint w c).fieldTypes = (fingerprint w' c').fieldTypes) :
    fingerprint w c = fingerprint w' c' := by
  have hroot : inferType w = inferType w' := (inferType_same hw).symm.trans (inferType_same hw')
  have herr : checkErrorStructure c = checkErrorStructure c' :=
    (checkErrorStructure_same hc).symm.trans (checkErrorStructure_same hc')
  change SchemaFingerprint.mk (inferType w) (fingerprint w c).fieldTypes
    (fingerprint w c).fieldTypes.keys.card (checkErrorStructure c) = SchemaFingerprint.mk
      (inferType w') (fingerprint w' c').fieldTypes (fingerprint w' c').fieldTypes.keys.card
        (checkErrorStructure c')
  rw [hroot, herr, h]

/-- A fingerprint compared with itself. -/
theorem compare_self (fp : SchemaFingerprint) (hcount : fp.fieldCount = fp.fieldTypes.keys.card) :
    (CompareFingerprints fp fp).similarity = 1 ∧ (CompareFingerprints fp fp).addedFields = [] ∧
      (CompareFingerprints fp fp).removedFields = [] := by
  rw [CompareFingerprints]
  by_cases h0 : fp.fieldCount = 0
  · rw [if_pos ⟨h0, h0⟩]
    exact ⟨rfl, rfl, rfl⟩
  · rw [if_neg fun h => h0 h.1]
    have hpos : 0 < fp.fieldTypes.keys.card := Nat.pos_of_ne_zero (hcount ▸ h0)
    have hagree (k : Kind) : agrees k k = true := by simp [agrees]
    refine ⟨?_, by simp, by simp⟩
    have hone : ((fp.fieldTypes.keys.card : ℚ) / fp.fieldTypes.keys.card) = 1 :=
      div_self (Nat.cast_ne_zero.mpr hpos.ne')
    simp only [hagree, Finset.inter_self, Finset.union_self, List.filter_true, Finset.length_sort,
      if_pos hpos, hone, roundThree]
    norm_num

/-- What the claim is to have of a body: one fingerprint, which every text of the same value has. -/
def OneFingerprint (unmarshal : JsString → Option Value) (body : JsString) (parsed : Value) : Prop :=
  ∀ body' parsed' fp fp', License.trim License.goSpace body' ≠ [] →
    unmarshal (License.trim License.goSpace body') = some parsed' → SameValue parsed parsed' →
    ExtractFingerprint unmarshal body fp → ExtractFingerprint unmarshal body' fp' →
    fp = fp' ∧ (CompareFingerprints fp fp').similarity = 1 ∧
      (CompareFingerprints fp fp').addedFields = [] ∧
      (CompareFingerprints fp fp').removedFields = []

section

variable {unmarshal : JsString → Option Value} {body : JsString} {parsed : Value}

theorem ExtractFingerprint.of_json {fp : SchemaFingerprint}
    (h : ExtractFingerprint unmarshal body fp) (hne : License.trim License.goSpace body ≠ [])
    (hparsed : unmarshal (License.trim License.goSpace body) = some parsed) :
    ∃ ranged checked, SameValue parsed ranged ∧ SameValue parsed checked ∧
      fp = fingerprint ranged checked := by
  cases h with
  | empty he => exact absurd he hne
  | nonJson _ hn =>
    rw [hn] at hparsed
    cases hparsed
  | json _ hp hr hc =>
    rw [hp] at hparsed
    obtain rfl := Option.some.inj hparsed
    exact ⟨_, _, hr, hc, rfl⟩

theorem oneFingerprint_of_settled (hne : License.trim License.goSpace body ≠ [])
    (hparsed : unmarshal (License.trim License.goSpace body) = some parsed) (hfits : Fits parsed)
    (hagree : Agree parsed) : OneFingerprint unmarshal body parsed := by
  intro body' parsed' fp fp' hne' hparsed' hsame hfp hfp'
  obtain ⟨w, c, hw, hc, rfl⟩ := hfp.of_json hne hparsed
  obtain ⟨w', c', hw', hc', rfl⟩ := hfp'.of_json hne' hparsed'
  have heq : fingerprint w c = fingerprint w' c' :=
    fingerprint_eq hw (hsame.trans hw') hc (hsame.trans hc')
      (Agree.fieldTypes_eq hfits hagree hw (hsame.trans hw') c c')
  rw [← heq]
  exact ⟨rfl, compare_self _ rfl⟩

theorem OneFingerprint.fieldTypes_eq (h : OneFingerprint unmarshal body parsed)
    (hne : License.trim License.goSpace body ≠ [])
    (hparsed : unmarshal (License.trim License.goSpace body) = some parsed) {w w' : Value}
    (hw : SameValue parsed w) (hw' : SameValue parsed w') :
    (fingerprint w parsed).fieldTypes = (fingerprint w' parsed).fieldTypes := by
  have heq := (h body parsed (fingerprint w parsed) (fingerprint w' parsed) hne hparsed (.refl _)
    (.json hne hparsed hw (.refl _)) (.json hne hparsed hw' (.refl _))).1
  rw [heq]

theorem OneFingerprint.agree (h : OneFingerprint unmarshal body parsed)
    (hne : License.trim License.goSpace body ≠ [])
    (hparsed : unmarshal (License.trim License.goSpace body) = some parsed)
    (hfits : Fits parsed) : Agree parsed := by
  intro p x y hx hy
  -- one order has the first type as the last write, another the second
  obtain ⟨w, hw, pre, post, he, hpost⟩ := exists_last parsed [] 0 hx
  obtain ⟨w', hw', pre', post', he', hpost'⟩ := exists_last parsed [] 0 hy
  have heq := h.fieldTypes_eq hne hparsed hw hw'
  rw [hfits.fieldTypes hw, hfits.fieldTypes hw', he, he'] at heq
  have hlookup := congrArg (Finmap.lookup p) heq
  rw [lookup_put_last hpost, lookup_put_last hpost'] at hlookup
  exact Option.some.inj hlookup

theorem OneFingerprint.fits (h : OneFingerprint unmarshal body parsed)
    (hne : License.trim License.goSpace body ≠ [])
    (hparsed : unmarshal (License.trim License.goSpace body) = some parsed)
    (hsep : Separate parsed) : Fits parsed := by
  by_contra hlong
  have hlong' : maxFingerprintNodes < (visits [] parsed 0).length := Nat.lt_of_not_le hlong
  obtain ⟨hpath, hnodup⟩ := hsep
  -- a node beyond the budget, which another order visits
  obtain ⟨ws, rest, hdrop⟩ : ∃ ws rest,
      (visits [] parsed 0).drop maxFingerprintNodes = ws :: rest := by
    cases hd : (visits [] parsed 0).drop maxFingerprintNodes with
    | nil => exact absurd (List.drop_eq_nil_iff.mp hd) (Nat.not_le_of_lt hlong')
    | cons ws rest => exact ⟨ws, rest, rfl⟩
  have hsplit := List.take_append_drop maxFingerprintNodes (visits [] parsed 0)
  rw [hdrop] at hsplit
  have hws : ws ≠ [] := by
    refine hpath ws ?_
    rw [← hsplit, List.tail_append_of_ne_nil]
    · simp
    · intro hnil
      have := congrArg List.length hnil
      rw [List.length_take, Nat.min_eq_left hlong'.le] at this
      exact absurd this (by decide)
  obtain ⟨⟨p, x⟩, hpx⟩ := List.exists_mem_of_ne_nil ws hws
  have hmem : ws ∈ visits [] parsed 0 := by
    rw [← hsplit]
    simp
  obtain ⟨w, hw, pre, post, he, hpre⟩ := exists_early parsed [] 0 hmem
  have heq := h.fieldTypes_eq hne hparsed (.refl parsed) hw
  have hlookup := congrArg (Finmap.lookup p) heq
  rw [fingerprint_fieldTypes, fingerprint_fieldTypes, lookup_put_of_not_mem] at hlookup
  · refine lookup_put_isSome ⟨x, ?_⟩ ∅ hlookup.symm
    rw [he, List.take_append, List.flatten_append, List.mem_append]
    refine Or.inr (List.mem_flatten.mpr ⟨ws, ?_, hpx⟩)
    obtain ⟨left, hleft⟩ : ∃ left, maxFingerprintNodes - pre.length = left + 1 := by
      refine ⟨maxFingerprintNodes - pre.length - 1, ?_⟩
      simp only [maxFingerprintDepth, maxFingerprintNodes] at hpre ⊢
      omega
    rw [hleft, List.take_succ_cons]
    exact List.mem_cons_self
  · rintro q hq rfl
    rw [← hsplit, List.flatten_append, List.flatten_cons, List.map_append, List.map_append]
      at hnodup
    exact (List.nodup_append.mp hnodup).2.2 _ (List.mem_map_of_mem hq) _
      (List.mem_append_left _ (List.mem_map_of_mem hpx)) rfl

end

end Swazz.Fingerprint
