import Swazz.JsonUnits
import Swazz.JsonComments

/-! What the removal of comments does to a text. -/
namespace Swazz.JsonComments

open JsonUnits

/-! ### The automaton -/

/-- A line end stays one in a comment, and the rest is blanked. -/
def blankOf (b : ℕ) : ℕ := if b = 10 then 10 else if b = 13 then 13 else 32

/-- What is written from a state on; a slash is written when it is known whether it begins a
comment. -/
def emit : State → List ℕ → List ℕ
  | .slash, [] => [47]
  | _, [] => []
  | .normal, b :: s =>
    if b = 34 then b :: emit .string s
    else if b = 47 then emit .slash s
    else b :: emit .normal s
  | .string, b :: s =>
    if b = 92 then b :: emit .stringEscape s
    else if b = 34 then b :: emit .normal s
    else b :: emit .string s
  | .stringEscape, b :: s => b :: emit .string s
  | .slash, b :: s =>
    if b = 47 then 32 :: 32 :: emit .lineComment s
    else if b = 42 then 32 :: 32 :: emit .blockComment s
    else 47 :: b :: emit .normal s
  | .lineComment, b :: s =>
    if b = 10 then 10 :: emit .normal s else blankOf b :: emit .lineComment s
  | .blockComment, b :: s =>
    if b = 42 then 32 :: emit .blockCommentStar s else blankOf b :: emit .blockComment s
  | .blockCommentStar, b :: s =>
    if b = 47 then 32 :: emit .normal s
    else if b = 42 then 32 :: emit .blockCommentStar s
    else blankOf b :: emit .blockComment s

/-- The next state and the unit that is written in this place. -/
def turn : State → ℕ → State × ℕ
  | .normal, b => if b = 34 then (.string, b) else if b = 47 then (.slash, 32) else (.normal, b)
  | .string, b =>
    if b = 92 then (.stringEscape, b) else if b = 34 then (.normal, b) else (.string, b)
  | .stringEscape, b => (.string, b)
  | .slash, b =>
    if b = 47 then (.lineComment, 32) else if b = 42 then (.blockComment, 32) else (.normal, b)
  | .lineComment, b => if b = 10 then (.normal, 10) else (.lineComment, blankOf b)
  | .blockComment, b => if b = 42 then (.blockCommentStar, 32) else (.blockComment, blankOf b)
  | .blockCommentStar, b =>
    if b = 47 then (.normal, 32)
    else if b = 42 then (.blockCommentStar, 32)
    else (.blockComment, blankOf b)

/-- The slash before a unit begins no comment. -/
def Restores (st : State) (b : ℕ) : Prop := st = .slash ∧ (turn st b).1 = .normal

instance (st : State) (b : ℕ) : Decidable (Restores st b) :=
  inferInstanceAs (Decidable (st = .slash ∧ (turn st b).1 = .normal))

theorem restores_slash (b : ℕ) : Restores .slash b ↔ b ≠ 47 ∧ b ≠ 42 := by
  rw [Restores, turn]
  split
  · simp [*]
  · split <;> simp [*]

theorem not_restores {st : State} (h : st ≠ .slash) (b : ℕ) : ¬ Restores st b := fun hr => h hr.1

theorem stepUnits_eq (st : State) (result : List ℕ) (b : ℕ) : stepUnits st result b =
    ((turn st b).1,
      (if Restores st b then result.dropLast ++ [47] else result) ++ [(turn st b).2]) := by
  cases st with
  | slash =>
    simp only [restores_slash, stepUnits, turn]
    by_cases h47 : b = 47
    · simp [h47]
    · by_cases h42 : b = 42 <;> simp [h47, h42]
  | _ =>
    rw [if_neg (not_restores (by decide) b)]
    simp only [stepUnits, turn, blankOf]
    repeat' split
    all_goals rfl

theorem stepBytes_eq (st : State) (res : List ℕ) (i b : ℕ) : stepBytes st res i b =
    ((turn st b).1, (if Restores st b then res.set (i - 1) 47 else res).set i (turn st b).2) := by
  cases st with
  | slash =>
    simp only [restores_slash, stepBytes, turn]
    by_cases h47 : b = 47
    · simp [h47]
    · by_cases h42 : b = 42 <;> simp [h47, h42]
  | _ =>
    rw [if_neg (not_restores (by decide) b)]
    simp only [stepBytes, turn, blankOf]
    repeat' split
    all_goals rfl

/-- What a step settles: the slash that waits, and the unit that does not wait. -/
theorem emit_cons (st : State) (b : ℕ) (s : List ℕ) : emit st (b :: s) =
    (if st = .slash then [if Restores st b then 47 else 32] else []) ++
      (if (turn st b).1 = .slash then [] else [(turn st b).2]) ++ emit (turn st b).1 s := by
  cases st with
  | slash =>
    simp only [restores_slash, emit, turn]
    by_cases h47 : b = 47
    · simp [h47]
    · by_cases h42 : b = 42 <;> simp [h47, h42]
  | _ =>
    simp only [emit, turn]
    repeat' split
    all_goals simp_all

/-! ### The two loops -/

/-- The result with the slash that waits at its end. -/
def finish (p : State × List ℕ) : List ℕ :=
  if p.1 = .slash then p.2.dropLast ++ [47] else p.2

/-- What is already written for good. -/
def settled (st : State) (result : List ℕ) : List ℕ :=
  if st = .slash then result.dropLast else result

theorem finish_stepUnits (s : List ℕ) (st : State) (result : List ℕ)
    (hwaits : st = .slash → ∃ out, result = out ++ [32]) :
    finish (s.foldl (fun p char => stepUnits p.1 p.2 char) (st, result)) =
      settled st result ++ emit st s := by
  induction s generalizing st result with
  | nil =>
    rw [List.foldl_nil, finish, settled]
    cases st <;> simp [emit]
  | cons b s ih =>
    have hnext : (turn st b).1 = .slash → (turn st b).2 = 32 := by
      cases st <;> simp only [turn] <;> repeat' split
      all_goals simp
    rw [List.foldl_cons]
    dsimp only
    rw [stepUnits_eq, ih _ _ fun h => ⟨_, by rw [hnext h]⟩, emit_cons, ← List.append_assoc]
    congr 1
    by_cases hst : st = .slash
    · obtain ⟨out, rfl⟩ := hwaits hst
      have hone : (turn st b).1 ≠ .slash := by
        rw [hst, turn]
        split
        · simp
        · split <;> simp
      simp only [settled, if_pos hst, if_neg hone, List.dropLast_concat]
      split <;> simp
    · rw [if_neg (not_restores hst b), if_neg hst]
      simp only [settled, if_neg hst, List.nil_append]
      split
      · rw [List.dropLast_concat, List.append_nil]
      · rfl

theorem stripJSONC_eq (text : List ℕ) : stripJSONC text = emit .normal text :=
  finish_stepUnits text .normal [] (by simp)

theorem set_last {result : List ℕ} (hne : result ≠ []) (rest : List ℕ) (x : ℕ) :
    (result ++ rest).set (result.length - 1) x = result.dropLast ++ [x] ++ rest := by
  rcases List.eq_nil_or_concat result with rfl | ⟨out, y, rfl⟩
  · exact absurd rfl hne
  · simp

theorem length_restored {st : State} {result : List ℕ} (hwaits : st = .slash → result ≠ [])
    (b : ℕ) : (if Restores st b then result.dropLast ++ [47] else result).length =
      result.length := by
  split
  · rename_i hr
    have hpos := List.length_pos_iff.mpr (hwaits hr.1)
    rw [List.length_append, List.length_dropLast, List.length_singleton]
    omega
  · rfl

theorem length_loop (s : List ℕ) (st : State) (result : List ℕ)
    (hwaits : st = .slash → result ≠ []) :
    (s.foldl (fun p char => stepUnits p.1 p.2 char) (st, result)).2.length =
      result.length + s.length := by
  induction s generalizing st result with
  | nil => rfl
  | cons b s ih =>
    rw [List.foldl_cons]
    dsimp only
    rw [stepUnits_eq, ih _ _ (by simp), List.length_append, length_restored hwaits,
      List.length_singleton, List.length_cons]
    omega

/-- The buffer of the runner is the dashboard's result and what is not yet written. -/
theorem stepBytes_stepUnits (s : List ℕ) (st : State) (result : List ℕ)
    (hwaits : st = .slash → result ≠ []) :
    (s.zipIdx result.length).foldl (fun p e => stepBytes p.1 p.2 e.2 e.1)
        (st, result ++ List.replicate s.length 0) =
      s.foldl (fun p char => stepUnits p.1 p.2 char) (st, result) := by
  induction s generalizing st result with
  | nil => simp
  | cons b s ih =>
    have hput : (if Restores st b then
          (result ++ List.replicate (s.length + 1) 0).set (result.length - 1) 47
        else result ++ List.replicate (s.length + 1) 0) =
        (if Restores st b then result.dropLast ++ [47] else result) ++
          List.replicate (s.length + 1) 0 := by
      split
      · rename_i hr
        exact set_last (hwaits hr.1) _ 47
      · rfl
    have hlength := length_restored hwaits b
    rw [List.zipIdx_cons, List.foldl_cons, List.foldl_cons, List.length_cons]
    dsimp only
    rw [stepBytes_eq, stepUnits_eq, hput]
    generalize (if Restores st b then result.dropLast ++ [47] else result) = out at hlength
    rw [← ih _ (out ++ [(turn st b).2]) (by simp), List.length_append, List.length_singleton,
      hlength, ← hlength, List.replicate_succ, List.set_append_right _ _ (Nat.le_refl _),
      Nat.sub_self, List.set_cons_zero, List.append_assoc, List.singleton_append]

/-- The two loops do the same. -/
theorem StripJSONC_eq (data : List ℕ) : StripJSONC data = stripJSONC data := by
  cases data with
  | nil => rfl
  | cons b s =>
    have hloops := stepBytes_stepUnits (b :: s) .normal [] (by simp)
    have hlength := length_loop (b :: s) .normal [] (by simp)
    rw [List.length_nil, List.nil_append] at hloops
    rw [StripJSONC, stripJSONC, hloops]
    generalize (b :: s).foldl (fun p char => stepUnits p.1 p.2 char) (.normal, []) = p at hlength
    rw [List.length_nil, Nat.zero_add] at hlength
    dsimp only
    by_cases hst : p.1 = .slash
    · have hne : p.2 ≠ [] := by
        intro hnil
        rw [hnil] at hlength
        cases hlength
      have hset := set_last hne [] 47
      rw [List.append_nil, List.append_nil] at hset
      rw [if_pos hst, if_pos hst, ← hlength, hset]
    · rw [if_neg hst, if_neg hst]

theorem length_emit (s : List ℕ) (st : State) :
    (emit st s).length = (if st = .slash then 1 else 0) + s.length := by
  induction s generalizing st with
  | nil => cases st <;> rfl
  | cons b s ih =>
    have hone : st = .slash → (turn st b).1 ≠ .slash := by
      rintro rfl
      rw [turn]
      split
      · simp
      · split <;> simp
    rw [emit_cons, List.length_append, List.length_append, ih, List.length_cons]
    by_cases hst : st = .slash
    · simp only [if_pos hst, if_neg (hone hst), List.length_singleton]
      omega
    · simp only [if_neg hst]
      split <;> simp <;> omega

/-! ### Twice -/

/-- What a state of the first run is in the second: comments are blanks there. -/
def again : State → State
  | .string => .string
  | .stringEscape => .stringEscape
  | _ => .normal

theorem emit_blankOf (b : ℕ) (s : List ℕ) :
    emit .normal (blankOf b :: s) = blankOf b :: emit .normal s := by
  rw [blankOf]
  split
  · rfl
  · split <;> rfl

theorem emit_space (s : List ℕ) : emit .normal (32 :: s) = 32 :: emit .normal s := rfl

theorem emit_lineFeed (s : List ℕ) : emit .normal (10 :: s) = 10 :: emit .normal s := rfl

theorem emit_emit (s : List ℕ) (st : State) : emit (again st) (emit st s) = emit st s := by
  induction s generalizing st with
  | nil => cases st <;> rfl
  | cons b s ih =>
    have hnormal := ih .normal
    have hstring := ih .string
    have hescape := ih .stringEscape
    have hslash := ih .slash
    have hline := ih .lineComment
    have hblock := ih .blockComment
    have hstar := ih .blockCommentStar
    simp only [again] at hnormal hstring hescape hslash hline hblock hstar
    cases st with
    | normal =>
      simp only [again, emit]
      split
      · rename_i h
        rw [emit, if_pos h, hstring]
      · split
        · exact hslash
        · rename_i hquote hs
          rw [emit, if_neg hquote, if_neg hs, hnormal]
    | string =>
      simp only [again, emit]
      split
      · rename_i h
        rw [emit, if_pos h, hescape]
      · split
        · rename_i hback h
          rw [emit, if_neg hback, if_pos h, hnormal]
        · rename_i hback h
          rw [emit, if_neg hback, if_neg h, hstring]
    | stringEscape =>
      simp only [again, emit]
      rw [hstring]
    | slash =>
      simp only [again, emit]
      split
      · rw [emit_space, emit_space, hline]
      · split
        · rw [emit_space, emit_space, hblock]
        · rename_i h47 h42
          have hsl : emit .normal (47 :: b :: emit .normal s) =
            emit .slash (b :: emit .normal s) := rfl
          rw [hsl, emit, if_neg h47, if_neg h42, hnormal]
    | lineComment =>
      simp only [again, emit]
      split
      · rw [emit_lineFeed, hnormal]
      · rw [emit_blankOf, hline]
    | blockComment =>
      simp only [again, emit]
      split
      · rw [emit_space, hstar]
      · rw [emit_blankOf, hblock]
    | blockCommentStar =>
      simp only [again, emit]
      split
      · rw [emit_space, hnormal]
      · split
        · rw [emit_space, hstar]
        · rw [emit_blankOf, hblock]

/-! ### Texts without comments -/

/-- The lexer and the automaton are both in a string or both outside. -/
def Sync : State → Mode → Prop
  | .string, m => ∃ w, m = .string w false
  | .stringEscape, m => ∃ w, m = .string w true
  | .normal, m => m.Outside
  | .slash, m => m.Outside
  | _, m => m = .idle

/-- A text that has tokens is left as it is. -/
theorem emit_of_lexFrom (s : List ℕ) {q : State} {m : Mode} (hsync : Sync q m)
    (hq : q = .normal ∨ q = .string ∨ q = .stringEscape) (h : lexFrom m s ≠ none) :
    emit q s = s := by
  induction s generalizing q m with
  | nil => rcases hq with rfl | rfl | rfl <;> rfl
  | cons b s ih =>
    obtain ⟨m', ts, hnext⟩ : ∃ m' ts, next m b = some (m', ts) := by
      cases hnext : next m b with
      | none => exact absurd (lexFrom_none hnext s) h
      | some p => exact ⟨p.1, p.2, rfl⟩
    have hrest : lexFrom m' s ≠ none := by
      intro hnone
      rw [lexFrom_some hnext, hnone] at h
      exact h rfl
    rcases hq with rfl | rfl | rfl
    · have hm : m.Outside := hsync
      rw [emit]
      split
      · rename_i hquote
        rw [hquote, next_quote hm] at hnext
        cases hnext
        rw [ih (q := .string) ⟨[], rfl⟩ (by simp) hrest]
      · rename_i hquote
        have hslash : b ≠ 47 := by
          rintro rfl
          rw [next_foreign hm (Or.inl rfl)] at hnext
          cases hnext
        rw [if_neg hslash, ih (q := .normal) (outside_of_next hm hquote hnext) (by simp) hrest]
    · obtain ⟨w, rfl⟩ := hsync
      rw [next] at hnext
      simp only [Bool.false_eq_true, if_false] at hnext
      rw [emit]
      split
      · rename_i hback
        rw [if_pos hback] at hnext
        cases hnext
        rw [ih (q := .stringEscape) ⟨_, rfl⟩ (by simp) hrest]
      · rename_i hback
        rw [if_neg hback] at hnext
        split
        · rename_i hquote
          rw [if_pos hquote] at hnext
          cases hnext
          rw [ih (q := .normal) (m := .idle) trivial (by simp) hrest]
        · rename_i hquote
          rw [if_neg hquote] at hnext
          cases hnext
          rw [ih (q := .string) ⟨_, rfl⟩ (by simp) hrest]
    · obtain ⟨w, rfl⟩ := hsync
      cases hnext
      rw [emit, ih (q := .string) ⟨_, rfl⟩ (by simp) hrest]

/-! ### Encodings -/

variable {e : ℕ → List ℕ}

theorem isBlank_blankOf (b : ℕ) : isBlank (blankOf b) := by
  rw [blankOf]
  split
  · rfl
  · split <;> rfl

/-- From one mode two texts have the same tokens, up to the encoding. -/
def Agrees (e : ℕ → List ℕ) (m : Mode) (u v : List ℕ) : Prop :=
  lexFrom (m.encode e) u = (lexFrom m v).map (List.map (Token.encode e))

theorem Agrees.nil (m : Mode) : Agrees e m [] [] := by
  cases m <;> rfl

theorem Agrees.ascii (he : KeepsAscii e) {m : Mode} {c : ℕ} (hc : c < 128) {u v : List ℕ}
    (h : ∀ m' ts, next m c = some (m', ts) → Agrees e m' u v) : Agrees e m (c :: u) (c :: v) := by
  have hencode := next_encode he m hc
  rw [Agrees]
  cases hnext : next m c with
  | none =>
    rw [hnext] at hencode
    rw [lexFrom_none hencode, lexFrom_none hnext]
    rfl
  | some p =>
    rw [hnext] at hencode
    rw [lexFrom_some hencode, lexFrom_some hnext, h p.1 p.2 hnext, Option.map_map, Option.map_map]
    congr 1
    funext ts
    simp

theorem Agrees.foreign {m : Mode} (hm : m.Outside) {c d : ℕ} (hc : c = 47 ∨ 128 ≤ c)
    (hd : d = 47 ∨ 128 ≤ d) (u v : List ℕ) : Agrees e m (c :: u) (d :: v) := by
  rw [Agrees, lexFrom_none (next_foreign (outside_encode hm) hc),
    lexFrom_none (next_foreign hm hd)]
  rfl

/-- However many blanks there are on either side. -/
theorem Agrees.blanks {m : Mode} (hm : m.Outside) {x y : List ℕ} (hx : x ≠ []) (hy : y ≠ [])
    (hxs : ∀ b ∈ x, isBlank b) (hys : ∀ b ∈ y, isBlank b) {u v : List ℕ}
    (h : Agrees e .idle u v) : Agrees e m (x ++ u) (y ++ v) := by
  have hidle : lexFrom .idle u = (lexFrom .idle v).map (List.map (Token.encode e)) := h
  rw [Agrees, lexFrom_blanks (outside_encode hm) hx hxs, lexFrom_blanks hm hy hys, hidle,
    done_encode, Option.map_map, Option.map_map]
  congr 1
  funext ts
  simp

theorem Agrees.blank {m : Mode} (hm : m.Outside) {b : ℕ} (hb : isBlank b) {u v : List ℕ}
    (h : Agrees e .idle u v) : Agrees e m (b :: u) (b :: v) :=
  .blanks (x := [b]) (y := [b]) hm (by simp) (by simp) (by simpa using hb) (by simpa using hb) h

theorem emit_normal_units {x : List ℕ} (hx : ∀ u ∈ x, 128 ≤ u) (s : List ℕ) :
    emit .normal (x ++ s) = x ++ emit .normal s := by
  induction x with
  | nil => rfl
  | cons u x ih =>
    obtain ⟨hu, hx⟩ := List.forall_mem_cons.mp hx
    rw [List.cons_append, emit, if_neg (by omega), if_neg (by omega), ih hx, List.cons_append]

theorem emit_string_units {x : List ℕ} (hx : ∀ u ∈ x, 128 ≤ u) (s : List ℕ) :
    emit .string (x ++ s) = x ++ emit .string s := by
  induction x with
  | nil => rfl
  | cons u x ih =>
    obtain ⟨hu, hx⟩ := List.forall_mem_cons.mp hx
    rw [List.cons_append, emit, if_neg (by omega), if_neg (by omega), ih hx, List.cons_append]

theorem emit_line_units {x : List ℕ} (hx : ∀ u ∈ x, 128 ≤ u) (s : List ℕ) :
    emit .lineComment (x ++ s) = x.map blankOf ++ emit .lineComment s := by
  induction x with
  | nil => rfl
  | cons u x ih =>
    obtain ⟨hu, hx⟩ := List.forall_mem_cons.mp hx
    rw [List.cons_append, emit, if_neg (by omega), ih hx, List.map_cons, List.cons_append]

theorem emit_block_units {x : List ℕ} (hx : ∀ u ∈ x, 128 ≤ u) (s : List ℕ) :
    emit .blockComment (x ++ s) = x.map blankOf ++ emit .blockComment s := by
  induction x with
  | nil => rfl
  | cons u x ih =>
    obtain ⟨hu, hx⟩ := List.forall_mem_cons.mp hx
    rw [List.cons_append, emit, if_neg (by omega), ih hx, List.map_cons, List.cons_append]

theorem emit_star_units {x : List ℕ} (hne : x ≠ []) (hx : ∀ u ∈ x, 128 ≤ u) (s : List ℕ) :
    emit .blockCommentStar (x ++ s) = x.map blankOf ++ emit .blockComment s := by
  cases x with
  | nil => exact absurd rfl hne
  | cons u x =>
    obtain ⟨hu, hx⟩ := List.forall_mem_cons.mp hx
    rw [List.cons_append, emit, if_neg (by omega), if_neg (by omega), emit_block_units hx,
      List.map_cons, List.cons_append]

theorem isBlank_map_blankOf (x : List ℕ) : ∀ b ∈ x.map blankOf, isBlank b := by
  intro b hb
  obtain ⟨u, -, rfl⟩ := List.mem_map.mp hb
  exact isBlank_blankOf u

/-- The removal of comments from an encoded text leaves the encoded tokens. -/
theorem agrees_emit (he : KeepsAscii e) (s : List ℕ) {q : State} {m : Mode} (hsync : Sync q m) :
    Agrees e m (emit q (s.flatMap e)) (emit q s) := by
  induction s generalizing q m with
  | nil =>
    rw [List.flatMap_nil]
    cases q with
    | slash => exact .foreign hsync (Or.inl rfl) (Or.inl rfl) _ _
    | _ => exact .nil m
  | cons c s ih =>
    rw [List.flatMap_cons]
    by_cases hc : c < 128
    · rw [he.ascii c hc, List.singleton_append]
      cases q with
      | normal =>
        simp only [emit]
        split
        · refine .ascii he hc fun m' ts hnext => ih ?_
          subst c
          rw [next_quote hsync] at hnext
          cases hnext
          exact ⟨[], rfl⟩
        · split
          · exact ih (q := .slash) hsync
          · rename_i hquote _
            exact .ascii he hc fun m' ts hnext =>
              ih (q := .normal) (outside_of_next hsync hquote hnext)
      | string =>
        obtain ⟨w, rfl⟩ := hsync
        simp only [emit]
        split
        · refine .ascii he hc fun m' ts hnext => ih ?_
          subst c
          cases hnext
          exact ⟨_, rfl⟩
        · split
          · refine .ascii he hc fun m' ts hnext => ih ?_
            subst c
            cases hnext
            trivial
          · rename_i hback hquote
            refine .ascii he hc fun m' ts hnext => ih ?_
            rw [next, if_neg (by decide), if_neg hback, if_neg hquote] at hnext
            cases hnext
            exact ⟨_, rfl⟩
      | stringEscape =>
        obtain ⟨w, rfl⟩ := hsync
        simp only [emit]
        refine .ascii he hc fun m' ts hnext => ih ?_
        cases hnext
        exact ⟨_, rfl⟩
      | slash =>
        simp only [emit]
        split
        · exact .blank hsync rfl (.blank outside_idle rfl (ih (q := .lineComment) rfl))
        · split
          · exact .blank hsync rfl (.blank outside_idle rfl (ih (q := .blockComment) rfl))
          · exact .foreign hsync (Or.inl rfl) (Or.inl rfl) _ _
      | lineComment =>
        obtain rfl : m = .idle := hsync
        simp only [emit]
        split
        · exact .blank outside_idle rfl (ih (q := .normal) trivial)
        · exact .blank outside_idle (isBlank_blankOf c) (ih (q := .lineComment) rfl)
      | blockComment =>
        obtain rfl : m = .idle := hsync
        simp only [emit]
        split
        · exact .blank outside_idle rfl (ih (q := .blockCommentStar) rfl)
        · exact .blank outside_idle (isBlank_blankOf c) (ih (q := .blockComment) rfl)
      | blockCommentStar =>
        obtain rfl : m = .idle := hsync
        simp only [emit]
        split
        · exact .blank outside_idle rfl (ih (q := .normal) trivial)
        · split
          · exact .blank outside_idle rfl (ih (q := .blockCommentStar) rfl)
          · exact .blank outside_idle (isBlank_blankOf c) (ih (q := .blockComment) rfl)
    · -- a code point beyond ASCII is no mark, and so is none of its units
      have hlarge : 128 ≤ c := by omega
      have hunits := he.beyond c hlarge
      have hone : ∀ u ∈ [c], 128 ≤ u := by simpa using hlarge
      obtain ⟨u, x, hx⟩ := List.exists_cons_of_ne_nil (he.ne_nil c)
      have hu : 128 ≤ u := hunits u (hx ▸ List.mem_cons_self)
      have hblanked {y : List ℕ} (hy : y ≠ []) : y.map blankOf ≠ [] := by simpa using hy
      cases q with
      | normal =>
        rw [emit_normal_units hunits, emit, if_neg (by omega), if_neg (by omega), hx]
        exact .foreign hsync (Or.inr hu) (Or.inr hlarge) _ _
      | slash =>
        rw [hx, List.cons_append, emit, if_neg (by omega), if_neg (by omega), emit,
          if_neg (by omega), if_neg (by omega)]
        exact .foreign hsync (Or.inl rfl) (Or.inl rfl) _ _
      | string =>
        obtain ⟨w, rfl⟩ := hsync
        have hrest := ih (q := .string) (m := .string (w ++ [c]) false) ⟨_, rfl⟩
        rw [Agrees, Mode.encode, List.flatMap_append, List.flatMap_singleton] at hrest
        rw [emit_string_units hunits, Agrees, Mode.encode, lexFrom_string hunits, hrest,
          ← lexFrom_string hone]
        exact congrArg _ (congrArg _ (emit_string_units hone s).symm)
      | stringEscape =>
        obtain ⟨w, rfl⟩ := hsync
        have hrest := ih (q := .string) (m := .string (w ++ [c]) false) ⟨_, rfl⟩
        rw [Agrees, Mode.encode, List.flatMap_append, List.flatMap_singleton] at hrest
        have hemit : emit .stringEscape (e c ++ s.flatMap e) =
            e c ++ emit .string (s.flatMap e) := by
          rw [hx] at hunits ⊢
          rw [List.cons_append, emit, emit_string_units (List.forall_mem_cons.mp hunits).2,
            List.cons_append]
        rw [hemit, Agrees, Mode.encode, lexFrom_escaped (he.ne_nil c) hunits, hrest,
          ← lexFrom_escaped (by simp) hone]
        rfl
      | lineComment =>
        obtain rfl : m = .idle := hsync
        have hsimple := emit_line_units hone s
        rw [List.singleton_append] at hsimple
        rw [emit_line_units hunits, hsimple]
        exact .blanks outside_idle (hblanked (he.ne_nil c)) (by simp) (isBlank_map_blankOf _)
          (isBlank_map_blankOf _) (ih (q := .lineComment) rfl)
      | blockComment =>
        obtain rfl : m = .idle := hsync
        have hsimple := emit_block_units hone s
        rw [List.singleton_append] at hsimple
        rw [emit_block_units hunits, hsimple]
        exact .blanks outside_idle (hblanked (he.ne_nil c)) (by simp) (isBlank_map_blankOf _)
          (isBlank_map_blankOf _) (ih (q := .blockComment) rfl)
      | blockCommentStar =>
        obtain rfl : m = .idle := hsync
        have hsimple := emit_star_units (by simp) hone s
        rw [List.singleton_append] at hsimple
        rw [emit_star_units (he.ne_nil c) hunits, hsimple]
        exact .blanks outside_idle (hblanked (he.ne_nil c)) (by simp) (isBlank_map_blankOf _)
          (isBlank_map_blankOf _) (ih (q := .blockComment) rfl)

/-! ### Texts with comments -/

inductive Piece where
  | blank (c : ℕ)
  | token (t : Token)
  | line (body : List ℕ)
  | block (body : List ℕ)

def Piece.text : Piece → List ℕ
  | .blank c => [c]
  | .token t => t.text
  | .line body => 47 :: 47 :: (body ++ [10])
  | .block body => 47 :: 42 :: (body ++ [42, 47])

def Piece.isComment : Piece → Bool
  | .line _ | .block _ => true
  | _ => false

def Piece.isWord : Piece → Bool
  | .token (.word _) => true
  | _ => false

/-- A line comment ends at the first line feed, a block comment at the first star and slash. -/
def Piece.Proper : Piece → Prop
  | .blank c => isBlank c
  | .token t => t.Proper
  | .line body => 10 ∉ body
  | .block body => ¬ [42, 47] <:+: body ++ [42]

/-- The text with blanks and line ends for a comment. -/
def Piece.shown (p : Piece) : List ℕ := if p.isComment then p.text.map blankOf else p.text

def plainOf (ps : List Piece) : List Piece := ps.filter fun p => !p.isComment

def Apart (p q : Piece) : Prop := ¬ (p.isWord ∧ q.isWord)

/-- The tokens and blanks of a JSON text with comments between them; the last may be a line comment
that the text ends. -/
structure Document where
  pieces : List Piece
  last : Option (List ℕ)
  proper : ∀ p ∈ pieces, p.Proper
  last_line : ∀ body ∈ last, 10 ∉ body
  apart : (plainOf pieces).IsChain Apart

def lastText : Option (List ℕ) → List ℕ
  | none => []
  | some body => 47 :: 47 :: body

def Document.text (d : Document) : List ℕ := d.pieces.flatMap Piece.text ++ lastText d.last

def Document.blanked (d : Document) : List ℕ :=
  d.pieces.flatMap Piece.shown ++ (lastText d.last).map blankOf

def Document.withoutComments (d : Document) : List ℕ := (plainOf d.pieces).flatMap Piece.text

theorem emit_normal_plain {x : List ℕ} (hx : ∀ u ∈ x, u ≠ 34 ∧ u ≠ 47) (s : List ℕ) :
    emit .normal (x ++ s) = x ++ emit .normal s := by
  induction x with
  | nil => rfl
  | cons u x ih =>
    obtain ⟨hu, hx⟩ := List.forall_mem_cons.mp hx
    rw [List.cons_append, emit, if_neg hu.1, if_neg hu.2, ih hx, List.cons_append]

theorem emit_closed {raw : List ℕ} {x : Bool} (h : closed x raw) (s : List ℕ) :
    emit (if x then .stringEscape else .string) (raw ++ 34 :: s) =
      raw ++ 34 :: emit .normal s := by
  induction raw generalizing x with
  | nil =>
    cases x with
    | true => cases h
    | false => rfl
  | cons c raw ih =>
    cases x with
    | true =>
      have hrest := ih (x := false) h
      rw [if_pos rfl, List.cons_append, emit]
      exact congrArg _ hrest
    | false =>
      rw [closed] at h
      rw [if_neg (by decide), List.cons_append, emit]
      split
      · rename_i hback
        rw [if_pos hback] at h
        exact congrArg _ (ih (x := true) h)
      · rename_i hback
        rw [if_neg hback, Bool.and_eq_true, decide_eq_true_eq] at h
        rw [if_neg h.1]
        exact congrArg _ (ih (x := false) h.2)

theorem emit_line {body : List ℕ} (h : 10 ∉ body) (s : List ℕ) :
    emit .lineComment (body ++ s) = body.map blankOf ++ emit .lineComment s := by
  induction body with
  | nil => rfl
  | cons c body ih =>
    rw [List.mem_cons, not_or] at h
    rw [List.cons_append, emit, if_neg (Ne.symm h.1), ih h.2, List.map_cons, List.cons_append]

/-- Behind a star, and elsewhere, a block comment goes on up to the first star and slash. -/
theorem emit_block {body : List ℕ} (s : List ℕ) :
    (¬ [42, 47] <:+: body ++ [42] → emit .blockComment (body ++ 42 :: 47 :: s) =
        body.map blankOf ++ 32 :: 32 :: emit .normal s) ∧
      (¬ [42, 47] <:+: 42 :: body ++ [42] → emit .blockCommentStar (body ++ 42 :: 47 :: s) =
        body.map blankOf ++ 32 :: 32 :: emit .normal s) := by
  induction body with
  | nil => exact ⟨fun _ => rfl, fun _ => rfl⟩
  | cons c body ih =>
    have hplain (h : ¬ [42, 47] <:+: c :: body ++ [42]) : ¬ [42, 47] <:+: body ++ [42] :=
      fun hin => h (hin.trans (List.suffix_cons c _).isInfix)
    have hstar : c = 42 → blankOf c = 32 := by
      rintro rfl
      rfl
    constructor
    · intro h
      rw [List.cons_append, emit]
      split
      · rename_i hc
        subst hc
        rw [ih.2 h, List.map_cons, List.cons_append]
        rfl
      · rw [ih.1 (hplain h), List.map_cons, List.cons_append]
    · intro h
      have htail : ¬ [42, 47] <:+: c :: body ++ [42] :=
        fun hin => h (hin.trans (List.suffix_cons 42 _).isInfix)
      have hslash : c ≠ 47 := by
        rintro rfl
        exact h (List.IsPrefix.isInfix ⟨body ++ [42], rfl⟩)
      rw [List.cons_append, emit, if_neg hslash]
      split
      · rename_i hc
        subst hc
        rw [ih.2 htail, List.map_cons, List.cons_append]
        rfl
      · rw [ih.1 (hplain htail), List.map_cons, List.cons_append]

theorem emit_piece {p : Piece} (h : p.Proper) (s : List ℕ) :
    emit .normal (p.text ++ s) = p.shown ++ emit .normal s := by
  cases p with
  | blank c =>
    refine emit_normal_plain (fun u hu => ?_) s
    rw [List.mem_singleton.mp hu]
    have hc : isBlank c := h
    constructor <;> rintro rfl <;> cases hc
  | token t =>
    cases t with
    | punctuator c =>
      refine emit_normal_plain (fun u hu => ?_) s
      rw [List.mem_singleton.mp hu]
      have hc : isPunctuator c := h
      constructor <;> rintro rfl <;> cases hc
    | string raw =>
      have hclosed := emit_closed (x := false) h s
      have htext : (Piece.token (.string raw)).text ++ s = 34 :: (raw ++ 34 :: s) := by
        simp [Piece.text, Token.text]
      rw [htext, emit, if_pos rfl]
      rw [if_neg (by decide)] at hclosed
      rw [hclosed]
      simp [Piece.shown, Piece.isComment, Piece.text, Token.text]
    | word raw =>
      refine emit_normal_plain (fun u hu => ?_) s
      have hu : isWordUnit u := h.2 u hu
      constructor <;> rintro rfl <;> cases hu
  | line body =>
    have htext : (Piece.line body).text ++ s = 47 :: 47 :: (body ++ 10 :: s) := by
      simp [Piece.text]
    have hemit : emit .normal (47 :: 47 :: (body ++ 10 :: s)) =
      32 :: 32 :: emit .lineComment (body ++ 10 :: s) := rfl
    rw [htext, hemit, emit_line h]
    simp [Piece.shown, Piece.isComment, Piece.text, blankOf, emit]
  | block body =>
    have htext : (Piece.block body).text ++ s = 47 :: 42 :: (body ++ 42 :: 47 :: s) := by
      simp [Piece.text]
    have hemit : emit .normal (47 :: 42 :: (body ++ 42 :: 47 :: s)) =
      32 :: 32 :: emit .blockComment (body ++ 42 :: 47 :: s) := rfl
    rw [htext, hemit, (emit_block s).1 h]
    simp [Piece.shown, Piece.isComment, Piece.text, blankOf]

theorem emit_pieces {ps : List Piece} (h : ∀ p ∈ ps, p.Proper) (s : List ℕ) :
    emit .normal (ps.flatMap Piece.text ++ s) = ps.flatMap Piece.shown ++ emit .normal s := by
  induction ps with
  | nil => rfl
  | cons p ps ih =>
    obtain ⟨hp, hps⟩ := List.forall_mem_cons.mp h
    rw [List.flatMap_cons, List.flatMap_cons, List.append_assoc, List.append_assoc,
      emit_piece hp, ih hps]

theorem emit_document (d : Document) : emit .normal d.text = d.blanked := by
  rw [Document.text, Document.blanked, emit_pieces d.proper]
  congr 1
  cases hlast : d.last with
  | none => rfl
  | some body =>
    have hemit : emit .normal (47 :: 47 :: body) = 32 :: 32 :: emit .lineComment body := rfl
    have hbody := emit_line (d.last_line body hlast) []
    rw [List.append_nil] at hbody
    rw [lastText, hemit, hbody]
    simp [blankOf, emit]

/-- Outside of strings a word is ended by whatever comes but a word. -/
theorem lexFrom_outside {ps : List Piece} (hproper : ∀ p ∈ ps, p.Proper)
    (hplain : ∀ p ∈ ps, !p.isComment) (hfirst : ∀ p ∈ ps.head?, !p.isWord) {m : Mode}
    (hm : m.Outside) : lexFrom m (ps.flatMap Piece.text) =
      (lexFrom .idle (ps.flatMap Piece.text)).map (m.done ++ ·) := by
  cases ps with
  | nil =>
    rw [List.flatMap_nil, lexFrom_done hm, lexFrom_done outside_idle]
    simp [Mode.done]
  | cons p ps =>
    have hp := hproper p List.mem_cons_self
    have hcomment := hplain p List.mem_cons_self
    rw [List.flatMap_cons]
    cases p with
    | blank c =>
      rw [Piece.text, List.singleton_append, lexFrom_some (next_blank hm hp),
        lexFrom_some (next_blank outside_idle hp)]
      exact congrArg _ (map_nil_append _).symm
    | token t =>
      have hword : ∀ raw, t ≠ .word raw := by
        rintro raw rfl
        cases hfirst (.token (.word raw)) rfl
      rw [Piece.text, lexFrom_token hp hword hm, lexFrom_token hp hword outside_idle,
        map_map_append]
      rfl
    | line body => cases hcomment
    | block body => cases hcomment

theorem lexFrom_shown {ps : List Piece} (hproper : ∀ p ∈ ps, p.Proper)
    (hapart : (plainOf ps).IsChain Apart) {m : Mode} (hm : m.Outside)
    (hfirst : m ≠ .idle → ∀ p ∈ (plainOf ps).head?, !p.isWord) {tail : List ℕ}
    (htail : ∀ b ∈ tail, isBlank b) :
    lexFrom m (ps.flatMap Piece.shown ++ tail) =
      lexFrom m ((plainOf ps).flatMap Piece.text) := by
  induction ps generalizing m with
  | nil =>
    rw [List.flatMap_nil, List.nil_append]
    by_cases hnil : tail = []
    · rw [hnil]
      rfl
    · have hblanks := lexFrom_blanks hm hnil htail []
      rw [List.append_nil] at hblanks
      rw [hblanks, lexFrom_done outside_idle]
      rw [plainOf, List.filter_nil, List.flatMap_nil, lexFrom_done hm]
      simp [Mode.done]
  | cons p ps ih =>
    obtain ⟨hp, hps⟩ := List.forall_mem_cons.mp hproper
    rw [List.flatMap_cons, List.append_assoc]
    by_cases hcomment : p.isComment
    · have hplain : plainOf (p :: ps) = plainOf ps := by
        rw [plainOf, List.filter_cons_of_neg (by simp [hcomment])]
        rfl
      have hne : p.shown ≠ [] := by
        cases p <;> simp [Piece.shown, Piece.isComment, Piece.text] at hcomment ⊢
      have hblank : ∀ b ∈ p.shown, isBlank b := by
        rw [Piece.shown, if_pos hcomment]
        exact isBlank_map_blankOf p.text
      rw [hplain] at hapart hfirst ⊢
      rw [lexFrom_blanks hm hne hblank, ih hps hapart outside_idle (fun h => absurd rfl h)]
      by_cases hidle : m = .idle
      · rw [hidle]
        exact map_nil_append _
      · refine (lexFrom_outside (fun q hq => hps q (List.mem_of_mem_filter hq)) ?_
          (hfirst hidle) hm).symm
        exact fun q hq => (List.mem_filter.mp hq).2
    · have hplain : plainOf (p :: ps) = p :: plainOf ps := by
        rw [plainOf, List.filter_cons_of_pos (by simp [hcomment])]
        rfl
      have hshown : p.shown = p.text := by
        rw [Piece.shown, if_neg hcomment]
      rw [hplain] at hapart hfirst ⊢
      rw [hshown, List.flatMap_cons]
      have hrest : lexFrom .idle (ps.flatMap Piece.shown ++ tail) =
          lexFrom .idle ((plainOf ps).flatMap Piece.text) :=
        ih hps hapart.of_cons outside_idle fun h => absurd rfl h
      cases p with
      | blank c =>
        rw [Piece.text, List.singleton_append, List.singleton_append,
          lexFrom_some (next_blank hm hp), lexFrom_some (next_blank hm hp), hrest]
      | token t =>
        by_cases hword : ∃ raw, t = .word raw
        · obtain ⟨raw, rfl⟩ := hword
          have hidle : m = .idle := by
            by_contra h
            cases hfirst h (.token (.word raw)) rfl
          rw [hidle, Piece.text, Token.text, lexFrom_idle_word hp, lexFrom_idle_word hp]
          refine ih hps hapart.of_cons trivial fun _ q hq => ?_
          rw [Bool.not_eq_true']
          by_contra hq'
          rw [Bool.not_eq_false] at hq'
          cases hlist : plainOf ps with
          | nil =>
            rw [hlist] at hq
            cases hq
          | cons q' rest =>
            rw [hlist] at hq hapart
            cases hq
            exact (List.isChain_cons_cons.mp hapart).1 ⟨rfl, hq'⟩
        · have hnot : ∀ raw, t ≠ .word raw := fun raw h => hword ⟨raw, h⟩
          rw [Piece.text, lexFrom_token hp hnot hm, lexFrom_token hp hnot hm, hrest]
      | line body => exact absurd rfl hcomment
      | block body => exact absurd rfl hcomment

/-! ### The laws -/

/-- What the removal of comments is to do with a text in code units. -/
structure Laws (strip : List ℕ → List ℕ) : Prop where
  length : ∀ s, (strip s).length = s.length
  /-- The input outside of comments, and blanks and line ends in them. -/
  exact : ∀ d : Document, strip d.text = d.blanked
  /-- The tokens, and so the value, of the input without its comments. -/
  tokens : ∀ d : Document, lex (strip d.text) = lex d.withoutComments
  unchanged : ∀ s, lex s ≠ none → strip s = s
  idempotent : ∀ s, strip (strip s) = strip s

theorem laws_stripJSONC : Laws stripJSONC where
  length s := by
    rw [stripJSONC_eq, length_emit]
    simp
  exact d := by rw [stripJSONC_eq, emit_document]
  tokens d := by
    rw [stripJSONC_eq, emit_document]
    refine lexFrom_shown d.proper d.apart outside_idle (fun h => absurd rfl h) ?_
    exact isBlank_map_blankOf _
  unchanged s h := by
    rw [stripJSONC_eq]
    exact emit_of_lexFrom s (m := .idle) outside_idle (Or.inl rfl) h
  idempotent s := by
    rw [stripJSONC_eq, stripJSONC_eq]
    exact emit_emit s .normal

/-- The bytes of a code point. -/
def utf8 (c : ℕ) : List ℕ :=
  if c < 0x80 then [c]
  else if c < 0x800 then [0xC0 + c / 64, 0x80 + c % 64]
  else if c < 0x10000 then [0xE0 + c / 4096, 0x80 + c / 64 % 64, 0x80 + c % 64]
  else [0xF0 + c / 262144, 0x80 + c / 4096 % 64, 0x80 + c / 64 % 64, 0x80 + c % 64]

/-- The UTF-16 units of a code point. -/
def utf16 (c : ℕ) : List ℕ :=
  if c < 0x10000 then [c]
  else [0xD800 + (c - 0x10000) / 0x400, 0xDC00 + (c - 0x10000) % 0x400]

theorem keepsAscii_utf8 : KeepsAscii utf8 where
  ascii c hc := by rw [utf8, if_pos hc]
  ne_nil c := by
    rw [utf8]
    repeat' split
    all_goals simp
  beyond c hc x hx := by
    rw [utf8, if_neg (by omega)] at hx
    split at hx
    · simp only [List.mem_cons, List.not_mem_nil, or_false] at hx
      omega
    · split at hx <;>
      · simp only [List.mem_cons, List.not_mem_nil, or_false] at hx
        omega

theorem keepsAscii_utf16 : KeepsAscii utf16 where
  ascii c hc := by rw [utf16, if_pos (by omega)]
  ne_nil c := by
    rw [utf16]
    split <;> simp
  beyond c hc x hx := by
    rw [utf16] at hx
    split at hx <;>
    · simp only [List.mem_cons, List.not_mem_nil, or_false] at hx
      omega

/-- Both removals of comments keep the laws, and of one text they leave the same tokens, the one in
UTF-8 and the other in UTF-16. -/
theorem strips_exactly : Laws StripJSONC ∧ Laws stripJSONC ∧ ∀ text : List ℕ,
    ∃ tokens : Option (List Token),
      lex (StripJSONC (text.flatMap utf8)) = tokens.map (List.map (Token.encode utf8)) ∧
      lex (stripJSONC (text.flatMap utf16)) = tokens.map (List.map (Token.encode utf16)) := by
  have hsame : StripJSONC = stripJSONC := funext StripJSONC_eq
  refine ⟨hsame ▸ laws_stripJSONC, laws_stripJSONC, fun text => ?_⟩
  refine ⟨lex (emit .normal text), ?_, ?_⟩
  · rw [StripJSONC_eq, stripJSONC_eq]
    exact agrees_emit (m := .idle) keepsAscii_utf8 text outside_idle
  · rw [stripJSONC_eq]
    exact agrees_emit (m := .idle) keepsAscii_utf16 text outside_idle

end Swazz.JsonComments
