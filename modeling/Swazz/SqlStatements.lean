import Swazz.SplitSql

/-! The tokens of the strings that a script is split into, and those of its statements. -/
namespace Swazz.Sql

open Lexing
open RunnerAccess (JsString)
open License (trim jsSpace)

/-- Two tokens do not run together. -/
def StayApart (x y : Lexeme) : Prop :=
  x.state.isToken = true → y.state.isToken = true → sqlite.Apart x y

/-- No token at the ends has white space there, which SQLite takes for a part of a word when it is
not ASCII. -/
structure EndsSolid (ts : List JsString) : Prop where
  first : ∀ t ∈ ts.head?, ∀ c ∈ t.head?, jsSpace c = false
  last : ∀ t ∈ ts.getLast?, ∀ c ∈ t.getLast?, jsSpace c = false

/-- Nothing in a statement hangs on what is taken out of it: two tokens that only comments keep
apart do not run together. -/
structure Unaffected (S : List Lexeme) : Prop where
  separated : (S.filter fun x => !x.state.isComment).IsChain StayApart
  ends : EndsSolid (tokensOf S)

/-- The number of units that are no white space. -/
def solid (s : JsString) : ℕ := s.countP fun c => !isSpace c

section

variable {q q' : Reading} {c quote : ℕ} {x : Lexeme} {xs : List Lexeme} {l s : JsString}
  {ts : List JsString}

/-! ### White space -/

def spaces : List ℕ := [9, 10, 11, 12, 13, 32]

theorem mem_spaces (h : isSpace c = true) : c ∈ spaces := by
  simp only [isSpace, Bool.or_eq_true, Bool.and_eq_true, decide_eq_true_eq] at h
  simp only [spaces, List.mem_cons, List.not_mem_nil]
  omega

theorem jsSpace_of_isSpace (h : isSpace c = true) : jsSpace c = true := by
  have hall : ∀ c ∈ spaces, jsSpace c = true := by decide
  exact hall c (mem_spaces h)

theorem next_eq_space (h : nextReading q c = some .space) : q = .space ∧ isSpace c = true := by
  cases q with
  | space =>
    rw [nextReading] at h
    exact ⟨rfl, (Option.ite_none_right_eq_some.mp h).1⟩
  | _ =>
    exfalso
    simp only [nextReading, afterDigits] at h
    first
    | cases h
    | (split_ifs at h <;> cases h)

theorem run_eq_space (h : sqlite.run q l = some .space) :
    q = .space ∧ ∀ c ∈ l, isSpace c = true := by
  induction l generalizing q with
  | nil =>
    cases h
    exact ⟨rfl, fun c hc => absurd hc List.not_mem_nil⟩
  | cons c l ih =>
    obtain ⟨q₁, hnext, hrun⟩ := Option.bind_eq_some_iff.mp h
    obtain ⟨rfl, hall⟩ := ih hrun
    obtain ⟨rfl, hc⟩ := next_eq_space hnext
    exact ⟨rfl, List.forall_mem_cons.mpr ⟨hc, hall⟩⟩

theorem space_of_run (h : sqlite.run .space l = some q') : q' = .space := by
  induction l with
  | nil =>
    cases h
    rfl
  | cons c l ih =>
    obtain ⟨q₁, hnext, hrun⟩ := Option.bind_eq_some_iff.mp h
    have hnext' : nextReading .space c = some q₁ := hnext
    rw [nextReading] at hnext'
    obtain ⟨-, hnext'⟩ := Option.ite_none_right_eq_some.mp hnext'
    cases hnext'
    exact ih hrun

theorem firstReading_space (h : firstReading c = some q) : q = .space ↔ isSpace c = true := by
  unfold firstReading at h
  split_ifs at h with hspace
  · cases h
    exact ⟨fun _ => hspace, fun _ => rfl⟩
  · cases h
    exact ⟨fun hq => (by cases hq), fun hc => absurd hc hspace⟩
  · cases h
    exact ⟨fun hq => (by cases hq), fun hc => absurd hc hspace⟩
  · cases h
    exact ⟨fun hq => (by cases hq), fun hc => absurd hc hspace⟩
  · cases h
    exact ⟨fun hq => (by cases hq), fun hc => absurd hc hspace⟩
  · have hall : ∀ m ∈ marks, m.2 ≠ .space := by decide
    obtain ⟨l₁, l₂, heq, -⟩ := List.lookup_eq_some_iff.mp h
    have hne := hall (c, q) (heq ▸ List.mem_append_right l₁ List.mem_cons_self)
    exact ⟨fun hq => absurd hq hne, fun hc => absurd hc hspace⟩

/-- White space is what begins with it. -/
theorem state_eq_space_iff (hx : sqlite.IsLexeme x) (hc : x.text.head? = some c) :
    x.state = .space ↔ isSpace c = true := by
  obtain ⟨q', text⟩ := x
  obtain ⟨hafter, -⟩ := hx
  cases text with
  | nil => cases hc
  | cons d l =>
    obtain rfl := Option.some.inj hc
    obtain ⟨q, hfirst, hrun⟩ := Option.bind_eq_some_iff.mp hafter
    dsimp only at hrun ⊢
    constructor
    · rintro rfl
      exact (firstReading_space hfirst).mp (run_eq_space hrun).1
    · intro hd
      obtain rfl := (firstReading_space hfirst).mpr hd
      exact space_of_run hrun

theorem isSpace_of_state (hx : sqlite.IsLexeme x) (hq : x.state = .space) :
    ∀ c ∈ x.text, isSpace c = true := by
  obtain ⟨q', text⟩ := x
  obtain ⟨hafter, -⟩ := hx
  cases text with
  | nil => cases hafter
  | cons d l =>
    obtain ⟨q, hfirst, hrun⟩ := Option.bind_eq_some_iff.mp hafter
    dsimp only at hq hrun ⊢
    subst hq
    obtain ⟨rfl, hall⟩ := run_eq_space hrun
    exact List.forall_mem_cons.mpr ⟨(firstReading_space hfirst).mp rfl, hall⟩

/-- Quotes are quotation marks. -/
theorem quote_cases (hx : sqlite.IsLexeme x) (hq : x.state = .quoteMark quote) :
    quote = 39 ∨ quote = 34 := by
  obtain ⟨q', text⟩ := x
  obtain ⟨hafter, hdone⟩ := hx
  dsimp only at hq
  subst hq
  cases text with
  | nil => cases hafter
  | cons c l =>
    obtain ⟨q, hfirst, hrun⟩ := Option.bind_eq_some_iff.mp hafter
    rcases first_cases hfirst with hq | ⟨-, rfl⟩ | ⟨hmark, rfl⟩
    · rcases comment_of_run hrun hq rfl hdone with ⟨m, -, -, hcom⟩ | ⟨m, -, -, hcom⟩ <;>
        cases isComment_of_run hcom rfl
    · cases l with
      | nil => cases hrun
      | cons d l => cases hrun
    · rcases quoted_of_run hrun (Or.inl rfl) with h | h <;> cases h
      exact hmark

theorem next_of_mem_spaces (q : Reading) (hmark : ∀ quote ∈ spaces, q ≠ .quoteMark quote) :
    ∀ c ∈ spaces, q.isToken = true → q.complete = true → nextReading q c = none := by
  cases q with
  | quoteMark quote =>
    intro c hc _ _
    rw [nextReading, if_neg]
    rintro rfl
    exact hmark c hc rfl
  | quoted quote =>
    intro c _ _ hdone
    cases hdone
  | _ => decide

/-- White space ends every token. -/
theorem next_of_isSpace (hx : sqlite.IsLexeme x) (htok : x.state.isToken = true)
    (hc : isSpace c = true) : nextReading x.state c = none := by
  refine next_of_mem_spaces x.state ?_ c (mem_spaces hc) htok hx.2
  intro quote hquote hstate
  have hall : ∀ c ∈ spaces, c ≠ 39 ∧ c ≠ 34 := by decide
  rcases quote_cases hx hstate with rfl | rfl
  · exact (hall 39 hquote).1 rfl
  · exact (hall 34 hquote).2 rfl

theorem next_mem_spaces (q : Reading) : ∀ c ∈ spaces, (nextReading q c).all
    (fun q' => !q'.isToken || !q'.complete || q' = .quoteMark c) = true := by
  cases q with
  | quoted quote =>
    intro c _
    rw [nextReading]
    split_ifs with h
    · simp [h]
    · rfl
  | quoteMark quote =>
    intro c _
    rw [nextReading]
    split_ifs <;> rfl
  | _ => decide

/-- A token ends with no white space either. -/
theorem last_solid (hx : sqlite.IsLexeme x) (htok : x.state.isToken = true)
    (hc : x.text.getLast? = some c) : isSpace c = false := by
  by_contra hspace
  rw [Bool.not_eq_false] at hspace
  have hmark : x.state ≠ .quoteMark c := by
    intro hstate
    rcases quote_cases hx hstate with rfl | rfl <;> cases hspace
  obtain ⟨q', text⟩ := x
  obtain ⟨l, rfl⟩ : ∃ l, text = l ++ [c] := List.getLast?_eq_some_iff.mp hc
  obtain ⟨hafter, hdone⟩ := hx
  dsimp only at hafter hmark htok hdone
  cases l with
  | nil =>
    obtain ⟨q, hfirst, hrun⟩ := Option.bind_eq_some_iff.mp hafter
    cases hrun
    rw [(firstReading_space hfirst).mpr hspace] at htok
    cases htok
  | cons d l =>
    obtain ⟨q₀, -, hrun⟩ := Option.bind_eq_some_iff.mp hafter
    have hrun' : sqlite.run q₀ (l ++ [c]) = some q' := hrun
    rw [Lexer.run_append] at hrun'
    obtain ⟨q, -, hlast⟩ := Option.bind_eq_some_iff.mp hrun'
    obtain ⟨q₁, hnext, hend⟩ := Option.bind_eq_some_iff.mp hlast
    cases hend
    have hall := next_mem_spaces q c (mem_spaces hspace)
    have hnext' : nextReading q c = some q' := hnext
    have hdone' : q'.complete = true := hdone
    rw [hnext', Option.all_some, htok, hdone'] at hall
    exact hmark (by simpa using hall)

theorem first_solid (hx : sqlite.IsLexeme x) (htok : x.state.isToken = true)
    (hc : x.text.head? = some c) : isSpace c = false := by
  by_contra hspace
  rw [Bool.not_eq_false] at hspace
  rw [(state_eq_space_iff hx hc).mpr hspace] at htok
  cases htok

/-! ### Tokens of texts -/

theorem solid_append (s l : JsString) : solid (s ++ l) = solid s + solid l :=
  List.countP_append

theorem solid_le_of_sublist (h : l.Sublist s) : solid l ≤ solid s := h.countP_le

theorem solid_pos (hc : c ∈ s) (hsolid : isSpace c = false) : 0 < solid s :=
  List.countP_pos_iff.mpr ⟨c, hc, by rw [hsolid]; rfl⟩

theorem solid_eq_zero (h : ∀ c ∈ s, isSpace c = true) : solid s = 0 := by
  refine List.countP_eq_zero.mpr fun c hc => ?_
  rw [h c hc]
  exact Bool.false_ne_true

theorem exists_head (hx : sqlite.IsLexeme x) : ∃ c, x.text.head? = some c := by
  cases htext : x.text with
  | nil => exact absurd htext hx.ne_nil
  | cons c l => exact ⟨c, rfl⟩

theorem tokensOf_cons (x : Lexeme) (xs : List Lexeme) :
    tokensOf (x :: xs) = if x.state.isToken then x.text :: tokensOf xs else tokensOf xs := by
  cases h : x.state.isToken <;> simp [tokensOf, h]

/-- Tokens are no more than the text, and less when comments are. -/
theorem solid_tokensOf_le (xs : List Lexeme) :
    solid (tokensOf xs).flatten ≤ solid (xs.flatMap Lexeme.text) := by
  induction xs with
  | nil => exact le_rfl
  | cons x xs ih =>
    rw [tokensOf_cons, List.flatMap_cons, solid_append]
    split_ifs
    · rw [List.flatten_cons, solid_append]
      exact Nat.add_le_add_left ih _
    · exact ih.trans (Nat.le_add_left _ _)

theorem solid_tokensOf (hall : ∀ x ∈ xs, sqlite.IsLexeme x ∧ x.state.isComment = false) :
    solid (tokensOf xs).flatten = solid (xs.flatMap Lexeme.text) := by
  induction xs with
  | nil => rfl
  | cons x xs ih =>
    obtain ⟨⟨hx, hcom⟩, hxs⟩ := List.forall_mem_cons.mp hall
    rw [tokensOf_cons, List.flatMap_cons, solid_append]
    cases htok : x.state.isToken with
    | true => rw [if_pos rfl, List.flatten_cons, solid_append, ih hxs]
    | false =>
      have hspace : x.state = .space := by
        simpa [Reading.isToken, hcom] using htok
      rw [if_neg Bool.false_ne_true, ih hxs, solid_eq_zero (isSpace_of_state hx hspace), zero_add]

theorem solid_le_of_tokens (h : tokens s = some ts) : solid ts.flatten ≤ solid s := by
  obtain ⟨ys, hscan, rfl⟩ := Option.map_eq_some_iff.mp h
  rw [(Lexer.scan_iff.mp hscan).1]
  exact solid_tokensOf_le ys

theorem next_after_token (hx : sqlite.IsLexeme x) (htok : x.state.isToken = true)
    (hall : ∀ y ∈ xs, sqlite.IsLexeme y ∧ y.state.isComment = false) :
    (∀ a ∈ (xs.flatMap Lexeme.text).head?, nextReading x.state a = none) ↔
      ∀ y ∈ xs.head?, StayApart x y := by
  cases xs with
  | nil =>
    constructor
    · intro _ y hy
      cases hy
    · intro _ a ha
      cases ha
  | cons y ys =>
    obtain ⟨⟨hy, hcom⟩, -⟩ := List.forall_mem_cons.mp hall
    obtain ⟨c, hc⟩ := exists_head hy
    have hhead : ((y :: ys).flatMap Lexeme.text).head? = some c := by
      rw [List.flatMap_cons, List.head?_append, hc]
      rfl
    constructor
    · intro h z hz _ _ a ha
      obtain rfl := Option.some.inj hz
      rw [hc] at ha
      exact h a (hhead ▸ ha)
    · intro h a ha
      obtain rfl := Option.some.inj (hhead ▸ ha)
      cases hytok : y.state.isToken with
      | true => exact h y rfl htok hytok c hc
      | false =>
        have hspace : y.state = .space := by
          simpa [Reading.isToken, hcom] using hytok
        exact next_of_isSpace hx htok ((state_eq_space_iff hy hc).mp hspace)

/-- A token is read as it stands if the automaton stops after it; otherwise it becomes a longer
token, or a part of a comment, after which the other tokens are not there any more. -/
theorem tokens_token_iff (hx : sqlite.IsLexeme x) (htok : x.state.isToken = true)
    (hle : solid l ≤ solid ts.flatten) :
    tokens (x.text ++ l) = some (x.text :: ts) ↔
      (∀ a ∈ l.head?, nextReading x.state a = none) ∧ tokens l = some ts := by
  have hscan : sqlite.scan (x.text ++ l) = sqlite.scanFrom x.state x.text l :=
    Lexer.scan_append hx.1 l
  rw [tokens, hscan]
  constructor
  · intro h
    obtain ⟨ys, hys, htokens⟩ := Option.map_eq_some_iff.mp h
    obtain ⟨q', m, rest, zs, rfl, hrun, haccepts, hstop, rfl, hrest⟩ := Lexer.exists_of_scanFrom hys
    rw [tokensOf_cons] at htokens
    split_ifs at htokens with hq
    · obtain ⟨hm, rfl⟩ := List.cons.inj htokens
      obtain rfl := List.append_right_eq_self.mp hm
      cases hrun
      refine ⟨hstop, ?_⟩
      rw [List.nil_append, tokens, hrest]
      rfl
    · exfalso
      have hmany : solid (x.text :: ts).flatten ≤ solid rest := by
        refine solid_le_of_tokens ?_
        rw [tokens, hrest, ← htokens]
        rfl
      obtain ⟨c, hc⟩ := exists_head hx
      have hpos := solid_pos (List.mem_of_head? hc) (first_solid hx htok hc)
      rw [List.flatten_cons, solid_append] at hmany
      rw [solid_append] at hle
      omega
  · rintro ⟨hstop, h⟩
    obtain ⟨ys, hys, rfl⟩ := Option.map_eq_some_iff.mp h
    rw [Lexer.scanFrom_stop hx.2 hstop, hys]
    show some (tokensOf (x :: ys)) = _
    rw [tokensOf_cons, if_pos htok]

/-- The tokens of a text after white space. -/
def afterSpace (l : JsString) : Option (List JsString) := (sqlite.scanFrom .space [] l).map tokensOf

theorem tokens_scanFrom_space (taken l : JsString) :
    (sqlite.scanFrom .space taken l).map tokensOf = afterSpace l := by
  have hany (taken taken' : JsString) : (sqlite.scanFrom .space taken l).map tokensOf =
      (sqlite.scanFrom .space taken' l).map tokensOf := by
    induction l generalizing taken taken' with
    | nil => rfl
    | cons c l ih =>
      cases hnext : nextReading .space c with
      | some q =>
        have hq : q = .space := by
          rw [nextReading] at hnext
          exact (Option.some.inj (Option.ite_none_right_eq_some.mp hnext).2).symm
        have hstep (taken : JsString) : sqlite.scanFrom .space taken (c :: l) =
            sqlite.scanFrom .space (taken ++ [c]) l := by
          have hnext' : sqlite.next .space c = some .space := hq ▸ hnext
          rw [Lexer.scanFrom, hnext']
        rw [hstep, hstep]
        exact ih _ _
      | none =>
        have hstop : ∀ a ∈ (c :: l).head?, sqlite.next .space a = none := by
          intro a ha
          obtain rfl := Option.some.inj ha
          exact hnext
        rw [Lexer.scanFrom_stop rfl hstop, Lexer.scanFrom_stop rfl hstop]
        cases sqlite.scan (c :: l) <;> rfl
  exact hany taken []

theorem tokens_space (hx : sqlite.IsLexeme x) (hq : x.state = .space) (l : JsString) :
    tokens (x.text ++ l) = afterSpace l := by
  rw [tokens, Lexer.scan_append hx.1, hq, tokens_scanFrom_space]

theorem afterSpace_space (hs : ∀ c ∈ s, isSpace c = true) (l : JsString) :
    afterSpace (s ++ l) = afterSpace l := by
  have hrun : sqlite.run .space s = some .space := by
    induction s with
    | nil => rfl
    | cons c s ih =>
      obtain ⟨hc, hs⟩ := List.forall_mem_cons.mp hs
      have hnext : sqlite.next .space c = some .space := if_pos hc
      rw [Lexer.run, hnext]
      exact ih hs
  rw [afterSpace, Lexer.scanFrom_append hrun, tokens_scanFrom_space]

theorem afterSpace_of_head (h : ∀ c ∈ l.head?, isSpace c = false) : afterSpace l = tokens l := by
  have hstop : ∀ c ∈ l.head?, sqlite.next .space c = none := by
    intro c hc
    refine if_neg ?_
    rw [h c hc]
    exact Bool.false_ne_true
  rw [afterSpace, Lexer.scanFrom_stop rfl hstop, tokens, Option.map_map]
  rfl

theorem isChain_space_cons (hx : x.state.isToken = false) (xs : List Lexeme) :
    (x :: xs).IsChain StayApart ↔ xs.IsChain StayApart := by
  rw [List.isChain_cons, and_iff_right]
  intro y _ htok
  rw [hx] at htok
  cases htok

theorem isChain_concat_space (hx : x.state.isToken = false) (xs : List Lexeme) :
    (xs ++ [x]).IsChain StayApart ↔ xs.IsChain StayApart := by
  rw [List.isChain_append, and_iff_left]
  refine ⟨List.isChain_singleton x, ?_⟩
  intro z _ y hy _ htok
  obtain rfl := Option.some.inj hy
  rw [hx] at htok
  cases htok

/-- Lexemes without comments are read again as they stand if no two tokens among them run
together. -/
theorem tokens_iff (hall : ∀ x ∈ xs, sqlite.IsLexeme x ∧ x.state.isComment = false) :
    (tokens (xs.flatMap Lexeme.text) = some (tokensOf xs) ↔ xs.IsChain StayApart) ∧
    (afterSpace (xs.flatMap Lexeme.text) = some (tokensOf xs) ↔ xs.IsChain StayApart) := by
  induction xs with
  | nil => exact ⟨iff_of_true rfl List.isChain_nil, iff_of_true rfl List.isChain_nil⟩
  | cons x xs ih =>
    obtain ⟨⟨hx, hcom⟩, hxs⟩ := List.forall_mem_cons.mp hall
    obtain ⟨ihtokens, ihspace⟩ := ih hxs
    obtain ⟨c, hc⟩ := exists_head hx
    rw [tokensOf_cons, List.flatMap_cons]
    cases htok : x.state.isToken with
    | true =>
      have hhead : afterSpace (x.text ++ xs.flatMap Lexeme.text) =
          tokens (x.text ++ xs.flatMap Lexeme.text) := by
        refine afterSpace_of_head fun d hd => first_solid hx htok ?_
        rw [List.head?_append, hc] at hd
        rw [hc]
        exact hd
      have hiff : tokens (x.text ++ xs.flatMap Lexeme.text) = some (x.text :: tokensOf xs) ↔ _ :=
        tokens_token_iff hx htok (solid_tokensOf hxs).ge
      rw [next_after_token hx htok hxs, ihtokens, ← List.isChain_cons] at hiff
      rw [hhead, if_pos rfl]
      exact ⟨hiff, hiff⟩
    | false =>
      have hspace : x.state = .space := by
        simpa [Reading.isToken, hcom] using htok
      rw [tokens_space hx hspace, afterSpace_space (isSpace_of_state hx hspace),
        if_neg Bool.false_ne_true, ihspace, isChain_space_cons htok]
      exact ⟨Iff.rfl, Iff.rfl⟩

/-! ### Trimming -/

theorem solid_trim_le (s : JsString) : solid (trim jsSpace s) ≤ solid s :=
  solid_le_of_sublist
    ((List.rdropWhile_prefix _ _).sublist.trans (List.dropWhile_suffix jsSpace).sublist)

/-- When nothing but white space of SQLite is taken away, nothing is taken of a text that begins
and ends with something else. -/
theorem trim_of_solid (hle : solid s ≤ solid (trim jsSpace s))
    (hfirst : ∀ c ∈ s.head?, isSpace c = false) (hlast : ∀ c ∈ s.getLast?, isSpace c = false) :
    (∀ c ∈ s.head?, jsSpace c = false) ∧ ∀ c ∈ s.getLast?, jsSpace c = false := by
  constructor
  · intro c hc
    by_contra hspace
    rw [Bool.not_eq_false] at hspace
    obtain ⟨l, rfl⟩ : ∃ l, s = [c] ++ l := List.head?_eq_some_iff.mp hc
    have hone : ∀ d ∈ [c], jsSpace d = true := fun d hd => List.mem_singleton.mp hd ▸ hspace
    rw [License.trim_append_left hone, solid_append] at hle
    have hpos := solid_pos (s := [c]) List.mem_cons_self (hfirst c hc)
    have hless := solid_trim_le l
    omega
  · intro c hc
    by_contra hspace
    rw [Bool.not_eq_false] at hspace
    obtain ⟨l, rfl⟩ : ∃ l, s = l ++ [c] := List.getLast?_eq_some_iff.mp hc
    have hone : ∀ d ∈ [c], jsSpace d = true := fun d hd => List.mem_singleton.mp hd ▸ hspace
    rw [License.trim_append_right hone, solid_append] at hle
    have hpos := solid_pos (s := [c]) List.mem_cons_self (hlast c hc)
    have hless := solid_trim_le l
    omega

theorem tokensOf_concat (xs : List Lexeme) (x : Lexeme) :
    tokensOf (xs ++ [x]) = if x.state.isToken then tokensOf xs ++ [x.text] else tokensOf xs := by
  cases h : x.state.isToken <;> simp [tokensOf, h]

/-- The first unit of a text that begins with a token. -/
theorem head_text (hall : ∀ x ∈ xs, sqlite.IsLexeme x)
    (hfirst : ∀ x ∈ xs.head?, x.state.isToken = true) :
    (xs.flatMap Lexeme.text).head? = (tokensOf xs).head?.bind List.head? := by
  cases xs with
  | nil => rfl
  | cons x xs =>
    obtain ⟨c, hc⟩ := exists_head (hall x List.mem_cons_self)
    rw [tokensOf_cons, if_pos (hfirst x rfl), List.flatMap_cons, List.head?_append, List.head?_cons,
      Option.bind_some, hc]
    rfl

theorem last_text (hall : ∀ x ∈ xs, sqlite.IsLexeme x)
    (hlast : ∀ x ∈ xs.getLast?, x.state.isToken = true) :
    (xs.flatMap Lexeme.text).getLast? = (tokensOf xs).getLast?.bind List.getLast? := by
  rcases List.eq_nil_or_concat' xs with rfl | ⟨ys, y, rfl⟩
  · rfl
  · have hy := hlast y List.getLast?_concat
    have hne := (hall y List.mem_concat_self).ne_nil
    rw [tokensOf_concat, if_pos hy, List.flatMap_append, List.flatMap_singleton,
      List.getLast?_append, List.getLast?_concat, Option.bind_some,
      List.getLast?_eq_getLast_of_ne_nil hne]
    rfl

theorem mem_tokensOf {t : JsString} (ht : t ∈ tokensOf xs) :
    ∃ x ∈ xs, x.state.isToken = true ∧ x.text = t := by
  obtain ⟨x, hx, rfl⟩ := List.mem_map.mp ht
  obtain ⟨hmem, htok⟩ := List.mem_filter.mp hx
  exact ⟨x, hmem, htok, rfl⟩

/-- Without white space at the ends. -/
theorem tokens_trim_of_ends (hall : ∀ x ∈ xs, sqlite.IsLexeme x ∧ x.state.isComment = false)
    (hfirst : ∀ x ∈ xs.head?, x.state.isToken = true)
    (hlast : ∀ x ∈ xs.getLast?, x.state.isToken = true) :
    tokens (trim jsSpace (xs.flatMap Lexeme.text)) = some (tokensOf xs) ↔
      tokens (xs.flatMap Lexeme.text) = some (tokensOf xs) ∧ EndsSolid (tokensOf xs) := by
  have hlexemes : ∀ x ∈ xs, sqlite.IsLexeme x := fun x hx => (hall x hx).1
  have hhead := head_text hlexemes hfirst
  have hend := last_text hlexemes hlast
  constructor
  · intro h
    have hle := solid_le_of_tokens h
    rw [solid_tokensOf hall] at hle
    obtain ⟨hbegins, hends⟩ := trim_of_solid hle
      (by
        intro c hc
        rw [hhead] at hc
        obtain ⟨t, ht, hct⟩ := Option.bind_eq_some_iff.mp hc
        obtain ⟨x, hx, htok, rfl⟩ := mem_tokensOf (List.mem_of_head? ht)
        exact first_solid (hlexemes x hx) htok hct)
      (by
        intro c hc
        rw [hend] at hc
        obtain ⟨t, ht, hct⟩ := Option.bind_eq_some_iff.mp hc
        obtain ⟨x, hx, htok, rfl⟩ := mem_tokensOf (List.mem_of_getLast? ht)
        exact last_solid (hlexemes x hx) htok hct)
    rw [License.trim_of_ends hbegins hends] at h
    rw [hhead] at hbegins
    rw [hend] at hends
    refine ⟨h, fun t ht c hc => hbegins c ?_, fun t ht c hc => hends c ?_⟩
    · exact Option.bind_eq_some_iff.mpr ⟨t, ht, hc⟩
    · exact Option.bind_eq_some_iff.mpr ⟨t, ht, hc⟩
  · rintro ⟨h, hsolid⟩
    rw [License.trim_of_ends]
    · exact h
    · intro c hc
      rw [hhead] at hc
      obtain ⟨t, ht, hct⟩ := Option.bind_eq_some_iff.mp hc
      exact hsolid.first t ht c hct
    · intro c hc
      rw [hend] at hc
      obtain ⟨t, ht, hct⟩ := Option.bind_eq_some_iff.mp hc
      exact hsolid.last t ht c hct

/-- White space at the beginning is taken away. -/
theorem tokens_trim_of_last (hall : ∀ x ∈ xs, sqlite.IsLexeme x ∧ x.state.isComment = false)
    (hlast : ∀ x ∈ xs.getLast?, x.state.isToken = true) :
    tokens (trim jsSpace (xs.flatMap Lexeme.text)) = some (tokensOf xs) ↔
      xs.IsChain StayApart ∧ EndsSolid (tokensOf xs) := by
  induction xs with
  | nil =>
    rw [tokens_trim_of_ends hall, (tokens_iff hall).1]
    · intro x hx
      cases hx
    · intro x hx
      cases hx
  | cons x xs ih =>
    obtain ⟨⟨hx, hcom⟩, hxs⟩ := List.forall_mem_cons.mp hall
    cases htok : x.state.isToken with
    | true =>
      have hfirst : ∀ y ∈ (x :: xs).head?, y.state.isToken = true := by
        intro y hy
        obtain rfl := Option.some.inj hy
        exact htok
      rw [tokens_trim_of_ends hall hfirst hlast, (tokens_iff hall).1]
    | false =>
      have hspace : x.state = .space := by
        simpa [Reading.isToken, hcom] using htok
      have hblank : ∀ c ∈ x.text, jsSpace c = true := fun c hc =>
        jsSpace_of_isSpace (isSpace_of_state hx hspace c hc)
      have hlast' : ∀ y ∈ xs.getLast?, y.state.isToken = true := by
        intro y hy
        refine hlast y ?_
        rw [List.getLast?_cons, Option.mem_def.mp hy]
        rfl
      rw [List.flatMap_cons, License.trim_append_left hblank, tokensOf_cons, htok,
        if_neg Bool.false_ne_true, ih hxs hlast', isChain_space_cons htok]

theorem tokens_trim_iff (hall : ∀ x ∈ xs, sqlite.IsLexeme x ∧ x.state.isComment = false) :
    tokens (trim jsSpace (xs.flatMap Lexeme.text)) = some (tokensOf xs) ↔
      xs.IsChain StayApart ∧ EndsSolid (tokensOf xs) := by
  induction xs using List.reverseRecOn with
  | nil =>
    refine tokens_trim_of_last hall ?_
    intro x hx
    cases hx
  | append_singleton xs x ih =>
    have hxs : ∀ y ∈ xs, sqlite.IsLexeme y ∧ y.state.isComment = false := fun y hy =>
      hall y (List.mem_append_left _ hy)
    obtain ⟨hx, hcom⟩ := hall x List.mem_concat_self
    cases htok : x.state.isToken with
    | true =>
      refine tokens_trim_of_last hall fun y hy => ?_
      rw [List.getLast?_concat] at hy
      obtain rfl := Option.some.inj hy
      exact htok
    | false =>
      have hspace : x.state = .space := by
        simpa [Reading.isToken, hcom] using htok
      have hblank : ∀ c ∈ x.text, jsSpace c = true := fun c hc =>
        jsSpace_of_isSpace (isSpace_of_state hx hspace c hc)
      rw [List.flatMap_append, List.flatMap_singleton, License.trim_append_right hblank,
        tokensOf_concat, htok, if_neg Bool.false_ne_true, ih hxs, isChain_concat_space htok]

/-! ### Statements -/

theorem tokensOf_uncommented (S : List Lexeme) :
    tokensOf (S.filter fun x => !x.state.isComment) = tokensOf S := by
  rw [tokensOf, tokensOf, List.filter_filter]
  refine congrArg _ (List.filter_congr fun x _ => ?_)
  cases hx : x.state.isComment <;> simp [Reading.isToken, hx]

/-- The tokens of a statement are those of what is pushed for it, under the condition. -/
theorem tokens_trim_uncommented (hS : ∀ x ∈ xs, sqlite.IsLexeme x) :
    tokens (trim jsSpace (uncommented xs)) = some (tokensOf xs) ↔ Unaffected xs := by
  have hall : ∀ x ∈ xs.filter fun x => !x.state.isComment,
      sqlite.IsLexeme x ∧ x.state.isComment = false := by
    intro x hx
    obtain ⟨hmem, hcom⟩ := List.mem_filter.mp hx
    exact ⟨hS x hmem, by simpa using hcom⟩
  have hiff := tokens_trim_iff hall
  rw [tokensOf_uncommented] at hiff
  rw [uncommented, hiff]
  exact ⟨fun h => ⟨h.1, h.2⟩, fun h => ⟨h.separated, h.ends⟩⟩

theorem trim_of_empty (hS : ∀ x ∈ xs, sqlite.IsLexeme x) (hempty : tokensOf xs = []) :
    trim jsSpace (uncommented xs) = [] := by
  have hblank : ∀ c ∈ uncommented xs, jsSpace c = true := by
    intro c hc
    obtain ⟨x, hx, hcx⟩ := List.mem_flatMap.mp hc
    obtain ⟨hmem, hcom⟩ := List.mem_filter.mp hx
    have htok : x.state.isToken = false := by
      by_contra htok
      rw [Bool.not_eq_false] at htok
      have hx' : x.text ∈ tokensOf xs :=
        List.mem_map_of_mem (List.mem_filter.mpr ⟨hmem, htok⟩)
      rw [hempty] at hx'
      cases hx'
    have hspace : x.state = .space := by
      simpa [Reading.isToken, hcom] using htok
    exact jsSpace_of_isSpace (isSpace_of_state (hS x hmem) hspace c hcx)
  have htrim := License.trim_append_left hblank []
  rw [List.append_nil] at htrim
  exact htrim

/-- Nothing is pushed for a statement without tokens. -/
theorem pushed_of_empty (hS : ∀ x ∈ xs, sqlite.IsLexeme x) (hempty : tokensOf xs = []) :
    pushed (uncommented xs) = [] := by
  rw [pushed, trim_of_empty hS hempty]
  rfl

theorem unaffected_of_empty (hS : ∀ x ∈ xs, sqlite.IsLexeme x) (hempty : tokensOf xs = []) :
    Unaffected xs := by
  refine (tokens_trim_uncommented hS).mp ?_
  rw [trim_of_empty hS hempty, hempty]
  rfl

/-- A statement with tokens gets a string with these tokens, under the condition. -/
theorem pushed_tokens_iff (hS : ∀ x ∈ xs, sqlite.IsLexeme x) (hne : tokensOf xs ≠ []) :
    (pushed (uncommented xs)).map tokens = [some (tokensOf xs)] ↔ Unaffected xs := by
  rw [← tokens_trim_uncommented hS]
  unfold pushed
  split_ifs with hlength
  · rw [List.map_singleton]
    exact ⟨fun h => (List.cons.inj h).1, fun h => congrArg (fun t => [t]) h⟩
  · have hnil : trim jsSpace (uncommented xs) = [] :=
      List.length_eq_zero_iff.mp (Nat.eq_zero_of_not_pos hlength)
    constructor
    · intro h
      cases h
    · intro h
      rw [hnil] at h
      exact absurd (Option.some.inj h).symm hne

theorem length_flatMap_le {α β : Type} {f g : α → List β} {l : List α}
    (hle : ∀ a ∈ l, (f a).length ≤ (g a).length) :
    (l.flatMap f).length ≤ (l.flatMap g).length := by
  induction l with
  | nil => exact le_rfl
  | cons a l ih =>
    obtain ⟨ha, hl⟩ := List.forall_mem_cons.mp hle
    rw [List.flatMap_cons, List.flatMap_cons, List.length_append, List.length_append]
    exact Nat.add_le_add ha (ih hl)

/-- Lists that are put together of pieces agree when the pieces do, if those of the one are never
longer than those of the other. -/
theorem flatMap_eq_iff {α β : Type} {f g : α → List β} {l : List α}
    (hle : ∀ a ∈ l, (f a).length ≤ (g a).length) :
    l.flatMap f = l.flatMap g ↔ ∀ a ∈ l, f a = g a := by
  induction l with
  | nil => exact iff_of_true rfl fun a ha => absurd ha List.not_mem_nil
  | cons a l ih =>
    obtain ⟨ha, hl⟩ := List.forall_mem_cons.mp hle
    rw [List.flatMap_cons, List.flatMap_cons, List.forall_mem_cons, ← ih hl]
    constructor
    · intro h
      have hlength := congrArg List.length h
      have hrest := length_flatMap_le hl
      rw [List.length_append, List.length_append] at hlength
      exact List.append_inj h (by omega)
    · rintro ⟨hhead, htail⟩
      rw [hhead, htail]

theorem mem_of_statement {S : List Lexeme} (hS : S ∈ statements xs) (hx : x ∈ S) : x ∈ xs := by
  induction xs generalizing S with
  | nil =>
    rw [statements, List.splitOnP_nil] at hS
    obtain rfl := List.mem_singleton.mp hS
    cases hx
  | cons y ys ih =>
    rw [statements, List.splitOnP_cons_eq_if_modifyHead] at hS
    split_ifs at hS
    · rcases List.mem_cons.mp hS with rfl | hS
      · cases hx
      · exact List.mem_cons_of_mem y (ih hS hx)
    · rw [← statements] at hS
      cases hys : statements ys with
      | nil =>
        rw [hys] at hS
        cases hS
      | cons T Ts =>
        rw [hys, List.modifyHead_cons] at hS
        rw [hys] at ih
        rcases List.mem_cons.mp hS with rfl | hS
        · rcases List.mem_cons.mp hx with rfl | hx
          · exact List.mem_cons_self
          · exact List.mem_cons_of_mem y (ih List.mem_cons_self hx)
        · exact List.mem_cons_of_mem y (ih (List.mem_cons_of_mem T hS) hx)

/-- What the strings of a statement should have: its tokens, if it has any. -/
theorem filter_map_eq (Ss : List (List Lexeme)) :
    (Ss.filter fun S => tokensOf S ≠ []).map (fun S => some (tokensOf S)) =
      Ss.flatMap fun S => if tokensOf S = [] then [] else [some (tokensOf S)] := by
  induction Ss with
  | nil => rfl
  | cons S Ss ih =>
    rw [List.flatMap_cons]
    split_ifs with hS
    · rw [List.filter_cons_of_neg (by simpa using hS), ih, List.nil_append]
    · rw [List.filter_cons_of_pos (by simpa using hS), List.map_cons, ih, List.singleton_append]

/-- Splitting keeps the statements and their tokens exactly when nothing in them hangs on what is
taken out. -/
theorem splits_exactly (sql : JsString) (xs : List Lexeme) (hscan : sqlite.scan sql = some xs) :
    (splitSql sql).map tokens =
        ((statements xs).filter fun S => tokensOf S ≠ []).map (fun S => some (tokensOf S)) ↔
      ∀ S ∈ statements xs, Unaffected S := by
  have hlexemes : ∀ S ∈ statements xs, ∀ x ∈ S, sqlite.IsLexeme x := fun S hS x hx =>
    (Lexer.scan_iff.mp hscan).2.1 x (mem_of_statement hS hx)
  rw [splitSql_eq hscan, List.map_flatMap, filter_map_eq, flatMap_eq_iff]
  · refine forall₂_congr fun S hS => ?_
    split_ifs with hempty
    · rw [pushed_of_empty (hlexemes S hS) hempty]
      exact iff_of_true rfl (unaffected_of_empty (hlexemes S hS) hempty)
    · exact pushed_tokens_iff (hlexemes S hS) hempty
  · intro S hS
    split_ifs with hempty
    · rw [pushed_of_empty (hlexemes S hS) hempty]
      exact le_rfl
    · rw [List.length_map, List.length_singleton]
      unfold pushed
      split_ifs <;> simp

/-- `SELECT 1;` -/
def spaced : JsString := [83, 69, 76, 69, 67, 84, 32, 49, 59]

/-- `SELECT`, an empty comment, and `1;` -/
def commented : JsString := [83, 69, 76, 69, 67, 84, 47, 42, 42, 47, 49, 59]

def spacedLexemes : List Lexeme :=
  [⟨.word, [83, 69, 76, 69, 67, 84]⟩, ⟨.space, [32]⟩, ⟨.digits, [49]⟩, ⟨.semicolon, [59]⟩]

theorem splits_exactly_spaced :
    (splitSql spaced).map tokens = ((statements spacedLexemes).filter fun S =>
        tokensOf S ≠ []).map (fun S => some (tokensOf S)) ↔
      ∀ S ∈ statements spacedLexemes, Unaffected S :=
  splits_exactly spaced spacedLexemes (by decide)

def commentedLexemes : List Lexeme :=
  [⟨.word, [83, 69, 76, 69, 67, 84]⟩, ⟨.blockEnd, [47, 42, 42, 47]⟩, ⟨.digits, [49]⟩,
    ⟨.semicolon, [59]⟩]

/-- The two tokens of the statement become one. -/
theorem joins_tokens : sqlite.scan commented = some commentedLexemes ∧
    (splitSql commented).map tokens = [some [[83, 69, 76, 69, 67, 84, 49]]] ∧
    ((statements commentedLexemes).filter fun S => tokensOf S ≠ []).map
      (fun S => some (tokensOf S)) = [some [[83, 69, 76, 69, 67, 84], [49]]] := by
  refine ⟨?_, ?_, ?_⟩ <;> decide

end

end Swazz.Sql
