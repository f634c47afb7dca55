import Mathlib.Data.List.DropRight
import Mathlib.Data.List.TakeWhile
import Swazz.SetVariables

/-! The grammar of the expressions, and that the parser accepts it and nothing else. -/
namespace Swazz.SetVariables

open TrustedProxy (TrimSpace isSpace)

/-- A space or a tab. -/
def isBlank (c : Char) : Bool := c = ' ' || c = '\t'

def Blank (w : Text) : Prop := ∀ c ∈ w, isBlank c = true

def Ident (n : Text) : Prop := n ≠ [] ∧ ∀ c ∈ n, isIdent c = true

def isQuote (c : Char) : Prop := c = '"' ∨ c = '\''

mutual

/-- A printed form of a tree, from its first token to its last. -/
inductive Prints : Node → Text → Prop
  | literal {q : Char} {s : Text} (hq : isQuote q) (hs : q ∉ s) :
    Prints (.literal s) (q :: (s ++ [q]))
  | varRef {n : Text} (hn : Ident n) : Prints (.varRef n) n
  | empty {n w w' : Text} (hn : Ident n) (hw : Blank w) (hw' : Blank w') :
    Prints (.call n []) (n ++ (w ++ '(' :: (w' ++ [')'])))
  | call {n w t w' : Text} {args : List Node} (hn : Ident n) (hw : Blank w)
    (hargs : PrintsArgs args t) (hw' : Blank w') :
    Prints (.call n args) (n ++ (w ++ '(' :: (t ++ (w' ++ [')']))))

/-- The arguments of a call with their commas. -/
inductive PrintsArgs : List Node → Text → Prop
  | last {w u : Text} {arg : Node} (hw : Blank w) (harg : Prints arg u) : PrintsArgs [arg] (w ++ u)
  | more {w u w' t : Text} {arg : Node} {args : List Node} (hw : Blank w) (harg : Prints arg u)
    (hw' : Blank w') (hargs : PrintsArgs args t) :
    PrintsArgs (arg :: args) (w ++ (u ++ (w' ++ ',' :: t)))

end

/-- A printed form with blanks around it. -/
def Printed (node : Node) (src : Text) : Prop :=
  ∃ w u w', src = w ++ (u ++ w') ∧ Blank w ∧ Blank w' ∧ Prints node u

/-! ### Tokens -/

theorem blank_nil : Blank [] := fun _ hc => absurd hc List.not_mem_nil

theorem skipWS_append {w : Text} (hw : Blank w) (s : Text) : skipWS (w ++ s) = skipWS s :=
  List.dropWhile_append_of_pos hw

theorem skipWS_cons {c : Char} (hc : isBlank c = false) (s : Text) : skipWS (c :: s) = c :: s :=
  List.dropWhile_cons_of_neg (by rw [isBlank] at hc; rw [hc]; exact Bool.false_ne_true)

/-- The blanks that are skipped. -/
theorem exists_skipped (s : Text) : ∃ w, Blank w ∧ s = w ++ skipWS s := by
  refine ⟨s.takeWhile isBlank, fun c hc => List.mem_takeWhile_imp hc, ?_⟩
  exact List.takeWhile_append_dropWhile.symm

theorem skipWS_skipWS (s : Text) : skipWS (skipWS s) = skipWS s :=
  List.dropWhile_idempotent _ _

theorem blank_of_skipWS {w : Text} (h : skipWS w = []) : Blank w := by
  obtain ⟨v, hv, heq⟩ := exists_skipped w
  rw [h, List.append_nil] at heq
  exact heq ▸ hv

theorem not_blank_of_ident {c : Char} (h : isIdent c = true) : isBlank c = false := by
  by_contra hblank
  rw [Bool.not_eq_false, isBlank, Bool.or_eq_true, decide_eq_true_eq, decide_eq_true_eq] at hblank
  rcases hblank with rfl | rfl <;> exact absurd h (by decide)

theorem not_quote_of_ident {c : Char} (h : isIdent c = true) : ¬isQuote c := by
  rintro (rfl | rfl) <;> exact absurd h (by decide)

/-- An identifier is read up to what follows it. -/
theorem ident_append {n s : Text} (hn : Ident n) (hs : ∀ c ∈ s.head?, isIdent c = false) :
    (n ++ s).takeWhile isIdent = n ∧ (n ++ s).dropWhile isIdent = s := by
  have hstop : s.takeWhile isIdent = [] ∧ s.dropWhile isIdent = s := by
    cases s with
    | nil => exact ⟨rfl, rfl⟩
    | cons c s =>
      have hc : ¬isIdent c = true := by
        rw [hs c rfl]
        exact Bool.false_ne_true
      exact ⟨List.takeWhile_cons_of_neg hc, List.dropWhile_cons_of_neg hc⟩
  rw [List.takeWhile_append_of_pos hn.2, List.dropWhile_append_of_pos hn.2, hstop.1, hstop.2]
  exact ⟨List.append_nil n, rfl⟩

/-- What a printed form begins with. -/
theorem Prints.head {node : Node} {u : Text} (h : Prints node u) :
    ∃ c v, u = c :: v ∧ (isQuote c ∨ isIdent c = true) := by
  have hident : ∀ {n : Text} (s : Text), Ident n →
      ∃ c v, n ++ s = c :: v ∧ (isQuote c ∨ isIdent c = true) := by
    intro n s hn
    obtain ⟨c, v, rfl⟩ := List.exists_cons_of_ne_nil hn.1
    exact ⟨c, v ++ s, rfl, Or.inr (hn.2 c List.mem_cons_self)⟩
  cases h with
  | literal hq _ => exact ⟨_, _, rfl, Or.inl hq⟩
  | varRef hn => simpa using hident [] hn
  | empty hn _ _ => exact hident _ hn
  | call hn _ _ _ => exact hident _ hn

theorem Prints.skipWS {node : Node} {u : Text} (h : Prints node u) (s : Text) :
    skipWS (u ++ s) = u ++ s := by
  obtain ⟨c, v, rfl, hc⟩ := h.head
  refine skipWS_cons ?_ _
  rcases hc with (rfl | rfl) | hc
  · decide
  · decide
  · exact not_blank_of_ident hc

/-! ### Printed forms are accepted -/

/-- An expression ends here: a comma, a closing parenthesis or the end comes next. -/
def Stops (rest : Text) : Prop := ∀ c ∈ (skipWS rest).head?, c = ',' ∨ c = ')'

theorem Stops.head {rest : Text} (h : Stops rest) : ∀ c ∈ rest.head?, isIdent c = false := by
  intro c hc
  by_contra hident
  rw [Bool.not_eq_false] at hident
  cases rest with
  | nil => cases hc
  | cons d rest =>
    obtain rfl : d = c := Option.some.inj hc
    rw [Stops, skipWS_cons (not_blank_of_ident hident)] at h
    rcases h d rfl with rfl | rfl <;> exact absurd hident (by decide)

theorem parseLiteral_append {q : Char} {s : Text} (hs : q ∉ s) (rest : Text) :
    parseLiteral q (s ++ [q] ++ rest) = .ok (.literal s, rest) := by
  have hpos : ∀ c ∈ s, decide (c ≠ q) = true :=
    fun c hc => decide_eq_true (ne_of_mem_of_not_mem hc hs)
  rw [parseLiteral, List.append_assoc, List.dropWhile_append_of_pos hpos,
    List.takeWhile_append_of_pos hpos, List.singleton_append, List.dropWhile_cons_of_neg (by simp),
    List.takeWhile_cons_of_neg (by simp), List.append_nil]

/-- Arguments may be read from their first token on. -/
theorem PrintsArgs.skip {args : List Node} {t : Text} (h : PrintsArgs args t) :
    ∃ t', PrintsArgs args t' ∧ t'.length ≤ t.length ∧ (∀ s, skipWS (t ++ s) = t' ++ s) ∧
      ∃ c v, t' = c :: v ∧ (isQuote c ∨ isIdent c = true) := by
  cases h with
  | last hw harg =>
    rename_i w u arg
    refine ⟨u, .last blank_nil harg, by simp, fun s => ?_, harg.head⟩
    rw [List.append_assoc, skipWS_append hw, harg.skipWS]
  | more hw harg hw' hargs =>
    rename_i w u w' t arg args
    obtain ⟨c, v, rfl, hc⟩ := harg.head
    refine ⟨_, .more blank_nil harg hw' hargs, by simp, fun s => ?_, c, _, rfl, hc⟩
    rw [List.append_assoc, skipWS_append hw, List.append_assoc, harg.skipWS]
    simp

/-- From the token after the parenthesis to the one that closes it. -/
theorem parse_call {fuel : ℕ} {n w t rest rest' : Text} {args : List Node} (hn : Ident n)
    (hw : Blank w) (hargs : parseArgList fuel t = .ok (args, rest'))
    (hclose : skipWS rest' = ')' :: rest) :
    parseExpr (fuel + 1) (n ++ (w ++ '(' :: t)) = .ok (.call n args, rest) := by
  obtain ⟨c, v, hcons⟩ := List.exists_cons_of_ne_nil hn.1
  have hident : isIdent c = true := hn.2 c (hcons ▸ List.mem_cons_self)
  have hstart : skipWS (n ++ (w ++ '(' :: t)) = n ++ (w ++ '(' :: t) := by
    rw [hcons, List.cons_append]
    exact skipWS_cons (not_blank_of_ident hident) _
  have hhead : (n ++ (w ++ '(' :: t)).head? = some c := by
    rw [hcons]
    rfl
  have hfollow : ∀ d ∈ (w ++ '(' :: t).head?, isIdent d = false := by
    intro d hd
    by_contra hd'
    rw [Bool.not_eq_false] at hd'
    cases w with
    | nil =>
      obtain rfl : '(' = d := Option.some.inj hd
      exact absurd hd' (by decide)
    | cons e w =>
      obtain rfl : e = d := Option.some.inj hd
      have hblank := hw e List.mem_cons_self
      rw [not_blank_of_ident hd'] at hblank
      cases hblank
  obtain ⟨htake, hdrop⟩ := ident_append hn hfollow
  have hopen : skipWS (w ++ '(' :: t) = '(' :: t := by
    rw [skipWS_append hw, skipWS_cons (by decide)]
  have hquote : ¬(some c = some '"' ∨ some c = some '\'') := by
    rw [Option.some.injEq, Option.some.injEq]
    exact not_quote_of_ident hident
  rw [parseExpr, hstart, hhead, if_neg hquote]
  simp only [htake, hdrop, hn.1, hopen, hargs, hclose, List.head?_cons, List.tail_cons, if_false,
    ne_eq, not_true_eq_false]

/-- The fuel is as much as for any text of this length. -/
theorem parse_prints (fuel : ℕ) :
    (∀ {node : Node} {w u rest : Text}, Prints node u → Blank w → Stops rest →
      3 * (w ++ (u ++ rest)).length + 1 ≤ fuel →
        ∃ rest', parseExpr fuel (w ++ (u ++ rest)) = .ok (node, rest') ∧
          skipWS rest' = skipWS rest) ∧
    (∀ {args : List Node} {t rest : Text}, PrintsArgs args t → (skipWS rest).head? = some ')' →
      3 * (t ++ rest).length + 3 ≤ fuel →
        ∃ rest', parseArgList fuel (t ++ rest) = .ok (args, rest') ∧
          skipWS rest' = skipWS rest) ∧
    (∀ {args : List Node} {t rest : Text}, PrintsArgs args t → (skipWS rest).head? = some ')' →
      3 * (t ++ rest).length + 2 ≤ fuel →
        ∃ rest', parseArgs fuel (t ++ rest) = .ok (args, rest') ∧ skipWS rest' = skipWS rest) := by
  induction fuel with
  | zero => exact ⟨fun _ _ _ h => by omega, fun _ _ h => by omega, fun _ _ h => by omega⟩
  | succ fuel ih =>
    obtain ⟨ihExpr, ihList, ihArgs⟩ := ih
    refine ⟨fun {node w u rest} hu hw hstop hfuel => ?_, fun {args t rest} ht hclose hfuel => ?_,
      fun {args t rest} ht hclose hfuel => ?_⟩
    · have hskip : skipWS (w ++ (u ++ rest)) = u ++ rest := by
        rw [skipWS_append hw, hu.skipWS]
      have hsame : parseExpr (fuel + 1) (w ++ (u ++ rest)) = parseExpr (fuel + 1) (u ++ rest) := by
        rw [parseExpr, parseExpr, hskip, hu.skipWS]
      rw [hsame]
      rw [List.length_append] at hfuel
      cases hu with
      | literal hq hs =>
        rename_i q s
        refine ⟨rest, ?_, rfl⟩
        have hcons : q :: (s ++ [q]) ++ rest = q :: (s ++ [q] ++ rest) := rfl
        have hquote : some q = some '"' ∨ some q = some '\'' :=
          hq.imp (congrArg some) (congrArg some)
        rw [parseExpr, ← hskip, skipWS_skipWS, hskip, hcons, List.head?_cons, if_pos hquote,
          List.headD_cons, List.tail_cons]
        exact parseLiteral_append hs rest
      | varRef hn =>
        obtain ⟨c, v, hcons⟩ := List.exists_cons_of_ne_nil hn.1
        have hident : isIdent c = true := hn.2 c (hcons ▸ List.mem_cons_self)
        obtain ⟨htake, hdrop⟩ := ident_append hn hstop.head
        have hhead : (u ++ rest).head? = some c := by
          rw [hcons]
          rfl
        have hquote : ¬(some c = some '"' ∨ some c = some '\'') := by
          rw [Option.some.injEq, Option.some.injEq]
          exact not_quote_of_ident hident
        have hopen : (skipWS rest).head? ≠ some '(' := by
          intro hparen
          rcases hstop '(' hparen with h | h <;> exact absurd h (by decide)
        refine ⟨skipWS rest, ?_, skipWS_skipWS rest⟩
        rw [parseExpr, ← hskip, skipWS_skipWS, hskip, hhead, if_neg hquote]
        simp only [htake, hdrop, hn.1, hopen, if_false, ne_eq, not_false_eq_true, if_true]
      | empty hn hw' hw'' =>
        rename_i n v v'
        refine ⟨rest, ?_, rfl⟩
        have hclose : skipWS (v' ++ ')' :: rest) = ')' :: rest := by
          rw [skipWS_append hw'', skipWS_cons (by decide)]
        obtain ⟨k, rfl⟩ : ∃ k, fuel = k + 1 := by
          refine ⟨fuel - 1, ?_⟩
          simp only [List.length_append, List.length_cons] at hfuel
          omega
        have hargs : parseArgList (k + 1) (v' ++ ')' :: rest) = .ok ([], ')' :: rest) := by
          rw [parseArgList, hclose, List.head?_cons, if_pos rfl]
        have hcall := parse_call hn hw' hargs (skipWS_cons (by decide) rest)
        simpa using hcall
      | call hn hw' hargs hw'' =>
        rename_i n v t v' args
        have hpos := List.length_pos_iff.mpr hn.1
        have hclose : skipWS (v' ++ ')' :: rest) = ')' :: rest := by
          rw [skipWS_append hw'', skipWS_cons (by decide)]
        have hfuel' : 3 * (t ++ (v' ++ ')' :: rest)).length + 3 ≤ fuel := by
          simp only [List.length_append, List.length_cons, List.length_nil] at hfuel ⊢
          omega
        obtain ⟨rest', hparsed, hrest'⟩ := ihList hargs (by rw [hclose]; rfl) hfuel'
        refine ⟨rest, ?_, rfl⟩
        have hcall := parse_call hn hw' hparsed (hrest'.trans hclose)
        simpa using hcall
    · obtain ⟨t', ht', hle, hskip, c, x, hcons, hc⟩ := ht.skip
      have hopen : (t' ++ rest).head? ≠ some ')' := by
        rw [hcons]
        intro heq
        obtain rfl : c = ')' := Option.some.inj heq
        rcases hc with (h | h) | h <;> exact absurd h (by decide)
      rw [parseArgList, hskip, if_neg hopen]
      rw [List.length_append] at hfuel
      exact ihArgs ht' hclose (by rw [List.length_append]; omega)
    · cases ht with
      | last hw harg =>
        rename_i w u arg
        have hstop : Stops rest := by
          intro c hc
          exact Or.inr (Option.some.inj (hc.symm.trans hclose))
        rw [List.append_assoc] at hfuel ⊢
        obtain ⟨rest', hparsed, hrest'⟩ := ihExpr harg hw hstop (by omega)
        have hcomma : (skipWS rest').head? ≠ some ',' := by
          rw [hrest', hclose]
          decide
        refine ⟨skipWS rest', ?_, by rw [skipWS_skipWS, hrest']⟩
        rw [parseArgs, hparsed]
        exact if_pos hcomma
      | more hw harg hw' hargs =>
        rename_i w u w' t arg args
        have hsplit : w ++ (u ++ (w' ++ ',' :: t)) ++ rest = w ++ (u ++ (w' ++ ',' :: (t ++ rest))) := by
          simp
        have hskip : skipWS (w' ++ ',' :: (t ++ rest)) = ',' :: (t ++ rest) := by
          rw [skipWS_append hw', skipWS_cons (by decide)]
        have hstop : Stops (w' ++ ',' :: (t ++ rest)) := by
          intro c hc
          rw [hskip] at hc
          exact Or.inl (Option.some.inj hc).symm
        rw [hsplit] at hfuel ⊢
        obtain ⟨rest', hparsed, hrest'⟩ := ihExpr harg hw hstop (by omega)
        rw [hskip] at hrest'
        have hfuel' : 3 * (t ++ rest).length + 2 ≤ fuel := by
          simp only [List.length_append, List.length_cons] at hfuel ⊢
          omega
        obtain ⟨rest'', hparsed', hrest''⟩ := ihArgs hargs hclose hfuel'
        refine ⟨rest'', ?_, hrest''⟩
        rw [parseArgs, hparsed]
        simp only [hrest', List.head?_cons, List.tail_cons, ne_eq, not_true_eq_false, if_false,
          hparsed']

theorem PrintsArgs.prepend {args : List Node} {t w : Text} (h : PrintsArgs args t) (hw : Blank w) :
    ∃ t', PrintsArgs args t' ∧ w ++ t = t' := by
  cases h with
  | last hv harg =>
    refine ⟨_, .last (List.forall_mem_append.mpr ⟨hw, hv⟩) harg, ?_⟩
    simp
  | more hv harg hw' hargs =>
    refine ⟨_, .more (List.forall_mem_append.mpr ⟨hw, hv⟩) harg hw' hargs, ?_⟩
    simp

/-! ### What is accepted is a printed form -/

theorem parseLiteral_eq {q : Char} {s rest : Text} {node : Node}
    (h : parseLiteral q s = .ok (node, rest)) :
    ∃ v, q ∉ v ∧ s = v ++ q :: rest ∧ node = .literal v := by
  rw [parseLiteral] at h
  have hsplit := List.takeWhile_append_dropWhile (p := (· ≠ q)) (l := s)
  split at h
  · cases h
  · next c rest' hdrop =>
    obtain ⟨rfl, rfl⟩ := Prod.mk.inj (Except.ok.inj h)
    have hc : c = q := by
      have hhead := List.head?_dropWhile_not (fun c => decide (c ≠ q)) s
      rw [hdrop] at hhead
      simpa using hhead
    rw [hdrop, hc] at hsplit
    refine ⟨_, fun hmem => ?_, hsplit.symm, rfl⟩
    exact absurd (List.mem_takeWhile_imp hmem) (by simp)

theorem eq_cons_of_head? {s : Text} {c : Char} (h : s.head? = some c) : s = c :: s.tail := by
  cases s with
  | nil => cases h
  | cons d s => rw [Option.some.inj h, List.tail_cons]

/-- An identifier and what follows it. -/
theorem exists_ident {s : Text} (h : s.takeWhile isIdent ≠ []) :
    Ident (s.takeWhile isIdent) ∧ s = s.takeWhile isIdent ++ s.dropWhile isIdent :=
  ⟨⟨h, fun _ hc => List.mem_takeWhile_imp hc⟩, List.takeWhile_append_dropWhile.symm⟩

theorem prints_of_parse (fuel : ℕ) :
    (∀ {s rest : Text} {node : Node}, parseExpr fuel s = .ok (node, rest) →
      ∃ w u w', s = w ++ (u ++ (w' ++ rest)) ∧ Blank w ∧ Blank w' ∧ Prints node u) ∧
    (∀ {s rest : Text} {args : List Node}, parseArgList fuel s = .ok (args, rest) →
      (args = [] ∧ ∃ w, Blank w ∧ s = w ++ rest) ∨
        ∃ t w', PrintsArgs args t ∧ Blank w' ∧ s = t ++ (w' ++ rest)) ∧
    (∀ {s rest : Text} {args : List Node}, parseArgs fuel s = .ok (args, rest) →
      ∃ t w', PrintsArgs args t ∧ Blank w' ∧ s = t ++ (w' ++ rest)) := by
  induction fuel with
  | zero => exact ⟨fun h => (by cases h), fun h => (by cases h), fun h => (by cases h)⟩
  | succ fuel ih =>
    obtain ⟨ihExpr, ihList, ihArgs⟩ := ih
    refine ⟨fun {s rest node} h => ?_, fun {s rest args} h => ?_, fun {s rest args} h => ?_⟩
    · obtain ⟨w, hw, hs⟩ := exists_skipped s
      rw [parseExpr] at h
      dsimp only at h
      split_ifs at h with hquote hname hopen
      · -- a literal in its quotes
        have hcons : ∃ q, isQuote q ∧ skipWS s = q :: (skipWS s).tail := by
          rcases hquote with hq | hq
          · exact ⟨_, Or.inl rfl, eq_cons_of_head? hq⟩
          · exact ⟨_, Or.inr rfl, eq_cons_of_head? hq⟩
        obtain ⟨q, hq, hcons⟩ := hcons
        have hhead : (skipWS s).headD '"' = q := by
          rw [hcons]
          rfl
        rw [hhead] at h
        obtain ⟨v, hv, htail, rfl⟩ := parseLiteral_eq h
        refine ⟨w, q :: (v ++ [q]), [], ?_, hw, blank_nil, .literal hq hv⟩
        rw [hs, hcons, htail]
        simp
      · -- a variable
        obtain ⟨rfl, rfl⟩ := Prod.mk.inj (Except.ok.inj h)
        obtain ⟨hident, hsplit⟩ := exists_ident hname
        obtain ⟨w', hw', hs'⟩ := exists_skipped ((skipWS s).dropWhile isIdent)
        refine ⟨w, _, w', ?_, hw, hw', .varRef hident⟩
        rw [← hs', ← hsplit]
        exact hs
      · -- a call
        obtain ⟨hident, hsplit⟩ := exists_ident hname
        obtain ⟨w', hw', hs'⟩ := exists_skipped ((skipWS s).dropWhile isIdent)
        have hparen := eq_cons_of_head? (Classical.not_not.mp hopen)
        split at h
        · cases h
        · next args rest' hargs =>
          split_ifs at h with hclose
          obtain ⟨rfl, rfl⟩ := Prod.mk.inj (Except.ok.inj h)
          have hend := eq_cons_of_head? (Classical.not_not.mp hclose)
          obtain ⟨v, hv, hrest'⟩ := exists_skipped rest'
          have hrest : rest' = v ++ ')' :: (skipWS rest').tail := hrest'.trans (congrArg (v ++ ·) hend)
          have hinner : ∀ t, (skipWS ((skipWS s).dropWhile isIdent)).tail = t →
              s = w ++ ((skipWS s).takeWhile isIdent ++ (w' ++ '(' :: t)) := by
            rintro t rfl
            rw [← hparen, ← hs', ← hsplit]
            exact hs
          rcases ihList hargs with ⟨rfl, v', hv', heq⟩ | ⟨t, v', ht, hv', heq⟩
          · refine ⟨w, _, [], (hinner _ heq).trans ?_, hw, blank_nil,
              .empty hident hw' (List.forall_mem_append.mpr ⟨hv', hv⟩)⟩
            conv_lhs => rw [hrest]
            simp
          · refine ⟨w, _, [], (hinner _ heq).trans ?_, hw, blank_nil,
              .call hident hw' ht (List.forall_mem_append.mpr ⟨hv', hv⟩)⟩
            conv_lhs => rw [hrest]
            simp
    · obtain ⟨w, hw, hs⟩ := exists_skipped s
      rw [parseArgList] at h
      split_ifs at h with hclose
      · obtain ⟨rfl, rfl⟩ := Prod.mk.inj (Except.ok.inj h)
        exact Or.inl ⟨rfl, w, hw, hs⟩
      · obtain ⟨t, w', ht, hw', heq⟩ := ihArgs h
        obtain ⟨t', ht', heq'⟩ := ht.prepend hw
        refine Or.inr ⟨t', w', ht', hw', ?_⟩
        rw [hs, heq, ← List.append_assoc, heq']
    · rw [parseArgs] at h
      split at h
      · cases h
      · next arg rest' harg =>
        obtain ⟨w, u, w', heq, hw, hw', hu⟩ := ihExpr harg
        obtain ⟨v, hv, hrest'⟩ := exists_skipped rest'
        have hblank : Blank (w' ++ v) := List.forall_mem_append.mpr ⟨hw', hv⟩
        dsimp only at h
        split_ifs at h with hcomma
        · obtain ⟨rfl, rfl⟩ := Prod.mk.inj (Except.ok.inj h)
          refine ⟨w ++ u, w' ++ v, .last hw hu, hblank, ?_⟩
          rw [heq, hrest', skipWS_append hv, skipWS_skipWS]
          simp
        · have hend := eq_cons_of_head? (Classical.not_not.mp hcomma)
          split at h
          · cases h
          · next args' rest'' hargs =>
            obtain ⟨rfl, rfl⟩ := Prod.mk.inj (Except.ok.inj h)
            obtain ⟨t, w'', ht, hw'', heq'⟩ := ihArgs hargs
            refine ⟨_, w'', .more hw hu hblank ht, hw'', ?_⟩
            rw [heq, hrest', hend, heq']
            simp

/-! ### Trimming -/

theorem isSpace_of_blank {c : Char} (h : isBlank c = true) : isSpace c = true := by
  rw [isBlank, Bool.or_eq_true, decide_eq_true_eq, decide_eq_true_eq] at h
  rcases h with rfl | rfl <;> decide

/-- A character that a token begins or ends with. -/
def isEdge (c : Char) : Bool := isIdent c || c = '"' || c = '\'' || c = ')'

theorem le_of_edge {c : Char} (h : isEdge c = true) : c ≤ 'z' := by
  simp only [isEdge, isIdent, Bool.or_eq_true, Bool.and_eq_true, decide_eq_true_eq] at h
  rcases h with (((((⟨-, h⟩ | ⟨-, h⟩) | ⟨-, h⟩) | rfl) | rfl) | rfl) | rfl
  · exact h
  · exact Char.le_trans h (by decide)
  · exact Char.le_trans h (by decide)
  all_goals decide

theorem not_space_of_edge {c : Char} (h : isEdge c = true) : isSpace c = false := by
  have hle := le_of_edge h
  by_contra hspace
  rw [Bool.not_eq_false] at hspace
  simp only [isSpace, Char.isWhitespace, Bool.or_eq_true, Bool.and_eq_true, decide_eq_true_eq,
    beq_iff_eq, or_assoc] at hspace
  rcases hspace with rfl | rfl | rfl | rfl | rfl | rfl | rfl | rfl | rfl | ⟨hge, -⟩ | rfl | rfl |
    rfl | rfl | rfl
  case inr.inr.inr.inr.inr.inr.inr.inr.inr.inl =>
    exact absurd (Char.le_trans hge hle) (by decide)
  all_goals exact absurd h (by decide)

theorem Prints.last {node : Node} {u : Text} (h : Prints node u) :
    ∃ c ∈ u.getLast?, isEdge c = true := by
  cases h with
  | @literal q s hq _ =>
    refine ⟨q, by simp [List.getLast?_cons], ?_⟩
    rcases hq with rfl | rfl <;> decide
  | varRef hn =>
    refine ⟨u.getLast hn.1, List.getLast?_eq_some_getLast hn.1, ?_⟩
    rw [isEdge, hn.2 _ (List.getLast_mem hn.1)]
    rfl
  | empty _ _ _ => exact ⟨')', by simp [List.getLast?_append, List.getLast?_cons], by decide⟩
  | call _ _ _ _ => exact ⟨')', by simp [List.getLast?_append, List.getLast?_cons], by decide⟩

theorem dropWhile_space {s : Text} (h : ∃ c ∈ s.head?, isEdge c = true) :
    s.dropWhile isSpace = s := by
  obtain ⟨c, hc, hedge⟩ := h
  obtain ⟨s', rfl⟩ : ∃ s', s = c :: s' := ⟨s.tail, eq_cons_of_head? hc⟩
  refine List.dropWhile_cons_of_neg ?_
  rw [not_space_of_edge hedge]
  exact Bool.false_ne_true

/-- The blanks around a printed form are trimmed, and nothing of it. -/
theorem Prints.trim {node : Node} {u w w' : Text} (h : Prints node u) (hw : Blank w)
    (hw' : Blank w') : TrimSpace (w ++ (u ++ w')) = u := by
  have hspace : ∀ c ∈ w, isSpace c = true := fun c hc => isSpace_of_blank (hw c hc)
  have hspace' : ∀ c ∈ w'.reverse, isSpace c = true :=
    fun c hc => isSpace_of_blank (hw' c (List.mem_reverse.mp hc))
  have hfirst : ∃ c ∈ (u ++ w').head?, isEdge c = true := by
    obtain ⟨c, v, rfl, hc⟩ := h.head
    refine ⟨c, rfl, ?_⟩
    rcases hc with (rfl | rfl) | hc
    · decide
    · decide
    · rw [isEdge, hc]
      rfl
  have hlast : ∃ c ∈ u.reverse.head?, isEdge c = true := by
    rw [List.head?_reverse]
    exact h.last
  rw [TrimSpace, List.dropWhile_append_of_pos hspace, dropWhile_space hfirst, List.reverse_append,
    List.dropWhile_append_of_pos hspace', dropWhile_space hlast, List.reverse_reverse]

/-! ### The grammar -/

theorem parse_of_printed {node : Node} {src : Text} (h : Printed node (TrimSpace src)) :
    parseExpression src = .ok node := by
  obtain ⟨w, u, w', hsrc, hw, hw', hu⟩ := h
  have hend : skipWS w' = [] := by
    have hskip := skipWS_append hw' []
    rwa [List.append_nil] at hskip
  have hstop : Stops w' := by
    intro c hc
    rw [hend] at hc
    cases hc
  obtain ⟨rest, hparsed, hrest⟩ := (parse_prints (3 * (TrimSpace src).length + 3)).1 hu hw hstop
    (by rw [← hsrc]; omega)
  rw [← hsrc] at hparsed
  rw [parseExpression]
  rw [hparsed]
  exact if_pos (hrest.trans hend)

theorem printed_of_parse {node : Node} {src : Text} (h : parseExpression src = .ok node) :
    Printed node (TrimSpace src) := by
  rw [parseExpression] at h
  split at h
  · cases h
  · next node' rest hparsed =>
    split_ifs at h with hrest
    obtain rfl := Except.ok.inj h
    obtain ⟨w, u, w', hsrc, hw, hw', hu⟩ := (prints_of_parse _).1 hparsed
    exact ⟨w, u, w' ++ rest, hsrc, hw,
      List.forall_mem_append.mpr ⟨hw', blank_of_skipWS hrest⟩, hu⟩

/-- A printed form is read back, and what is accepted is one between white space. -/
theorem parseExpression_iff (node : Node) (src : Text) :
    (Printed node src → parseExpression src = .ok node) ∧
      (parseExpression src = .ok node ↔ Printed node (TrimSpace src)) := by
  refine ⟨fun h => ?_, printed_of_parse, parse_of_printed⟩
  obtain ⟨w, u, w', rfl, hw, hw', hu⟩ := h
  refine parse_of_printed ⟨[], u, [], ?_, blank_nil, blank_nil, hu⟩
  rw [hu.trim hw hw', List.append_nil, List.nil_append]

/-- A line break in front of a variable. -/
theorem line_break_is_accepted : ¬∀ (src : Text) (node : Node),
    parseExpression src = .ok node → Printed node src := by
  intro h
  obtain ⟨w, u, w', hsrc, hw, -, hu⟩ := h ['\n', 'a'] (.varRef ['a']) rfl
  have hfirst : isBlank '\n' = true ∨ ∃ v, u ++ w' = '\n' :: v := by
    cases w with
    | nil => exact Or.inr ⟨['a'], hsrc.symm⟩
    | cons c w => exact Or.inl (hw _ ((List.cons.inj hsrc).1 ▸ List.mem_cons_self))
  rcases hfirst with hblank | ⟨v, hv⟩
  · exact absurd hblank (by decide)
  · obtain ⟨c, x, rfl, hc⟩ := hu.head
    obtain rfl : c = '\n' := (List.cons.inj hv).1
    rcases hc with (hc | hc) | hc <;> exact absurd hc (by decide)

end Swazz.SetVariables
