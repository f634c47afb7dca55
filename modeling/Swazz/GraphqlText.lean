import Mathlib.Data.List.Basic

/-! The text of a GraphQL operation, for the part of the grammar that has no aliases, directives,
fragment definitions or literal values: its tokens, its syntax tree, and a parser. -/
namespace GraphqlText

inductive Token where
  | name (text : List Char)
  | punctuator (c : Char)
  | spread
  deriving DecidableEq

def isNameStart (c : Char) : Bool := c.isAlpha || c = '_'

def isNameContinue (c : Char) : Bool := isNameStart c || c.isDigit

/-- Blanks, line ends and commas separate tokens and mean nothing. -/
def isIgnored (c : Char) : Bool := c ∈ [' ', '\t', '\n', '\r', ',']

def isPunctuator (c : Char) : Bool := c ∈ ['!', '$', '(', ')', ':', '[', ']', '\x7b', '\x7d']

def IsName (text : List Char) : Prop :=
  (∃ c s, text = c :: s ∧ isNameStart c) ∧ ∀ c ∈ text, isNameContinue c

def named (current : List Char) (tokens : List Token) : List Token :=
  if current = [] then tokens else .name current :: tokens

/-- The tokens of a text that follows the beginning `current` of a token: of a name, or one or
two of the dots of a spread. -/
def lexFrom : List Char → List Char → Option (List Token)
  | current, [] => if current.head? = some '.' then none else some (named current [])
  | current, c :: s =>
    if current.head? = some '.' then
      if c = '.' then
        if current = ['.'] then lexFrom ['.', '.'] s else (lexFrom [] s).map (.spread :: ·)
      else none
    else if isNameContinue c then
      if current = [] ∧ !isNameStart c then none else lexFrom (current ++ [c]) s
    else
      (if isIgnored c then lexFrom [] s
      else if isPunctuator c then (lexFrom [] s).map (.punctuator c :: ·)
      else if c = '.' then lexFrom ['.'] s
      else none).map (named current)

def lex (text : List Char) : Option (List Token) := lexFrom [] text

/-! Syntax trees. -/

inductive GqlType where
  | named (name : List Char)
  | list (of : GqlType)
  | nonNull (of : GqlType)
  deriving DecidableEq

/-- The selections of one selection set, in their order. An argument is a name with the variable
that is its value. -/
inductive Selections where
  | nil
  | field (name : List Char) (arguments : List (List Char × List Char)) (selections rest : Selections)
  | fragment (on : List Char) (selections rest : Selections)
  deriving DecidableEq

inductive Kind where
  | query | mutation
  deriving DecidableEq

structure Operation where
  kind : Kind
  name : Option (List Char)
  definitions : List (List Char × GqlType)
  selections : Selections
  deriving DecidableEq

/-! The parser. -/

def parseBang (t : GqlType) : List Token → GqlType × List Token
  | .punctuator '!' :: tokens => (.nonNull t, tokens)
  | tokens => (t, tokens)

def parseType : ℕ → List Token → Option (GqlType × List Token)
  | _ + 1, .name t :: tokens => some (parseBang (.named t) tokens)
  | n + 1, .punctuator '[' :: tokens =>
    match parseType n tokens with
    | some (t, .punctuator ']' :: tokens) => some (parseBang (.list t) tokens)
    | _ => none
  | _, _ => none

/-- The variable definitions after the opening bracket: there is at least one. -/
def parseVariables : ℕ → List Token → Option (List (List Char × GqlType) × List Token)
  | n + 1, .punctuator '$' :: .name v :: .punctuator ':' :: tokens =>
    match parseType n tokens with
    | none => none
    | some (t, .punctuator ')' :: tokens) => some ([(v, t)], tokens)
    | some (t, tokens) => (parseVariables n tokens).map fun p => ((v, t) :: p.1, p.2)
  | _, _ => none

/-- The arguments after the opening bracket: there is at least one. -/
def parseArguments : ℕ → List Token → Option (List (List Char × List Char) × List Token)
  | n + 1, .name a :: .punctuator ':' :: .punctuator '$' :: .name v :: tokens =>
    match tokens with
    | .punctuator ')' :: tokens => some ([(a, v)], tokens)
    | _ => (parseArguments n tokens).map fun p => ((a, v) :: p.1, p.2)
  | _, _ => none

def parseOptionalArguments (n : ℕ) :
    List Token → Option (List (List Char × List Char) × List Token)
  | .punctuator '(' :: tokens => parseArguments n tokens
  | tokens => some ([], tokens)

/-- A selection set is not empty. -/
def nonempty (p : Option (Selections × List Token)) : Option (Selections × List Token) :=
  p.filter (·.1 ≠ .nil)

/-- The selections after the opening brace, and what follows the closing one. -/
def parseSelections : ℕ → List Token → Option (Selections × List Token)
  | _ + 1, .punctuator '\x7d' :: tokens => some (.nil, tokens)
  | n + 1, .name f :: tokens =>
    match parseOptionalArguments n tokens with
    | none => none
    | some (args, .punctuator '\x7b' :: tokens) =>
      match nonempty (parseSelections n tokens) with
      | none => none
      | some (sub, tokens) =>
        (parseSelections n tokens).map fun p => (.field f args sub p.1, p.2)
    | some (args, tokens) =>
      (parseSelections n tokens).map fun p => (.field f args .nil p.1, p.2)
  | n + 1, .spread :: .name ['o', 'n'] :: .name t :: .punctuator '\x7b' :: tokens =>
    match nonempty (parseSelections n tokens) with
    | none => none
    | some (sub, tokens) => (parseSelections n tokens).map fun p => (.fragment t sub p.1, p.2)
  | _, _ => none

/-- A selection set with which the text ends. -/
def parseLast (n : ℕ) : List Token → Option Selections
  | .punctuator '\x7b' :: tokens =>
    match nonempty (parseSelections n tokens) with
    | some (sub, []) => some sub
    | _ => none
  | _ => none

def parseName : List Token → Option (List Char) × List Token
  | .name t :: tokens => (some t, tokens)
  | tokens => (none, tokens)

def parseOptionalVariables (n : ℕ) :
    List Token → Option (List (List Char × GqlType) × List Token)
  | .punctuator '(' :: tokens => parseVariables n tokens
  | tokens => some ([], tokens)

def parseKind (text : List Char) : Option Kind :=
  if text = "query".toList then some .query
  else if text = "mutation".toList then some .mutation
  else none

def parseTokens : List Token → Option Operation
  | .name kind :: tokens =>
    match parseKind kind with
    | none => none
    | some kind =>
      let (name, tokens) := parseName tokens
      match parseOptionalVariables tokens.length tokens with
      | none => none
      | some (definitions, tokens) =>
        (parseLast tokens.length tokens).map fun sub => ⟨kind, name, definitions, sub⟩
  | tokens => (parseLast tokens.length tokens).map fun sub => ⟨.query, none, [], sub⟩

def parse (text : List Char) : Option Operation := (lex text).bind parseTokens

/-! Lexing piece by piece. -/

/-- The text does not go on with a name. -/
def Ends (text : List Char) : Prop := ∀ c ∈ text.head?, isNameContinue c = false

/-- The text has these tokens, whatever follows that does not go on with a name. -/
def Spells (text : List Char) (tokens : List Token) : Prop :=
  ∀ s, Ends s → lex (text ++ s) = (lex s).map (tokens ++ ·)

/-- The text has these tokens, whatever follows. -/
def Closed (text : List Char) (tokens : List Token) : Prop :=
  ∀ s, lex (text ++ s) = (lex s).map (tokens ++ ·)

theorem lexFrom_ends {current s : List Char} (hdot : current.head? ≠ some '.') (h : Ends s) :
    lexFrom current s = (lex s).map (named current) := by
  have hnil : named [] = id := rfl
  cases s with
  | nil => simp [lex, lexFrom, hdot, hnil]
  | cons c s =>
    have hc : isNameContinue c = false := h c rfl
    simp [lex, lexFrom, hc, hdot, hnil]

theorem not_dot {c : Char} (h : isNameContinue c = true) : c ≠ '.' := by
  rintro rfl
  exact absurd h (by decide)

theorem lexFrom_name {c : Char} {current name : List Char} (hc : isNameContinue c = true)
    (hname : ∀ d ∈ name, isNameContinue d = true) (s : List Char) :
    lexFrom (c :: current) (name ++ s) = lexFrom (c :: (current ++ name)) s := by
  induction name generalizing current with
  | nil => rw [List.nil_append, List.append_nil]
  | cons d name ih =>
    have hdot : (c :: current).head? ≠ some '.' := fun h => not_dot hc (Option.some.inj h)
    rw [List.cons_append, lexFrom, if_neg hdot, if_pos (hname d List.mem_cons_self),
      if_neg (fun h => absurd h.1 (List.cons_ne_nil c current)), List.cons_append,
      ih fun e he => hname e (List.mem_cons_of_mem d he), List.append_assoc]
    rfl

theorem spells_name {name : List Char} (h : IsName name) : Spells name [.name name] := by
  intro s hs
  obtain ⟨⟨c, name, rfl, hstart⟩, hall⟩ := h
  have hc : isNameContinue c = true := hall c List.mem_cons_self
  have hdot : (c :: ([] ++ name)).head? ≠ some '.' := fun h => not_dot hc (Option.some.inj h)
  rw [List.cons_append, lex, lexFrom, if_neg (by simp), if_pos hc, if_neg (by simp [hstart]),
    List.nil_append, lexFrom_name hc fun d hd => hall d (List.mem_cons_of_mem c hd),
    lexFrom_ends hdot hs]
  rfl

theorem closed_nil : Closed [] [] := fun s => by simp

theorem closed_ignored {c : Char} (h : isIgnored c = true) : Closed [c] [] := by
  intro s
  have hc : isNameContinue c = false := by
    simp only [isIgnored, List.mem_cons, List.not_mem_nil, or_false, decide_eq_true_eq] at h
    rcases h with rfl | rfl | rfl | rfl | rfl <;> decide
  simp only [List.singleton_append, lex, lexFrom, hc, h, Bool.false_eq_true, if_false, if_true]
  rfl

theorem closed_punctuator {c : Char} (h : isPunctuator c = true) : Closed [c] [.punctuator c] := by
  intro s
  have hc : isNameContinue c = false ∧ isIgnored c = false := by
    simp only [isPunctuator, List.mem_cons, List.not_mem_nil, or_false, decide_eq_true_eq] at h
    rcases h with rfl | rfl | rfl | rfl | rfl | rfl | rfl | rfl | rfl <;> decide
  simp only [List.singleton_append, lex, lexFrom, hc, h, Bool.false_eq_true, if_false, if_true,
    Option.map_map]
  rfl

theorem closed_spread : Closed ['.', '.', '.'] [.spread] := by
  intro s
  change ((lex s).map (.spread :: ·)).map (named []) = _
  rw [Option.map_map]
  rfl

theorem Closed.append {t t' : List Char} {k k' : List Token} (h : Closed t k)
    (h' : Closed t' k') : Closed (t ++ t') (k ++ k') := by
  intro s
  rw [List.append_assoc, h, h', Option.map_map]
  exact congrArg (Option.map · (lex s)) (funext fun ts => (List.append_assoc k k' ts).symm)

theorem Closed.spells {t : List Char} {k : List Token} (h : Closed t k) : Spells t k :=
  fun s _ => h s

theorem Closed.append_spells {t t' : List Char} {k k' : List Token} (h : Closed t k)
    (h' : Spells t' k') : Spells (t ++ t') (k ++ k') := by
  intro s hs
  rw [List.append_assoc, h, h' s hs, Option.map_map]
  exact congrArg (Option.map · (lex s)) (funext fun ts => (List.append_assoc k k' ts).symm)

/-- A name ends where the next text begins with another character. -/
theorem Spells.append_closed {t t' : List Char} {k k' : List Token} (h : Spells t k)
    (h' : Closed t' k') (hends : Ends t') (hne : t' ≠ []) : Closed (t ++ t') (k ++ k') := by
  intro s
  have hs : Ends (t' ++ s) := by
    intro c hc
    rw [List.head?_append_of_ne_nil _ hne] at hc
    exact hends c hc
  rw [List.append_assoc, h _ hs, h', Option.map_map]
  exact congrArg (Option.map · (lex s)) (funext fun ts => (List.append_assoc k k' ts).symm)

theorem Closed.lex {t : List Char} {k : List Token} (h : Closed t k) : lex t = some k := by
  have := h []
  rwa [List.append_nil, show GraphqlText.lex [] = some [] from rfl, Option.map_some,
    List.append_nil] at this

theorem intercalate_cons_cons {α : Type*} (sep x y : List α) (l : List (List α)) :
    sep.intercalate (x :: y :: l) = x ++ (sep ++ sep.intercalate (y :: l)) := by
  simp [List.intercalate, List.intersperse]

/-- Pieces with a separator that means nothing between them. -/
theorem spells_intercalate {sep : List Char} (hsep : Closed sep []) (hends : Ends sep)
    (hne : sep ≠ []) {p : List Char} {k k' : List Token} {ps : List (List Char)}
    (h : Spells p k) (hrest : Spells (sep.intercalate ps) k') (hnil : ps = [] → k' = []) :
    Spells (sep.intercalate (p :: ps)) (k ++ k') := by
  cases ps with
  | nil =>
    rw [hnil rfl, List.append_nil]
    simpa [List.intercalate] using h
  | cons q ps =>
    rw [intercalate_cons_cons, ← List.append_assoc]
    have hp := h.append_closed hsep hends hne
    rw [List.append_nil] at hp
    exact hp.append_spells hrest

theorem ends_cons {c : Char} (h : isNameContinue c = false) (s : List Char) : Ends (c :: s) := by
  intro d hd
  cases hd
  exact h

/-! The tokens of a tree, and what the parser makes of them. -/

def GqlType.tokens : GqlType → List Token
  | .named t => [.name t]
  | .list t => .punctuator '[' :: (t.tokens ++ [.punctuator ']'])
  | .nonNull t => t.tokens ++ [.punctuator '!']

/-- No type is wrapped as non-null twice. -/
def GqlType.Proper : GqlType → Prop
  | .named _ => True
  | .list t => t.Proper
  | .nonNull t => t.Proper ∧ ∀ u, t ≠ .nonNull u

def variableTokens : List (List Char × GqlType) → List Token
  | [] => [.punctuator ')']
  | (v, t) :: vs =>
    .punctuator '$' :: .name v :: .punctuator ':' :: (t.tokens ++ variableTokens vs)

def argumentTokens : List (List Char × List Char) → List Token
  | [] => [.punctuator ')']
  | (a, v) :: args =>
    .name a :: .punctuator ':' :: .punctuator '$' :: .name v :: argumentTokens args

def optional (tokens : List α → List Token) (l : List α) : List Token :=
  if l.isEmpty then [] else .punctuator '(' :: tokens l

def braced (tokens : List Token) : List Token :=
  .punctuator '\x7b' :: (tokens ++ [.punctuator '\x7d'])

def Selections.tokens : Selections → List Token
  | .nil => []
  | .field f args sub rest =>
    .name f :: (optional argumentTokens args ++
      ((if sub = .nil then [] else braced sub.tokens) ++ rest.tokens))
  | .fragment t sub rest =>
    .spread :: .name ['o', 'n'] :: .name t :: (braced sub.tokens ++ rest.tokens)

/-- A fragment selects something. -/
def Selections.Proper : Selections → Prop
  | .nil => True
  | .field _ _ sub rest => sub.Proper ∧ rest.Proper
  | .fragment _ sub rest => sub ≠ .nil ∧ sub.Proper ∧ rest.Proper

/-- What the parser makes of the tokens of a type: it takes a bang along, unless it has one. -/
def withBang (t : GqlType) (r : List Token) : GqlType × List Token :=
  match t with
  | .nonNull _ => (t, r)
  | _ => parseBang t r

theorem withBang_punctuator (t : GqlType) {c : Char} (h : c ≠ '!') (r : List Token) :
    withBang t (.punctuator c :: r) = (t, .punctuator c :: r) := by
  have hbang : parseBang t (.punctuator c :: r) = (t, .punctuator c :: r) := by
    unfold parseBang
    split
    · rename_i heq
      simp only [List.cons.injEq, Token.punctuator.injEq] at heq
      exact absurd heq.1 h
    · rfl
  cases t with
  | nonNull t => rfl
  | named t => exact hbang
  | list t => exact hbang

theorem parseType_tokens {t : GqlType} (h : t.Proper) {n : ℕ} (hn : t.tokens.length ≤ n)
    (r : List Token) : parseType n (t.tokens ++ r) = some (withBang t r) := by
  induction t generalizing n r with
  | named t =>
    obtain ⟨n, rfl⟩ := Nat.exists_eq_add_of_le' (Nat.one_le_of_lt hn)
    rfl
  | list t ih =>
    rw [GqlType.tokens, List.length_cons, List.length_append, List.length_singleton] at hn
    obtain ⟨n, rfl⟩ := Nat.exists_eq_add_of_le' (Nat.one_le_of_lt hn)
    have hinner := ih h (n := n) (by omega) (.punctuator ']' :: r)
    rw [withBang_punctuator t (by decide)] at hinner
    simp only [GqlType.tokens, List.cons_append, List.append_assoc, List.nil_append, parseType,
      hinner]
    rfl
  | nonNull t ih =>
    rw [GqlType.tokens, List.length_append] at hn
    rw [GqlType.tokens, List.append_assoc, ih h.1 (by omega)]
    cases t with
    | nonNull u => exact absurd rfl (h.2 u)
    | named t => rfl
    | list t => rfl

theorem variableTokens_head (vs : List (List Char × GqlType)) :
    ∃ c k, variableTokens vs = .punctuator c :: k ∧ c ≠ '!' ∧ (vs ≠ [] → c ≠ ')') := by
  cases vs with
  | nil => exact ⟨')', [], rfl, by decide, fun h => absurd rfl h⟩
  | cons v vs => exact ⟨'$', _, rfl, by decide, fun _ => by decide⟩

theorem parseVariables_tokens {vs : List (List Char × GqlType)} (hne : vs ≠ [])
    (h : ∀ v ∈ vs, v.2.Proper) {n : ℕ} (hn : (variableTokens vs).length ≤ n) (r : List Token) :
    parseVariables n (variableTokens vs ++ r) = some (vs, r) := by
  induction vs generalizing n with
  | nil => exact absurd rfl hne
  | cons v vs ih =>
    obtain ⟨v, t⟩ := v
    simp only [variableTokens, List.length_cons, List.length_append] at hn
    obtain ⟨n, rfl⟩ := Nat.exists_eq_add_of_le' (show 1 ≤ n by omega)
    obtain ⟨c, k, hk, hbang, hclose⟩ := variableTokens_head vs
    have ht : t.Proper := h (v, t) List.mem_cons_self
    have htype := parseType_tokens ht (n := n) (by omega)
      (variableTokens vs ++ r)
    rw [hk, List.cons_append, withBang_punctuator t hbang, ← List.cons_append, ← hk] at htype
    simp only [variableTokens, List.cons_append, List.append_assoc, parseVariables, htype]
    by_cases hvs : vs = []
    · subst hvs
      rfl
    · have hrest := ih hvs (fun u hu => h u (List.mem_cons_of_mem _ hu)) (n := n) (by omega)
      rw [hk, List.cons_append] at hrest ⊢
      split
      · rename_i heq
        cases heq
      · rename_i heq
        simp only [Option.some.injEq, Prod.mk.injEq, List.cons.injEq, Token.punctuator.injEq]
          at heq
        exact absurd heq.2.1 (hclose hvs)
      · rename_i heq
        cases heq
        rw [hrest]
        rfl

theorem parseArguments_tokens {args : List (List Char × List Char)} (hne : args ≠ []) {n : ℕ}
    (hn : (argumentTokens args).length ≤ n) (r : List Token) :
    parseArguments n (argumentTokens args ++ r) = some (args, r) := by
  induction args generalizing n with
  | nil => exact absurd rfl hne
  | cons a args ih =>
    obtain ⟨a, v⟩ := a
    simp only [argumentTokens, List.length_cons] at hn
    obtain ⟨n, rfl⟩ := Nat.exists_eq_add_of_le' (show 1 ≤ n by omega)
    cases args with
    | nil => rfl
    | cons b args =>
      have hrest := ih (List.cons_ne_nil b args) (n := n) (by omega)
      simp only [argumentTokens, List.cons_append] at hrest ⊢
      simp only [parseArguments, hrest]
      rfl

/-- A token that does not go on with a field: no arguments, no selections. -/
def Token.Separates (t : Token) : Prop := t ≠ .punctuator '(' ∧ t ≠ .punctuator '\x7b'

theorem parseOptionalArguments_tokens (args : List (List Char × List Char)) {n : ℕ}
    (hn : (optional argumentTokens args).length ≤ n) {t : Token} (ht : t ≠ .punctuator '(')
    (r : List Token) :
    parseOptionalArguments n (optional argumentTokens args ++ t :: r) = some (args, t :: r) := by
  cases args with
  | nil =>
    simp only [optional, List.isEmpty_nil, if_true, List.nil_append]
    unfold parseOptionalArguments
    split
    · rename_i heq
      exact absurd (List.cons.inj heq).1 ht
    · rfl
  | cons a args =>
    simp only [optional, List.isEmpty_cons, Bool.false_eq_true, if_false, List.length_cons] at hn
    exact parseArguments_tokens (List.cons_ne_nil a args) (by omega) (t :: r)

theorem Selections.tokens_head (s : Selections) (r : List Token) :
    ∃ t k, s.tokens ++ .punctuator '\x7d' :: r = t :: k ∧ t.Separates := by
  cases s with
  | nil => exact ⟨_, _, rfl, by decide, by decide⟩
  | field f args sub rest => exact ⟨_, _, rfl, Token.noConfusion, Token.noConfusion⟩
  | fragment t sub rest => exact ⟨_, _, rfl, Token.noConfusion, Token.noConfusion⟩

theorem nonempty_some {s : Selections} (h : s ≠ .nil) (r : List Token) :
    nonempty (some (s, r)) = some (s, r) := by
  simp [nonempty, h]

theorem parseSelections_tokens {s : Selections} (h : s.Proper) {n : ℕ}
    (hn : s.tokens.length < n) (r : List Token) :
    parseSelections n (s.tokens ++ .punctuator '\x7d' :: r) = some (s, r) := by
  induction s generalizing n r with
  | nil =>
    obtain ⟨n, rfl⟩ := Nat.exists_eq_add_of_le' (Nat.one_le_of_lt hn)
    rfl
  | field f args sub rest ihsub ihrest =>
    simp only [Selections.tokens, List.length_cons, List.length_append] at hn
    obtain ⟨n, rfl⟩ := Nat.exists_eq_add_of_le' (show 1 ≤ n by omega)
    have hrest := ihrest h.2 (n := n) (by omega) r
    by_cases hsub : sub = .nil
    · subst hsub
      obtain ⟨t, k, hk, ht⟩ := rest.tokens_head r
      have hargs := parseOptionalArguments_tokens args (n := n) (by omega)
        ht.1 k
      simp only [Selections.tokens, List.cons_append, List.append_assoc, if_true, List.nil_append,
        hk, parseSelections, hargs]
      rw [hk] at hrest
      split
      · rename_i heq
        cases heq
      · rename_i heq
        cases heq
        exact absurd rfl ht.2
      · rename_i heq
        cases heq
        rw [hrest]
        rfl
    · rw [if_neg hsub, braced, List.length_cons, List.length_append] at hn
      have hargs := parseOptionalArguments_tokens args (n := n) (by omega)
        (t := .punctuator '\x7b') (by decide)
        (sub.tokens ++ .punctuator '\x7d' :: (rest.tokens ++ .punctuator '\x7d' :: r))
      have hsubs := ihsub h.1 (n := n) (by omega) (rest.tokens ++ .punctuator '\x7d' :: r)
      simp only [Selections.tokens, List.cons_append, List.append_assoc, if_neg hsub, braced,
        List.nil_append, parseSelections, hargs, hsubs, nonempty_some hsub, hrest]
      rfl
  | fragment t sub rest ihsub ihrest =>
    simp only [Selections.tokens, braced, List.length_cons, List.length_append] at hn
    obtain ⟨n, rfl⟩ := Nat.exists_eq_add_of_le' (show 1 ≤ n by omega)
    have hsubs := ihsub h.2.1 (n := n) (by omega) (rest.tokens ++ .punctuator '\x7d' :: r)
    have hrest := ihrest h.2.2 (n := n) (by omega) r
    simp only [Selections.tokens, List.cons_append, List.append_assoc, braced, List.nil_append,
      parseSelections, hsubs, nonempty_some h.1, hrest]
    rfl

def Kind.text : Kind → List Char
  | .query => "query".toList
  | .mutation => "mutation".toList

theorem parseKind_text (kind : Kind) : parseKind kind.text = some kind := by
  cases kind with
  | query => rfl
  | mutation => rfl

theorem parseLast_braced {s : Selections} (h : s.Proper) (hne : s ≠ .nil) {n : ℕ}
    (hn : s.tokens.length < n) : parseLast n (braced s.tokens) = some s := by
  rw [braced, parseLast, parseSelections_tokens h hn, nonempty_some hne]

/-- A query without a name is its selection set. -/
theorem parseTokens_braced {s : Selections} (h : s.Proper) (hne : s ≠ .nil) :
    parseTokens (braced s.tokens) = some ⟨.query, none, [], s⟩ := by
  have hlast := parseLast_braced h hne (n := (braced s.tokens).length)
    (by simp only [braced, List.length_cons, List.length_append]; omega)
  rw [braced] at hlast ⊢
  rw [parseTokens, hlast]
  · rfl
  · intro kind tokens heq
    cases heq

theorem parseTokens_operation (kind : Kind) (name : Option (List Char))
    {definitions : List (List Char × GqlType)} (hdefs : ∀ v ∈ definitions, v.2.Proper)
    {s : Selections} (h : s.Proper) (hne : s ≠ .nil) :
    parseTokens (.name kind.text :: (name.toList.map .name ++
      (optional variableTokens definitions ++ braced s.tokens))) =
        some ⟨kind, name, definitions, s⟩ := by
  have hname : parseName (name.toList.map .name ++
      (optional variableTokens definitions ++ braced s.tokens)) =
        (name, optional variableTokens definitions ++ braced s.tokens) := by
    cases name with
    | some name => rfl
    | none =>
      cases definitions with
      | nil => rfl
      | cons v vs => rfl
  have hlast : ∀ n, (braced s.tokens).length ≤ n →
      parseLast n (braced s.tokens) = some s := by
    intro n hn
    apply parseLast_braced h hne
    simp only [braced, List.length_cons, List.length_append] at hn
    omega
  simp only [parseTokens, parseKind_text, hname]
  cases definitions with
  | nil =>
    simp only [optional, List.isEmpty_nil, if_true, List.nil_append]
    rw [show parseOptionalVariables (braced s.tokens).length (braced s.tokens) =
      some ([], braced s.tokens) from rfl]
    simp only [hlast _ (Nat.le_refl _), Option.map_some]
  | cons v vs =>
    simp only [optional, List.isEmpty_cons, Bool.false_eq_true, if_false, List.cons_append,
      parseOptionalVariables]
    rw [parseVariables_tokens (List.cons_ne_nil v vs) hdefs
      (by simp only [List.length_cons, List.length_append]; omega)]
    simp only [hlast _ (Nat.le_refl _), Option.map_some]

end GraphqlText
