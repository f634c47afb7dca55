import Mathlib.Data.List.Basic
import Mathlib.Data.List.Induction

/-! The tokens of a JSON text, and how they are put together when the text is cut into lines. -/
namespace JsonTokens

/-- A string is kept as it is written; a word is a literal or the characters of a number. -/
inductive Token where
  | punctuator (c : Char)
  | string (raw : List Char)
  | word (raw : List Char)
  deriving DecidableEq

def isBlank (c : Char) : Bool := c ∈ [' ', '\t', '\n', '\r']

def isPunctuator (c : Char) : Bool := c ∈ ['\x7b', '\x7d', '[', ']', ':', ',']

def isWordChar (c : Char) : Bool := c.isAlphanum || c ∈ ['+', '-', '.']

def isWord (w : List Char) : Bool :=
  w ∈ ["true".toList, "false".toList, "null".toList] ||
    w.head?.any (fun c => c.isDigit || c = '-') &&
      w.all fun c => c.isDigit || c ∈ ['+', '-', '.', 'e', 'E']

inductive State where
  | idle
  | word (w : List Char)
  | string (w : List Char) (escaped : Bool)

/-- What a character between tokens begins. -/
def opens (c : Char) : Option (State × List Token) :=
  if isBlank c then some (.idle, [])
  else if isPunctuator c then some (.idle, [.punctuator c])
  else if c = '"' then some (.string [] false, [])
  else if isWordChar c then some (.word [c], [])
  else none

/-- One character: the next state and the tokens that it ends. -/
def next : State → Char → Option (State × List Token)
  | .idle, c => opens c
  | .word w, c =>
    if isWordChar c then some (.word (w ++ [c]), [])
    else if isWord w then (opens c).map fun p => (p.1, .word w :: p.2)
    else none
  | .string w escaped, c =>
    if c < ' ' then none
    else if escaped then some (.string (w ++ [c]) false, [])
    else if c = '\\' then some (.string (w ++ [c]) true, [])
    else if c = '"' then some (.idle, [.string w])
    else some (.string (w ++ [c]) false, [])

def ending : State → Option (List Token)
  | .idle => some []
  | .word w => if isWord w then some [.word w] else none
  | .string .. => none

def lexFrom : State → List Char → Option (List Token)
  | st, [] => ending st
  | st, c :: s =>
    match next st c with
    | none => none
    | some (st, ts) => (lexFrom st s).map (ts ++ ·)

def lex (s : List Char) : Option (List Token) := lexFrom .idle s

/-- The tokens of two texts, one after the other. -/
def joined (a b : Option (List Token)) : Option (List Token) :=
  a.bind fun ts => b.map (ts ++ ·)

@[simp] theorem joined_some (ts : List Token) (b : Option (List Token)) :
    joined (some ts) b = b.map (ts ++ ·) := rfl

@[simp] theorem joined_none (b : Option (List Token)) : joined none b = none := rfl

@[simp] theorem joined_nil (a : Option (List Token)) : joined a (some []) = a := by
  cases a with
  | none => rfl
  | some ts => simp

theorem joined_eq_some {a b : Option (List Token)} {ts : List Token} :
    joined a b = some ts ↔ ∃ x y, a = some x ∧ b = some y ∧ x ++ y = ts := by
  simp [joined, Option.bind_eq_some_iff]

theorem map_append_joined (ts : List Token) (a b : Option (List Token)) :
    (joined a b).map (ts ++ ·) = joined (a.map (ts ++ ·)) b := by
  cases a with
  | none => rfl
  | some x =>
    cases b with
    | none => rfl
    | some y => simp

/-- No token goes on behind a line end. -/
theorem lexFrom_lineEnd {n : Char} (hn : n = '\n' ∨ n = '\r') (st : State) (a b : List Char) :
    lexFrom st (a ++ n :: b) = joined (lexFrom st a) (lex b) := by
  induction a generalizing st with
  | nil =>
    have hopens : opens n = some (.idle, []) := by rcases hn with rfl | rfl <;> rfl
    have hword : isWordChar n = false := by rcases hn with rfl | rfl <;> decide
    have hcontrol : n < ' ' := by rcases hn with rfl | rfl <;> decide
    rw [List.nil_append]
    cases st with
    | idle =>
      simp only [lexFrom, next, hopens]
      rfl
    | string w escaped =>
      simp only [lexFrom, next, if_pos hcontrol]
      rfl
    | word w =>
      simp only [next, hword, hopens, lexFrom, ending]
      by_cases hw : isWord w = true
      · simp only [hw, if_true]
        rfl
      · simp only [hw]
        rfl
  | cons c a ih =>
    rw [List.cons_append, lexFrom, lexFrom]
    cases next st c with
    | none => rfl
    | some p =>
      simp only [ih]
      exact map_append_joined p.2 _ _

theorem lex_lineEnd {n : Char} (hn : n = '\n' ∨ n = '\r') (a b : List Char) :
    lex (a ++ n :: b) = joined (lex a) (lex b) := lexFrom_lineEnd hn .idle a b

theorem isWordChar_of_blank {c : Char} (h : isBlank c = true) : isWordChar c = false := by
  simp only [isBlank, List.mem_cons, List.not_mem_nil, or_false, decide_eq_true_eq] at h
  rcases h with rfl | rfl | rfl | rfl <;> decide

theorem isWordChar_of_opens {c : Char} (h : opens c = none) : isWordChar c = false := by
  by_contra hword
  simp only [Bool.not_eq_false] at hword
  unfold opens at h
  simp only [hword, if_true] at h
  split at h
  · cases h
  · split at h
    · cases h
    · split at h <;> cases h

/-! White space: characters that are blank or begin no token. -/

section Spaces

variable {space : Char → Bool} (hspace : ∀ c, space c = true → isBlank c = true ∨ opens c = none)

include hspace

theorem lex_dropWhile {s : List Char} {ts : List Token} (h : lex s = some ts) :
    lex (s.dropWhile space) = some ts := by
  induction s with
  | nil => exact h
  | cons c s ih =>
    by_cases hc : space c = true
    · rw [List.dropWhile_cons_of_pos hc]
      apply ih
      rw [lex, lexFrom, next] at h
      rcases hspace c hc with hblank | hnone
      · rw [show opens c = some (.idle, []) from if_pos hblank] at h
        simpa [lex] using h
      · rw [hnone] at h
        cases h
    · rw [List.dropWhile_cons_of_neg hc]
      exact h

theorem lexFrom_concat {st : State} {s : List Char} {c : Char} (hc : space c = true)
    {ts : List Token} (h : lexFrom st (s ++ [c]) = some ts) : lexFrom st s = some ts := by
  induction s generalizing st ts with
  | nil =>
    have hword : isWordChar c = false := by
      rcases hspace c hc with hblank | hnone
      · exact isWordChar_of_blank hblank
      · exact isWordChar_of_opens hnone
    have hopens : opens c = none ∨ opens c = some (.idle, []) := by
      rcases hspace c hc with hblank | hnone
      · exact Or.inr (if_pos hblank)
      · exact Or.inl hnone
    rw [List.nil_append, lexFrom] at h
    cases st with
    | idle =>
      rw [next] at h
      rcases hopens with hopens | hopens
      · rw [hopens] at h
        cases h
      · rw [hopens] at h
        exact h
    | string w escaped =>
      -- after a character inside a string the string is still open, or has just been closed by
      -- a quote, which is not white space
      have hquote : c ≠ '"' := by
        rintro rfl
        rcases hspace '"' hc with hblank | hnone
        · exact absurd hblank (by decide)
        · exact absurd hnone (by decide)
      rw [next] at h
      split at h
      · cases h
      · rename_i hnext
        split at hnext
        · cases hnext
        · split at hnext
          · cases hnext
            cases h
          · split at hnext
            · cases hnext
              cases h
            · cases hnext
              cases h
    | word w =>
      simp only [next, hword] at h
      by_cases hw : isWord w = true
      · rcases hopens with hopens | hopens
        · simp [hopens] at h
        · simp only [hw, hopens, if_true] at h
          simpa [lexFrom, ending, hw] using h
      · simp [hw] at h
  | cons d s ih =>
    rw [List.cons_append, lexFrom] at h
    rw [lexFrom]
    cases hnext : next st d with
    | none =>
      rw [hnext] at h
      cases h
    | some p =>
      rw [hnext] at h
      obtain ⟨us, hus, rfl⟩ := Option.map_eq_some_iff.mp h
      simp only [ih hus, Option.map_some]

theorem lex_trimRight {s : List Char} {ts : List Token} (h : lex s = some ts) :
    lex (s.reverse.dropWhile space).reverse = some ts := by
  induction s using List.reverseRecOn with
  | nil => exact h
  | append_singleton s c ih =>
    rw [List.reverse_append, List.reverse_singleton, List.singleton_append]
    by_cases hc : space c = true
    · rw [List.dropWhile_cons_of_pos hc]
      exact ih (lexFrom_concat hspace hc h)
    · rw [List.dropWhile_cons_of_neg hc]
      simpa using h

/-- The white space at both ends of a text means nothing. -/
theorem lex_trim {s : List Char} {ts : List Token} (h : lex s = some ts) :
    lex ((s.dropWhile space).reverse.dropWhile space).reverse = some ts :=
  lex_trimRight hspace (lex_dropWhile hspace h)

end Spaces

end JsonTokens
