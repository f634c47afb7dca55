import Mathlib.Data.List.Basic

/-! The tokens of a JSON text in code units: bytes, UTF-16 units or code points. -/
namespace JsonUnits

/-- A string is kept as it is written; a word is a literal or the digits and signs of a number. -/
inductive Token where
  | punctuator (c : ℕ)
  | string (raw : List ℕ)
  | word (raw : List ℕ)
  deriving DecidableEq

def isBlank (c : ℕ) : Bool := c ∈ [9, 10, 13, 32]

def isPunctuator (c : ℕ) : Bool := c ∈ [44, 58, 91, 93, 123, 125]

def isWordUnit (c : ℕ) : Bool :=
  (48 ≤ c && c ≤ 57) || (65 ≤ c && c ≤ 90) || (97 ≤ c && c ≤ 122) || c ∈ [43, 45, 46]

inductive Mode where
  | idle
  | word (w : List ℕ)
  | string (w : List ℕ) (escaped : Bool)

/-- What a unit between tokens begins. -/
def opens (c : ℕ) : Option (Mode × List Token) :=
  if isBlank c then some (.idle, [])
  else if isPunctuator c then some (.idle, [.punctuator c])
  else if c = 34 then some (.string [] false, [])
  else if isWordUnit c then some (.word [c], [])
  else none

/-- The word that a unit between tokens ends. -/
def Mode.done : Mode → List Token
  | .word w => [.word w]
  | _ => []

/-- One unit: the next mode and the tokens that it ends. -/
def next : Mode → ℕ → Option (Mode × List Token)
  | .idle, c => opens c
  | .word w, c =>
    if isWordUnit c then some (.word (w ++ [c]), [])
    else (opens c).map fun p => (p.1, .word w :: p.2)
  | .string w escaped, c =>
    if escaped then some (.string (w ++ [c]) false, [])
    else if c = 92 then some (.string (w ++ [c]) true, [])
    else if c = 34 then some (.idle, [.string w])
    else some (.string (w ++ [c]) false, [])

def ending : Mode → Option (List Token)
  | .string .. => none
  | m => some m.done

def lexFrom : Mode → List ℕ → Option (List Token)
  | m, [] => ending m
  | m, c :: s =>
    match next m c with
    | none => none
    | some (m, ts) => (lexFrom m s).map (ts ++ ·)

def lex (s : List ℕ) : Option (List Token) := lexFrom .idle s

/-- Between tokens, or in a word. -/
def Mode.Outside : Mode → Prop
  | .string .. => False
  | _ => True

theorem outside_idle : Mode.Outside .idle := trivial

theorem lexFrom_some {m m' : Mode} {c : ℕ} {ts : List Token} (h : next m c = some (m', ts))
    (s : List ℕ) : lexFrom m (c :: s) = (lexFrom m' s).map (ts ++ ·) := by
  rw [lexFrom, h]

theorem lexFrom_none {m : Mode} {c : ℕ} (h : next m c = none) (s : List ℕ) :
    lexFrom m (c :: s) = none := by
  rw [lexFrom, h]

theorem map_nil_append (r : Option (List Token)) : r.map ([] ++ ·) = r := by
  simp

theorem map_map_append (r : Option (List Token)) (ts us : List Token) :
    (r.map (us ++ ·)).map (ts ++ ·) = r.map (ts ++ us ++ ·) := by
  rw [Option.map_map]
  congr 1
  funext x
  exact (List.append_assoc ts us x).symm

theorem isWordUnit_of_blank {c : ℕ} (h : isBlank c) : isWordUnit c = false := by
  simp only [isBlank, List.mem_cons, List.not_mem_nil, or_false, decide_eq_true_eq] at h
  rcases h with rfl | rfl | rfl | rfl <;> rfl

theorem isWordUnit_of_punctuator {c : ℕ} (h : isPunctuator c) : isWordUnit c = false := by
  simp only [isPunctuator, List.mem_cons, List.not_mem_nil, or_false, decide_eq_true_eq] at h
  rcases h with rfl | rfl | rfl | rfl | rfl | rfl <;> rfl

/-- A unit that is no part of a word ends the word before it. -/
theorem next_outside {m : Mode} (hm : m.Outside) {c : ℕ} (hc : isWordUnit c = false) :
    next m c = (opens c).map fun p => (p.1, m.done ++ p.2) := by
  cases m with
  | idle =>
    rw [next]
    cases opens c <;> rfl
  | word w =>
    rw [next, if_neg (Bool.eq_false_iff.mp hc)]
    rfl
  | string w escaped => exact hm.elim

theorem next_blank {m : Mode} (hm : m.Outside) {c : ℕ} (hc : isBlank c) :
    next m c = some (.idle, m.done) := by
  rw [next_outside hm (isWordUnit_of_blank hc), opens, if_pos hc]
  simp

theorem next_punctuator {m : Mode} (hm : m.Outside) {c : ℕ} (hc : isPunctuator c) :
    next m c = some (.idle, m.done ++ [.punctuator c]) := by
  have hblank : ¬ isBlank c := by
    simp only [isPunctuator, List.mem_cons, List.not_mem_nil, or_false, decide_eq_true_eq] at hc
    rcases hc with rfl | rfl | rfl | rfl | rfl | rfl <;> decide
  rw [next_outside hm (isWordUnit_of_punctuator hc), opens, if_neg hblank, if_pos hc]
  rfl

theorem next_quote {m : Mode} (hm : m.Outside) :
    next m 34 = some (.string [] false, m.done) := by
  rw [next_outside hm (by decide)]
  simp [opens, isBlank, isPunctuator]

/-- Between tokens a slash and what is not ASCII begin no token. -/
theorem next_foreign {m : Mode} (hm : m.Outside) {c : ℕ} (hc : c = 47 ∨ 128 ≤ c) :
    next m c = none := by
  have hword : isWordUnit c = false := by
    simp [isWordUnit]
    omega
  have hopens : opens c = none := by
    have hblank : isBlank c = false := by
      simp [isBlank]
      omega
    have hpunctuator : isPunctuator c = false := by
      simp [isPunctuator]
      omega
    have hquote : c ≠ 34 := by omega
    rw [opens, hblank, hpunctuator, hword, if_neg hquote]
    rfl
  rw [next_outside hm hword, hopens]
  rfl

/-- Behind a unit that is no quote the lexer stays outside of strings. -/
theorem outside_of_next {m m' : Mode} (hm : m.Outside) {c : ℕ} (hc : c ≠ 34) {ts : List Token}
    (h : next m c = some (m', ts)) : m'.Outside := by
  have hopens {p : Mode × List Token} (hp : opens c = some p) : p.1.Outside := by
    rw [opens] at hp
    split at hp
    · cases hp
      trivial
    · split at hp
      · cases hp
        trivial
      · split at hp
        · cases hp
          trivial
        · cases hp
  cases m with
  | idle => exact hopens h
  | word w =>
    rw [next] at h
    split at h
    · cases h
      trivial
    · obtain ⟨p, hp, hm'⟩ := Option.map_eq_some_iff.mp h
      cases hm'
      exact hopens hp
  | string w escaped => exact hm.elim

/-- However many blanks stand between two tokens. -/
theorem lexFrom_blanks {m : Mode} (hm : m.Outside) {bs : List ℕ} (hne : bs ≠ [])
    (hbs : ∀ c ∈ bs, isBlank c) (s : List ℕ) :
    lexFrom m (bs ++ s) = (lexFrom .idle s).map (m.done ++ ·) := by
  induction bs generalizing m with
  | nil => exact absurd rfl hne
  | cons c bs ih =>
    obtain ⟨hc, hbs⟩ := List.forall_mem_cons.mp hbs
    rw [List.cons_append, lexFrom_some (next_blank hm hc)]
    by_cases hnil : bs = []
    · rw [hnil, List.nil_append]
    · rw [ih (m := .idle) trivial hnil hbs]
      exact congrArg _ (map_nil_append _)

theorem lexFrom_done {m : Mode} (hm : m.Outside) : lexFrom m [] = some m.done := by
  cases m with
  | string w escaped => exact hm.elim
  | _ => rfl

/-! ### The text of a token -/

def Token.text : Token → List ℕ
  | .punctuator c => [c]
  | .string raw => 34 :: (raw ++ [34])
  | .word raw => raw

/-- In a string every quote stands behind a backslash that is not behind one itself. -/
def closed : Bool → List ℕ → Bool
  | escaped, [] => !escaped
  | true, _ :: s => closed false s
  | false, c :: s => if c = 92 then closed true s else c ≠ 34 && closed false s

def Token.Proper : Token → Prop
  | .punctuator c => isPunctuator c
  | .string raw => closed false raw
  | .word raw => raw ≠ [] ∧ ∀ c ∈ raw, isWordUnit c

theorem lexFrom_closed {raw : List ℕ} {escaped : Bool} (h : closed escaped raw) (w s : List ℕ) :
    lexFrom (.string w escaped) (raw ++ 34 :: s) =
      (lexFrom .idle s).map (.string (w ++ raw) :: ·) := by
  induction raw generalizing w escaped with
  | nil =>
    cases escaped with
    | true => cases h
    | false =>
      have hnext : next (.string w false) 34 = some (.idle, [.string w]) := rfl
      rw [List.nil_append, List.append_nil, lexFrom_some hnext]
      rfl
  | cons c raw ih =>
    have hstep {x : Bool} (hc : closed x raw)
        (hnext : next (.string w escaped) c = some (.string (w ++ [c]) x, [])) :
        lexFrom (.string w escaped) (c :: raw ++ 34 :: s) =
          (lexFrom .idle s).map (.string (w ++ c :: raw) :: ·) := by
      rw [List.cons_append, lexFrom_some hnext, map_nil_append, ih hc, List.append_assoc,
        List.singleton_append]
    cases escaped with
    | true => exact hstep (x := false) h rfl
    | false =>
      rw [closed] at h
      split at h
      · rename_i hback
        exact hstep h (by rw [next, if_neg (by decide), if_pos hback])
      · rename_i hback
        rw [Bool.and_eq_true, decide_eq_true_eq] at h
        exact hstep h.2 (by rw [next, if_neg (by decide), if_neg hback, if_neg h.1])

theorem lexFrom_word {raw : List ℕ} (h : ∀ c ∈ raw, isWordUnit c) (w s : List ℕ) :
    lexFrom (.word w) (raw ++ s) = lexFrom (.word (w ++ raw)) s := by
  induction raw generalizing w with
  | nil => rw [List.nil_append, List.append_nil]
  | cons c raw ih =>
    obtain ⟨hc, hraw⟩ := List.forall_mem_cons.mp h
    have hnext : next (.word w) c = some (.word (w ++ [c]), []) := by
      rw [next, if_pos hc]
    rw [List.cons_append, lexFrom_some hnext, map_nil_append, ih hraw, List.append_assoc,
      List.singleton_append]

/-- A token that is no word, from any mode outside of strings. -/
theorem lexFrom_token {t : Token} (h : t.Proper) (hword : ∀ raw, t ≠ .word raw) {m : Mode}
    (hm : m.Outside) (s : List ℕ) :
    lexFrom m (t.text ++ s) = (lexFrom .idle s).map (m.done ++ [t] ++ ·) := by
  cases t with
  | punctuator c =>
    rw [Token.text, List.singleton_append, lexFrom_some (next_punctuator hm h)]
  | string raw =>
    rw [Token.text, List.cons_append, lexFrom_some (next_quote hm), List.append_assoc,
      List.singleton_append, lexFrom_closed h, Option.map_map]
    congr 1
    funext ts
    simp
  | word raw => exact absurd rfl (hword raw)

theorem lexFrom_idle_word {raw : List ℕ} (h : (Token.word raw).Proper) (s : List ℕ) :
    lexFrom .idle (raw ++ s) = lexFrom (.word raw) s := by
  obtain ⟨hne, hall⟩ := h
  cases raw with
  | nil => exact absurd rfl hne
  | cons c raw =>
    obtain ⟨hc, hraw⟩ := List.forall_mem_cons.mp hall
    have hblank : ¬ isBlank c := by
      intro hb
      rw [isWordUnit_of_blank hb] at hc
      cases hc
    have hpunctuator : ¬ isPunctuator c := by
      intro hp
      rw [isWordUnit_of_punctuator hp] at hc
      cases hc
    have hquote : c ≠ 34 := by
      rintro rfl
      cases hc
    have hnext : next .idle c = some (.word [c], []) := by
      rw [next, opens, if_neg hblank, if_neg hpunctuator, if_neg hquote, if_pos hc]
    rw [List.cons_append, lexFrom_some hnext, map_nil_append, lexFrom_word hraw,
      List.singleton_append]

/-! ### Encodings -/

/-- An encoding of code points that leaves ASCII as it is and keeps clear of it elsewhere. -/
structure KeepsAscii (e : ℕ → List ℕ) : Prop where
  ascii : ∀ c < 128, e c = [c]
  ne_nil : ∀ c, e c ≠ []
  beyond : ∀ c, 128 ≤ c → ∀ x ∈ e c, 128 ≤ x

def Token.encode (e : ℕ → List ℕ) : Token → Token
  | .punctuator c => .punctuator c
  | .string raw => .string (raw.flatMap e)
  | .word raw => .word (raw.flatMap e)

def Mode.encode (e : ℕ → List ℕ) : Mode → Mode
  | .idle => .idle
  | .word w => .word (w.flatMap e)
  | .string w escaped => .string (w.flatMap e) escaped

variable {e : ℕ → List ℕ}

theorem outside_encode {m : Mode} (hm : m.Outside) : (m.encode e).Outside := by
  cases m with
  | string w escaped => exact hm.elim
  | _ => trivial

theorem done_encode (m : Mode) : (m.encode e).done = m.done.map (Token.encode e) := by
  cases m <;> rfl

theorem opens_encode (he : KeepsAscii e) {c : ℕ} (hc : c < 128) :
    opens c = (opens c).map fun p => (p.1.encode e, p.2.map (Token.encode e)) := by
  rw [opens]
  split
  · rfl
  · split
    · rfl
    · split
      · rfl
      · split
        · simp [Mode.encode, he.ascii c hc]
        · rfl

/-- An ASCII unit does in the encoded text what it does in the text. -/
theorem next_encode (he : KeepsAscii e) (m : Mode) {c : ℕ} (hc : c < 128) :
    next (m.encode e) c =
      (next m c).map fun p => (p.1.encode e, p.2.map (Token.encode e)) := by
  have hadd (w : List ℕ) : (w ++ [c]).flatMap e = w.flatMap e ++ [c] := by
    rw [List.flatMap_append, List.flatMap_singleton, he.ascii c hc]
  cases m with
  | idle => exact opens_encode he hc
  | word w =>
    rw [Mode.encode, next, next]
    split
    · rw [Option.map_some, Mode.encode, hadd]
      rfl
    · calc (opens c).map (fun p => (p.1, .word (w.flatMap e) :: p.2))
          = ((opens c).map fun p => (p.1.encode e, p.2.map (Token.encode e))).map
              fun p => (p.1, .word (w.flatMap e) :: p.2) := congrArg _ (opens_encode he hc)
        _ = ((opens c).map fun p => (p.1, .word w :: p.2)).map
              fun p => (p.1.encode e, p.2.map (Token.encode e)) := by
            rw [Option.map_map, Option.map_map]
            rfl
  | string w escaped =>
    rw [Mode.encode, next, next]
    split
    · rw [Option.map_some, Mode.encode, hadd]
      rfl
    · split
      · rw [Option.map_some, Mode.encode, hadd]
        rfl
      · split
        · rfl
        · rw [Option.map_some, Mode.encode, hadd]
          rfl

/-- The units of a code point in a string. -/
theorem lexFrom_string {x : List ℕ} (hx : ∀ u ∈ x, 128 ≤ u) (w s : List ℕ) :
    lexFrom (.string w false) (x ++ s) = lexFrom (.string (w ++ x) false) s := by
  induction x generalizing w with
  | nil => rw [List.nil_append, List.append_nil]
  | cons u x ih =>
    obtain ⟨hu, hx⟩ := List.forall_mem_cons.mp hx
    have hnext : next (.string w false) u = some (.string (w ++ [u]) false, []) := by
      rw [next, if_neg (by decide), if_neg (by omega), if_neg (by omega)]
    rw [List.cons_append, lexFrom_some hnext, map_nil_append, ih hx, List.append_assoc,
      List.singleton_append]

theorem lexFrom_escaped {x : List ℕ} (hne : x ≠ []) (hx : ∀ u ∈ x, 128 ≤ u) (w s : List ℕ) :
    lexFrom (.string w true) (x ++ s) = lexFrom (.string (w ++ x) false) s := by
  cases x with
  | nil => exact absurd rfl hne
  | cons u x =>
    have hnext : next (.string w true) u = some (.string (w ++ [u]) false, []) := rfl
    rw [List.cons_append, lexFrom_some hnext, map_nil_append,
      lexFrom_string (List.forall_mem_cons.mp hx).2, List.append_assoc, List.singleton_append]

end JsonUnits
