import Mathlib.Data.List.Basic

/-! JSON texts in code units: the value that a text is read as, and how strings are written. -/
namespace JsonText

/-- A number is kept as it is written, an object as its members in order. -/
inductive Value where
  | null
  | bool (b : Bool)
  | number (text : List ℕ)
  | string (s : List ℕ)
  | array (items : List Value)
  | object (members : List (List ℕ × Value))

def isBlank (c : ℕ) : Bool := c ∈ [0x20, 0x09, 0x0A, 0x0D]

def isDigit (c : ℕ) : Bool := 0x30 ≤ c && c ≤ 0x39

def hexDigit (c : ℕ) : Option ℕ :=
  if isDigit c then some (c - 0x30)
  else if 0x41 ≤ c ∧ c ≤ 0x46 then some (c - 0x41 + 10)
  else if 0x61 ≤ c ∧ c ≤ 0x66 then some (c - 0x61 + 10)
  else none

/-- The character of an escape of one letter. -/
def escape (c : ℕ) : Option ℕ :=
  if c ∈ [0x22, 0x5C, 0x2F] then some c
  else if c = 0x62 then some 0x08
  else if c = 0x66 then some 0x0C
  else if c = 0x6E then some 0x0A
  else if c = 0x72 then some 0x0D
  else if c = 0x74 then some 0x09
  else none

/-- The rest of a string, after its opening quote, and what follows the closing one. -/
def parseString : List ℕ → Option (List ℕ × List ℕ)
  | [] => none
  | c :: rest =>
    if c = 0x22 then some ([], rest)
    else if c = 0x5C then
      match rest with
      | [] => none
      | e :: rest =>
        if e = 0x75 then
          match rest with
          | h₁ :: h₂ :: h₃ :: h₄ :: rest => do
            let d₁ ← hexDigit h₁
            let d₂ ← hexDigit h₂
            let d₃ ← hexDigit h₃
            let d₄ ← hexDigit h₄
            let (s, rest) ← parseString rest
            return ((((d₁ * 16 + d₂) * 16 + d₃) * 16 + d₄) :: s, rest)
          | _ => none
        else do
          let d ← escape e
          let (s, rest) ← parseString rest
          return (d :: s, rest)
    else if c < 0x20 then none
    else do
      let (s, rest) ← parseString rest
      return (c :: s, rest)

def digits (s : List ℕ) : Option (List ℕ × List ℕ) :=
  if s.takeWhile isDigit = [] then none else some (s.takeWhile isDigit, s.dropWhile isDigit)

def sign (marks s : List ℕ) : List ℕ × List ℕ :=
  match s with
  | c :: rest => if c ∈ marks then ([c], rest) else ([], s)
  | [] => ([], [])

/-- A part of a number that begins with a mark: the fraction, or the exponent. -/
def tail (marks signs s : List ℕ) : Option (List ℕ × List ℕ) :=
  match s with
  | c :: rest =>
    if c ∈ marks then do
      let (sgn, rest) := sign signs rest
      let (ds, rest) ← digits rest
      return (c :: sgn ++ ds, rest)
    else some ([], s)
  | [] => some ([], [])

def parseNumber (s : List ℕ) : Option (List ℕ × List ℕ) := do
  let (sgn, rest) := sign [0x2D] s
  let (whole, rest) ← digits rest
  if whole.length > 1 ∧ whole.head? = some 0x30 then none
  let (fraction, rest) ← tail [0x2E] [] rest
  let (exponent, rest) ← tail [0x65, 0x45] [0x2B, 0x2D] rest
  return (sgn ++ whole ++ fraction ++ exponent, rest)

def skip (s : List ℕ) : List ℕ := s.dropWhile isBlank

/-- A literal, or a number. -/
def parseWord (s : List ℕ) : Option (Value × List ℕ) :=
  let word (w : List ℕ) : Option (List ℕ) := if w.isPrefixOf s then some (s.drop w.length) else none
  match word [0x74, 0x72, 0x75, 0x65] with
  | some rest => some (.bool true, rest)
  | none =>
    match word [0x66, 0x61, 0x6C, 0x73, 0x65] with
    | some rest => some (.bool false, rest)
    | none =>
      match word [0x6E, 0x75, 0x6C, 0x6C] with
      | some rest => some (.null, rest)
      | none => (parseNumber s).map fun p => (.number p.1, p.2)

mutual

/-- A value with the blanks before it, and what follows it. -/
def parseValue : ℕ → List ℕ → Option (Value × List ℕ)
  | 0, _ => none
  | fuel + 1, s =>
    match skip s with
    | [] => none
    | c :: rest =>
      if c = 0x22 then (parseString rest).map fun p => (.string p.1, p.2)
      else if c = 0x5B then
        if (skip rest).head? = some 0x5D then some (.array [], (skip rest).tail)
        else (parseItems fuel rest).map fun p => (.array p.1, p.2)
      else if c = 0x7B then
        if (skip rest).head? = some 0x7D then some (.object [], (skip rest).tail)
        else (parseMembers fuel rest).map fun p => (.object p.1, p.2)
      else parseWord (c :: rest)

/-- The items of an array up to its closing bracket. -/
def parseItems : ℕ → List ℕ → Option (List Value × List ℕ)
  | 0, _ => none
  | fuel + 1, s => do
    let (v, rest) ← parseValue fuel s
    match skip rest with
    | c :: rest =>
      if c = 0x2C then do
        let (vs, rest) ← parseItems fuel rest
        return (v :: vs, rest)
      else if c = 0x5D then return ([v], rest)
      else none
    | [] => none

def parseMembers : ℕ → List ℕ → Option (List (List ℕ × Value) × List ℕ)
  | 0, _ => none
  | fuel + 1, s =>
    match skip s with
    | q :: rest => do
      if q ≠ 0x22 then none
      let (k, rest) ← parseString rest
      match skip rest with
      | colon :: rest => do
        if colon ≠ 0x3A then none
        let (v, rest) ← parseValue fuel rest
        match skip rest with
        | c :: rest =>
          if c = 0x2C then do
            let (ms, rest) ← parseMembers fuel rest
            return ((k, v) :: ms, rest)
          else if c = 0x7D then return ([(k, v)], rest)
          else none
        | [] => none
      | [] => none
    | [] => none

end

/-- Every call of the parser takes something away before the next one but one. -/
def parse (s : List ℕ) : Option Value := do
  let (v, rest) ← parseValue (2 * s.length + 2) s
  if skip rest = [] then some v else none

def hexOf (d : ℕ) : ℕ := if d < 10 then 0x30 + d else 0x61 + (d - 10)

def unicodeEscape (c : ℕ) : List ℕ :=
  [0x5C, 0x75, hexOf (c / 4096), hexOf (c / 256 % 16), hexOf (c / 16 % 16), hexOf (c % 16)]

def isHigh (c : ℕ) : Bool := 0xD800 ≤ c && c ≤ 0xDBFF

def isLow (c : ℕ) : Bool := 0xDC00 ≤ c && c ≤ 0xDFFF

/-- A unit that is no half of a pair. -/
def quoteUnit (c : ℕ) : List ℕ :=
  if c = 0x22 ∨ c = 0x5C then [0x5C, c]
  else if c = 0x08 then [0x5C, 0x62]
  else if c = 0x0C then [0x5C, 0x66]
  else if c = 0x0A then [0x5C, 0x6E]
  else if c = 0x0D then [0x5C, 0x72]
  else if c = 0x09 then [0x5C, 0x74]
  else if c < 0x20 ∨ isHigh c ∨ isLow c then unicodeEscape c
  else [c]

/-- The inside of a string as it is written. -/
def quoted : List ℕ → List ℕ
  | [] => []
  | [c] => quoteUnit c
  | c :: d :: rest =>
    if isHigh c && isLow d then c :: d :: quoted rest else quoteUnit c ++ quoted (d :: rest)

/-- A list of strings as an array. -/
def stringifyStrings (ss : List (List ℕ)) : List ℕ :=
  0x5B :: [0x2C].intercalate (ss.map fun s => 0x22 :: quoted s ++ [0x22]) ++ [0x5D]

/-! ## Strings that are written as they are -/

/-- A unit that no string needs an escape for. -/
def isPlain (c : ℕ) : Bool := 0x20 ≤ c && c ≠ 0x22 && c ≠ 0x5C && c < 0xD800

variable {s rest : List ℕ} {c : ℕ}

theorem quoteUnit_plain (hc : isPlain c = true) : quoteUnit c = [c] := by
  simp only [isPlain, Bool.and_eq_true, decide_eq_true_eq] at hc
  obtain ⟨⟨⟨hblank, hquote⟩, hslash⟩, hsurrogate⟩ := hc
  have hhigh : isHigh c = false := by
    simp only [isHigh, Bool.and_eq_false_iff, decide_eq_false_iff_not]
    omega
  have hlow : isLow c = false := by
    simp only [isLow, Bool.and_eq_false_iff, decide_eq_false_iff_not]
    omega
  rw [quoteUnit, if_neg (by omega), if_neg (by omega), if_neg (by omega), if_neg (by omega),
    if_neg (by omega), if_neg (by omega), if_neg]
  rintro (hlt | hhigh' | hlow')
  · omega
  · rw [hhigh] at hhigh'
    cases hhigh'
  · rw [hlow] at hlow'
    cases hlow'

theorem quoted_plain (hs : ∀ c ∈ s, isPlain c = true) : quoted s = s := by
  induction s using quoted.induct with
  | case1 => rfl
  | case2 c => exact quoteUnit_plain (hs c List.mem_cons_self)
  | case3 c d rest hpair ih =>
    rw [quoted, if_pos hpair, ih fun e he => hs e (by simp [he])]
  | case4 c d rest hpair ih =>
    rw [quoted, if_neg hpair, ih fun e he => hs e (List.mem_cons_of_mem c he),
      quoteUnit_plain (hs c List.mem_cons_self)]
    rfl

theorem parseString_plain (hs : ∀ c ∈ s, isPlain c = true) :
    parseString (s ++ 0x22 :: rest) = some (s, rest) := by
  induction s with
  | nil =>
    rw [List.nil_append, parseString.eq_def]
    rfl
  | cons c s ih =>
    have hc := hs c List.mem_cons_self
    simp only [isPlain, Bool.and_eq_true, decide_eq_true_eq] at hc
    obtain ⟨⟨⟨hblank, hquote⟩, hslash⟩, -⟩ := hc
    rw [List.cons_append, parseString.eq_def]
    dsimp only
    rw [if_neg hquote, if_neg hslash, if_neg (by omega), ih fun d hd => hs d (List.mem_cons_of_mem c hd)]
    rfl

/-- A string is read back, with whatever follows it. -/
theorem parseValue_string (hs : ∀ c ∈ s, isPlain c = true) (fuel : ℕ) :
    parseValue (fuel + 1) (0x22 :: s ++ [0x22] ++ rest) = some (.string s, rest) := by
  have hskip : skip (0x22 :: s ++ [0x22] ++ rest) = 0x22 :: (s ++ 0x22 :: rest) := by
    simp [skip, isBlank]
  rw [parseValue, hskip]
  simp only [if_true]
  rw [parseString_plain hs]
  rfl

theorem parseItems_strings {ss : List (List ℕ)} (hne : ss ≠ [])
    (hss : ∀ s ∈ ss, ∀ c ∈ s, isPlain c = true) (fuel : ℕ) (hfuel : ss.length < fuel)
    (rest : List ℕ) :
    parseItems fuel ([0x2C].intercalate (ss.map fun s => 0x22 :: quoted s ++ [0x22]) ++ 0x5D :: rest) =
      some (ss.map .string, rest) := by
  induction ss generalizing fuel with
  | nil => exact absurd rfl hne
  | cons s ss ih =>
    have hs := hss s List.mem_cons_self
    obtain ⟨fuel, rfl⟩ := Nat.exists_eq_succ_of_ne_zero (by omega : fuel ≠ 0)
    obtain ⟨fuel, rfl⟩ := Nat.exists_eq_succ_of_ne_zero (n := fuel)
      (by simp only [List.length_cons] at hfuel; omega)
    cases ss with
    | nil =>
      have htext : [0x2C].intercalate ([s].map fun s => 0x22 :: quoted s ++ [0x22]) ++ 0x5D :: rest =
          0x22 :: s ++ [0x22] ++ 0x5D :: rest := by
        simp [quoted_plain hs]
      rw [htext, parseItems, parseValue_string hs]
      simp [skip, isBlank]
    | cons s' ss =>
      have htext : [0x2C].intercalate ((s :: s' :: ss).map fun s => 0x22 :: quoted s ++ [0x22]) ++
          0x5D :: rest = 0x22 :: s ++ [0x22] ++ (0x2C ::
            ([0x2C].intercalate ((s' :: ss).map fun s => 0x22 :: quoted s ++ [0x22]) ++
              0x5D :: rest)) := by
        simp [quoted_plain hs, List.intercalate_cons_cons]
      have hrest := ih (List.cons_ne_nil s' ss) (fun t ht => hss t (List.mem_cons_of_mem s ht))
        (fuel + 1) (by simp only [List.length_cons] at hfuel ⊢; omega)
      rw [htext, parseItems, parseValue_string hs]
      simp only [Option.bind_eq_bind, Option.bind_some]
      have hskip (r : List ℕ) : skip (0x2C :: r) = 0x2C :: r := by simp [skip, isBlank]
      rw [hskip]
      simp only [if_true]
      rw [hrest]
      rfl

theorem length_le_intercalate (ss : List (List ℕ)) :
    ss.length ≤ ([0x2C].intercalate (ss.map fun s => 0x22 :: quoted s ++ [0x22])).length := by
  induction ss with
  | nil => exact Nat.zero_le _
  | cons s ss ih =>
    cases ss with
    | nil => simp
    | cons s' ss =>
      simp only [List.map_cons, List.intercalate_cons_cons, List.length_append,
        List.length_cons] at ih ⊢
      omega

/-- A list of plain strings is read back. -/
theorem parse_stringifyStrings {ss : List (List ℕ)} (hne : ss ≠ [])
    (hss : ∀ s ∈ ss, ∀ c ∈ s, isPlain c = true) :
    parse (stringifyStrings ss) = some (.array (ss.map .string)) := by
  have hlength := length_le_intercalate ss
  have hitems := parseItems_strings hne hss
    (2 * (stringifyStrings ss).length + 1) (by
      simp only [stringifyStrings, List.length_cons, List.length_append]
      omega) []
  have hopen : parseValue (2 * (stringifyStrings ss).length + 2) (stringifyStrings ss) =
      some (.array (ss.map .string), []) := by
    have hskip : skip (stringifyStrings ss) = stringifyStrings ss := by
      simp [skip, stringifyStrings, isBlank]
    have hhead : (skip ([0x2C].intercalate (ss.map fun s => 0x22 :: quoted s ++ [0x22]) ++
        [0x5D])).head? ≠ some 0x5D := by
      cases ss with
      | nil => exact absurd rfl hne
      | cons s ss =>
        cases ss with
        | nil => simp [skip, isBlank]
        | cons s' ss => simp [skip, isBlank, List.intercalate_cons_cons]
    rw [parseValue, hskip]
    generalize hn : 2 * (stringifyStrings ss).length + 1 = n at hitems ⊢
    unfold stringifyStrings
    simp only [List.cons_append] at hhead hitems ⊢
    rw [if_neg (by decide), if_pos trivial, if_neg hhead, hitems]
    rfl
  rw [parse, hopen]
  rfl

end JsonText
