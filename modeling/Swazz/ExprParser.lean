import Swazz.GoSlices
import Swazz.SetVariables

/-! The parser of the expressions with its position in the source: it reads what the parser on the
rest of the source reads, and no index or bound of it is out of range. -/
namespace Swazz.Expressions

open GoSlices
open TrustedProxy (TrimSpace)
open SetVariables (Text Node ParseError isIdent)

abbrev Parsed (α : Type) := Run ParseError α

def peek (src : Text) (pos : ℕ) : Parsed Char :=
  if pos < src.length then index src pos else .ok (Char.ofNat 0)

def consume (src : Text) (pos : ℕ) : Parsed (Char × ℕ) := do
  let b ← peek src pos
  return (b, if pos < src.length then pos + 1 else pos)

def skipWS (src : Text) (pos : ℕ) : Parsed ℕ :=
  scanWhile (fun c => c = ' ' || c = '\t') src (src.length - pos) pos

def readIdent (src : Text) (pos : ℕ) : Parsed (Text × ℕ) := do
  let stop ← scanWhile isIdent src (src.length - pos) pos
  let name ← slice src pos stop
  return (name, stop)

/-- A string literal from its opening quote on. -/
def parseLiteral (src : Text) (pos : ℕ) : Parsed (Node × ℕ) := do
  let (quote, start) ← consume src pos
  let pos ← scanWhile (· ≠ quote) src (src.length - start) start
  if src.length ≤ pos then .error (.error .unclosedString)
  else do
    let val ← slice src start pos
    let (_, pos) ← consume src pos
    return (.literal val, pos)

mutual

def parseExpr (src : Text) : ℕ → ℕ → Parsed (Node × ℕ)
  | 0, _ => .error (.error .exhausted)
  | fuel + 1, pos => do
    let pos ← skipWS src pos
    let c ← peek src pos
    if c = '"' ∨ c = '\'' then parseLiteral src pos
    else do
      let (name, pos) ← readIdent src pos
      if name = [] then .error (.error .expectedIdentifier)
      else do
        let pos ← skipWS src pos
        let c ← peek src pos
        if c ≠ '(' then return (.varRef name, pos)
        else do
          let (_, pos) ← consume src pos
          let (args, pos) ← parseArgList src fuel pos
          let pos ← skipWS src pos
          let (c, pos) ← consume src pos
          if c ≠ ')' then .error (.error .expectedParen) else return (.call name args, pos)

def parseArgList (src : Text) : ℕ → ℕ → Parsed (List Node × ℕ)
  | 0, _ => .error (.error .exhausted)
  | fuel + 1, pos => do
    let pos ← skipWS src pos
    let c ← peek src pos
    if c = ')' then return ([], pos) else parseArgs src fuel pos

/-- The arguments up to one that no comma follows. -/
def parseArgs (src : Text) : ℕ → ℕ → Parsed (List Node × ℕ)
  | 0, _ => .error (.error .exhausted)
  | fuel + 1, pos => do
    let (arg, pos) ← parseExpr src fuel pos
    let pos ← skipWS src pos
    let c ← peek src pos
    if c ≠ ',' then return ([arg], pos)
    else do
      let (_, pos) ← consume src pos
      let (args, pos) ← parseArgs src fuel pos
      return (arg :: args, pos)

end

def parseExpression (src : Text) : Parsed Node := do
  let src := TrimSpace src
  let (node, pos) ← parseExpr src (3 * src.length + 3) 0
  let pos ← skipWS src pos
  if pos ≠ src.length then do
    let rest ← slice src pos src.length
    .error (.error (.unexpectedInput rest))
  else return node

/-! ### What is read at a position -/

section

variable {src : Text} {pos : ℕ}

theorem peek_eq (src : Text) (pos : ℕ) :
    peek src pos = .ok (((src.drop pos).head?).getD (Char.ofNat 0)) := by
  unfold peek
  rw [List.head?_drop]
  split_ifs with hlt
  · rw [index_of_lt hlt, List.getElem?_eq_getElem hlt]
    rfl
  · rw [List.getElem?_eq_none (Nat.le_of_not_lt hlt)]
    rfl

/-- Only the character itself is read as `c`, for `c` is not what the end is read as. -/
theorem getD_head_iff {s : Text} {c : Char} (hc : c ≠ Char.ofNat 0) :
    (s.head?).getD (Char.ofNat 0) = c ↔ s.head? = some c := by
  cases s with
  | nil => exact iff_of_false (fun h => hc h.symm) (by simp)
  | cons d s => simp

theorem consume_eq (h : pos ≤ src.length) :
    ∃ pos' ≤ src.length, src.drop pos' = (src.drop pos).tail ∧
      consume src pos = .ok (((src.drop pos).head?).getD (Char.ofNat 0), pos') := by
  unfold consume
  rw [peek_eq]
  by_cases hlt : pos < src.length
  · exact ⟨pos + 1, hlt, List.tail_drop.symm, by rw [if_pos hlt]; rfl⟩
  · refine ⟨pos, h, ?_, by rw [if_neg hlt]; rfl⟩
    rw [List.drop_eq_nil_of_le (Nat.le_of_not_lt hlt)]
    rfl

theorem skipWS_eq (h : pos ≤ src.length) :
    ∃ pos' ≤ src.length, src.drop pos' = SetVariables.skipWS (src.drop pos) ∧
      skipWS src pos = .ok pos' := by
  obtain ⟨stop, hstop, -, hle, hdrop, -⟩ := scanWhile_eq (ε := ParseError)
    (fun c => c = ' ' || c = '\t') src h
  exact ⟨stop, hle, hdrop, hstop⟩

theorem readIdent_eq (h : pos ≤ src.length) :
    ∃ pos' ≤ src.length, src.drop pos' = (src.drop pos).dropWhile isIdent ∧
      readIdent src pos = .ok ((src.drop pos).takeWhile isIdent, pos') := by
  obtain ⟨stop, hstop, hge, hle, hdrop, htake⟩ := scanWhile_eq (ε := ParseError) isIdent src h
  refine ⟨stop, hle, hdrop, ?_⟩
  rw [readIdent, hstop, ← htake]
  show (do
    let name ← slice src pos stop
    return (name, stop) : Parsed (Text × ℕ)) = _
  rw [slice_nat hge hle]
  rfl

/-- The parser at a position does what the other does on the rest of the source. -/
def Agrees {α : Type} (src : Text) (r : Parsed (α × ℕ)) (r' : Except ParseError (α × Text)) :
    Prop :=
  match r' with
  | .error e => r = .error (.error e)
  | .ok (a, s) => ∃ pos ≤ src.length, src.drop pos = s ∧ r = .ok (a, pos)

variable {α β : Type}

theorem Agrees.bind {r : Parsed (α × ℕ)} {r' : Except ParseError (α × Text)}
    {f : α × ℕ → Parsed (β × ℕ)} {q' : Except ParseError (β × Text)} (h : Agrees src r r')
    (herror : ∀ e, r' = .error e → q' = .error e)
    (hok : ∀ a, ∀ p ≤ src.length, r' = .ok (a, src.drop p) → Agrees src (f (a, p)) q') :
    Agrees src (r >>= f) q' := by
  cases r' with
  | error e =>
    have hr : r = .error (.error e) := h
    rw [hr, herror e rfl]
    rfl
  | ok a =>
    obtain ⟨a, s⟩ := a
    obtain ⟨p, hp, rfl, rfl⟩ := h
    exact hok a p hp rfl

theorem agrees_skipWS {f : ℕ → Parsed (α × ℕ)} {r' : Except ParseError (α × Text)}
    (h : pos ≤ src.length)
    (hf : ∀ p ≤ src.length, src.drop p = SetVariables.skipWS (src.drop pos) → Agrees src (f p) r') :
    Agrees src (skipWS src pos >>= f) r' := by
  obtain ⟨p, hp, hdrop, hskip⟩ := skipWS_eq h
  rw [hskip]
  exact hf p hp hdrop

theorem agrees_consume {f : Char × ℕ → Parsed (α × ℕ)} {r' : Except ParseError (α × Text)}
    (h : pos ≤ src.length)
    (hf : ∀ p ≤ src.length, src.drop p = (src.drop pos).tail →
      Agrees src (f (((src.drop pos).head?).getD (Char.ofNat 0), p)) r') :
    Agrees src (consume src pos >>= f) r' := by
  obtain ⟨p, hp, htail, hconsume⟩ := consume_eq h
  rw [hconsume]
  exact hf p hp htail

/-- Both test the next character. -/
theorem agrees_test {c : Char} (hc : c ≠ Char.ofNat 0) {no yes : Parsed (α × ℕ)}
    {no' yes' : Except ParseError (α × Text)} (hno : Agrees src no no')
    (hyes : Agrees src yes yes') :
    Agrees src (if ((src.drop pos).head?).getD (Char.ofNat 0) ≠ c then no else yes)
      (if (src.drop pos).head? ≠ some c then no' else yes') := by
  by_cases h : (src.drop pos).head? = some c
  · rw [if_neg (not_not.mpr ((getD_head_iff hc).mpr h)), if_neg (not_not.mpr h)]
    exact hyes
  · rw [if_pos (mt (getD_head_iff hc).mp h), if_pos h]
    exact hno

theorem agrees_peek {f : Char → Parsed (α × ℕ)} {r' : Except ParseError (α × Text)}
    (h : Agrees src (f (((src.drop pos).head?).getD (Char.ofNat 0))) r') :
    Agrees src (peek src pos >>= f) r' := by
  rw [peek_eq]
  exact h

theorem parseLiteral_agrees {c : Char} (h : pos ≤ src.length)
    (hc : (src.drop pos).head? = some c) :
    Agrees src (parseLiteral src pos) (SetVariables.parseLiteral c (src.drop pos).tail) := by
  refine agrees_consume h fun start hstart htail => ?_
  obtain ⟨stop, hstop, hge, hle, hdrop, htake⟩ := scanWhile_eq (ε := ParseError) (· ≠ c) src hstart
  rw [hc, Option.getD_some]
  show Agrees src (scanWhile _ src _ start >>= _) _
  rw [hstop, SetVariables.parseLiteral, ← htail, ← hdrop, ← htake]
  show Agrees src (if src.length ≤ stop then _ else _) _
  by_cases hend : src.length ≤ stop
  · rw [if_pos hend, List.drop_eq_nil_of_le hend]
    rfl
  · obtain ⟨last, hlast, hrest, hclose⟩ := consume_eq hle
    have hcons : src.drop stop = src[stop] :: src.drop (stop + 1) :=
      List.drop_eq_getElem_cons (Nat.lt_of_not_le hend)
    rw [if_neg hend, slice_nat hge hle, hclose, hcons]
    refine ⟨last, hlast, ?_, rfl⟩
    rw [hrest, hcons]
    rfl

theorem head_of_quote {s : Text} (h : s.head? = some '"' ∨ s.head? = some '\'') :
    s.head? = some (s.headD '"') := by
  cases s with
  | nil => rcases h with h | h <;> cases h
  | cons c s => rfl

end

theorem parse_agrees (src : Text) (fuel : ℕ) :
    (∀ pos ≤ src.length, Agrees src (parseExpr src fuel pos)
      (SetVariables.parseExpr fuel (src.drop pos))) ∧
    (∀ pos ≤ src.length, Agrees src (parseArgList src fuel pos)
      (SetVariables.parseArgList fuel (src.drop pos))) ∧
    ∀ pos ≤ src.length, Agrees src (parseArgs src fuel pos)
      (SetVariables.parseArgs fuel (src.drop pos)) := by
  induction fuel with
  | zero => exact ⟨fun _ _ => rfl, fun _ _ => rfl, fun _ _ => rfl⟩
  | succ fuel ih =>
    obtain ⟨ihExpr, ihList, ihArgs⟩ := ih
    refine ⟨fun pos hpos => ?_, fun pos hpos => ?_, fun pos hpos => ?_⟩
    · obtain ⟨p, hp, hdrop, hskip⟩ := skipWS_eq hpos
      rw [parseExpr, hskip, SetVariables.parseExpr, ← hdrop]
      apply agrees_peek
      by_cases hquote : (src.drop p).head? = some '"' ∨ (src.drop p).head? = some '\''
      · rw [if_pos (hquote.imp (getD_head_iff (by decide)).mpr (getD_head_iff (by decide)).mpr),
          if_pos hquote]
        exact parseLiteral_agrees hp (head_of_quote hquote)
      · rw [if_neg (mt (Or.imp (getD_head_iff (by decide)).mp (getD_head_iff (by decide)).mp) hquote),
          if_neg hquote]
        obtain ⟨q, hq, hrest, hident⟩ := readIdent_eq hp
        rw [hident]
        show Agrees src (if _ = [] then _ else _) _
        by_cases hname : (src.drop p).takeWhile isIdent = []
        · rw [if_pos hname, if_pos hname]
          rfl
        · rw [if_neg hname, if_neg hname, ← hrest]
          -- a name alone, or a call with its arguments and the parenthesis behind them
          refine agrees_skipWS hq fun u hu hskip' => agrees_peek ?_
          dsimp only
          rw [← hskip']
          refine agrees_test (by decide) ⟨u, hu, rfl, rfl⟩ (agrees_consume hu fun v hv htail => ?_)
          rw [← htail]
          refine (ihList v hv).bind (fun e he => by rw [he]) fun args w hw hlist => ?_
          rw [hlist]
          refine agrees_skipWS hw fun x hx hskip'' => ?_
          dsimp only
          rw [← hskip'']
          refine agrees_consume hx fun y hy htail' => ?_
          exact agrees_test (by decide) rfl ⟨y, hy, htail', rfl⟩
    · rw [parseArgList, SetVariables.parseArgList]
      refine agrees_skipWS hpos fun p hp hskip => agrees_peek ?_
      rw [← hskip]
      by_cases hclose : (src.drop p).head? = some ')'
      · rw [if_pos ((getD_head_iff (by decide)).mpr hclose), if_pos hclose]
        exact ⟨p, hp, rfl, rfl⟩
      · rw [if_neg (mt (getD_head_iff (by decide)).mp hclose), if_neg hclose]
        exact ihArgs p hp
    · rw [parseArgs, SetVariables.parseArgs]
      refine (ihExpr pos hpos).bind (fun e he => by rw [he]) fun arg u hu hexpr => ?_
      rw [hexpr]
      refine agrees_skipWS hu fun p hp hskip => agrees_peek ?_
      dsimp only
      rw [← hskip]
      refine agrees_test (by decide) ⟨p, hp, rfl, rfl⟩ (agrees_consume hp fun q hq htail => ?_)
      rw [← htail]
      refine (ihArgs q hq).bind (fun e he => by rw [he]) fun args v hv hargs => ?_
      rw [hargs]
      exact ⟨v, hv, rfl, rfl⟩

theorem parseExpression_eq (src : Text) :
    parseExpression src =
      match SetVariables.parseExpression src with
      | .error e => .error (.error e)
      | .ok node => .ok node := by
  unfold parseExpression SetVariables.parseExpression
  generalize TrimSpace src = text
  dsimp only
  have hagrees := (parse_agrees text (3 * text.length + 3)).1 0 (Nat.zero_le _)
  rw [List.drop_zero] at hagrees
  cases hparse : SetVariables.parseExpr (3 * text.length + 3) text with
  | error e =>
    rw [hparse] at hagrees
    have hr : parseExpr text (3 * text.length + 3) 0 = .error (.error e) := hagrees
    rw [hr]
    rfl
  | ok a =>
    obtain ⟨node, s⟩ := a
    rw [hparse] at hagrees
    obtain ⟨u, hu, rfl, hr⟩ := hagrees
    obtain ⟨p, hp, hdrop, hskip⟩ := skipWS_eq hu
    rw [hr]
    dsimp only
    show (skipWS text u >>= _) = _
    rw [hskip, ← hdrop]
    show (if p ≠ text.length then _ else _) = _
    by_cases hend : p = text.length
    · rw [if_neg (not_not.mpr hend), if_pos (List.drop_eq_nil_of_le (Nat.le_of_eq hend.symm))]
      rfl
    · have hne : text.drop p ≠ [] := by
        rw [Ne, List.drop_eq_nil_iff]
        omega
      rw [if_pos hend, if_neg hne, slice_nat hp (Nat.le_refl _), List.take_length]
      rfl

/-- The parser that walks through the source by positions reads what the one on the rest of the
source reads: it panics nowhere, and has iterations enough. -/
theorem parseExpression_agrees (src : Text) :
    (∃ node, SetVariables.parseExpression src = .ok node ∧ parseExpression src = .ok node) ∨
      ∃ e, e ≠ ParseError.exhausted ∧ SetVariables.parseExpression src = .error e ∧
        parseExpression src = .error (.error e) := by
  rw [parseExpression_eq]
  cases hparse : SetVariables.parseExpression src with
  | ok node => exact Or.inl ⟨node, rfl, rfl⟩
  | error e =>
    refine Or.inr ⟨e, ?_, rfl, rfl⟩
    rintro rfl
    exact SetVariables.parseExpression_ne_exhausted src hparse

end Swazz.Expressions
