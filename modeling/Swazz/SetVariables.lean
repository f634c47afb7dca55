import Mathlib.Data.List.Dedup
import Swazz.AtomicCalls
import Swazz.TrustedProxy

/-! The variables that an authentication step sets: templates and function calls, tried in passes
until all of them have a value. -/
namespace Swazz.SetVariables

open AtomicCalls AtomicCalls.Calls
open TrustedProxy (TrimSpace)

abbrev Text := List Char

/-- A map as its entries, the newest of a key first. -/
abbrev Map (α : Type) := List (Text × α)

/-- The keys of a map, each once. -/
def keysOf {α : Type} (m : Map α) : List Text := (m.map Prod.fst).dedup

/-- `delete(m, key)` -/
def delete {α : Type} (m : Map α) (key : Text) : Map α := m.filter fun e => e.1 ≠ key

/-! ## Expressions -/

/-- A literal, a reference to a variable or the call of a function. -/
inductive Node where
  | literal (name : Text)
  | varRef (name : Text)
  | call (name : Text) (args : List Node)

mutual

def decideNode : (a b : Node) → Decidable (a = b)
  | .literal s, .literal s' => decidable_of_iff (s = s') (by rw [Node.literal.injEq])
  | .varRef x, .varRef x' => decidable_of_iff (x = x') (by rw [Node.varRef.injEq])
  | .call f args, .call f' args' =>
    have := decideNodes args args'
    decidable_of_iff (f = f' ∧ args = args') (by rw [Node.call.injEq])
  | .literal _, .varRef _ => isFalse nofun
  | .literal _, .call _ _ => isFalse nofun
  | .varRef _, .literal _ => isFalse nofun
  | .varRef _, .call _ _ => isFalse nofun
  | .call _ _, .literal _ => isFalse nofun
  | .call _ _, .varRef _ => isFalse nofun

def decideNodes : (as bs : List Node) → Decidable (as = bs)
  | [], [] => isTrue rfl
  | a :: as, b :: bs =>
    have := decideNode a b
    have := decideNodes as bs
    decidable_of_iff (a = b ∧ as = bs) (by rw [List.cons.injEq])
  | [], _ :: _ => isFalse nofun
  | _ :: _, [] => isFalse nofun

end

instance : DecidableEq Node := decideNode

/-- What a parse error says; the positions are left out. -/
inductive ParseError where
  | unclosedString
  | expectedIdentifier
  | expectedParen
  | unexpectedInput (rest : Text)
  | exhausted

def isIdent (c : Char) : Bool :=
  ('a' ≤ c && c ≤ 'z') || ('A' ≤ c && c ≤ 'Z') || ('0' ≤ c && c ≤ '9') || c = '_'

def skipWS (s : Text) : Text := s.dropWhile fun c => c = ' ' || c = '\t'

/-- A string literal after its opening quote. -/
def parseLiteral (quote : Char) (s : Text) : Except ParseError (Node × Text) :=
  match s.dropWhile (· ≠ quote) with
  | [] => .error .unclosedString
  | _ :: rest => .ok (.literal (s.takeWhile (· ≠ quote)), rest)

mutual

/-- `parseExpr` on what is left of the source; every level of nesting and every argument takes one
of the fuel. -/
def parseExpr : ℕ → Text → Except ParseError (Node × Text)
  | 0, _ => .error .exhausted
  | fuel + 1, src =>
    let s := skipWS src
    if s.head? = some '"' ∨ s.head? = some '\'' then parseLiteral (s.headD '"') s.tail
    else
      let name := s.takeWhile isIdent
      if name = [] then .error .expectedIdentifier
      else
        let s := skipWS (s.dropWhile isIdent)
        if s.head? ≠ some '(' then .ok (.varRef name, s)
        else
          match parseArgList fuel s.tail with
          | .error e => .error e
          | .ok (args, s) =>
            let s := skipWS s
            if s.head? ≠ some ')' then .error .expectedParen
            else .ok (.call name args, s.tail)

def parseArgList : ℕ → Text → Except ParseError (List Node × Text)
  | 0, _ => .error .exhausted
  | fuel + 1, src =>
    let s := skipWS src
    if s.head? = some ')' then .ok ([], s) else parseArgs fuel s

/-- The arguments up to one that no comma follows. -/
def parseArgs : ℕ → Text → Except ParseError (List Node × Text)
  | 0, _ => .error .exhausted
  | fuel + 1, src =>
    match parseExpr fuel src with
    | .error e => .error e
    | .ok (arg, s) =>
      let s := skipWS s
      if s.head? ≠ some ',' then .ok ([arg], s)
      else
        match parseArgs fuel s.tail with
        | .error e => .error e
        | .ok (args, s) => .ok (arg :: args, s)

end

def parseExpression (src : Text) : Except ParseError Node :=
  let src := TrimSpace src
  match parseExpr (3 * src.length + 3) src with
  | .error e => .error e
  | .ok (node, rest) =>
    if skipWS rest = [] then .ok node else .error (.unexpectedInput (skipWS rest))

def looksLikeFuncCall (s : Text) : Bool :=
  let s := TrimSpace s
  s.takeWhile isIdent ≠ [] ∧ (s.dropWhile isIdent).head? = some '('

/-! ## Evaluation -/

/-- The value of a variable: a string, or another value as `%v` prints it and as `toString` writes
it. -/
inductive Value where
  | nil
  | str (s : Text)
  | other (sprint toStr : Text)
  deriving DecidableEq

/-- `fmt.Sprintf("%v", val)` of a value that is not nil. -/
def Value.sprint : Value → Option Text
  | .nil => none
  | .str s => some s
  | .other sprint _ => some sprint

def Value.toText : Value → Text
  | .nil => []
  | .str s => s
  | .other _ toStr => toStr

inductive EvalError where
  | undefined (name : Text)
  | inArg (i : ℕ) (function : Text) (e : EvalError)
  | builtin (text : Text)

/-- The functions by their names, as long as they give the same result for the same arguments. -/
structure Env where
  callBuiltin : Text → List Text → Except Text Text

/-- `nondeterministicBuiltins` -/
def nondeterministic (name : Text) : Bool :=
  name = "uuid".toList || name = "pkceVerifier".toList

mutual

def cacheKey : Node → Text
  | .literal name => name ++ "()".toList
  | .varRef name => name ++ "()".toList
  | .call name [] => name ++ "()".toList
  | .call name (a :: args) => name ++ '(' :: (cacheKey a ++ restKeys args) ++ [')']

def restKeys : List Node → Text
  | [] => []
  | a :: args => ',' :: (cacheKey a ++ restKeys args)

end

def lookupVar (vars : Map Value) (name : Text) : Option Text :=
  (vars.lookup name).bind Value.sprint

section

variable (env : Env) (vars : Map Value)

mutual

/-- The result, and the cache as it is afterwards, an error or not. -/
def evalExpr : Node → Map Text → Except EvalError Text × Map Text
  | .literal name, cache => (.ok name, cache)
  | .varRef name, cache =>
    match lookupVar vars name with
    | none => (.error (.undefined name), cache)
    | some v => (.ok v, cache)
  | .call name args, cache =>
    match if nondeterministic name then none else cache.lookup (cacheKey (.call name args)) with
    | some v => (.ok v, cache)
    | none =>
      match evalArgs args name 1 cache with
      | (.error e, cache) => (.error e, cache)
      | (.ok vs, cache) =>
        match env.callBuiltin name vs with
        | .error e => (.error (.builtin e), cache)
        | .ok v =>
          (.ok v, if nondeterministic name then cache
            else (cacheKey (.call name args), v) :: cache)

def evalArgs : List Node → Text → ℕ → Map Text → Except EvalError (List Text) × Map Text
  | [], _, _, cache => (.ok [], cache)
  | a :: args, function, i, cache =>
    match evalExpr a cache with
    | (.error e, cache) => (.error (.inArg i function e), cache)
    | (.ok v, cache) =>
      match evalArgs args function (i + 1) cache with
      | (.error e, cache) => (.error e, cache)
      | (.ok vs, cache) => (.ok (v :: vs), cache)

end

end

/-! ## Templates -/

/-- `"{{" + k + "}}"` -/
def placeholder (k : Text) : Text := '{' :: '{' :: (k ++ ['}', '}'])

/-- Replacement from the left, after so many characters that belong to the last one; at each place
the first pair that stands there counts. -/
def replaceAfter (pairs : List (Text × Text)) : ℕ → Text → Text
  | _, [] => []
  | k + 1, _ :: rest => replaceAfter pairs k rest
  | 0, c :: rest =>
    match pairs.find? fun p => p.1.isPrefixOf (c :: rest) with
    | some (old, new) => new ++ replaceAfter pairs (old.length - 1) rest
    | none => c :: replaceAfter pairs 0 rest

/-- `strings.NewReplacer(pairs...).Replace` -/
def Replace (pairs : List (Text × Text)) (s : Text) : Text := replaceAfter pairs 0 s

/-- The arguments of the replacer when the variables are ranged over in this order. -/
def replacerArgs (vars : Map Value) (order : List Text) : List (Text × Text) :=
  order.map fun k => (placeholder k, (((vars.lookup k).map Value.toText).getD []))

/-! ## The step -/

/-- A step asks in which order the keys of a map come. -/
abbrev Asking := @Calls (List Text) fun _ => List Text

/-- A map is ranged over with all its keys, in any order. -/
def AnyOrder (keys answer : List Text) : Prop := answer.Perm keys

structure State where
  Variables : Map Value
  varReplacer : List (Text × Text)
  cache : Map Text
  pending : Map Text

inductive StepError where
  | parse (varName : Text) (e : ParseError)
  | eval (varName : Text) (e : EvalError)

def updateReplacer (s : State) : Asking State := do
  let order ← perform (keysOf s.Variables)
  return { s with varReplacer := replacerArgs s.Variables order }

/-- What an expression is: the call of a function, text that is not one, or a call that does not
parse. -/
inductive Formula where
  | call (node : Node)
  | template (text : Text)
  | bad (e : ParseError)

def formulaOf (expr : Text) : Formula :=
  let expr := TrimSpace expr
  if looksLikeFuncCall expr then
    match parseExpression expr with
    | .ok node => .call node
    | .error e => .bad e
  else .template expr

/-- A value or an error that may go away, with the cache afterwards; the parse error ends the
step. -/
def evaluate (env : Env) (expr : Text) (s : State) :
    Except ParseError (Except EvalError Text × Map Text) :=
  match formulaOf expr with
  | .bad e => .error e
  | .call node => .ok (evalExpr env s.Variables node s.cache)
  | .template text => .ok (.ok (Replace s.varReplacer text), s.cache)

/-- The variable gets its value and is pending no more. -/
def define (varName result : Text) (s : State) : Asking State := do
  let s ← updateReplacer { s with Variables := (varName, .str result) :: s.Variables }
  return { s with pending := delete s.pending varName }

structure Pass where
  state : State
  progress : Bool
  last : Option (Text × EvalError)

/-- `for varName, expr := range pending` -/
def pass (env : Env) : List Text → Pass → Asking (Except StepError Pass)
  | [], p => return .ok p
  | varName :: rest, p =>
    let expr := (p.state.pending.lookup varName).getD []
    match evaluate env expr p.state with
    | .error e => return .error (.parse varName e)
    | .ok (.error e, cache) =>
      pass env rest { p with state := { p.state with cache := cache }, last := some (varName, e) }
    | .ok (.ok result, cache) => do
      let s ← define varName result { p.state with cache := cache }
      pass env rest { p with state := s, progress := true }

inductive Outcome where
  | done (s : State)
  | failed (e : StepError)
  /-- More passes were needed. -/
  | unfinished

/-- At most so many passes over what is pending. -/
def passes (env : Env) : ℕ → State → Asking Outcome
  | 0, s => return if s.pending = [] then .done s else .unfinished
  | n + 1, s =>
    if s.pending = [] then return .done s
    else do
      let order ← perform (keysOf s.pending)
      let r ← pass env order ⟨s, false, none⟩
      match r with
      | .error e => return .failed e
      | .ok p =>
        if p.progress then passes env n p.state
        else
          match p.last with
          | some (varName, e) => return .failed (.eval varName e)
          | none => return .unfinished

/-- The step with as many passes as there are definitions. The replacer was last built from the
variables that are there, in some order. -/
def setVariables (env : Env) (definitions : Map Text) (vars : Map Value) : Asking Outcome := do
  let s ← updateReplacer ⟨vars, [], [], definitions⟩
  passes env (keysOf definitions).length s

/-! ## The parser comes to an end -/

/-- The fuel was enough, and fewer than so many characters are left. -/
def EndsWithin {α : Type} (n : ℕ) : Except ParseError (α × Text) → Prop
  | .error .exhausted => False
  | .error _ => True
  | .ok (_, rest) => rest.length < n

theorem EndsWithin.mono {α : Type} {n n' : ℕ} {r : Except ParseError (α × Text)}
    (h : EndsWithin n r) (hn : n ≤ n') : EndsWithin n' r := by
  match r, h with
  | .ok (_, rest), h => exact Nat.lt_of_lt_of_le h hn
  | .error .unclosedString, _ => trivial
  | .error .expectedIdentifier, _ => trivial
  | .error .expectedParen, _ => trivial
  | .error (.unexpectedInput _), _ => trivial

theorem EndsWithin.error {α β : Type} {n n' : ℕ} {e : ParseError}
    (h : EndsWithin n (.error e : Except ParseError (α × Text))) :
    EndsWithin n' (.error e : Except ParseError (β × Text)) := by
  match e, h with
  | .unclosedString, _ => trivial
  | .expectedIdentifier, _ => trivial
  | .expectedParen, _ => trivial
  | .unexpectedInput _, _ => trivial

theorem length_skipWS_le (s : Text) : (skipWS s).length ≤ s.length :=
  (List.dropWhile_suffix _).length_le

theorem length_dropIdent_lt {s : Text} (h : s.takeWhile isIdent ≠ []) :
    (s.dropWhile isIdent).length < s.length := by
  have hsplit := congrArg List.length (List.takeWhile_append_dropWhile (p := isIdent) (l := s))
  have hpos := List.length_pos_iff.mpr h
  rw [List.length_append] at hsplit
  omega

theorem length_tail_lt {s : Text} {c : Char} (h : s.head? = some c) : s.tail.length < s.length := by
  cases s with
  | nil => cases h
  | cons d s => exact Nat.lt_succ_self _

theorem parseLiteral_within (quote : Char) (s : Text) :
    EndsWithin (s.length + 1) (parseLiteral quote s) := by
  have hle : (s.dropWhile (· ≠ quote)).length ≤ s.length := (List.dropWhile_suffix _).length_le
  rw [parseLiteral]
  split
  · trivial
  · rename_i c rest hrest
    rw [hrest, List.length_cons] at hle
    exact Nat.lt_succ_of_lt (Nat.lt_of_succ_le hle)

/-- Each step into an argument, and from one argument to the next, leaves a character behind. -/
theorem parse_within (fuel : ℕ) :
    (∀ s : Text, 3 * s.length + 1 ≤ fuel → EndsWithin s.length (parseExpr fuel s)) ∧
    (∀ s : Text, 3 * s.length + 3 ≤ fuel → EndsWithin (s.length + 1) (parseArgList fuel s)) ∧
    (∀ s : Text, 3 * s.length + 2 ≤ fuel → EndsWithin s.length (parseArgs fuel s)) := by
  induction fuel with
  | zero => exact ⟨fun s h => by omega, fun s h => by omega, fun s h => by omega⟩
  | succ fuel ih =>
    obtain ⟨ihExpr, ihList, ihArgs⟩ := ih
    refine ⟨fun s h => ?_, fun s h => ?_, fun s h => ?_⟩
    · have hws := length_skipWS_le s
      rw [parseExpr]
      split
      · rename_i hquote
        have htail : (skipWS s).tail.length < (skipWS s).length :=
          hquote.elim length_tail_lt length_tail_lt
        exact (parseLiteral_within _ _).mono (by omega)
      · dsimp only
        split
        · trivial
        · rename_i hname
          have hident := length_dropIdent_lt hname
          have hws' := length_skipWS_le ((skipWS s).dropWhile isIdent)
          split
          · change List.length _ < _
            omega
          · rename_i hparen
            have htail := length_tail_lt (Classical.not_not.mp hparen)
            have hargs := ihList _ (by omega :
              3 * (skipWS ((skipWS s).dropWhile isIdent)).tail.length + 3 ≤ fuel)
            split
            · rename_i e he
              rw [he] at hargs
              exact hargs.error
            · rename_i args rest hrest
              rw [hrest] at hargs
              have hlt : rest.length < _ := hargs
              have hws'' := length_skipWS_le rest
              split
              · trivial
              · rename_i hclose
                have htail' := length_tail_lt (Classical.not_not.mp hclose)
                change List.length _ < _
                omega
    · have hws := length_skipWS_le s
      rw [parseArgList]
      split
      · exact Nat.lt_succ_of_le hws
      · exact (ihArgs _ (by omega)).mono (by omega)
    · have harg := ihExpr s (by omega)
      rw [parseArgs]
      split
      · rename_i e he
        rw [he] at harg
        exact harg.error
      · rename_i arg rest hrest
        rw [hrest] at harg
        have hlt : rest.length < _ := harg
        have hws := length_skipWS_le rest
        dsimp only
        split
        · exact Nat.lt_of_le_of_lt hws hlt
        · rename_i hcomma
          have htail := length_tail_lt (Classical.not_not.mp hcomma)
          have hmore := ihArgs (skipWS rest).tail (by omega)
          split
          · rename_i e he
            rw [he] at hmore
            exact hmore.error
          · rename_i args rest' hrest'
            rw [hrest'] at hmore
            have hlt' : rest'.length < _ := hmore
            change List.length _ < _
            omega

/-- The parser never stops for want of fuel. -/
theorem parseExpression_ne_exhausted (src : Text) :
    parseExpression src ≠ .error .exhausted := by
  have hwithin := (parse_within (3 * (TrimSpace src).length + 3)).1 (TrimSpace src) (by omega)
  rw [parseExpression]
  split
  · rename_i e he
    rw [he] at hwithin
    intro heq
    cases heq
    exact hwithin
  · split <;> exact nofun

end Swazz.SetVariables
