import Mathlib.Order.Defs.PartialOrder
import Swazz.StepSystem

/-! Programs that reach a shared store only through atomic calls, and pools of such
programs run in any interleaving of their calls. -/
namespace AtomicCalls

/-- A program as the calls it makes and how it goes on with each answer. A `choose` is
where either of two calls in flight may come first. -/
inductive Calls {Op : Type} (Answer : Op → Type) (α : Type) where
  | ret (a : α)
  | call (op : Op) (next : Answer op → Calls Answer α)
  | choose (next : Bool → Calls Answer α)

variable {Op : Type} {Answer : Op → Type} {α β : Type}

namespace Calls

def bind (p : Calls Answer α) (f : α → Calls Answer β) : Calls Answer β :=
  match p with
  | .ret a => f a
  | .call op next => .call op fun a => (next a).bind f
  | .choose next => .choose fun b => (next b).bind f

instance : Monad (Calls Answer) where
  pure := .ret
  bind := bind

/-- One call, whose answer is the result. -/
def perform (op : Op) : Calls Answer (Answer op) := .call op .ret

/-- The calls of `q` in any order with those of a program whose first call is `op`. -/
def parCall (op : Op) (rest : Answer op → Calls Answer β → Calls Answer (α × β)) :
    Calls Answer β → Calls Answer (α × β)
  | .ret b => .call op fun a => rest a (.ret b)
  | .call op' next => .choose fun left =>
      if left then .call op fun a => rest a (.call op' next)
      else .call op' fun b => parCall op rest (next b)
  | .choose next => .choose fun b => parCall op rest (next b)

/-- Both programs at once, their calls in any order. -/
def par : Calls Answer α → Calls Answer β → Calls Answer (α × β)
  | .ret a, q => q.bind fun b => .ret (a, b)
  | .call op next, q => parCall op (fun a => par (next a)) q
  | .choose next, q => .choose fun b => par (next b) q

/-- `Promise.all` -/
def parAll : List (Calls Answer α) → Calls Answer (List α)
  | [] => .ret []
  | p :: ps => (par p (parAll ps)).bind fun (a, as) => .ret (a :: as)

/-- Every call of the program, with what follows it, satisfies `R`. -/
def Every (R : (op : Op) → (Answer op → Calls Answer α) → Prop) : Calls Answer α → Prop
  | .ret _ => True
  | .call op next => R op next ∧ ∀ a, Every R (next a)
  | .choose next => ∀ b, Every R (next b)

/-- Every call the program may make is one of `P`. -/
abbrev Uses (P : Op → Prop) : Calls Answer α → Prop := Every fun op _ => P op

/-- As long as its answers are admitted, the program makes a call of `P` before it
returns. -/
def Certain (A : (op : Op) → Answer op → Prop) (P : Op → Prop) : Calls Answer α → Prop
  | .ret _ => False
  | .call op next => P op ∨ ∀ a, A op a → Certain A P (next a)
  | .choose next => ∀ b, Certain A P (next b)

/-- As long as its answers are admitted, every call of the program is one of `P`. -/
def Given (A : (op : Op) → Answer op → Prop) (P : Op → Prop) : Calls Answer α → Prop
  | .ret _ => True
  | .call op next => P op ∧ ∀ a, A op a → Given A P (next a)
  | .choose next => ∀ b, Given A P (next b)

/-- As long as its answers are admitted, the program returns what `Q` says. -/
def Yields (A : (op : Op) → Answer op → Prop) (Q : α → Prop) : Calls Answer α → Prop
  | .ret a => Q a
  | .call op next => ∀ a, A op a → Yields A Q (next a)
  | .choose next => ∀ b, Yields A Q (next b)

/-- The calls that the program makes when the world gives the answers, each of which may
depend on how many calls came before. -/
def trace (answer : ℕ → (op : Op) → Answer op) : Calls Answer α → List Op
  | .ret _ => []
  | .call op next => op :: trace (fun n => answer (n + 1)) (next (answer 0 op))
  | .choose next => trace answer (next true)

/-- The same program, its calls among those of a wider kind. -/
def embed {Op' : Type} {Answer' : Op' → Type} (f : Op → Op')
    (g : (op : Op) → Answer' (f op) → Answer op) : Calls Answer α → Calls Answer' α
  | .ret a => .ret a
  | .call op next => .call (f op) fun a => embed f g (next (g op a))
  | .choose next => .choose fun b => embed f g (next b)

/-- The result of a program and the store it leaves, run with no other program in between
and the left of two calls first. -/
def eval {σ : Type} (exec : (op : Op) → σ → Answer op × σ) : Calls Answer α → σ → α × σ
  | .ret a, s => (a, s)
  | .call op next, s => eval exec (next (exec op s).1) (exec op s).2
  | .choose next, s => eval exec (next true) s

/-- The result of a program when each call has a fixed answer. -/
def answered (answer : (op : Op) → Answer op) : Calls Answer α → α
  | .ret a => a
  | .call op next => answered answer (next (answer op))
  | .choose next => answered answer (next true)

/-- What is known only grows while the program runs, by others and by its own calls, and
`Learns` is what an answer adds. Each call is one that `Allowed` permits by what is known
when it is made, and the result has `Post` by what is known at the end. -/
def Knows {κ : Type} [Preorder κ] (Allowed : Op → κ → Prop)
    (Learns : (op : Op) → Answer op → κ → Prop) (Post : α → κ → Prop) :
    Calls Answer α → κ → Prop
  | .ret a, k => Post a k
  | .call op next, k => Allowed op k ∧
      ∀ a k', k ≤ k' → Learns op a k' → Knows Allowed Learns Post (next a) k'
  | .choose next, k => ∀ b, Knows Allowed Learns Post (next b) k

variable {A : (op : Op) → Answer op → Prop} {P : Op → Prop}

section

variable {κ : Type} [Preorder κ] {Allowed : Op → κ → Prop}
  {Learns : (op : Op) → Answer op → κ → Prop} {Post : α → κ → Prop}

theorem Knows.grow (hallowed : ∀ op k k', k ≤ k' → Allowed op k → Allowed op k')
    (hpost : ∀ a k k', k ≤ k' → Post a k → Post a k') {p : Calls Answer α} {k k' : κ}
    (h : Knows Allowed Learns Post p k) (hle : k ≤ k') : Knows Allowed Learns Post p k' := by
  induction p with
  | ret a => exact hpost a k k' hle h
  | call op next ih => exact ⟨hallowed op k k' hle h.1, fun a k'' hk => h.2 a k'' (le_trans hle hk)⟩
  | choose next ih => exact fun b => ih b (h b)

theorem Knows.imp {Post' : α → κ → Prop} {p : Calls Answer α} {k : κ}
    (h : Knows Allowed Learns Post p k) (himp : ∀ a k', k ≤ k' → Post a k' → Post' a k') :
    Knows Allowed Learns Post' p k := by
  induction p generalizing k with
  | ret a => exact himp a k (le_refl k) h
  | call op next ih =>
    refine ⟨h.1, fun a k' hle hlearns => ih a (h.2 a k' hle hlearns) ?_⟩
    exact fun b k'' hk => himp b k'' (le_trans hle hk)
  | choose next ih => exact fun b => ih b (h b) himp

/-- Calls that are always allowed only let the knowledge grow. -/
theorem knows_of_uses {P : Op → Prop} (hP : ∀ op k, P op → Allowed op k) {p : Calls Answer α}
    (h : Uses P p) (k : κ) : Knows Allowed Learns (fun _ k' => k ≤ k') p k := by
  have hstart : ∀ k', k ≤ k' → Knows Allowed Learns (fun _ k'' => k ≤ k'') p k' := by
    induction p with
    | ret a => exact fun k' hle => hle
    | call op next ih =>
      intro k' hle
      exact ⟨hP op k' h.1, fun a k'' hk _ => ih a (h.2 a) k'' (le_trans hle hk)⟩
    | choose next ih => exact fun k' hle b => ih b (h b) k' hle
  exact hstart k (le_refl k)

theorem knows_bind {Post' : β → κ → Prop} {p : Calls Answer α} {f : α → Calls Answer β} {k : κ}
    (h : Knows Allowed Learns (fun a k => Knows Allowed Learns Post' (f a) k) p k) :
    Knows Allowed Learns Post' (p.bind f) k := by
  induction p generalizing k with
  | ret a => exact h
  | call op next ih => exact ⟨h.1, fun a k' hle hlearns => ih a (h.2 a k' hle hlearns)⟩
  | choose next ih => exact fun b => ih b (h b)

theorem knows_embed {Op' : Type} {Answer' : Op' → Type} {f : Op → Op'}
    {g : (op : Op) → Answer' (f op) → Answer op} {Allowed' : Op' → κ → Prop}
    {Learns' : (op : Op') → Answer' op → κ → Prop}
    (hallowed : ∀ op k, Allowed op k → Allowed' (f op) k)
    (hlearns : ∀ op a k, Learns' (f op) a k → Learns op (g op a) k) {p : Calls Answer α} {k : κ}
    (h : Knows Allowed Learns Post p k) : Knows Allowed' Learns' Post (p.embed f g) k := by
  induction p generalizing k with
  | ret a => exact h
  | call op next ih =>
    refine ⟨hallowed op k h.1, fun a k' hle ha => ?_⟩
    exact ih (g op a) (h.2 (g op a) k' hle (hlearns op a k' ha))
  | choose next ih => exact fun b => ih b (h b)

/-- A program that runs alone comes to a result that it may come to by what is known. -/
theorem eval_of_knows {σ : Type} {exec : (op : Op) → σ → Answer op × σ} {I : σ → Prop}
    {know : σ → κ}
    (hexec : ∀ op s, I s → Allowed op (know s) → I (exec op s).2 ∧
      know s ≤ know (exec op s).2 ∧ Learns op (exec op s).1 (know (exec op s).2))
    {p : Calls Answer α} {s : σ} (hs : I s) (h : Knows Allowed Learns Post p (know s)) :
    I (eval exec p s).2 ∧ Post (eval exec p s).1 (know (eval exec p s).2) := by
  induction p generalizing s with
  | ret a => exact ⟨hs, h⟩
  | call op next ih =>
    obtain ⟨hinv, hgrow, hlearns⟩ := hexec op s hs h.1
    exact ih _ hinv (h.2 _ _ hgrow hlearns)
  | choose next ih => exact ih true hs (h true)

end

theorem uses_embed {Op' : Type} {Answer' : Op' → Type} {f : Op → Op'}
    {g : (op : Op) → Answer' (f op) → Answer op} {P : Op' → Prop} {p : Calls Answer α}
    (h : Uses (fun op => P (f op)) p) : Uses P (p.embed f g) := by
  induction p with
  | ret a => exact trivial
  | call op next ih => exact ⟨h.1, fun a => ih _ (h.2 _)⟩
  | choose next ih => exact fun b => ih b (h b)

/-- What each call of a program keeps, a run of it alone keeps. -/
theorem eval_of_uses {σ : Type} {exec : (op : Op) → σ → Answer op × σ} {P : Op → Prop}
    {I : σ → Prop} (hexec : ∀ op s, P op → I s → I (exec op s).2) {p : Calls Answer α} {s : σ}
    (h : Uses P p) (hs : I s) : I (eval exec p s).2 := by
  induction p generalizing s with
  | ret a => exact hs
  | call op next ih => exact ih _ (h.2 _) (hexec op s h.1 hs)
  | choose next ih => exact ih true (h true) hs

theorem embed_bind {Op' : Type} {Answer' : Op' → Type} (f : Op → Op')
    (g : (op : Op) → Answer' (f op) → Answer op) (p : Calls Answer α) (q : α → Calls Answer β) :
    (p.bind q).embed f g = (p.embed f g).bind fun a => (q a).embed f g := by
  induction p with
  | ret a => rfl
  | call op next ih => exact congrArg (Calls.call (f op)) (funext fun a => ih (g op a))
  | choose next ih => exact congrArg Calls.choose (funext ih)

theorem eval_bind {σ : Type} (exec : (op : Op) → σ → Answer op × σ) (p : Calls Answer α)
    (f : α → Calls Answer β) (s : σ) :
    eval exec (p.bind f) s = eval exec (f (eval exec p s).1) (eval exec p s).2 := by
  induction p generalizing s with
  | ret a => rfl
  | call op next ih => exact ih _ _
  | choose next ih => exact ih true s

theorem mem_trace_of_uses {answer : ℕ → (op : Op) → Answer op} {p : Calls Answer α}
    (h : Uses P p) : ∀ op ∈ trace answer p, P op := by
  induction p generalizing answer with
  | ret a => exact nofun
  | call op next ih =>
    intro op' hop
    rcases List.mem_cons.mp hop with rfl | hrest
    · exact h.1
    · exact ih _ (h.2 _) op' hrest
  | choose next ih => exact ih true (h true)

theorem every_of_uses {R : (op : Op) → (Answer op → Calls Answer α) → Prop}
    {p : Calls Answer α} (h : Uses P p) (hR : ∀ op next, P op → R op next) : Every R p := by
  induction p with
  | ret a => exact trivial
  | call op next ih => exact ⟨hR op next h.1, fun a => ih a (h.2 a)⟩
  | choose next ih => exact fun b => ih b (h b)

theorem every_bind_of_uses {R : (op : Op) → (Answer op → Calls Answer β) → Prop}
    {p : Calls Answer α} {f : α → Calls Answer β} (hp : Uses P p)
    (hR : ∀ op next, P op → R op next) (hf : ∀ a, Every R (f a)) : Every R (p.bind f) := by
  induction p with
  | ret a => exact hf a
  | call op next ih => exact ⟨hR op _ hp.1, fun a => ih a (hp.2 a)⟩
  | choose next ih => exact fun b => ih b (hp b)

theorem given_bind {p : Calls Answer α} {f : α → Calls Answer β} (hp : Given A P p)
    (hf : ∀ a, Given A P (f a)) : Given A P (p.bind f) := by
  induction p with
  | ret a => exact hf a
  | call op next ih => exact ⟨hp.1, fun a ha => ih a (hp.2 a ha)⟩
  | choose next ih => exact fun b => ih b (hp b)

theorem Yields.imp {Q Q' : α → Prop} {p : Calls Answer α} (h : Yields A Q p)
    (himp : ∀ a, Q a → Q' a) : Yields A Q' p := by
  induction p with
  | ret a => exact himp a h
  | call op next ih => exact fun a ha => ih a (h a ha)
  | choose next ih => exact fun b => ih b (h b)

theorem yields_bind {Q : α → Prop} {Q' : β → Prop} {p : Calls Answer α} {f : α → Calls Answer β}
    (hp : Yields A Q p) (hf : ∀ a, Q a → Yields A Q' (f a)) : Yields A Q' (p.bind f) := by
  induction p with
  | ret a => exact hf a hp
  | call op next ih => exact fun a ha => ih a (hp a ha)
  | choose next ih => exact fun b => ih b (hp b)

theorem Yields.and {Q Q' : α → Prop} {p : Calls Answer α} (h : Yields A Q p)
    (h' : Yields A Q' p) : Yields A (fun a => Q a ∧ Q' a) p := by
  induction p with
  | ret a => exact ⟨h, h'⟩
  | call op next ih => exact fun a ha => ih a (h a ha) (h' a ha)
  | choose next ih => exact fun b => ih b (h b) (h' b)

/-- A program that always has an answer comes to a result. -/
theorem Yields.exists_result {Q : α → Prop} {p : Calls Answer α} (h : Yields A Q p)
    (hA : ∀ op, ∃ a, A op a) : ∃ a, Q a := by
  induction p with
  | ret a => exact ⟨a, h⟩
  | call op next ih =>
    obtain ⟨a, ha⟩ := hA op
    exact ih a (h a ha)
  | choose next ih => exact ih true (h true)

theorem Yields.answered {Q : α → Prop} {p : Calls Answer α} (h : Yields A Q p)
    {answer : (op : Op) → Answer op} (hA : ∀ op, A op (answer op)) : Q (p.answered answer) := by
  induction p with
  | ret a => exact h
  | call op next ih => exact ih _ (h _ (hA op))
  | choose next ih => exact ih true (h true)

theorem yields_of_forall {Q : α → Prop} (h : ∀ a, Q a) (p : Calls Answer α) : Yields A Q p := by
  induction p with
  | ret a => exact h a
  | call op next ih => exact fun a _ => ih a
  | choose next ih => exact ih

theorem yields_bind_iff {Q : β → Prop} (p : Calls Answer α) (f : α → Calls Answer β) :
    Yields A Q (p.bind f) ↔ Yields A (fun a => Yields A Q (f a)) p := by
  induction p with
  | ret a => exact Iff.rfl
  | call op next ih => exact forall_congr' fun a => imp_congr_right fun _ => ih a
  | choose next ih => exact forall_congr' fun b => ih b

theorem uses_bind {p : Calls Answer α} {f : α → Calls Answer β} (hp : Uses P p)
    (hf : ∀ a, Uses P (f a)) : Uses P (p.bind f) := by
  induction p with
  | ret a => exact hf a
  | call op next ih => exact ⟨hp.1, fun a => ih a (hp.2 a)⟩
  | choose next ih => exact fun b => ih b (hp b)

theorem Uses.mono {Q : Op → Prop} {p : Calls Answer α} (h : Uses P p)
    (hPQ : ∀ op, P op → Q op) : Uses Q p := by
  induction p with
  | ret a => exact trivial
  | call op next ih => exact ⟨hPQ op h.1, fun a => ih a (h.2 a)⟩
  | choose next ih => exact fun b => ih b (h b)

theorem uses_of_forall (h : ∀ op, P op) (p : Calls Answer α) : Uses P p := by
  induction p with
  | ret a => exact trivial
  | call op next ih => exact ⟨h op, ih⟩
  | choose next ih => exact ih

/-- A program that can fail goes on where it did not. -/
theorem uses_run_bind {ε : Type} {x : ExceptT ε (Calls Answer) α}
    {f : α → ExceptT ε (Calls Answer) β} (hx : Uses P x.run) (hf : ∀ a, Uses P (f a).run) :
    Uses P (x >>= f).run := by
  refine uses_bind hx fun res => ?_
  cases res with
  | ok a => exact hf a
  | error e => exact trivial

theorem uses_run_lift {ε : Type} {p : Calls Answer α} (h : Uses P p) :
    Uses P (liftM p : ExceptT ε (Calls Answer) α).run :=
  uses_bind h fun _ => trivial

theorem uses_parCall {op : Op} {rest : Answer op → Calls Answer β → Calls Answer (α × β)}
    {q : Calls Answer β} (hop : P op) (hrest : ∀ a q, Uses P q → Uses P (rest a q))
    (hq : Uses P q) : Uses P (parCall op rest q) := by
  induction q with
  | ret b => exact ⟨hop, fun a => hrest a _ trivial⟩
  | call op' next ih =>
    intro left
    cases left with
    | false => exact ⟨hq.1, fun b => ih b (hq.2 b)⟩
    | true => exact ⟨hop, fun a => hrest a _ hq⟩
  | choose next ih => exact fun b => ih b (hq b)

theorem uses_par {p : Calls Answer α} {q : Calls Answer β} (hp : Uses P p)
    (hq : Uses P q) : Uses P (par p q) := by
  induction p generalizing q with
  | ret a => exact uses_bind hq fun _ => trivial
  | call op next ih => exact uses_parCall hp.1 (fun a q hq => ih a (hp.2 a) hq) hq
  | choose next ih => exact fun b => ih b (hp b) hq

theorem uses_parAll {ps : List (Calls Answer α)} (h : ∀ p ∈ ps, Uses P p) :
    Uses P (parAll ps) := by
  induction ps with
  | nil => exact trivial
  | cons p ps ih =>
    have hp : Uses P p := h p List.mem_cons_self
    have hps : Uses P (parAll ps) := ih fun q hq => h q (List.mem_cons_of_mem p hq)
    exact uses_bind (uses_par hp hps) fun _ => trivial

theorem certain_bind {p : Calls Answer α} {f : α → Calls Answer β} (h : Certain A P p) :
    Certain A P (p.bind f) := by
  induction p with
  | ret a => exact False.elim h
  | call op next ih =>
    rcases h with h | h
    · exact Or.inl h
    · exact Or.inr fun a ha => ih a (h a ha)
  | choose next ih => exact fun b => ih b (h b)

theorem certain_parCall {op : Op}
    {rest : Answer op → Calls Answer β → Calls Answer (α × β)} {q : Calls Answer β}
    (h : P op ∨ ∀ a, A op a → ∀ q, Certain A P (rest a q)) :
    Certain A P (parCall op rest q) := by
  induction q with
  | ret b => exact h.imp_right fun h a ha => h a ha _
  | call op' next ih =>
    intro left
    cases left with
    | false => exact Or.inr fun b _ => ih b
    | true => exact h.imp_right fun h a ha => h a ha _
  | choose next ih => exact ih

theorem certain_par_left {p : Calls Answer α} (h : Certain A P p) (q : Calls Answer β) :
    Certain A P (par p q) := by
  induction p generalizing q with
  | ret a => exact False.elim h
  | call op next ih =>
    exact certain_parCall (h.imp_right fun h a ha => ih a (h a ha))
  | choose next ih => exact fun b => ih b (h b) q

theorem certain_parCall_right {op : Op}
    {rest : Answer op → Calls Answer β → Calls Answer (α × β)} {q : Calls Answer β}
    (hq : Certain A P q)
    (hrest : ∀ a q, Certain A P q → Certain A P (rest a q)) :
    Certain A P (parCall op rest q) := by
  induction q with
  | ret b => exact False.elim hq
  | call op' next ih =>
    intro left
    cases left with
    | false =>
      rcases hq with h | h
      · exact Or.inl h
      · exact Or.inr fun b hb => ih b (h b hb)
    | true => exact Or.inr fun a _ => hrest a _ hq
  | choose next ih => exact fun b => ih b (hq b)

theorem certain_par_right {q : Calls Answer β} (p : Calls Answer α) (h : Certain A P q) :
    Certain A P (par p q) := by
  induction p generalizing q with
  | ret a => exact certain_bind h
  | call op next ih => exact certain_parCall_right h fun a q hq => ih a hq
  | choose next ih => exact fun b => ih b h

theorem certain_parAll {p : Calls Answer α} {ps : List (Calls Answer α)} (hp : p ∈ ps)
    (h : Certain A P p) : Certain A P (parAll ps) := by
  induction ps with
  | nil => cases hp
  | cons q ps ih =>
    apply certain_bind
    rcases List.mem_cons.mp hp with heq | hmem
    · exact certain_par_left (heq ▸ h) _
    · exact certain_par_right q (ih hmem)

end Calls

open Calls

/-- Programs in flight over one store, each with the request it serves. -/
structure Pool (Answer : Op → Type) (σ ρ α : Type) where
  store : σ
  running : List (ρ × Calls Answer α)

/-- A request arrives, the program at an index makes its next call, or the world around
the programs moves. -/
inductive Move (ρ ε : Type) where
  | start (request : ρ)
  | next (i : ℕ) (left : Bool)
  | world (event : ε)
  deriving DecidableEq

/-- What a call answers and does to the store, which may record whose call it is. -/
structure System (Answer : Op → Type) (σ ρ ε α : Type) where
  exec : ℕ → ρ → (op : Op) → σ → Answer op × σ
  body : ρ → Calls Answer α
  world : ε → σ → σ

namespace System

variable {σ ρ ε : Type} {S : System Answer σ ρ ε α} {w w' : Pool Answer σ ρ α}

def step (S : System Answer σ ρ ε α) (w : Pool Answer σ ρ α) :
    Move ρ ε → Option (Pool Answer σ ρ α)
  | .start r => some { w with running := w.running ++ [(r, S.body r)] }
  | .next i left =>
    match w.running[i]? with
    | some (r, .call op next) =>
      let (a, store) := S.exec i r op w.store
      some { store := store, running := w.running.set i (r, next a) }
    | some (r, .choose next) => some { w with running := w.running.set i (r, next left) }
    | _ => none
  | .world e => some { w with store := S.world e w.store }

/-- The call that the program at an index makes next. -/
def nextCall (w : Pool Answer σ ρ α) (i : ℕ) : Option (ρ × Op) :=
  match w.running[i]? with
  | some (r, .call op _) => some (r, op)
  | _ => none

/-- What a step leads to, by its move. -/
inductive StepCases (S : System Answer σ ρ ε α) (w : Pool Answer σ ρ α) :
    Move ρ ε → Pool Answer σ ρ α → Prop
  | start (r : ρ) : StepCases S w (.start r)
      { w with running := w.running ++ [(r, S.body r)] }
  | call (i : ℕ) (left : Bool) (r : ρ) (op : Op) (next : Answer op → Calls Answer α)
      (hi : w.running[i]? = some (r, .call op next)) : StepCases S w (.next i left)
      { store := (S.exec i r op w.store).2,
        running := w.running.set i (r, next (S.exec i r op w.store).1) }
  | choose (i : ℕ) (left : Bool) (r : ρ) (next : Bool → Calls Answer α)
      (hi : w.running[i]? = some (r, .choose next)) : StepCases S w (.next i left)
      { w with running := w.running.set i (r, next left) }
  | world (e : ε) : StepCases S w (.world e) { w with store := S.world e w.store }

theorem step_cases {m : Move ρ ε} (h : S.step w m = some w') : StepCases S w m w' := by
  cases m with
  | start r =>
    obtain rfl := Option.some.inj h
    exact .start r
  | world e =>
    obtain rfl := Option.some.inj h
    exact .world e
  | next i left =>
    rw [step] at h
    split at h
    · rename_i r op next hi
      obtain rfl := Option.some.inj h
      exact .call i left r op next hi
    · rename_i r next hi
      obtain rfl := Option.some.inj h
      exact .choose i left r next hi
    · cases h

theorem nextCall_eq {i : ℕ} {r : ρ} {op : Op} {next : Answer op → Calls Answer α}
    (hi : w.running[i]? = some (r, .call op next)) : nextCall w i = some (r, op) := by
  rw [nextCall, hi]

/-- What runs after the program at `i` went on. -/
theorem running_set {i j : ℕ} {r r' : ρ} {q p p' : Calls Answer α}
    (hi : w.running[i]? = some (r, q)) (hj : (w.running.set i (r, p))[j]? = some (r', p')) :
    j = i ∧ r' = r ∧ p' = p ∨ j ≠ i ∧ w.running[j]? = some (r', p') := by
  have hlt : i < w.running.length := (List.getElem?_eq_some_iff.mp hi).1
  by_cases hij : j = i
  · subst hij
    obtain ⟨rfl, rfl⟩ : r = r' ∧ p = p' := by simpa [hlt] using hj
    exact Or.inl ⟨rfl, rfl, rfl⟩
  · exact Or.inr ⟨hij, by simpa [List.getElem?_set_ne (Ne.symm hij)] using hj⟩

/-- What runs after a program was started. -/
theorem running_append {j : ℕ} {r r' : ρ} {p p' : Calls Answer α}
    (hj : (w.running ++ [(r, p)])[j]? = some (r', p')) :
    w.running[j]? = some (r', p') ∨ j = w.running.length ∧ r' = r ∧ p' = p := by
  rcases Nat.lt_trichotomy j w.running.length with hlt | heq | hgt
  · left
    simpa [List.getElem?_append_left hlt] using hj
  · right
    subst heq
    obtain ⟨rfl, rfl⟩ : r = r' ∧ p = p' := by simpa using hj
    exact ⟨rfl, rfl, rfl⟩
  · have hnone : (w.running ++ [(r, p)])[j]? = none := by simp; omega
    exact absurd (hnone.symm.trans hj) (by simp)

/-- What holds of every running program before a step holds after it, if the bodies of new
requests have it, a call and a choice lead to it, and the step keeps it for the others. -/
theorem running_step {m : Move ρ ε} {Q Q' : ℕ → ρ → Calls Answer α → Prop}
    (hw : ∀ i r p, w.running[i]? = some (r, p) → Q i r p)
    (hkeep : ∀ i r p, (∀ left, m ≠ .next i left) → Q i r p → Q' i r p)
    (hbody : ∀ r, Q' w.running.length r (S.body r))
    (hcall : ∀ i left r op next, m = .next i left → w.running[i]? = some (r, .call op next) →
      w'.store = (S.exec i r op w.store).2 → Q' i r (next (S.exec i r op w.store).1))
    (hchoose : ∀ i left r next, m = .next i left → w'.store = w.store →
      Q i r (.choose next) → Q' i r (next left))
    (h : S.step w m = some w') :
    ∀ i r p, w'.running[i]? = some (r, p) → Q' i r p := by
  intro j r' p hj
  cases step_cases h with
  | start r =>
    rcases running_append hj with hold | ⟨rfl, rfl, rfl⟩
    · exact hkeep j r' p nofun (hw j r' p hold)
    · exact hbody _
  | call i left r op next hi =>
    rcases running_set hi hj with ⟨rfl, rfl, rfl⟩ | ⟨hne, hold⟩
    · exact hcall j left r' op next rfl hi rfl
    · exact hkeep j r' p (fun _ h => hne (Move.next.inj h).1.symm) (hw j r' p hold)
  | choose i left r next hi =>
    rcases running_set hi hj with ⟨rfl, rfl, rfl⟩ | ⟨hne, hold⟩
    · exact hchoose j left r' next rfl rfl (hw j r' _ hi)
    · exact hkeep j r' p (fun _ h => hne (Move.next.inj h).1.symm) (hw j r' p hold)
  | world e => exact hkeep j r' p nofun (hw j r' p hj)

/-- A program that has returned makes no move. -/
theorem returned_step {m : Move ρ ε} {i : ℕ} {r : ρ} {a : α}
    (hi : w.running[i]? = some (r, .ret a)) (h : S.step w m = some w') :
    w'.running[i]? = some (r, .ret a) := by
  have hlt : i < w.running.length := (List.getElem?_eq_some_iff.mp hi).1
  cases step_cases h with
  | start r' => exact (List.getElem?_append_left hlt).trans hi
  | world e => exact hi
  | call j left r' op next hj =>
    have hne : j ≠ i := by
      rintro rfl
      exact absurd (hj.symm.trans hi) nofun
    exact (List.getElem?_set_ne hne).trans hi
  | choose j left r' next hj =>
    have hne : j ≠ i := by
      rintro rfl
      exact absurd (hj.symm.trans hi) nofun
    exact (List.getElem?_set_ne hne).trans hi

/-- Later programs yield what `Q` says as long as the answers they get are admitted. -/
theorem yields_step {A : (op : Op) → Answer op → Prop} {Q : α → Prop} {P : ρ → Prop} {n : ℕ}
    {m : Move ρ ε} (hbody : ∀ r, P r → Calls.Yields A Q (S.body r))
    (hanswer : ∀ i r op, A op (S.exec i r op w.store).1)
    (hw : ∀ j r p, w.running[j]? = some (r, p) → n ≤ j → P r → Calls.Yields A Q p)
    (h : S.step w m = some w') :
    ∀ j r p, w'.running[j]? = some (r, p) → n ≤ j → P r → Calls.Yields A Q p := by
  apply running_step hw (fun _ _ _ _ hp => hp) (fun r _ => hbody r) ?_ ?_ h
  · intro i left r op next _ hi _ hn hP
    exact hw i r _ hi hn hP _ (hanswer i r op)
  · intro i left r next _ _ hp hn hP
    exact hp hn hP left

/-- Any program that runs can run to its end now. -/
theorem reaches_eval {i : ℕ} {r : ρ} {p : Calls Answer α} (hi : w.running[i]? = some (r, p)) :
    StepSystem.Reaches S.step w
      { store := (p.eval (S.exec i r) w.store).2,
        running := w.running.set i (r, .ret (p.eval (S.exec i r) w.store).1) } := by
  have hlt : i < w.running.length := (List.getElem?_eq_some_iff.mp hi).1
  induction p generalizing w with
  | ret a =>
    have hset : w.running.set i (r, .ret a) = w.running := by
      apply List.ext_getElem?
      intro j
      by_cases hij : i = j
      · subst hij
        rw [List.getElem?_set_self hlt, hi]
      · rw [List.getElem?_set_ne hij]
    rw [Calls.eval, hset]
  | call op next ih =>
    have hstep : S.step w (.next i true) = some
        { store := (S.exec i r op w.store).2,
          running := w.running.set i (r, next (S.exec i r op w.store).1) } := by
      simp only [step, hi]
    have hrest := ih (S.exec i r op w.store).1
      (w := ⟨(S.exec i r op w.store).2, w.running.set i (r, next (S.exec i r op w.store).1)⟩)
      (List.getElem?_set_self hlt) (by simpa using hlt)
    rw [List.set_set] at hrest
    exact Relation.ReflTransGen.head ⟨_, trivial, hstep⟩ hrest
  | choose next ih =>
    have hstep : S.step w (.next i true) = some
        { w with running := w.running.set i (r, next true) } := by
      simp only [step, hi]
    have hrest := ih true (w := ⟨w.store, w.running.set i (r, next true)⟩)
      (List.getElem?_set_self hlt) (by simpa using hlt)
    rw [List.set_set] at hrest
    exact Relation.ReflTransGen.head ⟨_, trivial, hstep⟩ hrest

theorem length_step {m : Move ρ ε} (h : S.step w m = some w') :
    w.running.length ≤ w'.running.length := by
  cases step_cases h with
  | start r => simp
  | call | choose => simp
  | world e => exact Nat.le_refl _

/-- The store has its invariant, and every running program goes on by what is known. -/
structure Informed {κ : Type} [Preorder κ] (I : σ → Prop) (know : σ → κ)
    (Allowed : Op → κ → Prop) (Learns : ℕ → (op : Op) → Answer op → κ → Prop)
    (Post : ℕ → ρ → α → κ → Prop) (w : Pool Answer σ ρ α) : Prop where
  inv : I w.store
  knows : ∀ i r p, w.running[i]? = some (r, p) →
    Knows Allowed (Learns i) (Post i r) p (know w.store)

/-- A step keeps what is known, if each call that is allowed keeps the invariant and tells
what its answer lets one learn, and new programs need to know nothing. The call that is made may
be assumed to meet a guard, and what the world does to be this move. -/
theorem informed_step_under {κ : Type} [Preorder κ] {I : σ → Prop} {know : σ → κ}
    {Allowed : Op → κ → Prop} {Learns : ℕ → (op : Op) → Answer op → κ → Prop}
    {Post : ℕ → ρ → α → κ → Prop} {Guard : ℕ → ρ → Op → Prop} {m : Move ρ ε}
    (hallowed : ∀ op k k', k ≤ k' → Allowed op k → Allowed op k')
    (hpost : ∀ i r a k k', k ≤ k' → Post i r a k → Post i r a k')
    (hexec : ∀ i r op s, Guard i r op → s = w.store → I s → Allowed op (know s) →
      I (S.exec i r op s).2 ∧ know s ≤ know (S.exec i r op s).2 ∧
        Learns i op (S.exec i r op s).1 (know (S.exec i r op s).2))
    (hworld : ∀ e, m = .world e → I w.store →
      I (S.world e w.store) ∧ know w.store ≤ know (S.world e w.store))
    (hbody : ∀ i r k, Knows Allowed (Learns i) (Post i r) (S.body r) k)
    (hguard : ∀ i left, m = .next i left → ∀ c ∈ nextCall w i, Guard i c.1 c.2)
    (hw : Informed I know Allowed Learns Post w) (h : S.step w m = some w') :
    Informed I know Allowed Learns Post w' := by
  have hmeets {i : ℕ} {left : Bool} {r : ρ} {op : Op} {next : Answer op → Calls Answer α}
      (hm : m = .next i left) (hi : w.running[i]? = some (r, .call op next)) : Guard i r op :=
    hguard i left hm (r, op) (nextCall_eq hi)
  have hle : I w'.store ∧ know w.store ≤ know w'.store := by
    cases step_cases h with
    | start r => exact ⟨hw.inv, le_refl _⟩
    | choose i left r next hi => exact ⟨hw.inv, le_refl _⟩
    | world e => exact hworld e rfl hw.inv
    | call i left r op next hi =>
      obtain ⟨hinv, hgrow, -⟩ :=
        hexec i r op w.store (hmeets rfl hi) rfl hw.inv (hw.knows i r _ hi).1
      exact ⟨hinv, hgrow⟩
  refine ⟨hle.1, running_step hw.knows ?_ ?_ ?_ ?_ h⟩
  · intro i r p _ hp
    exact hp.grow hallowed (hpost i r) hle.2
  · intro r
    exact hbody _ r _
  · intro i left r op next hm hi hstore
    obtain ⟨hcall, hnext⟩ := hw.knows i r _ hi
    obtain ⟨-, hgrow, hlearns⟩ := hexec i r op w.store (hmeets hm hi) rfl hw.inv hcall
    rw [hstore]
    exact hnext _ _ hgrow hlearns
  · intro i left r next _ hstore hp
    rw [hstore]
    exact hp left

theorem informed_step {κ : Type} [Preorder κ] {I : σ → Prop} {know : σ → κ}
    {Allowed : Op → κ → Prop} {Learns : ℕ → (op : Op) → Answer op → κ → Prop}
    {Post : ℕ → ρ → α → κ → Prop}
    (hallowed : ∀ op k k', k ≤ k' → Allowed op k → Allowed op k')
    (hpost : ∀ i r a k k', k ≤ k' → Post i r a k → Post i r a k')
    (hexec : ∀ i r op s, I s → Allowed op (know s) → I (S.exec i r op s).2 ∧
      know s ≤ know (S.exec i r op s).2 ∧
        Learns i op (S.exec i r op s).1 (know (S.exec i r op s).2))
    (hworld : ∀ e s, I s → I (S.world e s) ∧ know s ≤ know (S.world e s))
    (hbody : ∀ i r k, Knows Allowed (Learns i) (Post i r) (S.body r) k) {m : Move ρ ε}
    (hw : Informed I know Allowed Learns Post w) (h : S.step w m = some w') :
    Informed I know Allowed Learns Post w' :=
  informed_step_under hallowed hpost (fun i r op s (_ : True) _ => hexec i r op s)
    (fun e _ => hworld e w.store) hbody (fun _ _ _ _ _ => trivial) hw h

end System

end AtomicCalls
