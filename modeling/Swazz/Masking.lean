import Mathlib.Data.List.Infix
import Swazz.Generator

/-! Arguments as logs and events show them: the values under sensitive keys are replaced. -/
namespace Swazz.Masking

open Payloads (toLower)

/-- A JSON value as Go decodes it; `other` is what has nothing below it. -/
inductive Value (β : Type) where
  | str (s : String)
  | other (x : β)
  | nilMap
  | map (entries : List (String × Value β))
  | list (items : List (Value β))

def sensitiveKeyPatterns : List String :=
  ["password", "passwd", "pwd", "secret", "token", "api_key", "apikey",
    "api-key", "auth", "authorization", "bearer", "credential", "private",
    "access", "key", "session", "cookie", "csrf", "xsrf"]

/-- `strings.Contains` -/
def contains (s pattern : String) : Bool := decide (pattern.toList <:+: s.toList)

def isSensitive (key : String) : Bool := sensitiveKeyPatterns.any (contains (toLower key))

variable {β : Type}

def redacted : Value β := .str "[REDACTED]"

mutual

/-- `maskSensitiveArgs` of what is a map, and everything else as it is. -/
def maskValue : Value β → Value β
  | .map entries => .map (maskEntries entries)
  | .list items => .list items
  | .str s => .str s
  | .other x => .other x
  | .nilMap => .nilMap

def maskEntries : List (String × Value β) → List (String × Value β)
  | [] => []
  | (k, v) :: entries =>
    (k, if isSensitive k then redacted else maskValue v) :: maskEntries entries

end

/-- A map has each key once. -/
abbrev Args (β : Type) := Option (List (String × Value β))

def maskSensitiveArgs : Args β → Args β
  | none => none
  | some entries => some (maskEntries entries)

def Args.value : Args β → Value β
  | none => .nilMap
  | some entries => .map entries

theorem value_maskSensitiveArgs (args : Args β) :
    (maskSensitiveArgs args).value = maskValue args.value := by
  cases args with
  | none => rfl
  | some entries =>
    rw [Args.value, maskValue]
    rfl

/-! ### Places in a value -/

inductive PathStep where
  | key (k : String)
  | index (i : ℕ)
  deriving DecidableEq

def PathStep.sensitive : PathStep → Bool
  | key k => isSensitive k
  | index _ => false

def PathStep.inList : PathStep → Bool
  | key _ => false
  | index _ => true

def child : PathStep → Value β → Option (Value β)
  | .key k, .map entries => entries.lookup k
  | .index i, .list items => items[i]?
  | _, _ => none

/-- What stands at a place. -/
def valueAt : List PathStep → Value β → Option (Value β)
  | [], v => some v
  | p :: path, v => (child p v).bind (valueAt path)

def isLeaf : Value β → Bool
  | .map _ => false
  | .list _ => false
  | _ => true

/-- What masking is to do: nothing but the marker is left under a sensitive key, and no other leaf
is changed. -/
structure Masked (args result : Value β) : Prop where
  hidden : ∀ path k v, isSensitive k → valueAt (path ++ [.key k]) result = some v → v = redacted
  kept : ∀ path, (∀ p ∈ path, ¬ p.sensitive) → ∀ leaf, isLeaf leaf →
    (valueAt path result = some leaf ↔ valueAt path args = some leaf)

/-- No map inside a list has a sensitive key, unless it is itself under one. -/
def NoneInLists (args : Value β) : Prop :=
  ∀ path k v, (∀ p ∈ path, ¬ p.sensitive) → (∃ p ∈ path, p.inList) → isSensitive k →
    valueAt (path ++ [.key k]) args = some v → v = redacted

/-! ### What masking leaves -/

theorem lookup_maskEntries (entries : List (String × Value β)) (k : String) :
    (maskEntries entries).lookup k =
      (entries.lookup k).map fun v => if isSensitive k then redacted else maskValue v := by
  induction entries with
  | nil => rfl
  | cons e entries ih =>
    obtain ⟨k', v⟩ := e
    rw [maskEntries, List.lookup_cons, List.lookup_cons]
    by_cases hk : k = k'
    · subst hk
      simp
    · rw [beq_false_of_ne hk]
      exact ih

theorem child_maskValue_of_sensitive {k : String} (hk : isSensitive k) (v : Value β) :
    child (.key k) (maskValue v) = (child (.key k) v).map fun _ => redacted := by
  cases v with
  | map entries => simp [maskValue, child, lookup_maskEntries, hk]
  | _ => rfl

theorem child_maskValue_of_key {k : String} (hk : ¬ isSensitive k) (v : Value β) :
    child (.key k) (maskValue v) = (child (.key k) v).map maskValue := by
  cases v with
  | map entries => simp [maskValue, child, lookup_maskEntries, hk]
  | _ => rfl

theorem child_maskValue_of_index (i : ℕ) (v : Value β) :
    child (.index i) (maskValue v) = child (.index i) v := by
  cases v with
  | map entries => rfl
  | _ => rfl

theorem maskValue_leaf {v leaf : Value β} (hl : isLeaf leaf) :
    maskValue v = leaf ↔ v = leaf := by
  cases v with
  | map entries =>
    constructor
    · rintro rfl
      cases hl
    · rintro rfl
      cases hl
  | _ => rfl

/-- Nothing stands below the marker. -/
theorem valueAt_redacted {p : PathStep} {path : List PathStep} :
    valueAt (p :: path) (redacted : Value β) = none := by
  cases p with
  | key k => rfl
  | index i => rfl

/-- What is in a list is not masked. -/
theorem valueAt_inList {path : List PathStep} (hs : ∀ p ∈ path, ¬ p.sensitive)
    (hl : ∃ p ∈ path, p.inList) (rest : List PathStep) (v : Value β) :
    valueAt (path ++ rest) (maskValue v) = valueAt (path ++ rest) v := by
  induction path generalizing v with
  | nil => exact absurd hl (by simp)
  | cons p path ih =>
    have hs' : ∀ q ∈ path, ¬ q.sensitive := fun q hq => hs q (List.mem_cons_of_mem _ hq)
    cases p with
    | index i =>
      rw [List.cons_append, valueAt, valueAt, child_maskValue_of_index]
    | key k =>
      have hk : ¬ isSensitive k := hs (.key k) List.mem_cons_self
      obtain ⟨q, hq, hin⟩ := hl
      have hl' : ∃ p ∈ path, p.inList := by
        rcases List.mem_cons.mp hq with rfl | hq
        · cases hin
        · exact ⟨q, hq, hin⟩
      rw [List.cons_append, valueAt, valueAt, child_maskValue_of_key hk, Option.bind_map]
      exact Option.bind_congr fun w _ => ih hs' hl' w

theorem valueAt_append (path rest : List PathStep) (v : Value β) :
    valueAt (path ++ rest) v = (valueAt path v).bind (valueAt rest) := by
  induction path generalizing v with
  | nil => rfl
  | cons p path ih =>
    rw [List.cons_append, valueAt, valueAt, Option.bind_assoc]
    exact Option.bind_congr fun w _ => ih w

/-- A place under a sensitive key is under a first one. -/
theorem exists_first {path : List PathStep} (h : ∃ p ∈ path, p.sensitive) :
    ∃ before k after, path = before ++ .key k :: after ∧ (∀ p ∈ before, ¬ p.sensitive) ∧
      isSensitive k := by
  induction path with
  | nil => exact absurd h (by simp)
  | cons p path ih =>
    by_cases hp : p.sensitive
    · cases p with
      | key k => exact ⟨[], k, path, rfl, by simp, hp⟩
      | index i => cases hp
    · obtain ⟨q, hq, hs⟩ := h
      have hq' : q ∈ path := by
        rcases List.mem_cons.mp hq with rfl | hq
        · exact absurd hs hp
        · exact hq
      obtain ⟨before, k, after, rfl, hb, hk⟩ := ih ⟨q, hq', hs⟩
      refine ⟨p :: before, k, after, rfl, ?_, hk⟩
      intro r hr
      rcases List.mem_cons.mp hr with rfl | hr
      · exact hp
      · exact hb r hr

theorem kept_leaf (path : List PathStep) (hs : ∀ p ∈ path, ¬ p.sensitive) {leaf : Value β}
    (hl : isLeaf leaf) (v : Value β) :
    valueAt path (maskValue v) = some leaf ↔ valueAt path v = some leaf := by
  induction path generalizing v with
  | nil =>
    rw [valueAt, valueAt, Option.some.injEq, Option.some.injEq]
    exact maskValue_leaf hl
  | cons p path ih =>
    cases p with
    | index i => rw [valueAt, valueAt, child_maskValue_of_index]
    | key k =>
      have hk : ¬ isSensitive k := hs (.key k) List.mem_cons_self
      rw [valueAt, valueAt, child_maskValue_of_key hk, Option.bind_map, Option.bind_eq_some_iff,
        Option.bind_eq_some_iff]
      exact exists_congr fun w => and_congr_right fun _ =>
        ih (fun q hq => hs q (List.mem_cons_of_mem _ hq)) w

/-- A sensitive key that no list is above has the marker. -/
theorem hidden_key {path : List PathStep} (hs : ∀ p ∈ path, ¬ p.sensitive)
    (hl : ¬ ∃ p ∈ path, p.inList) {k : String} (hk : isSensitive k) {v w : Value β}
    (h : valueAt (path ++ [.key k]) (maskValue v) = some w) : w = redacted := by
  induction path generalizing v with
  | nil =>
    rw [List.nil_append, valueAt, child_maskValue_of_sensitive hk, Option.bind_map,
      Option.bind_eq_some_iff] at h
    obtain ⟨u, -, hu⟩ := h
    exact (Option.some.inj hu).symm
  | cons p path ih =>
    cases p with
    | index i => exact absurd ⟨_, List.mem_cons_self, rfl⟩ hl
    | key k' =>
      have hk' : ¬ isSensitive k' := hs (.key k') List.mem_cons_self
      rw [List.cons_append, valueAt, child_maskValue_of_key hk', Option.bind_map,
        Option.bind_eq_some_iff] at h
      obtain ⟨u, -, hu⟩ := h
      exact ih (fun q hq => hs q (List.mem_cons_of_mem _ hq))
        (fun ⟨q, hq, hin⟩ => hl ⟨q, List.mem_cons_of_mem _ hq, hin⟩) hu

/-- Masking does what it is to do exactly where no list has a sensitive key in it. -/
theorem masked_iff (args : Args β) :
    Masked args.value (maskSensitiveArgs args).value ↔ NoneInLists args.value := by
  rw [value_maskSensitiveArgs]
  constructor
  · intro h path k v hs hl hk hv
    rw [← valueAt_inList hs hl] at hv
    exact h.hidden path k v hk hv
  · intro h
    refine ⟨?_, fun path hs leaf hl => kept_leaf path hs hl _⟩
    intro path k w hk hw
    have hsome : ∃ p ∈ path ++ [.key k], p.sensitive := ⟨.key k, by simp, hk⟩
    obtain ⟨before, k₀, after, he, hb, hk₀⟩ := exists_first hsome
    rw [he, List.append_cons, valueAt_append, Option.bind_eq_some_iff] at hw
    obtain ⟨u, hu, hrest⟩ := hw
    obtain rfl : u = redacted := by
      by_cases hl : ∃ p ∈ before, p.inList
      · rw [valueAt_inList hb hl] at hu
        exact h before k₀ u hb hl hk₀ hu
      · exact hidden_key hb hl hk₀ hu
    cases after with
    | nil => exact (Option.some.inj hrest).symm
    | cons p after =>
      rw [valueAt_redacted] at hrest
      cases hrest

/-- A list of headers, one of which is a credential. -/
def listedHeader : Args Unit :=
  some [("headers", .list [.map [("Authorization", .str "Bearer abc")]])]

theorem listedHeader_not_masked :
    ¬ Masked listedHeader.value (maskSensitiveArgs listedHeader).value := by
  intro h
  have hv : valueAt ([.key "headers", .index 0] ++ [.key "Authorization"])
      (maskSensitiveArgs listedHeader).value = some (.str "Bearer abc") := by
    rw [value_maskSensitiveArgs, valueAt_inList (by decide +kernel) ⟨.index 0, by simp, rfl⟩]
    rfl
  have hr := h.hidden _ _ _ (by decide +kernel) hv
  simp [redacted] at hr

end Swazz.Masking
