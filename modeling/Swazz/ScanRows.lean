import Mathlib.Order.Nat

/-! The statuses of a scan, and JSON values as the runner sends and D1 stores them. -/
namespace Swazz

inductive ScanStatus where
  | queued
  | dispatched
  | running
  | paused
  | completed
  | failed
  deriving DecidableEq

/-- `ACTIVE_STATUS_SQL`: the scan has not ended. -/
def ScanStatus.active : ScanStatus → Bool
  | .queued | .dispatched | .paused => true
  | .running | .completed | .failed => false

/-- A parsed JSON value; a number is a mantissa over a power of ten. -/
inductive Json where
  | null
  | bool (b : Bool)
  | num (mantissa : ℤ) (exponent : ℕ)
  | str (s : String)
  | arr (items : List Json)
  | obj (fields : List (String × Json))

namespace Json

/-- `j.name` of a value other than null; `none` is undefined. -/
def field (j : Json) (name : String) : Option Json :=
  match j with
  | .obj fields => fields.lookup name
  | _ => none

/-- Whether the value is the string. -/
def isStr (j : Option Json) (s : String) : Bool :=
  match j with
  | some (.str t) => t == s
  | _ => false

def truthy : Json → Bool
  | .null => false
  | .bool b => b
  | .num mantissa _ => decide (mantissa ≠ 0)
  | .str s => !s.isEmpty
  | .arr _ | .obj _ => true

/-- `{ ...fields, name: value }` -/
def setField (name : String) (value : Json) : List (String × Json) → List (String × Json)
  | [] => [(name, value)]
  | (n, v) :: rest =>
    if n == name then (n, value) :: rest else (n, v) :: setField name value rest

theorem lookup_setField (name : String) (value : Json) (fields : List (String × Json)) :
    (setField name value fields).lookup name = some value := by
  induction fields with
  | nil => simp [setField]
  | cons head rest ih =>
    obtain ⟨n, v⟩ := head
    by_cases h : n = name
    · simp [setField, h]
    · have hne : (name == n) = false := by simpa using fun heq : name = n => h heq.symm
      simp [setField, h, List.lookup_cons, hne, ih]

theorem lookup_setField_ne {name other : String} (hne : other ≠ name) (value : Json)
    (fields : List (String × Json)) :
    (setField name value fields).lookup other = fields.lookup other := by
  induction fields with
  | nil =>
    have hno : (other == name) = false := by simpa using hne
    simp [setField, List.lookup_cons, hno]
  | cons head rest ih =>
    obtain ⟨n, v⟩ := head
    by_cases h : n = name
    · have hno : (other == n) = false := by simpa [h] using hne
      simp [setField, h, List.lookup_cons]
      simp [← h, hno]
    · simp only [setField, beq_iff_eq, h, if_false, List.lookup_cons]
      split
      · rfl
      · exact ih

end Json

end Swazz
