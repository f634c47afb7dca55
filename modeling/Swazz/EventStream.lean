import Mathlib.Data.List.Basic

/-! Server-sent event streams: lines with their ends, events closed by an empty line, and the
message that an event carries. -/
namespace EventStream

abbrev Text := List Char

inductive LineEnd where
  | lf | crlf | cr
  deriving DecidableEq

def LineEnd.text : LineEnd → Text
  | .lf => ['\n']
  | .crlf => ['\r', '\n']
  | .cr => ['\r']

structure Line where
  text : Text
  ending : LineEnd
  deriving DecidableEq

/-- The lines of an event and the end of the empty line that closes it. -/
structure Event where
  lines : List Line
  ending : LineEnd
  deriving DecidableEq

/-- All lines of an event, the empty one included. -/
def Event.all (e : Event) : List Line := e.lines ++ [⟨[], e.ending⟩]

def Line.render (l : Line) : Text := l.text ++ l.ending.text

def render (stream : List Event) : Text := stream.flatMap fun e => e.all.flatMap Line.render

/-- A line has no line end inside, and is not empty. -/
def Line.WellFormed (l : Line) : Prop := l.text ≠ [] ∧ '\n' ∉ l.text ∧ '\r' ∉ l.text

/-- The name and the value of a field; a comment is one without a name. One blank before the
value is left out. -/
def Line.field (l : Line) : Text × Text :=
  match l.text.dropWhile (· ≠ ':') with
  | [] => (l.text, [])
  | _ :: value =>
    (l.text.takeWhile (· ≠ ':'), if value.head? = some ' ' then value.tail else value)

def Event.values (e : Event) (name : Text) : List Text :=
  (e.lines.filter (·.field.1 = name)).map (·.field.2)

/-- The type of the event, empty when it has none. -/
def Event.type (e : Event) : Text := (e.values "event".toList).getLastD []

def Event.data (e : Event) : List Text := e.values "data".toList

/-- The message: the data lines of the event. -/
def Event.message (e : Event) : Text := ['\n'].intercalate e.data

theorem field_of_colon {name : Text} (h : ':' ∉ name) (value : Text) (ending : LineEnd) :
    (Line.mk (name ++ ':' :: value) ending).field =
      (name, if value.head? = some ' ' then value.tail else value) := by
  have hall : ∀ c ∈ name, decide (c ≠ ':') = true :=
    fun c hc => decide_eq_true (ne_of_mem_of_not_mem hc h)
  simp only [Line.field]
  rw [List.dropWhile_append_of_pos hall, List.takeWhile_append_of_pos hall,
    List.dropWhile_cons_of_neg (by simp), List.takeWhile_cons_of_neg (by simp), List.append_nil]

/-- A line that begins with a name and a colon has that field. -/
theorem field_of_begins {name : Text} (h : ':' ∉ name) {l : Line}
    (hp : name ++ [':'] <+: l.text) :
    l.field = (name, if (l.text.drop (name.length + 1)).head? = some ' ' then
      (l.text.drop (name.length + 1)).tail else l.text.drop (name.length + 1)) := by
  obtain ⟨value, hvalue⟩ := hp
  obtain ⟨text, ending⟩ := l
  simp only at hvalue ⊢
  subst hvalue
  rw [List.append_assoc, List.singleton_append, field_of_colon h, ← List.drop_drop]
  simp only [List.drop_left, List.drop_one, List.tail_cons]

/-- A field of a name, without a colon or with it. -/
theorem text_of_field {name : Text} {l : Line} (h : l.field.1 = name) :
    (l.text = name ∧ l.field.2 = []) ∨ name ++ [':'] <+: l.text := by
  unfold Line.field at h ⊢
  cases hdrop : l.text.dropWhile (· ≠ ':') with
  | nil =>
    rw [hdrop] at h
    exact Or.inl ⟨h, rfl⟩
  | cons c value =>
    rw [hdrop] at h
    simp only at h
    right
    have hc : c = ':' := by
      have hhead := List.head?_dropWhile_not (fun x => decide (x ≠ ':')) l.text
      rw [hdrop] at hhead
      simpa using hhead
    subst hc h
    refine ⟨value, ?_⟩
    have hsplit := List.takeWhile_append_dropWhile (p := (· ≠ ':')) (l := l.text)
    rw [hdrop] at hsplit
    rw [List.append_assoc]
    exact hsplit

end EventStream
