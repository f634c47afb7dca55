import Mathlib.Data.List.Nodup
import Swazz.Graphql

/-! What a valid schema is, which operations are valid against it, and which of the fields of its
root types have an operation that is. -/
namespace Swazz.Graphql

open GraphqlText (Selections Operation GqlType IsName)

def Kind.IsLeaf (k : Kind) : Prop := k = .SCALAR ∨ k = .ENUM
  deriving Decidable

def Kind.IsComposite (k : Kind) : Prop := k = .OBJECT ∨ k = .INTERFACE ∨ k = .UNION
  deriving Decidable

def Kind.IsInput (k : Kind) : Prop := k = .SCALAR ∨ k = .ENUM ∨ k = .INPUT_OBJECT
  deriving Decidable

namespace TypeRef

def baseName (r : TypeRef) : Text := (getBaseType r).name.getD []

def IsLeaf (r : TypeRef) : Prop := (getBaseType r).kind.IsLeaf
  deriving Decidable

def IsComposite (r : TypeRef) : Prop := (getBaseType r).kind.IsComposite
  deriving Decidable

/-- The type with its wrappers. -/
def toGqlType : TypeRef → GqlType
  | last _ name => .named (name.getD [])
  | of .NON_NULL _ ofType => .nonNull ofType.toGqlType
  | of _ _ ofType => .list ofType.toGqlType

end TypeRef

def InputValue.Required (arg : InputValue) : Prop :=
  arg.Type.kind = .NON_NULL ∧ arg.DefaultValue = none
  deriving Decidable

/-! Valid schemas. -/

/-- A reference wraps a type of the schema, which has the kind it says. -/
def Refers (types : Text → Option TypeDef) : TypeRef → Prop
  | .last kind name => ∃ n t, name = some n ∧ types n = some t ∧ t.Kind = kind
  | .of kind _ ofType =>
    (kind = .LIST ∨ kind = .NON_NULL ∧ ofType.kind ≠ .NON_NULL) ∧ Refers types ofType

structure ValidArgument (types : Text → Option TypeDef) (arg : InputValue) : Prop where
  name : IsName arg.Name
  refers : Refers types arg.Type
  input : (getBaseType arg.Type).kind.IsInput

structure ValidField (types : Text → Option TypeDef) (f : Field) : Prop where
  name : IsName f.Name
  refers : Refers types f.Type
  output : f.Type.IsLeaf ∨ f.Type.IsComposite
  arguments : ∀ arg ∈ f.Args, ValidArgument types arg
  distinct : (f.Args.map (·.Name)).Nodup

structure ValidType (types : Text → Option TypeDef) (t : TypeDef) : Prop where
  name : IsName t.Name
  kind : t.Kind ≠ .LIST ∧ t.Kind ≠ .NON_NULL
  fields : ∀ f ∈ t.Fields, ValidField types f
  distinct : (t.Fields.map (·.Name)).Nodup
  /-- The possible types of a union or an interface are objects. -/
  members : ∀ r ∈ t.PossibleTypes, ∃ n t', r = .last .OBJECT (some n) ∧ types n = some t' ∧
    t'.Kind = .OBJECT
  memberNames : t.PossibleTypes.Nodup

structure ValidSchema (schema : Schema) : Prop where
  distinct : (schema.Types.map (·.Name)).Nodup
  types : ∀ t ∈ schema.Types, ValidType (typesMap schema) t
  query : ∀ n ∈ schema.QueryType, ∃ t, typesMap schema n = some t ∧ t.Kind = .OBJECT
  mutation : ∀ n ∈ schema.MutationType, ∃ t, typesMap schema n = some t ∧ t.Kind = .OBJECT

/-! Valid operations. -/

def fieldOf (types : Text → Option TypeDef) (parent name : Text) : Option Field :=
  (types parent).bind fun t => t.Fields.find? (·.Name = name)

/-- The objects that a value of a composite type can be. -/
def possibleTypes (types : Text → Option TypeDef) (name : Text) : List Text :=
  match types name with
  | none => []
  | some t => if t.Kind = .OBJECT then [name] else t.PossibleTypes.filterMap TypeRef.name

/-- The arguments are those of the field, each once and with a variable of its type, and those
that are required are there. -/
structure ArgumentsOk (definitions : List (Text × GqlType)) (f : Field)
    (args : List (Text × Text)) : Prop where
  known : ∀ a ∈ args, ∃ arg ∈ f.Args, arg.Name = a.1 ∧ (a.2, arg.Type.toGqlType) ∈ definitions
  once : (args.map (·.1)).Nodup
  required : ∀ arg ∈ f.Args, arg.Required → arg.Name ∈ args.map (·.1)

/-- The selections are valid for a type: a field is one of it, and has selections exactly when
its type is composite; a fragment is for a type that a value can have. -/
def SelectionsOk (types : Text → Option TypeDef) (definitions : List (Text × GqlType)) :
    Selections → Text → Prop
  | .nil, _ => True
  | .field name args sub rest, parent =>
    (∃ f, fieldOf types parent name = some f ∧ ArgumentsOk definitions f args ∧
      (f.Type.IsComposite → sub ≠ .nil) ∧ (f.Type.IsLeaf → sub = .nil) ∧
      SelectionsOk types definitions sub f.Type.baseName) ∧
    SelectionsOk types definitions rest parent
  | .fragment on sub rest, parent =>
    (∃ t, types on = some t ∧ t.Kind.IsComposite) ∧
    (∃ n ∈ possibleTypes types parent, n ∈ possibleTypes types on) ∧ sub ≠ .nil ∧
    SelectionsOk types definitions sub on ∧ SelectionsOk types definitions rest parent

/-- A field of a selection set, its fragments included. -/
structure Picked where
  parent : Text
  name : Text
  args : List (Text × Text)
  sub : Selections

def picked : Selections → Text → List Picked
  | .nil, _ => []
  | .field name args sub rest, parent => ⟨parent, name, args, sub⟩ :: picked rest parent
  | .fragment on sub rest, parent => picked sub on ++ picked rest parent

/-- Two types that no response can have for one name: their wrappers differ, or one of them is a
leaf and the other is another type. -/
def TopDiffers : TypeRef → TypeRef → Prop
  | .of k _ r, .of k' _ r' => k ≠ k' ∨ TopDiffers r r'
  | .last k n, .last k' n' => (k.IsLeaf ∨ k'.IsLeaf) ∧ n ≠ n'
  | _, _ => True

/-- Two fields of one name whose responses have different shapes. -/
inductive ShapesDiffer (types : Text → Option TypeDef) :
    TypeRef × Selections → TypeRef × Selections → Prop
  | top {r r' : TypeRef} {s s' : Selections} (h : TopDiffers r r') :
    ShapesDiffer types (r, s) (r', s')
  | inside {r r' : TypeRef} {s s' : Selections} {p q : Picked} {f g : Field}
    (hp : p ∈ picked s r.baseName) (hq : q ∈ picked s' r'.baseName) (hname : p.name = q.name)
    (hf : fieldOf types p.parent p.name = some f) (hg : fieldOf types q.parent q.name = some g)
    (h : ShapesDiffer types (f.Type, p.sub) (g.Type, q.sub)) :
    ShapesDiffer types (r, s) (r', s')

/-- A value can have both types, as far as the rule looks. -/
def MayOverlap (types : Text → Option TypeDef) (parent parent' : Text) : Prop :=
  parent = parent' ∨ ¬(∃ t, types parent = some t ∧ t.Kind = .OBJECT) ∨
    ¬∃ t, types parent' = some t ∧ t.Kind = .OBJECT

/-- Two fields of one name that cannot be merged. -/
inductive Conflict (types : Text → Option TypeDef) : Picked → Picked → Prop
  | shape {p q : Picked} {f g : Field} (hf : fieldOf types p.parent p.name = some f)
    (hg : fieldOf types q.parent q.name = some g)
    (h : ShapesDiffer types (f.Type, p.sub) (g.Type, q.sub)) : Conflict types p q
  | arguments {p q : Picked} (ho : MayOverlap types p.parent q.parent) (h : p.args ≠ q.args) :
    Conflict types p q
  | inside {p q p' q' : Picked} {f g : Field} (ho : MayOverlap types p.parent q.parent)
    (hf : fieldOf types p.parent p.name = some f) (hg : fieldOf types q.parent q.name = some g)
    (hp : p' ∈ picked p.sub f.Type.baseName) (hq : q' ∈ picked q.sub g.Type.baseName)
    (hname : p'.name = q'.name) (h : Conflict types p' q') : Conflict types p q

def SetMerges (types : Text → Option TypeDef) (s : Selections) (parent : Text) : Prop :=
  (picked s parent).Pairwise fun p q => p.name = q.name → ¬Conflict types p q

/-- Every selection set below these selections can be merged. -/
def AllMerge (types : Text → Option TypeDef) : Selections → Text → Prop
  | .nil, _ => True
  | .field name _ sub rest, parent =>
    (∀ f, fieldOf types parent name = some f →
      SetMerges types sub f.Type.baseName ∧ AllMerge types sub f.Type.baseName) ∧
    AllMerge types rest parent
  | .fragment on sub rest, parent =>
    SetMerges types sub on ∧ AllMerge types sub on ∧ AllMerge types rest parent

def usedVariables : Selections → List Text
  | .nil => []
  | .field _ args sub rest => args.map (·.2) ++ (usedVariables sub ++ usedVariables rest)
  | .fragment _ sub rest => usedVariables sub ++ usedVariables rest

def GqlType.inner : GqlType → Text
  | .named name => name
  | .list t => inner t
  | .nonNull t => inner t

def rootType (schema : Schema) : GraphqlText.Kind → Option Text
  | .query => schema.QueryType
  | .mutation => schema.MutationType

/-- The rules that the operations of the grammar's part can break. -/
structure Validates (schema : Schema) (op : Operation) : Prop where
  distinct : (op.definitions.map (·.1)).Nodup
  input : ∀ d ∈ op.definitions, ∃ t, typesMap schema (GqlType.inner d.2) = some t ∧
    t.Kind.IsInput
  used : ∀ d ∈ op.definitions, d.1 ∈ usedVariables op.selections
  selections : ∃ root, rootType schema op.kind = some root ∧
    SelectionsOk (typesMap schema) op.definitions op.selections root ∧
    SetMerges (typesMap schema) op.selections root ∧
    AllMerge (typesMap schema) op.selections root

/-- The text is an operation, and a valid one. -/
def WellFormed (schema : Schema) (text : Text) : Prop :=
  ∃ op, GraphqlText.parse text = some op ∧ Validates schema op

/-! The fields whose operation is valid. -/

variable (types : Text → Option TypeDef)

/-- A leaf field is found within `left` levels of a type: a field of a composite type and a
member of a union are each one level down. -/
def shown : ℕ → Text → Bool
  | 0, _ => false
  | left + 1, name =>
    match types name with
    | none => false
    | some t =>
      if t.Kind = .UNION then (t.PossibleTypes.filterMap TypeRef.name).any (shown left)
      else t.Fields.any fun f =>
        f.Type.IsLeaf ∨ f.Type.IsComposite ∧ shown left f.Type.baseName = true

/-- A field that is asked for, with the levels that are left for its own fields. -/
structure Asked where
  left : ℕ
  parent : Text
  field : Field

/-- The fields of a type that are leaves, or have leaves within the levels that are left. -/
def asked : ℕ → Text → List Asked
  | 0, _ => []
  | left + 1, name =>
    match types name with
    | none => []
    | some t =>
      if t.Kind = .UNION then (t.PossibleTypes.filterMap TypeRef.name).flatMap (asked left)
      else (t.Fields.filter fun f =>
        f.Type.IsLeaf ∨ f.Type.IsComposite ∧ shown types left f.Type.baseName = true).map
          (⟨left, name, ·⟩)

/-- The fields that are asked for at any depth. -/
inductive Below : ℕ → Text → Asked → Prop
  | here {left : ℕ} {name : Text} {a : Asked} (h : a ∈ asked types left name) :
    Below left name a
  | there {left : ℕ} {name : Text} {a b : Asked} (h : a ∈ asked types left name)
    (hc : a.field.Type.IsComposite) (hb : Below a.left a.field.Type.baseName b) :
    Below left name b

/-- Two types whose fields, as far as they are asked for, give responses of different shapes. -/
inductive Differ : ℕ × TypeRef → ℕ × TypeRef → Prop
  | top {l l' : ℕ} {r r' : TypeRef} (h : TopDiffers r r') : Differ (l, r) (l', r')
  | inside {l l' : ℕ} {r r' : TypeRef} {a b : Asked} (hc : r.IsComposite) (hc' : r'.IsComposite)
    (ha : a ∈ asked types l r.baseName) (hb : b ∈ asked types l' r'.baseName)
    (hname : a.field.Name = b.field.Name)
    (h : Differ (a.left, a.field.Type) (b.left, b.field.Type)) : Differ (l, r) (l', r')

/-- No two of these fields have one name and different shapes. -/
def Agree (l : List Asked) : Prop :=
  l.Pairwise fun a b => a.field.Name = b.field.Name →
    ¬Differ types (a.left, a.field.Type) (b.left, b.field.Type)

/-- A composite type of a root field: within three levels there is a leaf, no field on the way
has a required argument, and the members of a union agree on the fields they share. -/
structure Answerable (name : Text) : Prop where
  shown : shown types 3 name = true
  plain : ∀ a, Below types 3 name a → ∀ arg ∈ a.field.Args, ¬arg.Required
  agree : Agree types (asked types 3 name)
  agreeBelow : ∀ a, Below types 3 name a → a.field.Type.IsComposite →
    Agree types (asked types a.left a.field.Type.baseName)

end Swazz.Graphql
