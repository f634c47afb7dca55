import Swazz.GraphqlText

/-! The endpoints that are made of a GraphQL schema: one operation for each field of its root
types. -/
namespace Swazz.Graphql

abbrev Text := List Char

inductive Kind where
  | SCALAR | OBJECT | INTERFACE | UNION | ENUM | INPUT_OBJECT | LIST | NON_NULL
  deriving DecidableEq

/-- A reference to a type: `last` is one without an `ofType`. -/
inductive TypeRef where
  | last (kind : Kind) (name : Option Text)
  | of (kind : Kind) (name : Option Text) (ofType : TypeRef)
  deriving DecidableEq

namespace TypeRef

def kind : TypeRef → Kind
  | last kind _ => kind
  | of kind _ _ => kind

def name : TypeRef → Option Text
  | last _ name => name
  | of _ name _ => name

end TypeRef

structure InputValue where
  Name : Text
  «Type» : TypeRef
  DefaultValue : Option Text
  deriving DecidableEq

structure Field where
  Name : Text
  Args : List InputValue
  «Type» : TypeRef
  deriving DecidableEq

structure TypeDef where
  Kind : Kind
  Name : Text
  Fields : List Field
  InputFields : List InputValue
  EnumValues : List Text
  PossibleTypes : List TypeRef
  deriving DecidableEq

structure Schema where
  QueryType : Option Text
  MutationType : Option Text
  Types : List TypeDef

/-- The schema of a request body. -/
inductive SchemaProperty where
  | mk (type : Text) (properties : List (Text × SchemaProperty)) (required : List Text)
    (items : Option SchemaProperty) (enum : List Text)

structure EndpointConfig where
  Path : Text
  Method : Text
  Schema : SchemaProperty
  ContentType : Text

/-- The last of the types with a name. -/
def typesMap (schema : Schema) (name : Text) : Option TypeDef :=
  schema.Types.reverse.find? (·.Name = name)

def getBaseType : TypeRef → TypeRef
  | .last kind name => .last kind name
  | .of _ _ ofType => getBaseType ofType

def formatGQLType : TypeRef → Text
  | .of .NON_NULL _ ofType => formatGQLType ofType ++ ['!']
  | .of .LIST _ ofType => ['['] ++ formatGQLType ofType ++ [']']
  | .of _ name _ => name.getD []
  | .last _ name => name.getD []

def braces (fields : List Text) : Text :=
  "\x7b ".toList ++ [' '].intercalate fields ++ " \x7d".toList

/-- The selections of a type, `left` levels before the cut: the source counts its `depth` up to
3, and `left` is `4 - depth`. Empty when nothing is selected. -/
def selectionSet (types : Text → Option TypeDef) : ℕ → TypeRef → Text
  | 0, _ => []
  | left + 1, ref =>
    match (getBaseType ref).name.bind types with
    | none => []
    | some t =>
      let fields :=
        if t.Kind = .UNION then
          t.PossibleTypes.filterMap fun posType =>
            posType.name.bind fun name =>
              let subSel := selectionSet types left posType
              if subSel ≠ [] then some ("... on ".toList ++ name ++ [' '] ++ subSel) else none
        else
          t.Fields.filterMap fun f =>
            let fBase := getBaseType f.Type
            if fBase.kind = .SCALAR ∨ fBase.kind = .ENUM then some f.Name
            else if 0 < left ∧
                (fBase.kind = .OBJECT ∨ fBase.kind = .INTERFACE ∨ fBase.kind = .UNION) then
              let subSel := selectionSet types left f.Type
              if subSel ≠ [] then some (f.Name ++ [' '] ++ subSel) else none
            else none
      if fields.isEmpty then [] else braces fields

def buildSelectionSet (ref : TypeRef) (types : Text → Option TypeDef) (depth : ℕ) : Text :=
  selectionSet types (4 - depth) ref

/-- The text of the operation for a field of a root type. -/
def queryStr (types : Text → Option TypeDef) (isMutation : Bool) (field : Field) : Text :=
  let argDefs := field.Args.map fun arg =>
    ['$'] ++ arg.Name ++ ": ".toList ++ formatGQLType arg.Type
  let argCalls := field.Args.map fun arg => arg.Name ++ ": $".toList ++ arg.Name
  let base := (getBaseType field.Type).kind
  let selection :=
    if base = .OBJECT ∨ base = .INTERFACE ∨ base = .UNION then
      [' '] ++ buildSelectionSet field.Type types 1
    else []
  let opType := if isMutation then "mutation".toList else "query".toList
  if argDefs ≠ [] then
    opType ++ [' '] ++ field.Name ++ ['('] ++ ", ".toList.intercalate argDefs ++
      ") \x7b ".toList ++ field.Name ++ ['('] ++ ", ".toList.intercalate argCalls ++ [')'] ++
      selection ++ " \x7d".toList
  else if isMutation then
    "mutation \x7b ".toList ++ field.Name ++ selection ++ " \x7d".toList
  else "\x7b ".toList ++ field.Name ++ selection ++ " \x7d".toList

/-! The variables and the body. -/

def SchemaProperty.ofType (type : String) : SchemaProperty := .mk type.toList [] [] none []

def mapper (types : Text → Option TypeDef) (r : TypeRef) (depth : ℕ) : SchemaProperty :=
  if h : 5 < depth then .ofType "string"
  else
    match r with
    | .of .NON_NULL _ ofType => mapper types ofType depth
    | .of .LIST _ ofType => .mk "array".toList [] [] (some (mapper types ofType depth)) []
    | .last _ none | .of _ none _ => .ofType "string"
    | .last _ (some name) | .of _ (some name) _ =>
      if name = "Int".toList then .ofType "integer"
      else if name = "Float".toList then .ofType "number"
      else if name = "Boolean".toList then .ofType "boolean"
      else if name = "String".toList ∨ name = "ID".toList then .ofType "string"
      else
        match types name with
        | none => .ofType "string"
        | some t =>
          if t.Kind = .INPUT_OBJECT then
            .mk "object".toList (t.InputFields.map fun f => (f.Name, mapper types f.Type (depth + 1)))
              ((t.InputFields.filter (·.Type.kind = .NON_NULL)).map (·.Name)) none []
          else if t.Kind = .ENUM then .mk "string".toList [] [] none t.EnumValues
          else .ofType "string"
  termination_by (6 - depth, sizeOf r)

def mapGQLTypeToSchema (ref : TypeRef) (types : Text → Option TypeDef) : SchemaProperty :=
  mapper types ref 0

def endpointSchema (types : Text → Option TypeDef) (isMutation : Bool) (field : Field) :
    SchemaProperty :=
  let variablesProps := field.Args.map fun arg => (arg.Name, mapGQLTypeToSchema arg.Type types)
  let requiredArgs := (field.Args.filter (·.Type.kind = .NON_NULL)).map (·.Name)
  let query := ("query".toList,
    SchemaProperty.mk "string".toList [] [] none [queryStr types isMutation field])
  if variablesProps.isEmpty then .mk "object".toList [query] ["query".toList] none []
  else
    .mk "object".toList
      [query, ("variables".toList, .mk "object".toList variablesProps requiredArgs none [])]
      (if requiredArgs.isEmpty then ["query".toList] else ["query".toList, "variables".toList])
      none []

/-- The query string of an endpoint: the only value that its body allows. -/
def EndpointConfig.query (ep : EndpointConfig) : Option Text :=
  match ep.Schema with
  | .mk _ properties _ _ _ =>
    (properties.lookup "query".toList).bind fun
      | .mk _ _ _ _ enum => enum.head?

/-! The endpoints. -/

/-- The fields of a root type, but those of the introspection. -/
def rootFields (schema : Schema) (rootTypeName : Text) : List Field :=
  match typesMap schema rootTypeName with
  | none => []
  | some rootType => rootType.Fields.filter fun field => !("__".toList.isPrefixOf field.Name)

def addEndpoints (schema : Schema) (basePath rootTypeName : Text) (isMutation : Bool) :
    List EndpointConfig :=
  (rootFields schema rootTypeName).map fun field => {
    Path := basePath ++ ['?'] ++ (if isMutation then "mutation".toList else "query".toList) ++
      ['='] ++ field.Name
    Method := "POST".toList
    Schema := endpointSchema (typesMap schema) isMutation field
    ContentType := "application/json".toList }

/-- The endpoints of a decoded schema. -/
def ParseGraphQLIntrospection (schema : Schema) (defaultPath : Text) :
    Except String (List EndpointConfig) :=
  if schema.QueryType = none ∧ schema.MutationType = none then
    .error "invalid graphql schema: missing queryType and mutationType"
  else
    let basePath := if defaultPath = [] then "/graphql".toList else defaultPath
    .ok ((schema.QueryType.toList.flatMap fun name => addEndpoints schema basePath name false) ++
      schema.MutationType.toList.flatMap fun name => addEndpoints schema basePath name true)

end Swazz.Graphql
