import QueryPicker.Json.Reader
import QueryPicker.Schema.Basic

/-!
# Decoding introspection results

A result describes a schema under `__schema`, alone or inside `data`. Decoding is lenient: whatever
part cannot be decoded is left out and the rest is kept. Only a result without a schema object, or
whose schema does not name a query type, is refused.
-/

namespace QueryPicker

inductive DecodeError where
  | invalidJson (cause : JsonError)
  | missingQueryType
  | missingSchema
  deriving DecidableEq

def DecodeError.message : DecodeError → String
  | .invalidJson cause => "Introspection payload is not valid JSON: " ++ cause.message
  | .missingQueryType => "Introspection query type has no name"
  | .missingSchema => "Introspection payload has no `__schema` object"

namespace Introspection

def string? (value : Json) (name : String) : Option String :=
  (value.get? name).bind Json.string?

def flag (value : Json) (name : String) : Bool :=
  ((value.get? name).bind Json.bool?).getD false

/-- The decodable items of a list member; no list, no items. -/
def items? {α : Type} (decode : Json → Option α) (value : Json) (name : String) :
    Option (List α) :=
  ((value.get? name).bind Json.array?).map (·.filterMap decode)

mutual

/-- A wrapper kind needs a decodable inner reference, every other kind a name. -/
def typeRef? : Json → Option TypeRef
  | .object members => do
    let kind ← ((Entries.get? members "kind").bind Json.string?).bind TypeKind.ofName?
    match kind with
    | .list => (innerRef? members).map .list
    | .nonNull => (innerRef? members).map .nonNull
    | kind => ((Entries.get? members "name").bind Json.string?).map (.named kind)
  | _ => none

/-- The reference under `ofType`. -/
def innerRef? : List (String × Json) → Option TypeRef
  | [] => none
  | (name, value) :: members => if name = "ofType" then typeRef? value else innerRef? members

end

def inputValue? (value : Json) : Option InputValue := do
  let name ← string? value "name"
  let type ← (value.get? "type").bind typeRef?
  return {
    name
    description := string? value "description"
    type
    defaultValue := string? value "defaultValue" }

def field? (value : Json) : Option Field := do
  let name ← string? value "name"
  let type ← (value.get? "type").bind typeRef?
  return {
    name
    description := string? value "description"
    args := (items? inputValue? value "args").getD []
    type
    isDeprecated := flag value "isDeprecated"
    deprecationReason := string? value "deprecationReason" }

def enumValue? (value : Json) : Option EnumValue := do
  let name ← string? value "name"
  return {
    name
    description := string? value "description"
    isDeprecated := flag value "isDeprecated"
    deprecationReason := string? value "deprecationReason" }

/-- A type needs a name and a kind that is no wrapper. -/
def typeDef? (value : Json) : Option TypeDef := do
  let name ← string? value "name"
  let kind ← (string? value "kind").bind TypeKind.ofName?
  if kind.isWrapper then none
  else
    return {
      name
      kind
      description := string? value "description"
      fields? := items? field? value "fields"
      inputFields? := items? inputValue? value "inputFields"
      enumValues? := items? enumValue? value "enumValues"
      possibleTypes? := items? (string? · "name") value "possibleTypes" }

def rootTypeName? (schema : Json) (name : String) : Option String :=
  (schema.get? name).bind (string? · "name")

/-- The schema member of the result or, if it has none, of its data. -/
def schemaMember? (result : Json) : Option Json :=
  match result.get? "__schema" with
  | some schema => some schema
  | none => (result.get? "data").bind (·.get? "__schema")

def decode (result : Json) : Except DecodeError Schema :=
  match (schemaMember? result).filter (·.isObject) with
  | none => .error .missingSchema
  | some schema =>
    match rootTypeName? schema "queryType" with
    | none => .error .missingQueryType
    | some queryType =>
      .ok (Schema.ofTypes ((items? typeDef? schema "types").getD []) queryType
        (rootTypeName? schema "mutationType") (rootTypeName? schema "subscriptionType"))

def decodeText (text : String) : Except DecodeError Schema :=
  match Json.parse text with
  | .ok result => decode result
  | .error e => .error (.invalidJson e)

end Introspection

end QueryPicker
