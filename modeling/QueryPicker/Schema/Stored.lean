import QueryPicker.Json.Basic
import QueryPicker.Schema.Basic

/-!
# The stored form of schemas

A schema is saved as a JSON object with one member per part. Reading it back needs every part that
is not optional, each of the right form; an optional part may be null or missing. Schemas, types,
fields and values may also be given as the array of all their parts in order.
-/

namespace QueryPicker

namespace Stored

/-- A record with its members by name. -/
def record (names : List String) : Json → Option Json
  | .object members => some (.object members)
  | .array items => if items.length = names.length then some (.object (names.zip items)) else none
  | _ => none

/-- The value of an optional member: missing and null are both absent. -/
def optional {α : Type} (read : Json → Option α) (value : Json) (name : String) :
    Option (Option α) :=
  match value.get? name with
  | none => some none
  | some .null => some none
  | some member => (read member).map some

def required {α : Type} (read : Json → Option α) (value : Json) (name : String) : Option α :=
  (value.get? name).bind read

def list {α : Type} (read : Json → Option α) (value : Json) : Option (List α) :=
  value.array?.bind (·.mapM read)

def ofList? {α : Type} (write : α → Json) : Option (List α) → Json
  | some items => .array (items.map write)
  | none => .null

end Stored

open Stored

namespace TypeKind

def storedName : TypeKind → String
  | enumeration => "Enum"
  | inputObject => "InputObject"
  | interface => "Interface"
  | list => "List"
  | nonNull => "NonNull"
  | object => "Object"
  | scalar => "Scalar"
  | union => "Union"

/-- A kind is its name, alone or as the name of a null member. -/
def ofJson? : Json → Option TypeKind
  | .string s => all.find? (·.storedName == s)
  | .object [(s, .null)] => all.find? (·.storedName == s)
  | _ => none

end TypeKind

namespace TypeRef

def toJson : TypeRef → Json
  | named kind name =>
    .object [("Named", .object [("kind", .string kind.storedName), ("name", .string name)])]
  | list inner => .object [("List", inner.toJson)]
  | nonNull inner => .object [("NonNull", inner.toJson)]

/-- What a named layer holds is always an object. -/
def ofJson? : Json → Option TypeRef
  | .object [(layer, value)] =>
    if layer = "Named" then do
      let kind ← required TypeKind.ofJson? value "kind"
      let name ← required Json.string? value "name"
      return named kind name
    else if layer = "List" then (ofJson? value).map list
    else if layer = "NonNull" then (ofJson? value).map nonNull
    else none
  | _ => none

end TypeRef

namespace InputValue

def toJson (v : InputValue) : Json :=
  .object [("name", .string v.name), ("description", .ofString? v.description),
    ("type_ref", v.type.toJson), ("default_value", .ofString? v.defaultValue)]

def parts : List String :=
  ["name", "description", "type_ref", "default_value"]

def ofJson? (value : Json) : Option InputValue := do
  let value ← record parts value
  let name ← required Json.string? value "name"
  let description ← optional Json.string? value "description"
  let type ← required TypeRef.ofJson? value "type_ref"
  let defaultValue ← optional Json.string? value "default_value"
  return { name, description, type, defaultValue }

end InputValue

namespace Field

def toJson (f : Field) : Json :=
  .object [("name", .string f.name), ("description", .ofString? f.description),
    ("args", .array (f.args.map (·.toJson))), ("type_ref", f.type.toJson),
    ("is_deprecated", .bool f.isDeprecated),
    ("deprecation_reason", .ofString? f.deprecationReason)]

def parts : List String :=
  ["name", "description", "args", "type_ref", "is_deprecated", "deprecation_reason"]

def ofJson? (value : Json) : Option Field := do
  let value ← record parts value
  let name ← required Json.string? value "name"
  let description ← optional Json.string? value "description"
  let args ← required (list InputValue.ofJson?) value "args"
  let type ← required TypeRef.ofJson? value "type_ref"
  let isDeprecated ← required Json.bool? value "is_deprecated"
  let deprecationReason ← optional Json.string? value "deprecation_reason"
  return { name, description, args, type, isDeprecated, deprecationReason }

end Field

namespace EnumValue

def toJson (v : EnumValue) : Json :=
  .object [("name", .string v.name), ("description", .ofString? v.description),
    ("is_deprecated", .bool v.isDeprecated),
    ("deprecation_reason", .ofString? v.deprecationReason)]

def parts : List String :=
  ["name", "description", "is_deprecated", "deprecation_reason"]

def ofJson? (value : Json) : Option EnumValue := do
  let value ← record parts value
  let name ← required Json.string? value "name"
  let description ← optional Json.string? value "description"
  let isDeprecated ← required Json.bool? value "is_deprecated"
  let deprecationReason ← optional Json.string? value "deprecation_reason"
  return { name, description, isDeprecated, deprecationReason }

end EnumValue

namespace TypeDef

def toJson (t : TypeDef) : Json :=
  .object [("name", .string t.name), ("kind", .string t.kind.storedName),
    ("description", .ofString? t.description), ("fields", ofList? Field.toJson t.fields?),
    ("input_fields", ofList? InputValue.toJson t.inputFields?),
    ("enum_values", ofList? EnumValue.toJson t.enumValues?),
    ("possible_types", ofList? Json.string t.possibleTypes?)]

def parts : List String :=
  ["name", "kind", "description", "fields", "input_fields", "enum_values", "possible_types"]

def ofJson? (value : Json) : Option TypeDef := do
  let value ← record parts value
  let name ← required Json.string? value "name"
  let kind ← required TypeKind.ofJson? value "kind"
  let description ← optional Json.string? value "description"
  let fields? ← optional (list Field.ofJson?) value "fields"
  let inputFields? ← optional (list InputValue.ofJson?) value "input_fields"
  let enumValues? ← optional (list EnumValue.ofJson?) value "enum_values"
  let possibleTypes? ← optional (list Json.string?) value "possible_types"
  return { name, kind, description, fields?, inputFields?, enumValues?, possibleTypes? }

end TypeDef

namespace Schema

def toJson (s : Schema) : Json :=
  .object [("types", .object (s.types.map fun (name, t) => (name, t.toJson))),
    ("query_type", .string s.queryType), ("mutation_type", .ofString? s.mutationType),
    ("subscription_type", .ofString? s.subscriptionType)]

def parts : List String :=
  ["types", "query_type", "mutation_type", "subscription_type"]

def ofJson? (value : Json) : Option Schema := do
  let value ← record parts value
  let entries ← match ← value.get? "types" with
    | .object members => members.mapM fun (name, t) => (TypeDef.ofJson? t).map (name, ·)
    | _ => none
  let queryType ← required Json.string? value "query_type"
  let mutationType ← optional Json.string? value "mutation_type"
  let subscriptionType ← optional Json.string? value "subscription_type"
  return ofEntries entries queryType mutationType subscriptionType

end Schema

end QueryPicker
