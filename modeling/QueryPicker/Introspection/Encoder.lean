import QueryPicker.Json.Basic
import QueryPicker.Schema.Basic

/-!
# Describing a schema

The object with which a server answers the introspection query about a schema. Lists and texts that
the schema does not have are null, and references are nested one object per layer.
-/

namespace QueryPicker.Introspection

def encodeTypeRef : TypeRef → Json
  | .named kind name =>
    .object [("kind", .string kind.name), ("name", .string name), ("ofType", .null)]
  | .list inner =>
    .object [("kind", .string TypeKind.list.name), ("name", .null), ("ofType", encodeTypeRef inner)]
  | .nonNull inner =>
    .object [("kind", .string TypeKind.nonNull.name), ("name", .null),
      ("ofType", encodeTypeRef inner)]

def encodeInputValue (v : InputValue) : Json :=
  .object [("name", .string v.name), ("description", .ofString? v.description),
    ("type", encodeTypeRef v.type), ("defaultValue", .ofString? v.defaultValue)]

def encodeField (f : Field) : Json :=
  .object [("name", .string f.name), ("description", .ofString? f.description),
    ("args", .array (f.args.map encodeInputValue)), ("type", encodeTypeRef f.type),
    ("isDeprecated", .bool f.isDeprecated),
    ("deprecationReason", .ofString? f.deprecationReason)]

def encodeEnumValue (v : EnumValue) : Json :=
  .object [("name", .string v.name), ("description", .ofString? v.description),
    ("isDeprecated", .bool v.isDeprecated),
    ("deprecationReason", .ofString? v.deprecationReason)]

def encodeList? {α : Type} (encode : α → Json) : Option (List α) → Json
  | some items => .array (items.map encode)
  | none => .null

/-- Only objects are possible types of an interface or a union. -/
def encodePossibleType (name : String) : Json :=
  .object [("kind", .string TypeKind.object.name), ("name", .string name)]

def encodeTypeDef (t : TypeDef) : Json :=
  .object [("kind", .string t.kind.name), ("name", .string t.name),
    ("description", .ofString? t.description), ("fields", encodeList? encodeField t.fields?),
    ("inputFields", encodeList? encodeInputValue t.inputFields?),
    ("enumValues", encodeList? encodeEnumValue t.enumValues?),
    ("possibleTypes", encodeList? encodePossibleType t.possibleTypes?)]

def encodeNamed (name : String) : Json := .object [("name", .string name)]

def encodeRoot : Option String → Json
  | some name => encodeNamed name
  | none => .null

/-- What stands under `__schema`. -/
def encode (s : Schema) : Json :=
  .object [("queryType", encodeNamed s.queryType), ("mutationType", encodeRoot s.mutationType),
    ("subscriptionType", encodeRoot s.subscriptionType),
    ("types", .array (s.types.map fun (_, t) => encodeTypeDef t))]

end QueryPicker.Introspection
