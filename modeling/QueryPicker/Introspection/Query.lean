/-!
# The introspection query

The document that asks a server for its schema. The fragment for type references goes seven layers
deep, enough for any wrapping met in practice.
-/

namespace QueryPicker.Introspection

/-- A document as lines and indented blocks in braces. -/
inductive Outline where
  | line (text : String)
  | inline (head inner : String)
  | block (head : String) (body : List Outline)

mutual

def Outline.lines (indent : String) : Outline → List String
  | .line text => [indent ++ text]
  | .inline head inner => [indent ++ head ++ " \x7b " ++ inner ++ " \x7d"]
  | .block head body =>
    (indent ++ head ++ " \x7b") :: (Outline.bodyLines (indent ++ "  ") body ++ [indent ++ "\x7d"])

def Outline.bodyLines (indent : String) : List Outline → List String
  | [] => []
  | part :: parts => part.lines indent ++ Outline.bodyLines indent parts

end

def typeReference : Outline := .block "type" [.line "...TypeRef"]

def inputValueParts : List Outline :=
  [.line "name", .line "description", typeReference, .line "defaultValue"]

def deprecationParts : List Outline :=
  [.line "isDeprecated", .line "deprecationReason"]

/-- What a type is wrapped in, layer by layer. -/
def ofTypeLayers : Nat → List Outline
  | 0 => [.line "kind", .line "name"]
  | n + 1 => [.line "kind", .line "name", .block "ofType" (ofTypeLayers n)]

def operationName : String := "IntrospectionQuery"

def queryOutline : Outline :=
  .block ("query " ++ operationName)
    [.block "__schema"
      [.inline "queryType" "name", .inline "mutationType" "name",
        .inline "subscriptionType" "name",
        .block "types"
          [.line "kind", .line "name", .line "description",
            .block "fields(includeDeprecated: true)"
              ([.line "name", .line "description", .block "args" inputValueParts, typeReference] ++
                deprecationParts),
            .block "inputFields" inputValueParts,
            .block "enumValues(includeDeprecated: true)"
              ([.line "name", .line "description"] ++ deprecationParts),
            .block "possibleTypes" [.line "kind", .line "name"]]]]

def fragmentOutline : Outline :=
  .block "fragment TypeRef on __Type" (ofTypeLayers 7)

def query : String :=
  "\n".intercalate (queryOutline.lines "" ++ "" :: fragmentOutline.lines "")

end QueryPicker.Introspection
