import QueryPicker.Document.FieldTree
import QueryPicker.Schema.Basic

/-!
# Sample queries

An operation over the first few fields of a type, with placeholders for the first few arguments of
its top fields. Fields of object type are opened until the greatest depth is reached, but not the
types with which a schema describes itself.
-/

namespace QueryPicker

namespace Schema

/-- The number of fields shown on each level. -/
def fieldsPerLevel : Nat := 3

/-- The number of arguments shown for each field of the top level. -/
def argumentsPerField : Nat := 2

def firstEnumValue? (s : Schema) (name : String) : Option String :=
  (s.typeNamed? name).bind fun t => t.enumValues.head?.map (·.name)

def scalarPlaceholder (name : String) : Literal :=
  match name with
  | "Boolean" => .bool true
  | "Float" => .float (.ofNat 1)
  | "ID" => .string "1"
  | "Int" => .int 1
  | "String" => .string "example"
  | _ => .null

def placeholder (s : Schema) : TypeRef → Literal
  | .list _ => .list []
  | .nonNull inner => s.placeholder inner
  | .named .enumeration name => .enumValue ((s.firstEnumValue? name).getD "ENUM_VALUE")
  | .named .scalar name => scalarPlaceholder name
  | .named _ _ => .null

def placeholderArguments (s : Schema) (f : Field) : Arguments :=
  (f.args.take argumentsPerField).map fun a => (a.name, s.placeholder a.type)

/-- The type to open below a field. The reference decides whether it is an object type. -/
def sampleType? (s : Schema) (f : Field) : Option TypeDef :=
  if f.type.innerKind = .object && !f.type.innerName.startsWith "__" then
    (s.typeNamed? f.type.innerName).filter fun t => !t.fields.isEmpty
  else none

/-- A field with as many levels below it as are left. -/
def sampleTree (s : Schema) : Nat → Arguments → Field → FieldTree
  | 0, args, f => .node f.name args []
  | levels + 1, args, f =>
    .node f.name args <|
      match s.sampleType? f with
      | some t => (t.fields.take fieldsPerLevel).map (sampleTree s levels [])
      | none => []

def sampleTrees (s : Schema) (root : TypeDef) (maxDepth : Nat) : List FieldTree :=
  (root.fields.take fieldsPerLevel).map fun f =>
    s.sampleTree (maxDepth - 1) (s.placeholderArguments f) f

/-- A sample operation on a type; a type that is the root of no operation is queried. -/
def sampleQuery? (s : Schema) (rootName : String) (maxDepth : Nat) : Option String :=
  (s.typeNamed? rootName).map fun root =>
    if root.fields.isEmpty then "# Type " ++ rootName ++ " has no fields"
    else
      FieldTree.operationText ((s.operationForRoot? rootName).getD .query)
        (s.sampleTrees root maxDepth)

end Schema

end QueryPicker
