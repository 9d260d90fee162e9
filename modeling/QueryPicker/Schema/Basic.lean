import QueryPicker.FieldPath
import QueryPicker.Schema.TypeRef

/-!
# Schemas

A schema lists the types it defines, each under a lookup name that occurs once, and names the type
at the root of each operation. A path is resolved by following the fields from a root type through
the innermost types of the fields on the way.
-/

namespace QueryPicker

/-- An argument of a field, or a field of an input type. -/
structure InputValue where
  name : String
  description : Option String := none
  type : TypeRef
  /-- In literal syntax, as the server reports it. -/
  defaultValue : Option String := none
  deriving DecidableEq, Inhabited

structure Field where
  name : String
  description : Option String := none
  args : List InputValue := []
  type : TypeRef
  isDeprecated : Bool := false
  deprecationReason : Option String := none
  deriving DecidableEq, Inhabited

structure EnumValue where
  name : String
  description : Option String := none
  isDeprecated : Bool := false
  deprecationReason : Option String := none
  deriving DecidableEq, Inhabited

inductive Deprecation where
  | deprecated (reason : Option String)
  | notDeprecated
  deriving DecidableEq

namespace Deprecation

/-- A reason counts only for what is deprecated. -/
def of (isDeprecated : Bool) (reason : Option String) : Deprecation :=
  if isDeprecated then .deprecated reason else .notDeprecated

def isDeprecated : Deprecation → Bool
  | deprecated _ => true
  | notDeprecated => false

def reason : Deprecation → Option String
  | deprecated reason => reason
  | notDeprecated => none

end Deprecation

def Field.deprecation (f : Field) : Deprecation := .of f.isDeprecated f.deprecationReason

def EnumValue.deprecation (v : EnumValue) : Deprecation := .of v.isDeprecated v.deprecationReason

/-- A named type. A list that the kind does not have is absent, which differs from empty. -/
structure TypeDef where
  name : String
  kind : TypeKind
  description : Option String := none
  fields? : Option (List Field) := none
  inputFields? : Option (List InputValue) := none
  enumValues? : Option (List EnumValue) := none
  possibleTypes? : Option (List String) := none
  deriving DecidableEq, Inhabited

namespace TypeDef

def fields (t : TypeDef) : List Field := t.fields?.getD []

def inputFields (t : TypeDef) : List InputValue := t.inputFields?.getD []

def enumValues (t : TypeDef) : List EnumValue := t.enumValues?.getD []

def possibleTypes (t : TypeDef) : List String := t.possibleTypes?.getD []

/-- The first field of that name. -/
def field? (t : TypeDef) (name : String) : Option Field :=
  t.fields.find? (·.name == name)

/-- Types of introspection itself have names that start with two underscores. -/
def isIntrospection (t : TypeDef) : Bool :=
  "__".toList.isPrefixOf t.name.toList

def scalar (name : String) : TypeDef :=
  { name, kind := .scalar }

def object (name : String) (fields : List Field) : TypeDef :=
  { name, kind := .object, fields? := some fields }

def interface (name : String) (fields : List Field) : TypeDef :=
  { name, kind := .interface, fields? := some fields }

def inputObject (name : String) (inputFields : List InputValue) : TypeDef :=
  { name, kind := .inputObject, inputFields? := some inputFields }

def enumeration (name : String) (values : List String) : TypeDef :=
  { name, kind := .enumeration, enumValues? := some (values.map fun v => { name := v }) }

def union (name : String) (members : List String) : TypeDef :=
  { name, kind := .union, possibleTypes? := some members }

end TypeDef

/-- The entries with the first occurrence of each name. -/
def firstByName {α : Type} : List (String × α) → List (String × α)
  | [] => []
  | entry :: entries => entry :: (firstByName entries).filter fun e => decide (e.1 ≠ entry.1)

theorem firstByName_sublist {α : Type} (entries : List (String × α)) :
    (firstByName entries).Sublist entries := by
  induction entries with
  | nil => exact .slnil
  | cons entry entries ih => exact (List.filter_sublist.trans ih).cons_cons entry

theorem nodup_firstByName {α : Type} (entries : List (String × α)) :
    ((firstByName entries).map (·.1)).Nodup := by
  induction entries with
  | nil => simp [firstByName]
  | cons entry entries ih =>
    simp only [firstByName, List.map_cons, List.nodup_cons]
    refine ⟨by simp, ?_⟩
    exact ih.sublist (List.filter_sublist.map _)

structure Schema where
  /-- The types under their lookup names, in the order in which they were reported. -/
  types : List (String × TypeDef)
  queryType : String
  mutationType : Option String
  subscriptionType : Option String
  nodup_types : (types.map (·.1)).Nodup := by decide

namespace Schema

/-- Of entries with one lookup name the first is kept. -/
def ofEntries (entries : List (String × TypeDef)) (queryType : String)
    (mutationType subscriptionType : Option String) : Schema where
  types := firstByName entries
  queryType
  mutationType
  subscriptionType
  nodup_types := nodup_firstByName entries

/-- Every type is looked up by its own name. -/
def ofTypes (types : List TypeDef) (queryType : String)
    (mutationType subscriptionType : Option String) : Schema :=
  ofEntries (types.map fun t => (t.name, t)) queryType mutationType subscriptionType

def typeNamed? (s : Schema) (name : String) : Option TypeDef :=
  (s.types.find? (·.1 == name)).map (·.2)

def typeAt? (s : Schema) (index : Nat) : Option TypeDef :=
  s.types[index]?.map (·.2)

def typeIndex? (s : Schema) (name : String) : Option Nat :=
  s.types.findIdx? (·.1 == name)

def fieldOf? (s : Schema) (typeName fieldName : String) : Option Field :=
  (s.typeNamed? typeName).bind (·.field? fieldName)

def rootTypeName? (s : Schema) : Operation → Option String
  | .query => some s.queryType
  | .mutation => s.mutationType
  | .subscription => s.subscriptionType

def rootType? (s : Schema) (op : Operation) : Option TypeDef :=
  (s.rootTypeName? op).bind s.typeNamed?

/-- The operations whose root type is defined. -/
def operations (s : Schema) : List Operation :=
  Operation.all.filter fun op => (s.rootType? op).isSome

/-- The first operation with a root type of that name. -/
def operationForRoot? (s : Schema) (typeName : String) : Option Operation :=
  Operation.all.find? fun op => s.rootTypeName? op == some typeName

/-- The field that the names lead to from a type. -/
def resolveFrom? (s : Schema) (t : TypeDef) : List String → Option Field
  | [] => none
  | [name] => t.field? name
  | name :: names => do
    let field ← t.field? name
    let inner ← s.typeNamed? field.type.innerName
    s.resolveFrom? inner names

/-- The field at the end of a path; the root of an operation is no field. -/
def resolve? (s : Schema) (p : FieldPath) : Option Field := do
  let op ← p.operation?
  let root ← s.rootType? op
  s.resolveFrom? root p.fieldSegments

/-- The type whose fields are selected below a field: its innermost type, if that is defined as an
object. -/
def objectOf? (s : Schema) (f : Field) : Option TypeDef :=
  (s.typeNamed? f.type.innerName).filter (·.kind = .object)

theorem mem_types_of_typeNamed? {s : Schema} {name : String} {t : TypeDef}
    (h : s.typeNamed? name = some t) : (name, t) ∈ s.types := by
  simp only [typeNamed?, Option.map_eq_some_iff] at h
  obtain ⟨e, he, rfl⟩ := h
  have hname : e.1 = name := by simpa using List.find?_some he
  rw [← hname]
  exact List.mem_of_find?_eq_some he

end Schema

end QueryPicker
