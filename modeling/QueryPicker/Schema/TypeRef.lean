/-!
# Type references

A reference names a type, wrapped in any number of list and non-null layers.
-/

namespace QueryPicker

inductive TypeKind where
  | enumeration
  | inputObject
  | interface
  | list
  | nonNull
  | object
  | scalar
  | union
  deriving DecidableEq, Inhabited

namespace TypeKind

def all : List TypeKind :=
  [enumeration, inputObject, interface, list, nonNull, object, scalar, union]

/-- The name that introspection gives the kind. -/
def name : TypeKind → String
  | enumeration => "ENUM"
  | inputObject => "INPUT_OBJECT"
  | interface => "INTERFACE"
  | list => "LIST"
  | nonNull => "NON_NULL"
  | object => "OBJECT"
  | scalar => "SCALAR"
  | union => "UNION"

def ofName? (s : String) : Option TypeKind :=
  all.find? (·.name == s)

/-- Wrapper kinds occur inside references only; no type is of a wrapper kind. -/
def isWrapper : TypeKind → Bool
  | list => true
  | nonNull => true
  | _ => false

theorem ofName?_name (k : TypeKind) : ofName? k.name = some k := by
  cases k <;> decide

theorem eq_name_of_ofName? {s : String} {k : TypeKind} (h : ofName? s = some k) : s = k.name := by
  have := List.find?_some h
  simpa using (beq_iff_eq.mp this).symm

end TypeKind

structure UnknownTypeKind where
  text : String

def UnknownTypeKind.message (e : UnknownTypeKind) : String :=
  "Unknown type kind: `" ++ e.text ++ "`"

inductive TypeRef where
  | named (kind : TypeKind) (name : String)
  | list (inner : TypeRef)
  | nonNull (inner : TypeRef)
  deriving DecidableEq, Inhabited

namespace TypeRef

def text : TypeRef → String
  | named _ name => name
  | list inner => "[" ++ inner.text ++ "]"
  | nonNull inner => inner.text ++ "!"

/-- The kind of the outermost layer. -/
def kind : TypeRef → TypeKind
  | named kind _ => kind
  | list _ => .list
  | nonNull _ => .nonNull

def ofType? : TypeRef → Option TypeRef
  | named _ _ => none
  | list inner => some inner
  | nonNull inner => some inner

def innerKind : TypeRef → TypeKind
  | named kind _ => kind
  | list inner => inner.innerKind
  | nonNull inner => inner.innerKind

def innerName : TypeRef → String
  | named _ name => name
  | list inner => inner.innerName
  | nonNull inner => inner.innerName

/-- Whether a list layer is reached through non-null layers only. -/
def isList : TypeRef → Bool
  | named _ _ => false
  | list _ => true
  | nonNull inner => inner.isList

def nullable : TypeRef → Bool
  | nonNull _ => false
  | _ => true

end TypeRef

end QueryPicker
