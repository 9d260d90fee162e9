import QueryPicker.Binary64.Layout
import QueryPicker.Order.Entries

/-!
# Argument literals

The values that a selected field's arguments take, and their text in a query.
-/

namespace QueryPicker

inductive Literal where
  | null
  | bool (value : Bool)
  | int (value : Int)
  | float (value : Binary64)
  | string (value : String)
  | enumValue (name : String)
  | list (items : List Literal)
  deriving Inhabited

namespace Literal

/-- Numbers are positional from `0.0001` up to sixteen digits; an exponent has no plus sign. -/
def floatLayout : Binary64.Layout :=
  ⟨-4, 16, "e", "e-", .up⟩

def escapeChar (c : Char) : List Char :=
  if c = '"' then ['\\', '"']
  else if c = '\\' then ['\\', '\\']
  else if c = '\n' then ['\\', 'n']
  else if c = '\r' then ['\\', 'r']
  else if c = '\t' then ['\\', 't']
  else [c]

def quote (s : String) : String :=
  String.ofList ('"' :: s.toList.flatMap escapeChar ++ ['"'])

mutual

def text : Literal → String
  | null => "null"
  | bool b => if b then "true" else "false"
  | int n => toString n
  | float x => x.write floatLayout
  | string s => quote s
  | enumValue name => name
  | list items => "[" ++ ", ".intercalate (texts items) ++ "]"

def texts : List Literal → List String
  | [] => []
  | item :: items => text item :: texts items

end

mutual

/-- Equality with numbers compared as numbers: the zeros are equal, a NaN differs from itself. -/
def same : Literal → Literal → Bool
  | null, null => true
  | bool a, bool b => a == b
  | int a, int b => a == b
  | float a, float b => a.sameNumber b
  | string a, string b => a == b
  | enumValue a, enumValue b => a == b
  | list as, list bs => sameItems as bs
  | _, _ => false

def sameItems : List Literal → List Literal → Bool
  | [], [] => true
  | a :: as, b :: bs => same a b && sameItems as bs
  | _, _ => false

end

end Literal

/-- Arguments in the order in which their names were first given. -/
abbrev Arguments := List (String × Literal)

namespace Arguments

/-- Equality up to the order of the names. -/
def same (a b : Arguments) : Bool :=
  a.length == b.length &&
    a.all fun (name, value) =>
      match Entries.get? b name with
      | some other => value.same other
      | none => false

/-- Absent arguments differ from an empty list. -/
def same? : Option Arguments → Option Arguments → Bool
  | none, none => true
  | some a, some b => same a b
  | _, _ => false

/-- The argument list as it follows a field's name; no arguments, no brackets. -/
def text (args : Arguments) : String :=
  if args.isEmpty then ""
  else "(" ++ ", ".intercalate (args.map fun (name, value) => name ++ ": " ++ value.text) ++ ")"

end Arguments

end QueryPicker
