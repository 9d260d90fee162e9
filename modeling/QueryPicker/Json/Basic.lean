import QueryPicker.Binary64.Basic
import QueryPicker.Order.Entries

/-!
# JSON values

The members of an object keep their order, and a name occurs in it at most once. Integers of 64 bits
are exact; every other number is a binary floating point number.
-/

namespace QueryPicker

inductive JsonNumber where
  | integer (value : Int)
  | float (value : Binary64)
  deriving DecidableEq, Inhabited

inductive Json where
  | null
  | bool (value : Bool)
  | number (value : JsonNumber)
  | string (value : String)
  | array (items : List Json)
  | object (members : List (String × Json))
  deriving Inhabited

namespace Json

def ofNat (n : Nat) : Json := .number (.integer n)

def ofInt (n : Int) : Json := .number (.integer n)

/-- An absent text is written as null. -/
def ofString? : Option String → Json
  | some s => .string s
  | none => .null

/-- The value of a member; no value but an object has members. -/
def get? (value : Json) (name : String) : Option Json :=
  match value with
  | .object members => Entries.get? members name
  | _ => none

def string? : Json → Option String
  | .string s => some s
  | _ => none

def bool? : Json → Option Bool
  | .bool b => some b
  | _ => none

def array? : Json → Option (List Json)
  | .array items => some items
  | _ => none

/-- The members of an object. -/
abbrev Members := List (String × Json)

def members? : Json → Option Members
  | .object members => some members
  | _ => none

/-- A member for a part that is there. -/
def memberIf {α : Type} (name : String) (write : α → Json) : Option α → Members
  | some a => [(name, write a)]
  | none => []

def isObject : Json → Bool
  | .object _ => true
  | _ => false

/-- A whole number that is not negative. -/
def nat? : Json → Option Nat
  | .number (.integer n) => if 0 ≤ n then some n.toNat else none
  | _ => none

end Json

end QueryPicker
