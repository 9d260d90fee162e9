import QueryPicker.Json.Basic
import QueryPicker.Schema.Basic
import QueryPicker.Text.Alphanumeric

/-!
# Completion

While a query is edited, the fields of the root type of the operation around the cursor are offered.
The operation is named by the last keyword before the cursor.
-/

namespace QueryPicker

structure Completion where
  name : String
  description : String
  /-- The field with its argument names and, for an object, an empty selection set. -/
  insertText : String
  detail : String
  deriving DecidableEq

namespace Completion

def ofField (f : Field) : Completion where
  name := f.name
  description := f.description.getD ""
  insertText :=
    f.name ++
      (if f.args.isEmpty then ""
        else "(" ++ ", ".intercalate (f.args.map fun arg => arg.name ++ ": ") ++ ")") ++
      (if f.type.innerKind = .object then " \x7b\n  \n\x7d" else "")
  detail := f.name ++ ": " ++ f.type.text

def display (c : Completion) : String := c.name ++ " - " ++ c.detail

def toJson (c : Completion) : Json :=
  .object [("name", .string c.name), ("description", .string c.description),
    ("insert_text", .string c.insertText), ("detail", .string c.detail)]

/-- The characters that lie wholly within the first bytes. -/
def takeBytes : Nat → List Char → List Char
  | _, [] => []
  | n, c :: cs => if c.utf8Size ≤ n then c :: takeBytes (n - c.utf8Size) cs else []

/-- The operation of the last keyword, or a query if there is none. -/
def lastOperation (cs : List Char) : Operation :=
  ((Text.words cs).filterMap fun word => Operation.ofKeyword? (String.ofList word)).getLast?.getD
    .query

/-- The fields to offer at a cursor, given as a number of bytes. -/
def atCursor (s : Schema) (text : String) (cursor : Nat) : List Completion :=
  match s.rootType? (lastOperation (takeBytes cursor text.toList)) with
  | some root => root.fields.map ofField
  | none => []

end Completion

end QueryPicker
