import QueryPicker.Operation
import QueryPicker.Selection.Literal

/-!
# Fields as text

Fields nest in braces, a line to a field, two spaces deeper than the field that holds them. A field
without children has no braces, one without arguments no parentheses.
-/

namespace QueryPicker

inductive FieldTree where
  | node (name : String) (args : Arguments) (children : List FieldTree)
  deriving Inhabited

namespace FieldTree

def indentation (depth : Nat) : String :=
  String.ofList (List.replicate (2 * depth) ' ')

mutual

def lines (depth : Nat) : FieldTree → List String
  | node name args children =>
    let head := indentation depth ++ name ++ args.text
    match children with
    | [] => [head]
    | child :: more =>
      (head ++ " \x7b") ::
        (lines (depth + 1) child ++ listLines (depth + 1) more) ++ [indentation depth ++ "\x7d"]

def listLines (depth : Nat) : List FieldTree → List String
  | [] => []
  | tree :: trees => lines depth tree ++ listLines depth trees

end

/-- The fields of one operation after its keyword. -/
def operationText (op : Operation) (trees : List FieldTree) : String :=
  "\n".intercalate ((op.keyword ++ " \x7b") :: listLines 1 trees ++ ["\x7d"])

end FieldTree

end QueryPicker
