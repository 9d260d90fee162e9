import QueryPicker.Document.FieldTree
import QueryPicker.Selection.SelectionMap

/-!
# Selections as query text

Every operation below whose root something is selected is written with the selected fields, siblings
sorted by name. A field on the way to a selected one is written whether or not it is selected
itself, and only arguments stored at its own path follow it.
-/

namespace QueryPicker.SelectionMap

/-- The fields below a path, for a number of levels. -/
def treesBelow (m : SelectionMap) : Nat → FieldPath → List FieldTree
  | 0, _ => []
  | levels + 1, p =>
    (m.childNames p).map fun name =>
      .node name (m.argumentsAt (p.child name)) (treesBelow m levels (p.child name))

/-- No selected path goes on beyond the depth of the selection, so that all levels are there. -/
def operationTrees (m : SelectionMap) (op : Operation) : List FieldTree :=
  m.treesBelow m.depth (FieldPath.root op)

def operationTexts (m : SelectionMap) : List String :=
  Operation.all.filterMap fun op =>
    match m.operationTrees op with
    | [] => none
    | trees => some (FieldTree.operationText op trees)

/-- What is written when nothing is selected. -/
def emptyText : String := "query \x7b\n  \n\x7d"

def text (m : SelectionMap) : String :=
  match m.operationTexts with
  | [] => emptyText
  | texts => "\n\n".intercalate texts

end QueryPicker.SelectionMap
