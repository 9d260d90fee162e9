import QueryPicker.Tree.Basic

/-!
# Runs of the selection tree

Everything that can happen to a tree as a step, so that runs are lists of steps. A step that fails
leaves the tree as it is.
-/

namespace QueryPicker.SelectionTree

inductive Step where
  | expand (id : Nat)
  | expandPath (path : FieldPath)
  | expandToDepth (depth : Nat)
  | set (id : Nat) (state : CheckState)
  | setSilently (id : Nat) (state : CheckState)
  | toggle (id : Nat)
  | reset
  | listen
  | unlisten (label : Nat)

inductive Answer where
  | done
  | children (nodes : List TreeNode)
  | found (id? : Option Nat)
  | size (nodes : Nat)
  | state (value : CheckState)
  | label (value : Nat)
  | removed (value : Bool)
  | failed (e : TreeError)

/-- What a step leads to: the tree, the answer, and the calls of listeners. -/
structure Outcome where
  tree : SelectionTree
  answer : Answer
  calls : List (Nat × TreeChange)

/-- The outcome of something that may fail. -/
def outcomeOf (t : SelectionTree) : Except TreeError Outcome → Outcome
  | .ok outcome => outcome
  | .error e => ⟨t, .failed e, []⟩

def perform (t : SelectionTree) : Step → Outcome
  | .expand id => t.outcomeOf do
    let (t, nodes) ← t.expand id
    return ⟨t, .children nodes, []⟩
  | .expandPath path =>
    let (t, id?) := t.expandPath path
    ⟨t, .found id?, []⟩
  | .expandToDepth depth =>
    let t := t.expandToDepth depth
    ⟨t, .size t.next, []⟩
  | .set id state => t.outcomeOf do
    let (t, calls) ← t.setState id state
    return ⟨t, .done, calls⟩
  | .setSilently id state => t.outcomeOf do
    let t ← t.setStateSilently id state
    return ⟨t, .done, []⟩
  | .toggle id => t.outcomeOf do
    let (t, calls, state) ← t.toggle id
    return ⟨t, .state state, calls⟩
  | .reset => ⟨t.resetSilently, .done, []⟩
  | .listen =>
    let (t, label) := t.listen
    ⟨t, .label label, []⟩
  | .unlisten label =>
    let (t, removed) := t.unlisten label
    ⟨t, .removed removed, []⟩

/-- The tree after a list of steps. -/
def run (t : SelectionTree) (steps : List Step) : SelectionTree :=
  steps.foldl (fun t step => (t.perform step).tree) t

end QueryPicker.SelectionTree
