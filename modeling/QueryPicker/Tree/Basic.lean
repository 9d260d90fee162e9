import QueryPicker.Tree.Growth

/-!
# The selection tree

One root for each operation whose root type is defined, with the fields below it. A node can be set
to checked or unchecked; the rest of the tree follows. Listeners are told of every such change that
changed a mark.
-/

namespace QueryPicker

inductive TreeError where
  | partialNotSettable (path : FieldPath)
  | unknownNode (id : Nat)
  | unknownPath (path : FieldPath)
  deriving DecidableEq

/-- How a node's number is written. -/
def nodeIdText (id : Nat) : String := "NodeId(" ++ toString id ++ ")"

def TreeError.message : TreeError → String
  | .partialNotSettable path =>
    "`Partial` is derived from children and cannot be set on `" ++ path.dotted ++ "`"
  | .unknownNode id => "No node with id " ++ nodeIdText id ++ " exists in this tree"
  | .unknownPath path => "No node for `" ++ path.dotted ++ "` exists in this tree"

/-- A change of marks, from the node that was set. -/
structure TreeChange where
  target : Nat
  targetPath : FieldPath
  targetState : CheckState
  /-- The nodes whose marks changed, with their new marks. -/
  changed : List NodeInfo

structure SelectionTree where
  bounds : TreeBounds
  roots : List TreeNode
  /-- The number of the next node, which is the number of nodes made. -/
  next : Nat
  listeners : List Nat
  nextListener : Nat

namespace SelectionTree

/-- The root of an operation is entered whatever the kind of its type. -/
def rootInfo (op : Operation) (id : Nat) (rootName : String) (root : TypeDef) : NodeInfo where
  id
  operation := op
  path := FieldPath.root op
  field? := none
  objectType? := if root.fields.isEmpty then none else some rootName
  truncated := false
  expanded := root.fields.isEmpty
  state := .unchecked

/-- The root with its children, if its type is defined. -/
def buildRoot? (b : TreeBounds) (next : Nat) (op : Operation) : Option (TreeNode × Nat) := do
  let name ← b.schema.rootTypeName? op
  let root ← b.schema.typeNamed? name
  return b.expand [] (next + 1) (.mk (rootInfo op next name root) [])

def buildRoots (b : TreeBounds) (next : Nat) : List Operation → List TreeNode × Nat
  | [] => ([], next)
  | op :: ops =>
    match buildRoot? b next op with
    | none => buildRoots b next ops
    | some (root, next) =>
      let (roots, next) := buildRoots b next ops
      (root :: roots, next)

def defaultMaxDepth : Nat := 5

def build (schema : Schema) (maxDepth : Nat) : SelectionTree :=
  let bounds := ⟨schema, maxDepth⟩
  let (roots, next) := buildRoots bounds 0 Operation.all
  ⟨bounds, roots, next, [], 0⟩

def position? (t : SelectionTree) (id : Nat) : Option (List Nat) :=
  TreeNode.positionAmong? id 0 t.roots

def nodeAt? (t : SelectionTree) : List Nat → Option TreeNode
  | [] => none
  | i :: is => t.roots[i]?.bind (TreeNode.at? is)

def node? (t : SelectionTree) (id : Nat) : Option TreeNode :=
  (t.position? id).bind t.nodeAt?

/-- The node that holds a node; roots have none. -/
def parent? (t : SelectionTree) (id : Nat) : Option TreeNode :=
  (t.position? id).bind fun position => t.nodeAt? position.dropLast

def rootIndex? (t : SelectionTree) (p : FieldPath) : Option Nat :=
  p.rootMarker?.bind fun marker => t.roots.findIdx? fun r => r.path.rootMarker? == some marker

/-- The node for a path, if it has been made. -/
def find? (t : SelectionTree) (p : FieldPath) : Option TreeNode :=
  ((t.rootIndex? p).bind fun i => t.roots[i]?).bind (TreeNode.follow? p.fieldSegments)

/-- All nodes, each followed by what lies below it. -/
def nodes (t : SelectionTree) : List NodeInfo :=
  t.roots.flatMap fun r => r.info :: r.descendants

def descendants (t : SelectionTree) (id : Nat) : List NodeInfo :=
  match t.node? id with
  | some n => n.descendants
  | none => []

def checkedNodes (t : SelectionTree) : List NodeInfo :=
  t.nodes.filter (·.state == .checked)

def state? (t : SelectionTree) (id : Nat) : Option CheckState :=
  (t.node? id).map (·.state)

/-- The name and type of the field, or of the root of an operation. -/
def labelOf? (t : SelectionTree) (info : NodeInfo) : Option String :=
  match info.field? with
  | some f =>
    some (f.name ++ ": " ++ f.type.text ++
      if f.deprecation.isDeprecated then " [deprecated]" else "")
  | none => do
    let marker ← info.path.rootMarker?
    let name ← t.bounds.schema.rootTypeName? info.operation
    return marker ++ ": " ++ name

def label? (t : SelectionTree) (id : Nat) : Option String :=
  (t.node? id).bind fun n => t.labelOf? n.info

/-- The children of a node, which are made if they were not there. -/
def expand (t : SelectionTree) (id : Nat) : Except TreeError (SelectionTree × List TreeNode) :=
  match t.position? id with
  | some (i :: is) =>
    match t.roots[i]? with
    | some root =>
      let (root, next) := t.bounds.expandAt [] t.next is root
      let t := { t with roots := t.roots.set i root, next }
      .ok (t, ((t.nodeAt? (i :: is)).map (·.children)).getD [])
    | none => .error (.unknownNode id)
  | _ => .error (.unknownNode id)

/-- The number of the node for a path. The nodes along the path are made, also if in the end it
leads to none. -/
def expandPath (t : SelectionTree) (p : FieldPath) : SelectionTree × Option Nat :=
  match t.rootIndex? p with
  | none => (t, none)
  | some i =>
    match t.roots[i]? with
    | none => (t, none)
    | some root =>
      let (root, next, found) := t.bounds.expandAlong [] t.next p.fieldSegments root
      ({ t with roots := t.roots.set i root, next }, found)

/-- Makes all nodes with paths up to the depth. -/
def expandToDepth (t : SelectionTree) (depth : Nat) : SelectionTree :=
  let reach (length : Nat) := decide (length < depth)
  let (roots, next) := t.bounds.completeAll reach [] t.next t.roots
  { t with roots, next }

def resetSilently (t : SelectionTree) : SelectionTree :=
  { t with roots := TreeNode.setAlls .unchecked t.roots }

/-- Sets the mark of a node; the nodes whose marks changed are listed. -/
def apply (t : SelectionTree) (id : Nat) (s : CheckState) :
    Except TreeError (SelectionTree × List NodeInfo) :=
  match t.position? id with
  | some (i :: is) =>
    match t.roots[i]?, t.nodeAt? (i :: is) with
    | some root, some n =>
      if s = .mixed then .error (.partialNotSettable n.path)
      else
        let (root, next, changed) := t.bounds.setAt s [] t.next is root
        .ok ({ t with roots := t.roots.set i root, next }, changed)
    | _, _ => .error (.unknownNode id)
  | _ => .error (.unknownNode id)

/-- The calls of the listeners after a change of marks; nobody is called for nothing. -/
def notify (t : SelectionTree) (id : Nat) (s : CheckState) (changed : List NodeInfo) :
    List (Nat × TreeChange) :=
  if changed.isEmpty then []
  else
    let path := ((t.node? id).map (·.path)).getD []
    t.listeners.map fun l => (l, ⟨id, path, s, changed⟩)

def setState (t : SelectionTree) (id : Nat) (s : CheckState) :
    Except TreeError (SelectionTree × List (Nat × TreeChange)) := do
  let (t, changed) ← t.apply id s
  return (t, t.notify id s changed)

def setStateSilently (t : SelectionTree) (id : Nat) (s : CheckState) :
    Except TreeError SelectionTree := do
  let (t, _) ← t.apply id s
  return t

/-- A click on a node; the new mark is part of the answer. -/
def toggle (t : SelectionTree) (id : Nat) :
    Except TreeError (SelectionTree × List (Nat × TreeChange) × CheckState) := do
  match t.state? id with
  | none => .error (.unknownNode id)
  | some old =>
    let (t, calls) ← t.setState id old.toggled
    return (t, calls, old.toggled)

def listen (t : SelectionTree) : SelectionTree × Nat :=
  ({ t with
      listeners := t.listeners ++ [t.nextListener]
      nextListener := t.nextListener + 1 }, t.nextListener)

def unlisten (t : SelectionTree) (label : Nat) : SelectionTree × Bool :=
  ({ t with listeners := t.listeners.filter (· != label) }, t.listeners.contains label)

/-- A line of the outline: truncated nodes and nodes without children yet are marked at the end. -/
def line (t : SelectionTree) (depth : Nat) (info : NodeInfo) : String :=
  String.ofList (List.replicate (2 * depth) ' ') ++ info.state.marker ++ " " ++
    (t.labelOf? info).getD "" ++
    (if info.truncated then " …" else if !info.expanded then " +" else "")

mutual

def lines (t : SelectionTree) (depth : Nat) : TreeNode → List String
  | .mk info children => t.line depth info :: linesOfAll t (depth + 1) children

def linesOfAll (t : SelectionTree) (depth : Nat) : List TreeNode → List String
  | [] => []
  | n :: ns => lines t depth n ++ linesOfAll t depth ns

end

/-- An outline with a line for each node. -/
def render (t : SelectionTree) : String :=
  "\n".intercalate (t.linesOfAll 0 t.roots)

def summary (t : SelectionTree) : String :=
  "SelectionTree \x7b nodes: " ++ toString t.next ++ ", roots: [" ++
    ", ".intercalate (t.roots.map fun r => nodeIdText r.id) ++
    "], options: TreeOptions \x7b max_depth: " ++ toString t.bounds.maxDepth ++
    " \x7d, listeners: " ++ toString t.listeners.length ++ " \x7d"

end SelectionTree

end QueryPicker
