import QueryPicker.Order.Unused
import QueryPicker.Tree.Node

/-!
# Growing the tree

Children are made on demand. Only fields of object type can have children, and two bounds keep the
tree finite: a type is not entered again below itself, and a path is not continued beyond the
greatest depth. A field stopped by a bound is a truncated leaf. New nodes take the mark of their
parent and are numbered from left to right; of several nodes to be completed the last comes first.
-/

namespace QueryPicker

/-- A schema with the greatest length of a path below which fields are leaves. -/
structure TreeBounds where
  schema : Schema
  maxDepth : Nat

namespace TreeBounds

/-- The object type to enter below a field, if it has fields. -/
def enterable? (b : TreeBounds) (f : Field) : Option String :=
  match b.schema.objectOf? f with
  | some t => if t.fields.isEmpty then none else some f.type.innerName
  | none => none

/-- New nodes are not mixed: below a mixed parent they start unchecked. -/
def inherited : CheckState → CheckState
  | .mixed => .unchecked
  | s => s

/-- A child that has not been expanded. The chain holds the types entered on the way to it. -/
def childInfo (b : TreeBounds) (chain : List String) (parent : NodeInfo) (id : Nat) (f : Field) :
    NodeInfo :=
  let path := parent.path.child f.name
  let (objectType?, truncated) := match b.enterable? f with
    | some name =>
      if name ∈ chain ∨ b.maxDepth ≤ path.length then (none, true) else (some name, false)
    | none => (none, false)
  { id
    operation := parent.operation
    path
    field? := some f
    objectType?
    truncated
    expanded := objectType?.isNone
    state := inherited parent.state }

/-- The children of a node with the fields of its type. -/
def childInfos (b : TreeBounds) (chain : List String) (parent : NodeInfo) (next : Nat)
    (fields : List Field) : List NodeInfo :=
  fields.mapIdx fun i f => b.childInfo chain parent (next + i) f

/-- The types entered on the way to the children of a node. -/
def chainBelow (chain : List String) (info : NodeInfo) : List String :=
  info.objectType?.toList ++ chain

/-- The fields below a node that has not been expanded. -/
def fieldsOf (b : TreeBounds) (info : NodeInfo) : List Field :=
  match info.objectType?.bind b.schema.typeNamed? with
  | some t => t.fields
  | none => []

/-- Makes the children of a node, if that has not been done, and gives the next free number. -/
def expand (b : TreeBounds) (chain : List String) (next : Nat) : TreeNode → TreeNode × Nat
  | .mk info children =>
    if info.expanded then (.mk info children, next)
    else
      let fields := b.fieldsOf info
      let infos := b.childInfos (chainBelow chain info) info next fields
      (.mk { info with expanded := true } (infos.map (.mk · [])), next + fields.length)

mutual

/-- The node with everything below it whose parent's path is within the reach. A type that is on the
chain already is not entered. -/
def grow (b : TreeBounds) (reach : Nat → Bool) (chain : List String) (next : Nat)
    (info : NodeInfo) : TreeNode × Nat :=
  if info.expanded || !reach info.path.length then (.mk info [], next)
  else
    match info.objectType? with
    | none => (.mk { info with expanded := true } [], next)
    | some name =>
      match ht : b.schema.typeNamed? name with
      | none => (.mk { info with expanded := true } [], next)
      | some t =>
        if hn : name ∈ chain then (.mk { info with expanded := true } [], next)
        else
          let infos := b.childInfos (name :: chain) info next t.fields
          have : countUnused (b.schema.types.map (·.1)) (name :: chain) <
              countUnused (b.schema.types.map (·.1)) chain :=
            countUnused_cons_lt
              (List.mem_map.mpr ⟨_, Schema.mem_types_of_typeNamed? ht, rfl⟩) hn
          let (children, next) :=
            growAll b reach (name :: chain) (next + t.fields.length) infos
          (.mk { info with expanded := true } children, next)
termination_by (countUnused (b.schema.types.map (·.1)) chain, 0)

def growAll (b : TreeBounds) (reach : Nat → Bool) (chain : List String) (next : Nat)
    (infos : List NodeInfo) : List TreeNode × Nat :=
  match infos with
  | [] => ([], next)
  | info :: infos =>
    let (ns, next) := growAll b reach chain next infos
    let (n, next) := grow b reach chain next info
    (n :: ns, next)
termination_by (countUnused (b.schema.types.map (·.1)) chain, infos.length + 1)

end

mutual

/-- Completes a node: all that is missing below it and within the reach is made. -/
def complete (b : TreeBounds) (reach : Nat → Bool) (chain : List String) (next : Nat) :
    TreeNode → TreeNode × Nat
  | .mk info children =>
    if !reach info.path.length then (.mk info children, next)
    else if info.expanded then
      let (children, next) := completeAll b reach (chainBelow chain info) next children
      (.mk info children, next)
    else b.grow reach chain next info

def completeAll (b : TreeBounds) (reach : Nat → Bool) (chain : List String) (next : Nat) :
    List TreeNode → List TreeNode × Nat
  | [] => ([], next)
  | n :: ns =>
    let (ns, next) := completeAll b reach chain next ns
    let (n, next) := complete b reach chain next n
    (n :: ns, next)

end

/-- Makes the nodes along the names, and gives the number of the last if the names lead to one. -/
def expandAlong (b : TreeBounds) (chain : List String) (next : Nat) :
    List String → TreeNode → TreeNode × Nat × Option Nat
  | [], n => (n, next, some n.id)
  | name :: names, n =>
    let (n, next) := b.expand chain next n
    match n.childIndex? name with
    | none => (n, next, none)
    | some i =>
      match n.children[i]? with
      | none => (n, next, none)
      | some child =>
        let (child, next, found) :=
          expandAlong b (chainBelow chain n.info) next names child
        (.mk n.info (n.children.set i child), next, found)

/-- Makes the children of the node at a position. -/
def expandAt (b : TreeBounds) (chain : List String) (next : Nat) :
    List Nat → TreeNode → TreeNode × Nat
  | [], n => b.expand chain next n
  | i :: is, n =>
    match n.children[i]? with
    | none => (n, next)
    | some child =>
      let (child, next) := expandAt b (chainBelow chain n.info) next is child
      (.mk n.info (n.children.set i child), next)

/-- Gives a mark to the node at a position and to all below it, and derives the marks of the nodes
above it anew. A node to be checked is completed first. The nodes whose marks changed are listed:
the node, what lies below it, then what lies above it, the nearest first. -/
def setAt (b : TreeBounds) (s : CheckState) (chain : List String) (next : Nat) :
    List Nat → TreeNode → TreeNode × Nat × List NodeInfo
  | [], n =>
    let (n, next) := if s = .checked then b.complete (fun _ => true) chain next n else (n, next)
    let changed := (n.info :: n.descendants).filter (·.state != s)
    (n.setAll s, next, changed.map fun info => { info with state := s })
  | i :: is, n =>
    match n.children[i]? with
    | none => (n, next, [])
    | some child =>
      let (child, next, changed) := setAt b s (chainBelow chain n.info) next is child
      let children := n.children.set i child
      let derived := CheckState.ofChildren (children.map (·.state))
      let info := { n.info with state := derived }
      (.mk info children, next, if n.state = derived then changed else changed ++ [info])

end TreeBounds

end QueryPicker
