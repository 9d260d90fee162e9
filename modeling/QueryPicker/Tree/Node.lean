import QueryPicker.Schema.Basic
import QueryPicker.Selection.CheckState

/-!
# Nodes of the selection tree

A node stands for an operation or for a field reached from one. Its children are the fields of its
object type, once they have been made. Nodes are numbered in the order in which they are made, and
are found by number, by path, or by position: the index of the child to take at each level.
-/

namespace QueryPicker

structure NodeInfo where
  id : Nat
  operation : Operation
  path : FieldPath
  /-- The root of an operation is no field. -/
  field? : Option Field
  /-- The lookup name of the type whose fields are the children. A leaf has none. -/
  objectType? : Option String
  /-- Whether the node is a leaf only because the tree is bounded. -/
  truncated : Bool
  /-- Whether the children have been made. Leaves count as expanded. -/
  expanded : Bool
  state : CheckState
  deriving Inhabited

inductive TreeNode where
  | mk (info : NodeInfo) (children : List TreeNode)
  deriving Inhabited

namespace TreeNode

def info : TreeNode → NodeInfo
  | mk info _ => info

def children : TreeNode → List TreeNode
  | mk _ children => children

def id (n : TreeNode) : Nat := n.info.id

def path (n : TreeNode) : FieldPath := n.info.path

def state (n : TreeNode) : CheckState := n.info.state

def isLeaf (n : TreeNode) : Bool := n.info.objectType?.isNone

mutual

/-- The node and then all below it, children in order. -/
def preorder : TreeNode → List NodeInfo
  | mk info children => info :: preorders children

def preorders : List TreeNode → List NodeInfo
  | [] => []
  | n :: ns => preorder n ++ preorders ns

end

mutual

def count : TreeNode → Nat
  | mk _ children => counts children + 1

def counts : List TreeNode → Nat
  | [] => 0
  | n :: ns => count n + counts ns

end

theorem counts_append (ns ms : List TreeNode) : counts (ns ++ ms) = counts ns + counts ms := by
  induction ns with
  | nil => simp [counts]
  | cons n ns ih => simp [counts, ih, Nat.add_assoc]

/-- Visits the nodes of a stack from the top, each followed by its children. -/
def visit (stack : List TreeNode) : List NodeInfo :=
  match stack with
  | [] => []
  | mk info children :: stack => info :: visit (children ++ stack)
termination_by counts stack
decreasing_by
  simp only [counts_append, counts, count]
  omega

/-- All nodes below this one. -/
def descendants (n : TreeNode) : List NodeInfo := visit n.children

mutual

/-- Where the node with the number stands, from this node on. -/
def position? (id : Nat) : TreeNode → Option (List Nat)
  | mk info children => if info.id = id then some [] else positionAmong? id 0 children

def positionAmong? (id : Nat) (index : Nat) : List TreeNode → Option (List Nat)
  | [] => none
  | n :: ns =>
    match position? id n with
    | some rest => some (index :: rest)
    | none => positionAmong? id (index + 1) ns

end

def at? : List Nat → TreeNode → Option TreeNode
  | [], n => some n
  | i :: is, n => n.children[i]?.bind (at? is)

/-- The first child whose path ends in the name. -/
def childIndex? (n : TreeNode) (name : String) : Option Nat :=
  n.children.findIdx? fun c => c.path.leafName? == some name

def childNamed? (n : TreeNode) (name : String) : Option TreeNode :=
  n.children.find? fun c => c.path.leafName? == some name

/-- The node to which the names lead, as far as it has been made. -/
def follow? : List String → TreeNode → Option TreeNode
  | [], n => some n
  | name :: names, n => (n.childNamed? name).bind (follow? names)

mutual

/-- Gives the mark to the node and all below it. -/
def setAll (s : CheckState) : TreeNode → TreeNode
  | mk info children => mk { info with state := s } (setAlls s children)

def setAlls (s : CheckState) : List TreeNode → List TreeNode
  | [] => []
  | n :: ns => setAll s n :: setAlls s ns

end

end TreeNode

end QueryPicker
