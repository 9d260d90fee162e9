import Mathlib
import QueryPicker.Proofs.GreatestDepth
import QueryPicker.Proofs.NodePaths

/-!
# One order for all walks

However a tree has grown, every walk comes to its nodes in the same order: a node, then what lies
below it, child by child in the order of the fields. A walk with a stack of numbers keeps to it, and
so do the list of checked nodes and the outline, in which a line is indented by the length of its
path. Numbers tell nothing about this order, since nodes are numbered as they are made.
-/

namespace QueryPicker

namespace TreeBounds

variable {b : TreeBounds} {chain : List String} {info : NodeInfo} {children : List TreeNode}

/-- The children of a node stand for the fields of its type. -/
theorem fields_of_shape (h : List.Forall₂ (fun c f => c.info.blank = b.childShape chain info f)
    children (b.fieldsOf info)) :
    children.map (·.info.field?) = (b.fieldsOf info).map some := by
  generalize b.fieldsOf info = fields at h
  induction h with
  | nil => rfl
  | @cons c f _ _ hcf _ ih =>
    obtain ⟨-, -, hfield, -⟩ := NodeInfo.eq_of_blank hcf
    rw [List.map_cons, ih, hfield, List.map_cons]
    rfl

theorem fields_of_grown {n : TreeNode} (h : Grown b chain n) : n.children.map (·.info.field?) =
    if n.info.expanded then (b.fieldsOf n.info).map some else [] := by
  cases h with
  | @waiting _ info hexpanded =>
    show [] = if info.expanded then (b.fieldsOf info).map some else []
    rw [hexpanded]
    rfl
  | @made _ info children hexpanded hshape =>
    show children.map (·.info.field?) = if info.expanded then (b.fieldsOf info).map some else []
    rw [if_pos hexpanded]
    exact fields_of_shape hshape

end TreeBounds

namespace SelectionTree

open TreeBounds

variable {t : SelectionTree} {id : Nat} {n : TreeNode}

/-- The numbers of the children of a node, the first child first. -/
def childIds (t : SelectionTree) (id : Nat) : List Nat :=
  match t.node? id with
  | some n => n.children.map (·.id)
  | none => []

/-- Pushes numbers on a stack from the last to the first. -/
def push (ids stack : List Nat) : List Nat :=
  ids.reverse.foldl (fun stack id => id :: stack) stack

/-- One round of the walk: the number on top of the stack is listed, and those of its children are
pushed in its place. -/
def walkRound (t : SelectionTree) : List Nat × List Nat → List Nat × List Nat
  | ([], listed) => ([], listed)
  | (id :: stack, listed) => (push (t.childIds id) stack, listed ++ [id])

theorem push_eq (ids stack : List Nat) : push ids stack = ids ++ stack := by
  rw [push, List.foldl_reverse]
  exact List.foldr_cons_eq_append'

theorem childIds_of_node? (hnode : t.node? id = some n) :
    t.childIds id = n.children.map (·.id) := by
  rw [childIds, hnode]

theorem IsGrown.node?_of_child (h : t.IsGrown) (hnode : t.node? id = some n) {c : TreeNode}
    (hc : c ∈ n.children) : t.node? c.id = some c := by
  obtain ⟨-, position, hat⟩ := h.node?_eq_some_iff.mp hnode
  obtain ⟨i, hi, rfl⟩ := List.getElem_of_mem hc
  refine h.node?_eq_some_iff.mpr ⟨rfl, position ++ [i], ?_⟩
  rw [nodeAt?_below hat]
  simp [TreeNode.at?, hi]

theorem IsGrown.node?_of_root (h : t.IsGrown) {r : TreeNode} (hr : r ∈ t.roots) :
    t.node? r.id = some r := by
  obtain ⟨i, hi, rfl⟩ := List.getElem_of_mem hr
  refine h.node?_eq_some_iff.mpr ⟨rfl, [i], ?_⟩
  simp [nodeAt?, TreeNode.at?, hi]

/-- The walk by number keeps step with the visit of the nodes, with one round for each of them. -/
theorem IsGrown.walk_stack (h : t.IsGrown) (stack : List TreeNode)
    (hstack : ∀ n ∈ stack, t.node? n.id = some n) (listed : List Nat) :
    t.walkRound^[(TreeNode.visit stack).length] (stack.map (·.id), listed) =
      ([], listed ++ (TreeNode.visit stack).map (·.id)) := by
  induction stack using TreeNode.visit.induct generalizing listed with
  | case1 => simp [TreeNode.visit]
  | case2 info children stack ih =>
    have hnode := hstack _ List.mem_cons_self
    have hround : t.walkRound (((TreeNode.mk info children) :: stack).map (·.id), listed) =
        ((children ++ stack).map (·.id), listed ++ [info.id]) := by
      rw [List.map_cons, walkRound, childIds_of_node? hnode, push_eq, List.map_append]
      rfl
    have hrest : ∀ n ∈ children ++ stack, t.node? n.id = some n := by
      intro n hn
      rcases List.mem_append.mp hn with hn | hn
      · exact h.node?_of_child hnode hn
      · exact hstack n (List.mem_cons_of_mem _ hn)
    rw [TreeNode.visit, List.length_cons, Function.iterate_succ_apply, hround, ih hrest]
    simp

/-- The walk below a node ends after a round for each node there. -/
theorem IsGrown.walk_descendants (h : t.IsGrown) (id : Nat) :
    t.walkRound^[(t.descendants id).length] (push (t.childIds id) [], []) =
      ([], (t.descendants id).map (·.id)) := by
  rw [push_eq, List.append_nil]
  cases hnode : t.node? id with
  | none =>
    rw [descendants, childIds, hnode]
    rfl
  | some n =>
    rw [childIds_of_node? hnode, descendants, hnode]
    have hwalk := h.walk_stack n.children (fun c hc => h.node?_of_child hnode hc) []
    rwa [List.nil_append] at hwalk

theorem descendants_of_node? (hnode : t.node? id = some n) :
    t.descendants id = TreeNode.preorders n.children := by
  rw [descendants, hnode]
  exact TreeNode.visit_eq n.children

/-- The roots, each with what lies below it, are all nodes. -/
theorem IsGrown.flatMap_descendants (h : t.IsGrown) :
    (t.roots.flatMap fun r => r.info :: t.descendants r.id) = t.nodes := by
  rw [nodes]
  refine List.flatMap_congr fun r hr => ?_
  rw [descendants, h.node?_of_root hr]

theorem linesOfAll_eq (t : SelectionTree) (depth : Nat) (ns : List TreeNode) :
    t.linesOfAll depth ns = ns.flatMap (t.lines depth) := by
  induction ns with
  | nil => rfl
  | cons n ns ih => rw [linesOfAll, ih, List.flatMap_cons]

/-- A line begins with two spaces for each level and no more. -/
theorem takeWhile_line (t : SelectionTree) (depth : Nat) (x : NodeInfo) :
    (t.line depth x).toList.takeWhile (· == ' ') = List.replicate (2 * depth) ' ' := by
  have hspaces : ∀ c ∈ List.replicate (2 * depth) ' ', (c == ' ') = true := by simp
  simp only [line, String.toList_append, String.toList_ofList, List.append_assoc]
  rw [List.takeWhile_append_of_pos hspaces]
  cases x.state <;> simp [CheckState.marker]

theorem lines_of_grown {b : TreeBounds} {chain : List String} (h : Grown b chain n) {depth : Nat}
    (hdepth : n.path.length = depth + 1) :
    t.lines depth n = n.preorder.map fun x => t.line (x.path.length - 1) x := by
  induction h generalizing depth with
  | @waiting chain info =>
    have hdepth : info.path.length = depth + 1 := hdepth
    simp [lines, linesOfAll, TreeNode.preorder, TreeNode.preorders, hdepth]
  | @made chain info children hexpanded hshape hsettled hgrown ih =>
    have hdepth : info.path.length = depth + 1 := hdepth
    have hchildren : ∀ c ∈ children, t.lines (depth + 1) c =
        c.preorder.map fun x => t.line (x.path.length - 1) x := by
      intro c hc
      have hlength := length_path_of_mem (.made hexpanded hshape hsettled hgrown) hc
      exact ih c hc (by rw [hlength, hdepth])
    rw [lines, linesOfAll_eq, List.flatMap_congr hchildren, ← List.map_flatMap,
      ← TreeNode.preorders_eq, TreeNode.preorder, List.map_cons, hdepth, Nat.add_sub_cancel]

/-- Each node has one line, at the depth of its path. -/
theorem IsGrown.lines_eq (h : t.IsGrown) :
    t.linesOfAll 0 t.roots = t.nodes.map fun x => t.line (x.path.length - 1) x := by
  have hroots : ∀ r ∈ t.roots, t.lines 0 r =
      r.preorder.map fun x => t.line (x.path.length - 1) x := by
    intro r hr
    obtain ⟨op, -, hpath⟩ := h.root_of_mem hr
    exact lines_of_grown (h.grown r hr) (by rw [hpath]; rfl)
  rw [linesOfAll_eq, List.flatMap_congr hroots, ← List.map_flatMap, ← TreeNode.preorders_eq,
    nodes_eq]

/-- Over every schema and after every run, the roots, each followed by what lies below it, are all
nodes that have been made, each of them once. Below a node the stack comes to the same nodes in the
same order as the recursion, the children of a node in the order of the fields of its type. The
checked nodes are listed in this order, and in this order each node has a line of the outline, which
begins with two spaces for every name of its path but the first. -/
theorem walks_in_one_order (schema : Schema) (maxDepth : Nat) (steps : List Step) :
    let t := (build schema maxDepth).run steps
    let order := t.roots.flatMap fun r => r.info :: t.descendants r.id
    ((order.map (·.id)).Perm (List.range t.next) ∧
      ∀ x ∈ order, ∃ n, t.node? x.id = some n ∧ n.info = x) ∧
    (∀ id n, t.node? id = some n →
      t.descendants id = TreeNode.preorders n.children ∧
      t.walkRound^[(t.descendants id).length] (push (t.childIds id) [], []) =
        ([], (t.descendants id).map (·.id)) ∧
      n.children.map (·.info.field?) = if n.info.expanded then
        ((TreeBounds.mk schema maxDepth).fieldsOf n.info).map some else []) ∧
    t.checkedNodes = order.filter (·.state == .checked) ∧
    t.linesOfAll 0 t.roots = (order.map fun x => t.line (x.path.length - 1) x) ∧
    t.render = "\n".intercalate (order.map fun x => t.line (x.path.length - 1) x) ∧
    ∀ x ∈ order, (t.line (x.path.length - 1) x).toList.takeWhile (· == ' ') =
      List.replicate (2 * (x.path.length - 1)) ' ' := by
  intro t order
  obtain ⟨h, hbounds⟩ := isGrown_run (isGrown_build schema maxDepth) steps
  have hbounds : t.bounds = ⟨schema, maxDepth⟩ := hbounds
  have horder : order = t.nodes := h.flatMap_descendants
  rw [horder]
  refine ⟨⟨h.ids_nodes, fun x hx => h.exists_node?_of_mem hx⟩, fun id n hnode => ?_, rfl,
    h.lines_eq, ?_, fun x _ => takeWhile_line t _ x⟩
  · obtain ⟨-, position, hat⟩ := h.node?_eq_some_iff.mp hnode
    obtain ⟨chain, full, -, hfilled⟩ := h.filled_nodeAt? hat
    rw [← hbounds]
    exact ⟨descendants_of_node? hnode, h.walk_descendants id, fields_of_grown hfilled.grown⟩
  · rw [render, h.lines_eq]

/-- Two users, each with a name. -/
def couple : Schema :=
  Schema.ofTypes
    [.object "Query" [{ name := "first", type := .named .object "User" },
        { name := "second", type := .named .object "User" }],
      .object "User" [{ name := "name", type := .named .scalar "String" }]]
    "Query" none none

/-- The name of the second user is made first, and comes last. -/
theorem walks_in_one_order_couple :
    let t := (build couple defaultMaxDepth).run [.expand 2, .expand 1]
    (t.descendants 0).map (·.id) = [1, 4, 2, 3] ∧
      t.walkRound^[4] (push (t.childIds 0) [], []) = ([], [1, 4, 2, 3]) := by
  intro t
  obtain ⟨-, hbelow, -⟩ := walks_in_one_order couple defaultMaxDepth [.expand 2, .expand 1]
  obtain ⟨hdescendants, hwalk, -⟩ := hbelow 0 _ rfl
  have hids : (t.descendants 0).map (·.id) = [1, 4, 2, 3] := by
    rw [hdescendants]
    rfl
  have hlength : (t.descendants 0).length = 4 := by
    rw [← List.length_map, hids]
    rfl
  refine ⟨hids, ?_⟩
  rw [← hids, ← hlength]
  exact hwalk

end SelectionTree

end QueryPicker
