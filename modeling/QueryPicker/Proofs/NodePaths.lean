import Mathlib
import QueryPicker.Introspection.Decoder
import QueryPicker.Proofs.LeafMarks
import QueryPicker.Proofs.RoundTrip

/-!
# Paths that identify nodes

The path of a node tells which fields lead to it, and it identifies the node exactly as long as the
fields of every expanded type have different names. Reading a schema does not see to that: types of
one name are merged, but fields of one name are kept side by side.
-/

namespace QueryPicker

namespace TreeNode

theorem preorder_sublist_of_getElem? {ns : List TreeNode} {i : Nat} {n : TreeNode}
    (h : ns[i]? = some n) : n.preorder.Sublist (preorders ns) := by
  induction ns generalizing i with
  | nil => simp at h
  | cons m ns ih =>
    cases i with
    | zero =>
      obtain rfl : m = n := by simpa using h
      exact List.sublist_append_left _ _
    | succ i => exact (ih (by simpa using h)).trans (List.sublist_append_right _ _)

theorem preorder_sublist_of_at? {position : List Nat} {n m : TreeNode}
    (h : n.at? position = some m) : m.preorder.Sublist n.preorder := by
  induction position generalizing n with
  | nil =>
    obtain rfl : n = m := by simpa [at?] using h
    exact List.Sublist.refl _
  | cons i position ih =>
    obtain ⟨c, hget, hrest⟩ := Option.bind_eq_some_iff.mp h
    obtain ⟨info, children⟩ := n
    exact (ih hrest).trans ((preorder_sublist_of_getElem? hget).cons info)

theorem infos_sublist_preorders (ns : List TreeNode) : (ns.map info).Sublist (preorders ns) := by
  induction ns with
  | nil => exact List.Sublist.refl _
  | cons n ns ih =>
    obtain ⟨info, children⟩ := n
    exact (ih.trans (List.sublist_append_right _ _)).cons_cons info

end TreeNode

namespace SelectionTree

open TreeBounds

variable {t : SelectionTree}

theorem nodes_eq (t : SelectionTree) : t.nodes = TreeNode.preorders t.roots := by
  simp only [nodes, TreeNode.info_cons_descendants, TreeNode.preorders_eq]

theorem preorder_sublist_of_nodeAt? {position : List Nat} {m : TreeNode}
    (h : t.nodeAt? position = some m) : m.preorder.Sublist t.nodes := by
  obtain ⟨i, rest, r, rfl, hget, hrest⟩ := exists_of_nodeAt? h
  rw [nodes_eq]
  exact (TreeNode.preorder_sublist_of_at? hrest).trans (TreeNode.preorder_sublist_of_getElem? hget)

/-- A node is found by its number. -/
theorem IsGrown.node?_eq_some_iff (h : t.IsGrown) {id : Nat} {n : TreeNode} :
    t.node? id = some n ↔ n.id = id ∧ ∃ position, t.nodeAt? position = some n := by
  constructor
  · intro hnode
    obtain ⟨position, hposition, hat⟩ := Option.bind_eq_some_iff.mp hnode
    obtain ⟨i, rest, r, rfl, hget, hrest⟩ := exists_of_nodeAt? hat
    obtain ⟨r', m, hget', hrest', hid⟩ := nodeAt?_of_position? hposition
    obtain rfl : r = r' := by simpa [hget] using hget'
    obtain rfl : n = m := by simpa [hrest] using hrest'
    exact ⟨hid, _, hat⟩
  · rintro ⟨rfl, position, hat⟩
    rw [node?, h.position?_of_nodeAt? hat, Option.bind_some, hat]

theorem IsGrown.exists_node?_of_mem (h : t.IsGrown) {x : NodeInfo} (hx : x ∈ t.nodes) :
    ∃ n, t.node? x.id = some n ∧ n.info = x := by
  obtain ⟨position, n, hat, rfl⟩ := exists_nodeAt?_of_mem hx
  exact ⟨n, h.node?_eq_some_iff.mpr ⟨rfl, position, hat⟩, rfl⟩

/-- The nodes have the first numbers, each of them once. -/
theorem IsGrown.ids_nodes (h : t.IsGrown) : (t.nodes.map (·.id)).Perm (List.range t.next) := by
  rw [nodes_eq]
  exact h.numbers

theorem IsGrown.nodup_ids (h : t.IsGrown) : (t.nodes.map (·.id)).Nodup :=
  h.ids_nodes.nodup_iff.mpr List.nodup_range

/-- If every node is found at its path, no two have the same. -/
theorem IsGrown.nodup_paths_of_found (h : t.IsGrown)
    (hfound : ∀ id n, t.node? id = some n → t.find? n.path = some n) :
    (t.nodes.map (·.path)).Nodup := by
  have hnodes : t.nodes.Nodup := h.nodup_ids.of_map _
  have hat : ∀ x ∈ t.nodes, ∃ n : TreeNode, n.info = x ∧ t.find? x.path = some n := by
    intro x hx
    obtain ⟨n, hnode, rfl⟩ := h.exists_node?_of_mem hx
    exact ⟨n, rfl, hfound n.info.id n hnode⟩
  refine hnodes.map_on fun x hx y hy hpath => ?_
  obtain ⟨n, rfl, hn⟩ := hat x hx
  obtain ⟨m, rfl, hm⟩ := hat y hy
  rw [hpath, hm] at hn
  rw [Option.some.inj hn]

/-- The children of a node are named after the fields of its type, so fields of one name lead to
nodes with one path. -/
theorem IsGrown.namesApart_of_nodup_paths (h : t.IsGrown) (hnodup : (t.nodes.map (·.path)).Nodup) :
    t.NamesApart := by
  intro x hx hexpanded
  obtain ⟨position, n, hn, rfl⟩ := exists_nodeAt?_of_mem hx
  obtain ⟨chain, full, -, hfilled⟩ := h.filled_nodeAt? hn
  obtain ⟨info, children⟩ := n
  have hshape := shape_of_expanded hfilled.grown hexpanded
  have hpaths : (children.map (·.path)).Nodup := by
    have hsub : (children.map (·.info)).Sublist t.nodes :=
      ((TreeNode.infos_sublist_preorders children).cons info).trans
        (preorder_sublist_of_nodeAt? hn)
    have hmap := hnodup.sublist (hsub.map (·.path))
    rwa [List.map_map] at hmap
  rw [paths_of_shape hshape] at hpaths
  exact hpaths.of_map _

/-- Over every schema and after every run, the nodes have different paths exactly as long as names
are kept apart, and just then every node is found at its path. A schema in which the fields of every
type have different names keeps them apart. -/
theorem paths_identify_nodes_iff (schema : Schema) (maxDepth : Nat) (steps : List Step) :
    let t := (build schema maxDepth).run steps
    ((t.nodes.map (·.path)).Nodup ↔ t.NamesApart) ∧
      ((∀ id n, t.node? id = some n → t.find? n.path = some n) ↔ t.NamesApart) ∧
      (schema.DistinctFields → t.NamesApart) := by
  intro t
  obtain ⟨h, hbounds⟩ := isGrown_run (isGrown_build schema maxDepth) steps
  have hfound : t.NamesApart → ∀ id n, t.node? id = some n → t.find? n.path = some n := by
    intro hapart id n hnode
    obtain ⟨-, position, hat⟩ := h.node?_eq_some_iff.mp hnode
    exact h.find?_of_namesApart hapart hat
  refine ⟨⟨h.namesApart_of_nodup_paths, fun hapart => ?_⟩, ⟨fun hall => ?_, hfound⟩,
    fun hdistinct => ?_⟩
  · exact h.nodup_paths_of_found (hfound hapart)
  · exact h.namesApart_of_nodup_paths (h.nodup_paths_of_found hall)
  · have hdistinct : t.bounds.schema.DistinctFields := by
      rw [hbounds]
      exact hdistinct
    exact namesApart_of_distinctFields hdistinct

/-- Users with friends have fields of different names. -/
theorem paths_identify_nodes_friends :
    SelectionMap.friends.DistinctFields ∧
      let t := (build SelectionMap.friends defaultMaxDepth).run [.expandToDepth 3]
      t.NamesApart ∧ (t.nodes.map (·.path)).Nodup ∧
        ∀ id n, t.node? id = some n → t.find? n.path = some n := by
  have hdistinct : SelectionMap.friends.DistinctFields := by
    unfold Schema.DistinctFields
    decide
  obtain ⟨hnodup, hfound, happart⟩ :=
    paths_identify_nodes_iff SelectionMap.friends defaultMaxDepth [.expandToDepth 3]
  have hapart := happart hdistinct
  exact ⟨hdistinct, hapart, hnodup.mpr hapart, hfound.mpr hapart⟩

/-- A type with two fields of one name. -/
def doubled : Schema :=
  Schema.ofTypes
    [.object "Query" [{ name := "name", type := .named .scalar "String" },
      { name := "name", type := .named .scalar "Int" }]]
    "Query" none none

/-- The result in which the schema is described. -/
def doubledResult : Json :=
  let field (type : String) : Json := .object [("name", .string "name"),
    ("type", .object [("kind", .string "SCALAR"), ("name", .string type)])]
  let query : Json := .object [("kind", .string "OBJECT"), ("name", .string "Query"),
    ("fields", .array [field "String", field "Int"])]
  .object [("__schema", .object [("queryType", .object [("name", .string "Query")]),
    ("types", .array [query])])]

/-- Reading keeps both fields. Their nodes share a path, at which only the first is found. -/
theorem two_nodes_at_path : Introspection.decode doubledResult = .ok doubled ∧
    ¬ (((build doubled defaultMaxDepth).run []).nodes.map (·.path)).Nodup ∧
    ¬ ∀ id n, ((build doubled defaultMaxDepth).run []).node? id = some n →
      ((build doubled defaultMaxDepth).run []).find? n.path = some n := by
  have hshared : ((build doubled defaultMaxDepth).nodes.map (·.path)) =
      [["Query"], ["Query", "name"], ["Query", "name"]] := by
    rw [nodes_eq]
    rfl
  refine ⟨rfl, ?_, ?_⟩
  · rw [run, List.foldl_nil, hshared]
    decide
  · intro hfound
    have hfirst : ((build doubled defaultMaxDepth).find? ["Query", "name"]).map (·.id) = some 1 :=
      rfl
    have hsecond : ((build doubled defaultMaxDepth).find? ["Query", "name"]).map (·.id) = some 2 :=
      congrArg (Option.map (·.id)) (hfound 2 _ rfl)
    rw [hfirst] at hsecond
    cases hsecond

end SelectionTree

end QueryPicker
