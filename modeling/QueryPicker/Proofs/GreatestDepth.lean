import Mathlib
import QueryPicker.Proofs.BoundedPaths
import QueryPicker.Proofs.TypeChains

/-!
# The greatest depth

A field whose path has the greatest length is a leaf, so below the roots no path gets longer. The
roots themselves are given their fields when a tree is built, whatever the greatest depth: a depth
of one bounds only the trees of schemas whose operations have no fields.
-/

namespace QueryPicker

namespace TreeBounds

variable {b : TreeBounds} {chain : List String} {info : NodeInfo} {children : List TreeNode}
  {n m : TreeNode} {position : List Nat}

/-- The path of the node may go on. -/
def MayGoOn (b : TreeBounds) (info : NodeInfo) : Prop :=
  info.objectType? ≠ none → info.path.length < b.maxDepth

/-- Only a field with a shorter path than the greatest is given a type to enter. -/
theorem mayGoOn_of_mem {c : TreeNode} (h : Grown b chain (.mk info children)) (hc : c ∈ children) :
    b.MayGoOn c.info := by
  intro hobject
  obtain ⟨name, hname⟩ := Option.ne_none_iff_exists'.mp hobject
  obtain ⟨i, hi, rfl⟩ := List.getElem_of_mem hc
  obtain ⟨f, -, hcf⟩ := getElem?_of_forall₂ (shape_of_mem h hc) (List.getElem?_eq_getElem hi)
  obtain ⟨-, hpath, -, hentered⟩ := NodeInfo.eq_of_blank hcf
  have hlength := (objectType?_childShape_eq_some_iff.mp (hentered.symm.trans hname)).2.2.2
  rw [hpath]
  exact hlength

theorem length_path_of_mem {c : TreeNode} (h : Grown b chain (.mk info children))
    (hc : c ∈ children) : c.path.length = info.path.length + 1 := by
  obtain ⟨i, hi, rfl⟩ := List.getElem_of_mem hc
  have hget : (TreeNode.mk info children).at? [i] = some children[i] := by
    simp [TreeNode.at?, TreeNode.children, hi]
  exact length_path_of_at? h hget

/-- Below a node whose path may go on no path is longer than the greatest, unless its own is. -/
theorem length_path_le_of_at? (h : Grown b chain n) (hn : b.MayGoOn n.info)
    (hat : n.at? position = some m) : m.path.length ≤ max n.path.length b.maxDepth := by
  induction position generalizing chain n with
  | nil =>
    obtain rfl : n = m := by simpa [TreeNode.at?] using hat
    exact le_max_left _ _
  | cons i position ih =>
    obtain ⟨info, children⟩ := n
    obtain ⟨c, hget, hrest⟩ := Option.bind_eq_some_iff.mp hat
    have hc : c ∈ children := List.mem_of_getElem? hget
    obtain ⟨name, -, hobject, -⟩ := exists_type_of_mem h hc
    have hlength : info.path.length < b.maxDepth := hn (by simp [TreeNode.info, hobject])
    have hchild := length_path_of_mem h hc
    have hle := ih (grown_of_mem h c hc) (mayGoOn_of_mem h hc) hrest
    omega

end TreeBounds

namespace SelectionTree

open TreeBounds

variable {t : SelectionTree} {op : Operation} {root : TypeDef} {f : Field}

/-- Beyond the greatest depth are at most the fields of an operation. -/
theorem IsGrown.length_path_cases (h : t.IsGrown) {x : NodeInfo} (hx : x ∈ t.nodes) :
    x.path.length = 1 ∨ (x.path.length ≤ max t.bounds.maxDepth 2 ∧
      ∃ op root, t.bounds.schema.rootType? op = some root ∧ root.fields ≠ []) := by
  obtain ⟨position, n, hat, rfl⟩ := exists_nodeAt?_of_mem hx
  obtain ⟨i, rest, r, rfl, hget, hrest⟩ := exists_of_nodeAt? hat
  have hr := h.grown r (List.mem_of_getElem? hget)
  obtain ⟨op, hshape, hpath⟩ := h.root_of_mem (List.mem_of_getElem? hget)
  have hroot : r.path.length = 1 := by rw [hpath]; rfl
  cases rest with
  | nil =>
    obtain rfl : r = n := by simpa [TreeNode.at?] using hrest
    exact Or.inl hroot
  | cons j rest =>
    obtain ⟨info, children⟩ := r
    obtain ⟨c, hchild, hbelow⟩ := Option.bind_eq_some_iff.mp hrest
    have hc : c ∈ children := List.mem_of_getElem? hchild
    have hlength := length_path_of_mem hr hc
    have hle := length_path_le_of_at? (grown_of_mem hr c hc) (mayGoOn_of_mem hr hc) hbelow
    have hroot : info.path.length = 1 := hroot
    refine Or.inr ⟨?_, ?_⟩
    · show n.path.length ≤ _
      omega
    · obtain ⟨name, root, hname, htype, hblank⟩ := rootShape?_eq_some hshape
      refine ⟨op, root, by rw [Schema.rootType?, hname]; exact htype, fun hfields => ?_⟩
      obtain ⟨typeName, -, hobject, -⟩ := exists_type_of_mem hr hc
      have hnone : info.objectType? = none := by
        have hsettled := congrArg NodeInfo.objectType? hblank
        simpa [NodeInfo.blank, rootInfo, hfields, TreeNode.info] using hsettled
      rw [hnone] at hobject
      cases hobject

theorem expanded_of_mem_buildRoots {b : TreeBounds} (ops : List Operation) (next : Nat)
    {r : TreeNode} (hr : r ∈ (buildRoots b next ops).1) : r.info.expanded = true := by
  induction ops generalizing next with
  | nil => cases hr
  | cons op ops ih =>
    rw [buildRoots] at hr
    cases hmade : buildRoot? b next op with
    | none =>
      rw [hmade] at hr
      exact ih next hr
    | some made =>
      obtain ⟨d, next'⟩ := made
      rw [hmade] at hr
      rcases List.mem_cons.mp hr with rfl | hr
      · obtain ⟨name, -, hmade⟩ := Option.bind_eq_some_iff.mp hmade
        obtain ⟨type, -, hmade⟩ := Option.bind_eq_some_iff.mp hmade
        have hexpand : (b.expand [] (next + 1) (.mk (rootInfo op next name type) [])).1 = r :=
          congrArg Prod.fst (Option.some.inj hmade)
        rw [← hexpand]
        exact expanded_expand b [] (next + 1) _
      · exact ih next' hr

/-- A tree is built with the fields of every operation. -/
theorem exists_field_build (schema : Schema) (maxDepth : Nat)
    (hroot : schema.rootType? op = some root) (hf : f ∈ root.fields) :
    ∃ x ∈ (build schema maxDepth).nodes, x.path = (FieldPath.root op).child f.name := by
  have h := isGrown_build schema maxDepth
  obtain ⟨name, hname, htype⟩ := Option.bind_eq_some_iff.mp hroot
  have hshape : (⟨schema, maxDepth⟩ : TreeBounds).rootShape? op =
      some (rootInfo op 0 name root).blank := by simp [rootShape?, hname, htype]
  have hall : op ∈ Operation.all := by cases op <;> decide
  have hmem : (rootInfo op 0 name root).blank ∈
      (build schema maxDepth).roots.map (·.info.blank) := by
    rw [h.roots]
    exact List.mem_filterMap.mpr ⟨op, hall, hshape⟩
  obtain ⟨⟨info, children⟩, hr, hblank⟩ := List.mem_map.mp hmem
  have hexpanded : info.expanded = true := expanded_of_mem_buildRoots Operation.all 0 hr
  have hpaths := paths_of_shape (shape_of_expanded (h.grown _ hr) hexpanded)
  have hnonempty : root.fields.isEmpty = false := by
    rw [List.isEmpty_eq_false_iff]
    exact List.ne_nil_of_mem hf
  have hfields : (build schema maxDepth).bounds.fieldsOf info = root.fields := by
    have hsame : info.blank = (rootInfo op 0 name root).blank := hblank
    rw [fieldsOf_eq_of_blank hsame]
    show (⟨schema, maxDepth⟩ : TreeBounds).fieldsOf (rootInfo op 0 name root) = root.fields
    simp [fieldsOf, rootInfo, hnonempty, htype]
  have hpath : info.path = FieldPath.root op := NodeInfo.path_eq_of_blank hblank
  have hchild : (FieldPath.root op).child f.name ∈ children.map (·.path) := by
    rw [hpaths, hfields, hpath]
    exact List.mem_map_of_mem (List.mem_map_of_mem hf)
  obtain ⟨c, hc, hcpath⟩ := List.mem_map.mp hchild
  have hbelow : c.info ∈ (TreeNode.mk info children).preorder :=
    TreeNode.mem_preorder.mpr (Or.inr ⟨c, hc, TreeNode.info_mem_preorder c⟩)
  exact ⟨c.info, mem_nodes.mpr ⟨_, hr, hbelow⟩, hcpath⟩

/-- The fields of every operation are there after every run. -/
theorem exists_field_run (schema : Schema) (maxDepth : Nat) (steps : List Step)
    (hroot : schema.rootType? op = some root) (hf : f ∈ root.fields) :
    ∃ x ∈ ((build schema maxDepth).run steps).nodes,
      x.path = (FieldPath.root op).child f.name := by
  obtain ⟨x, hx, hpath⟩ := exists_field_build schema maxDepth hroot hf
  obtain ⟨position, n, hat, rfl⟩ := exists_nodeAt?_of_mem hx
  obtain ⟨m, hat', -, hblank⟩ := (keptIn_run (isGrown_build schema maxDepth) steps).nodeAt? hat
  exact ⟨m.info, mem_nodes_of_nodeAt? hat', (NodeInfo.path_eq_of_blank hblank).trans hpath⟩

/-- Over every schema, for every greatest depth of at least one and after every run: no path is
longer than the greatest depth, except that one does not bound operations with fields. Their fields
have paths of length two, and nothing stands below them then. -/
theorem length_paths_le_maxDepth_iff (schema : Schema) {maxDepth : Nat} (hdepth : 1 ≤ maxDepth)
    (steps : List Step) :
    let t := (build schema maxDepth).run steps
    ((∀ x ∈ t.nodes, x.path.length ≤ maxDepth) ↔
        (maxDepth = 1 → ∀ op root, schema.rootType? op = some root → root.fields = [])) ∧
      ∀ x ∈ t.nodes, x.path.length ≤ max maxDepth 2 := by
  intro t
  obtain ⟨h, hbounds⟩ := isGrown_run (isGrown_build schema maxDepth) steps
  have hcases : ∀ x ∈ t.nodes, x.path.length = 1 ∨ (x.path.length ≤ max maxDepth 2 ∧
      ∃ op root, schema.rootType? op = some root ∧ root.fields ≠ []) := by
    intro x hx
    have hx := h.length_path_cases hx
    rwa [hbounds] at hx
  refine ⟨⟨?_, ?_⟩, fun x hx => ?_⟩
  · rintro hall rfl op root hroot
    by_contra hfields
    obtain ⟨f, hf⟩ := List.exists_mem_of_ne_nil _ hfields
    obtain ⟨x, hx, hpath⟩ := exists_field_run schema 1 steps hroot hf
    have hle := hall x hx
    rw [hpath, FieldPath.length_child] at hle
    exact absurd hle (by simp [FieldPath.root])
  · intro hone x hx
    rcases hcases x hx with hlength | ⟨hle, op, root, hroot, hfields⟩
    · omega
    · have hne : maxDepth ≠ 1 := fun heq => hfields (hone heq op root hroot)
      omega
  · rcases hcases x hx with hlength | ⟨hle, -⟩
    · omega
    · exact hle

/-- Users are friends of users, and paths of three parts are shown. -/
theorem length_paths_le_maxDepth_friends :
    let t := (build SelectionMap.friends 3).run [.expand 1]
    1 ≤ 3 ∧ (∀ x ∈ t.nodes, x.path.length ≤ 3) ∧ ∃ x ∈ t.nodes, x.path.length = 3 := by
  intro t
  have hdepth : 1 ≤ 3 := by decide
  obtain ⟨hiff, -⟩ := length_paths_le_maxDepth_iff SelectionMap.friends hdepth [.expand 1]
  obtain ⟨n, hat, hlength⟩ : ∃ n, t.nodeAt? [0, 0, 1] = some n ∧ n.path.length = 3 :=
    ⟨_, rfl, rfl⟩
  exact ⟨hdepth, hiff.mpr fun hone => absurd hone (by decide), n.info, mem_nodes_of_nodeAt? hat,
    hlength⟩

/-- With a greatest depth of one the user has a node, whose path has two parts. -/
theorem user_beyond_greatest_depth :
    ¬ ∀ x ∈ ((build SelectionMap.friends 1).run []).nodes, x.path.length ≤ 1 := by
  intro hall
  obtain ⟨n, hat, hlength⟩ : ∃ n, ((build SelectionMap.friends 1).run []).nodeAt? [0, 0] = some n ∧
      n.path.length = 2 := ⟨_, rfl, rfl⟩
  have hle : n.path.length ≤ 1 := hall n.info (mem_nodes_of_nodeAt? hat)
  omega

end SelectionTree

end QueryPicker
