import Mathlib
import QueryPicker.Proofs.CheckedLeaves
import QueryPicker.Proofs.KeptNodes

/-!
# Marks at leaf paths

If the fields of every type have different names, a leaf of the full tree is known by its path, and
the marks at the leaf paths settle the marks at all paths. Checking paths checks exactly the leaf
paths that go on from one of them.
-/

namespace QueryPicker

namespace TreeNode

theorem follow?_append (names more : List String) (n : TreeNode) :
    n.follow? (names ++ more) = (n.follow? names).bind (follow? more) := by
  induction names generalizing n with
  | nil => rfl
  | cons name names ih =>
    rw [List.cons_append, follow?, follow?, Option.bind_assoc]
    congr 1
    funext c
    exact ih c

theorem info_mem_preorder (n : TreeNode) : n.info ∈ n.preorder := by
  obtain ⟨info, children⟩ := n
  exact mem_preorder.mpr (Or.inl rfl)

theorem info_mem_preorder_of_at? {position : List Nat} {n m : TreeNode}
    (h : n.at? position = some m) : m.info ∈ n.preorder := by
  induction position generalizing n with
  | nil =>
    obtain rfl : n = m := by simpa [at?] using h
    exact info_mem_preorder n
  | cons i position ih =>
    obtain ⟨c, hget, hrest⟩ := Option.bind_eq_some_iff.mp h
    obtain ⟨info, children⟩ := n
    exact mem_preorder.mpr (Or.inr ⟨c, List.mem_of_getElem? hget, ih hrest⟩)

mutual

/-- Every node below has a position. -/
theorem exists_at?_of_mem {x : NodeInfo} : ∀ n : TreeNode, x ∈ n.preorder →
    ∃ position m, n.at? position = some m ∧ m.info = x
  | mk info children, hx => by
    rcases mem_preorder.mp hx with rfl | ⟨c, hc, hxc⟩
    · exact ⟨[], _, rfl, rfl⟩
    · obtain ⟨i, position, m, hm, hinfo⟩ :=
        exists_at?_of_mem_preorders children (mem_preorders.mpr ⟨c, hc, hxc⟩)
      exact ⟨i :: position, m, hm, hinfo⟩

theorem exists_at?_of_mem_preorders {x : NodeInfo} : ∀ ns : List TreeNode, x ∈ preorders ns →
    ∃ (i : Nat) (position : List Nat) (m : TreeNode),
      ns[i]?.bind (at? position) = some m ∧ m.info = x
  | n :: ns, hx => by
    rw [preorders, List.mem_append] at hx
    rcases hx with hx | hx
    · obtain ⟨position, m, hm, hinfo⟩ := exists_at?_of_mem n hx
      exact ⟨0, position, m, hm, hinfo⟩
    · obtain ⟨i, position, m, hm, hinfo⟩ := exists_at?_of_mem_preorders ns hx
      exact ⟨i + 1, position, m, by rwa [List.getElem?_cons_succ], hinfo⟩

end

end TreeNode

namespace TreeBounds

variable {b : TreeBounds} {chain : List String} {n m : TreeNode}

/-- If the fields of every expanded node have different names, every position has its names. -/
theorem exists_follow?_of_nodup {position : List Nat} (h : Grown b chain n)
    (hnodup : ∀ x ∈ n.preorder, x.expanded = true → ((b.fieldsOf x).map (·.name)).Nodup)
    (hat : n.at? position = some m) : ∃ names, n.follow? names = some m := by
  induction position generalizing chain n with
  | nil => exact ⟨[], hat⟩
  | cons i position ih =>
    obtain ⟨c, hget, hrest⟩ := Option.bind_eq_some_iff.mp hat
    obtain ⟨info, children⟩ := n
    have hc : c ∈ children := List.mem_of_getElem? hget
    have hbelow : ∀ x ∈ c.preorder, x ∈ (TreeNode.mk info children).preorder := fun x hx =>
      TreeNode.mem_preorder.mpr (Or.inr ⟨c, hc, hx⟩)
    obtain ⟨names, hfollow⟩ := ih (grown_of_mem h c hc) (fun x hx => hnodup x (hbelow x hx)) hrest
    have hinfo := hnodup info (TreeNode.info_mem_preorder _) (expanded_of_mem h hc)
    obtain ⟨f, -, -, hchild⟩ := childNamed?_of_nodup hinfo h hc
    exact ⟨f.name :: names, by rw [TreeNode.follow?, hchild]; exact hfollow⟩

theorem exists_follow?_of_at? (hdistinct : b.schema.DistinctFields) {position : List Nat}
    (h : Grown b chain n) (hat : n.at? position = some m) : ∃ names, n.follow? names = some m :=
  exists_follow?_of_nodup h (fun x _ _ => nodup_fieldsOf hdistinct x) hat

/-- The tree shows the path, and none that goes on from it. -/
def IsLeafPath (b : TreeBounds) (p : FieldPath) : Prop :=
  b.ShowsPath p ∧ ∀ q, b.ShowsPath q → p <+: q → q = p

end TreeBounds

namespace SelectionTree

open TreeBounds

variable {t t' : SelectionTree} {position position' : List Nat} {n m m' : TreeNode}
  {p q leaf : FieldPath}

theorem mem_nodes_of_nodeAt? (hat : t.nodeAt? position = some m) : m.info ∈ t.nodes := by
  obtain ⟨i, rest, r, rfl, hget, hrest⟩ := exists_of_nodeAt? hat
  exact mem_nodes.mpr ⟨r, List.mem_of_getElem? hget, TreeNode.info_mem_preorder_of_at? hrest⟩

theorem exists_nodeAt?_of_mem {x : NodeInfo} (hx : x ∈ t.nodes) :
    ∃ position m, t.nodeAt? position = some m ∧ m.info = x := by
  obtain ⟨r, hr, hx⟩ := mem_nodes.mp hx
  obtain ⟨i, position, m, hm, hinfo⟩ :=
    TreeNode.exists_at?_of_mem_preorders t.roots (TreeNode.mem_preorders.mpr ⟨r, hr, hx⟩)
  exact ⟨i :: position, m, hm, hinfo⟩

theorem IsGrown.find?_append (h : t.IsGrown) {i : Nat} {r : TreeNode} (hget : t.roots[i]? = some r)
    (names : List String) : t.find? (r.path ++ names) = r.follow? names := by
  obtain ⟨hidx, hnames⟩ := h.rootIndex?_of_getElem? hget names
  rw [find?, hidx, Option.bind_some, hget, Option.bind_some, hnames]

/-- The fields of every node that has been expanded have different names. -/
def NamesApart (t : SelectionTree) : Prop :=
  ∀ x ∈ t.nodes, x.expanded = true → ((t.bounds.fieldsOf x).map (·.name)).Nodup

theorem namesApart_of_distinctFields (hdistinct : t.bounds.schema.DistinctFields) : t.NamesApart :=
  fun x _ _ => nodup_fieldsOf hdistinct x

/-- If names are kept apart, every node is found at its path. -/
theorem IsGrown.find?_of_namesApart (h : t.IsGrown) (hapart : t.NamesApart)
    (hat : t.nodeAt? position = some m) : t.find? m.path = some m := by
  obtain ⟨i, rest, r, rfl, hget, hrest⟩ := exists_of_nodeAt? hat
  have hmem := List.mem_of_getElem? hget
  obtain ⟨names, hfollow⟩ := exists_follow?_of_nodup (h.grown r hmem)
    (fun x hx => hapart x (mem_nodes.mpr ⟨r, hmem, hx⟩)) hrest
  rw [(follow?_spec (h.grown r hmem) hfollow).2.1, h.find?_append hget]
  exact hfollow

theorem IsGrown.find?_of_nodeAt? (h : t.IsGrown) (hdistinct : t.bounds.schema.DistinctFields)
    (hat : t.nodeAt? position = some m) : t.find? m.path = some m :=
  h.find?_of_namesApart (namesApart_of_distinctFields hdistinct) hat

/-- No two nodes stand at one path. -/
theorem IsGrown.position_eq (h : t.IsGrown) (hdistinct : t.bounds.schema.DistinctFields)
    (hat : t.nodeAt? position = some m) (hat' : t.nodeAt? position' = some m')
    (hpath : m.path = m'.path) : position = position' := by
  have hfind := h.find?_of_nodeAt? hdistinct hat
  rw [hpath, h.find?_of_nodeAt? hdistinct hat'] at hfind
  obtain rfl : m' = m := Option.some.inj hfind
  have hposition := h.position?_of_nodeAt? hat
  rw [h.position?_of_nodeAt? hat'] at hposition
  exact (Option.some.inj hposition).symm

/-- A node that is kept is found again at its path. -/
theorem IsGrown.find?_of_kept (h : t'.IsGrown) (hdistinct : t'.bounds.schema.DistinctFields)
    (hkept : t.KeptIn t') {x : NodeInfo} (hx : x ∈ t.nodes) :
    ∃ n, t'.find? x.path = some n ∧ n.state = t'.markAt x.path := by
  obtain ⟨position, m, hm, rfl⟩ := exists_nodeAt?_of_mem hx
  obtain ⟨m', hm', -, hblank⟩ := hkept.nodeAt? hm
  have hfind := h.find?_of_nodeAt? hdistinct hm'
  have hpath : m'.path = m.info.path := NodeInfo.path_eq_of_blank hblank
  rw [hpath] at hfind
  exact ⟨m', hfind, by rw [markAt, hfind]⟩

/-- The path of a leaf of the full tree. -/
theorem isLeafPath_of_leaf {b : TreeBounds} (hdistinct : b.schema.DistinctFields)
    (hat : b.fullTree.nodeAt? position = some m) (hleaf : m.children = []) :
    b.IsLeafPath m.path := by
  obtain ⟨hgrown, hbounds, hfull⟩ := b.fullTree_spec
  have hdistinct' : b.fullTree.bounds.schema.DistinctFields := hdistinct
  have hshows := (hgrown.node_spec hdistinct' (mem_nodes_of_nodeAt? hat)).1
  rw [hbounds] at hshows
  refine ⟨hshows, ?_⟩
  rintro q hq ⟨more, rfl⟩
  have hfind := hgrown.find?_of_nodeAt? hdistinct' hat
  obtain ⟨i, rest, r, rfl, hget, hrest⟩ := exists_of_nodeAt? hat
  have hr := hgrown.grown r (List.mem_of_getElem? hget)
  obtain ⟨names, hfollow⟩ := exists_follow?_of_at? hdistinct' hr hrest
  have hm := (follow?_spec hr hfollow).2.1
  rw [hm, List.append_assoc, ← hbounds, hgrown.showsPath_iff hget] at hq
  obtain ⟨l, hl⟩ := follow?_of_full (hfull r (List.mem_of_getElem? hget)) hr hq
  rw [TreeNode.follow?_append, hfollow, Option.bind_some] at hl
  cases more with
  | nil => exact List.append_nil _
  | cons name more => simp [TreeNode.follow?, TreeNode.childNamed?, hleaf] at hl

/-- The node of the full tree at a node's position is that node filled up. -/
theorem IsGrown.exists_filled (h : t.IsGrown) (hn : t.nodeAt? position = some n)
    (hat : t.bounds.fullTree.nodeAt? position = some m) : ∃ chain, Filled t.bounds chain n m := by
  obtain ⟨chain, m', hm', hfilled⟩ := h.filled_nodeAt? hn
  obtain rfl : m = m' := by simpa [hat] using hm'
  exact ⟨chain, hfilled⟩

/-- A node of the full tree has been made and checked exactly if its path is marked as checked. -/
theorem IsGrown.exists_checked_iff (h : t.IsGrown) (hdistinct : t.bounds.schema.DistinctFields)
    (hat : t.bounds.fullTree.nodeAt? position = some m) :
    (∃ n, t.nodeAt? position = some n ∧ n.state = .checked) ↔ t.markAt m.path = .checked := by
  constructor
  · rintro ⟨n, hn, hs⟩
    obtain ⟨chain, hfilled⟩ := h.exists_filled hn hat
    have hpath : m.path = n.path := NodeInfo.path_eq_of_blank hfilled.blank
    rw [hpath]
    exact (h.node_spec hdistinct (mem_nodes_of_nodeAt? hn)).2.1.trans hs
  · intro hmark
    have hmarked : t.markAt m.path ≠ .unchecked := by
      rw [hmark]
      decide
    obtain ⟨x, hx, hpath, hs⟩ := h.exists_node hmarked
    obtain ⟨position', n, hn, rfl⟩ := exists_nodeAt?_of_mem hx
    obtain ⟨chain, n', hn', hfilled⟩ := h.filled_nodeAt? hn
    obtain ⟨hgrown, hbounds, -⟩ := t.bounds.fullTree_spec
    have hpath' : n'.path = m.path := (NodeInfo.path_eq_of_blank hfilled.blank).trans hpath
    obtain rfl := hgrown.position_eq hdistinct hn' hat hpath'
    exact ⟨n, hn, hs.trans hmark⟩

/-- Along a shown path the full tree has a node, and from it one at the end of the path. -/
theorem exists_fullNode {b : TreeBounds} (more : List String) (hne : q ≠ [])
    (hq : b.ShowsPath (q ++ more)) : ∃ position chain m rest l,
      b.fullTree.nodeAt? position = some m ∧ m.path = q ∧ Filled b chain m m ∧
        m.at? rest = some l ∧ l.path = q ++ more := by
  obtain ⟨hgrown, hbounds, hfull⟩ := b.fullTree_spec
  rw [← hbounds] at hq
  rcases hgrown.rootIndex?_cases q with ⟨-, hnot⟩ | ⟨i, r, -, hget, hpath, -⟩
  · exact absurd (hq.of_start (List.prefix_append q more) hne) hnot
  · have hr := hgrown.grown r (List.mem_of_getElem? hget)
    rw [hpath, List.append_assoc, hgrown.showsPath_iff hget] at hq
    obtain ⟨l, hl⟩ := follow?_of_full (hfull r (List.mem_of_getElem? hget)) hr hq
    have hlpath : l.path = r.path ++ (q.fieldSegments ++ more) := (follow?_spec hr hl).2.1
    rw [TreeNode.follow?_append] at hl
    obtain ⟨m, hfollow, hmore⟩ := Option.bind_eq_some_iff.mp hl
    obtain ⟨position, hat⟩ := at?_of_follow? hfollow
    obtain ⟨rest, hrest⟩ := at?_of_follow? hmore
    have hm : b.fullTree.nodeAt? (i :: position) = some m :=
      Option.bind_eq_some_iff.mpr ⟨r, hget, hat⟩
    obtain ⟨chain, m', hm', hfilled⟩ := hgrown.filled_nodeAt? hm
    rw [hbounds] at hm' hfilled
    obtain rfl : m = m' := by simpa [hm] using hm'
    refine ⟨i :: position, chain, m, rest, l, hm, ?_, hfilled, hrest, ?_⟩
    · exact (follow?_spec hr hfollow).2.1.trans hpath.symm
    · rw [hlpath, ← List.append_assoc, ← hpath]

/-- A leaf below a node of the full tree has a leaf path that goes on from that of the node. -/
theorem isLeafPath_below {b : TreeBounds} {chain : List String} {more : List Nat} {l : TreeNode}
    (hdistinct : b.schema.DistinctFields) (hat : b.fullTree.nodeAt? position = some m)
    (hm : Grown b chain m) (hmore : m.at? more = some l) (hleaf : l.children = []) :
    b.fullTree.nodeAt? (position ++ more) = some l ∧ b.IsLeafPath l.path ∧ m.path <+: l.path := by
  have hl : b.fullTree.nodeAt? (position ++ more) = some l := by
    rw [nodeAt?_below hat]
    exact hmore
  obtain ⟨names, hfollow⟩ := exists_follow?_of_at? hdistinct hm hmore
  exact ⟨hl, isLeafPath_of_leaf hdistinct hl hleaf, names, (follow?_spec hm hfollow).2.1.symm⟩

/-- Every shown path leads on to a leaf path. -/
theorem exists_leafPath {b : TreeBounds} (hdistinct : b.schema.DistinctFields)
    (hq : b.ShowsPath q) : ∃ leaf, b.IsLeafPath leaf ∧ q <+: leaf := by
  obtain ⟨position, chain, m, -, -, hat, rfl, hm, -⟩ :=
    exists_fullNode [] hq.ne_nil (by rwa [List.append_nil])
  obtain ⟨more, l, hmore, hleaf⟩ := exists_leaf hm.full
  obtain ⟨-, hpath, hstart⟩ := isLeafPath_below hdistinct hat hm.grown hmore hleaf
  exact ⟨l.path, hpath, hstart⟩

/-- What is shown below a checked path is checked. -/
theorem IsGrown.markAt_below (h : t.IsGrown) (hdistinct : t.bounds.schema.DistinctFields)
    (hmark : t.markAt p = .checked) (hq : t.bounds.ShowsPath q) (hne : p ≠ []) (hstart : p <+: q) :
    t.markAt q = .checked := by
  obtain ⟨more, rfl⟩ := hstart
  obtain ⟨position, chain, m, rest, l, hat, rfl, -, hrest, hl⟩ := exists_fullNode more hne hq
  obtain ⟨n, hn, hs⟩ := (h.exists_checked_iff hdistinct hat).mpr hmark
  obtain ⟨chain', hfilled⟩ := h.exists_filled hn hat
  obtain ⟨n', hn', hs'⟩ := hfilled.checked hs hrest
  have hlat : t.bounds.fullTree.nodeAt? (position ++ rest) = some l := by
    rw [nodeAt?_below hat]
    exact hrest
  rw [← hl, ← h.exists_checked_iff hdistinct hlat]
  refine ⟨n', ?_, hs'⟩
  rw [nodeAt?_below hn]
  exact hn'

/-- Below a node that is not made or not checked some leaf is not made or not checked. -/
theorem IsGrown.exists_leaf_not_checked (h : t.IsGrown) (hat : t.bounds.fullTree.nodeAt? position =
    some m) (hm : Full m) (hnot : ¬ ∃ n, t.nodeAt? position = some n ∧ n.state = .checked) :
    ∃ more l, m.at? more = some l ∧ l.children = [] ∧
      ¬ ∃ n, t.nodeAt? (position ++ more) = some n ∧ n.state = .checked := by
  cases hn : t.nodeAt? position with
  | none =>
    obtain ⟨more, l, hmore, hleaf⟩ := exists_leaf hm
    refine ⟨more, l, hmore, hleaf, ?_⟩
    rw [nodeAt?_append (ne_nil_of_nodeAt? hat), hn]
    rintro ⟨n, hn, -⟩
    cases hn
  | some n =>
    obtain ⟨chain, hfilled⟩ := h.exists_filled hn hat
    obtain ⟨more, l, hmore, hleaf, hothers⟩ :=
      hfilled.exists_not_checked fun hs => hnot ⟨n, hn, hs⟩
    refine ⟨more, l, hmore, hleaf, ?_⟩
    rw [nodeAt?_below hn]
    rintro ⟨n', hn', hs⟩
    exact hothers n' hn' hs

/-- A shown path is marked as checked exactly if all leaf paths below it are. -/
theorem IsGrown.markAt_eq_checked_iff (h : t.IsGrown) (hdistinct : t.bounds.schema.DistinctFields)
    (hq : t.bounds.ShowsPath q) : t.markAt q = .checked ↔
      ∀ leaf, t.bounds.IsLeafPath leaf → q <+: leaf → t.markAt leaf = .checked := by
  constructor
  · intro hmark leaf hleaf hstart
    exact h.markAt_below hdistinct hmark hleaf.1 hq.ne_nil hstart
  · intro hall
    obtain ⟨position, chain, m, -, -, hat, rfl, hm, -⟩ :=
      exists_fullNode [] hq.ne_nil (by rwa [List.append_nil])
    rw [← h.exists_checked_iff hdistinct hat]
    by_contra hnot
    obtain ⟨more, l, hmore, hchildren, hleaf⟩ := h.exists_leaf_not_checked hat hm.full hnot
    obtain ⟨hl, hpath, hstart⟩ := isLeafPath_below hdistinct hat hm.grown hmore hchildren
    exact hleaf ((h.exists_checked_iff hdistinct hl).mpr (hall l.path hpath hstart))

theorem checkedLeaves_eq_of_leafPaths (h : t.IsGrown) (h' : t'.IsGrown)
    (hbounds : t'.bounds = t.bounds) (hdistinct : t.bounds.schema.DistinctFields)
    (hleaves : ∀ p, t.bounds.IsLeafPath p → (t'.markAt p = .checked ↔ t.markAt p = .checked)) :
    t'.checkedLeaves = t.checkedLeaves := by
  ext leaf
  rw [mem_checkedLeaves, mem_checkedLeaves, hbounds]
  apply and_congr_right
  rintro ⟨-, l, hl, hleaf⟩
  have hl' := hl
  rw [← hbounds] at hl'
  rw [h.exists_checked_iff hdistinct hl, h'.exists_checked_iff (hbounds ▸ hdistinct) hl']
  exact hleaves l.path (isLeafPath_of_leaf hdistinct hl hleaf)

/-- Trees with the same checked leaves have the same marks where both have nodes. -/
theorem state_eq_of_checkedLeaves (h : t.IsGrown) (h' : t'.IsGrown) (hbounds : t'.bounds = t.bounds)
    (hleaves : t'.checkedLeaves = t.checkedLeaves) (hat : t.nodeAt? position = some m)
    (hat' : t'.nodeAt? position = some m') : m'.state = m.state := by
  have hchecked := checkedLeaves_subset_iff h' hat'
  have hunchecked := disjoint_checkedLeaves_iff h' hat'
  rw [hbounds, hleaves, ← checkedLeaves_subset_iff h hat] at hchecked
  rw [hbounds, hleaves, ← disjoint_checkedLeaves_iff h hat] at hunchecked
  cases hs : m.state with
  | checked => exact hchecked.mpr hs
  | unchecked => exact hunchecked.mpr hs
  | mixed =>
    cases hs' : m'.state with
    | checked => rw [hchecked.mp hs'] at hs; cases hs
    | unchecked => rw [hunchecked.mp hs'] at hs; cases hs
    | mixed => rfl

/-- A leaf below a marked node is checked, so the way there has been made in every other tree with
the same checked leaves. -/
theorem exists_nodeAt?_of_checkedLeaves (h : t.IsGrown)
    (hleaves : t'.checkedLeaves = t.checkedLeaves) (hat : t.nodeAt? position = some m)
    (hmarked : m.state ≠ .unchecked) : ∃ m', t'.nodeAt? position = some m' := by
  obtain ⟨chain, n', hn', hfilled⟩ := h.filled_nodeAt? hat
  obtain ⟨more, l, c, hl, hleaf, hc, hchecked⟩ := hfilled.exists_checked hmarked
  have hmem := mem_leavesAt_append hn' hl hleaf
  have hboth : position ++ more ∈ t'.checkedLeaves := by
    rw [hleaves]
    refine ⟨leavesAt_subset hmem, c, ?_, hchecked⟩
    rw [nodeAt?_below hat]
    exact hc
  obtain ⟨-, l', hl', -⟩ := hboth
  rw [nodeAt?_append (ne_nil_of_nodeAt? hat)] at hl'
  obtain ⟨m', hm', -⟩ := Option.bind_eq_some_iff.mp hl'
  exact ⟨m', hm'⟩

/-- What is marked in one tree is marked alike in every other with the same checked leaves. -/
theorem markAt_of_checkedLeaves (h : t.IsGrown) (h' : t'.IsGrown) (hbounds : t'.bounds = t.bounds)
    (hdistinct : t.bounds.schema.DistinctFields) (hleaves : t'.checkedLeaves = t.checkedLeaves)
    (hmark : t.markAt q ≠ .unchecked) : t'.markAt q = t.markAt q := by
  obtain ⟨x, hx, rfl, hs⟩ := h.exists_node hmark
  obtain ⟨position, n, hn, rfl⟩ := exists_nodeAt?_of_mem hx
  obtain ⟨chain, n', hn', hfilled⟩ := h.filled_nodeAt? hn
  have hmarked : n.state ≠ .unchecked := by
    rw [← hs] at hmark
    exact hmark
  obtain ⟨n₂, hn₂⟩ := exists_nodeAt?_of_checkedLeaves h hleaves hn hmarked
  obtain ⟨chain₂, hfilled₂⟩ := h'.exists_filled hn₂ (by rwa [hbounds])
  have hpath : n₂.path = n.path :=
    NodeInfo.path_eq_of_blank (hfilled₂.blank.symm.trans hfilled.blank)
  have hdistinct' : t'.bounds.schema.DistinctFields := hbounds ▸ hdistinct
  have hmark₂ := (h'.node_spec hdistinct' (mem_nodes_of_nodeAt? hn₂)).2.1
  have hmark₂ : t'.markAt n.path = n₂.state := hpath ▸ hmark₂
  exact hmark₂.trans ((state_eq_of_checkedLeaves h h' hbounds hleaves hn hn₂).trans hs)

/-- The marks at the leaf paths settle all marks. -/
theorem markAt_eq_of_leafPaths (h : t.IsGrown) (h' : t'.IsGrown) (hbounds : t'.bounds = t.bounds)
    (hdistinct : t.bounds.schema.DistinctFields)
    (hleaves : ∀ p, t.bounds.IsLeafPath p → (t'.markAt p = .checked ↔ t.markAt p = .checked))
    (q : FieldPath) : t'.markAt q = t.markAt q := by
  have hsame := checkedLeaves_eq_of_leafPaths h h' hbounds hdistinct hleaves
  by_cases hmark : t.markAt q = .unchecked
  · by_contra hne
    have hmark' : t'.markAt q ≠ .unchecked := fun heq => hne (heq.trans hmark.symm)
    have hdistinct' : t'.bounds.schema.DistinctFields := hbounds ▸ hdistinct
    exact hne (markAt_of_checkedLeaves h' h hbounds.symm hdistinct' hsame.symm hmark').symm
  · exact markAt_of_checkedLeaves h h' hbounds hdistinct hsame hmark

theorem keptIn_checkSilently (h : t.IsGrown) (p : FieldPath) :
    (t.checkSilently p).IsGrown ∧ (t.checkSilently p).bounds = t.bounds ∧
      (t.checkSilently p).listeners = t.listeners ∧ t.KeptIn (t.checkSilently p) := by
  have hext := extends_expandPath h p
  have hkept := keptIn_expandPath h p
  rcases checkSilently_eq h p with ⟨-, heq⟩ | ⟨t₁, position, m, changed, -, heq, -, -, happly⟩
  · rw [heq] at hext hkept
    exact ⟨hext.grown, hext.bounds, hext.listeners, hkept⟩
  · rw [heq] at hext hkept
    exact ⟨isGrown_apply hext.grown happly, (bounds_apply happly).trans hext.bounds,
      (listeners_apply happly).trans hext.listeners, hkept.trans (keptIn_apply hext.grown happly)⟩

theorem keptIn_foldl_checkSilently (h : t.IsGrown) (ps : List FieldPath) :
    (ps.foldl checkSilently t).IsGrown ∧ (ps.foldl checkSilently t).bounds = t.bounds ∧
      (ps.foldl checkSilently t).listeners = t.listeners ∧
        t.KeptIn (ps.foldl checkSilently t) := by
  induction ps generalizing t with
  | nil => exact ⟨h, rfl, rfl, .refl t⟩
  | cons p ps ih =>
    obtain ⟨hgrown, hbounds, hlisteners, hkept⟩ := keptIn_checkSilently h p
    obtain ⟨hgrown', hbounds', hlisteners', hkept'⟩ := ih hgrown
    exact ⟨hgrown', hbounds'.trans hbounds, hlisteners'.trans hlisteners, hkept.trans hkept'⟩

/-- A leaf path is checked by checking the paths from which it goes on. -/
theorem markAt_checkSilently (h : t.IsGrown) (hdistinct : t.bounds.schema.DistinctFields)
    (hleaf : t.bounds.IsLeafPath leaf) (p : FieldPath) :
    (t.checkSilently p).markAt leaf = .checked ↔
      t.markAt leaf = .checked ∨ (t.bounds.ShowsPath p ∧ p <+: leaf) := by
  rcases checkSilently_cases h hdistinct p with ⟨hnot, hext⟩ | ⟨t₁, changed, hshows, hext, hsets⟩
  · rw [hext.marks]
    simp [hnot]
  · by_cases hstart : p <+: leaf
    · rw [hsets.below leaf (hext.bounds ▸ hleaf.1) hstart]
      simp [hshows, hstart]
    · have hnot : ¬ leaf <+: p := by
        intro hafter
        rw [hleaf.2 p hshows hafter] at hstart
        exact hstart List.prefix_rfl
      rw [hsets.beside leaf hstart hnot, hext.marks]
      simp [hstart]

theorem markAt_foldl_checkSilently_leaf (h : t.IsGrown)
    (hdistinct : t.bounds.schema.DistinctFields) (hleaf : t.bounds.IsLeafPath leaf)
    (ps : List FieldPath) : (ps.foldl checkSilently t).markAt leaf = .checked ↔
      t.markAt leaf = .checked ∨ ∃ p ∈ ps, t.bounds.ShowsPath p ∧ p <+: leaf := by
  induction ps generalizing t with
  | nil => simp
  | cons p ps ih =>
    obtain ⟨hgrown, hbounds, -⟩ := keptIn_checkSilently h p
    have hrest := ih hgrown (hbounds ▸ hdistinct) (hbounds ▸ hleaf)
    rw [List.foldl_cons, hrest, markAt_checkSilently h hdistinct hleaf, hbounds]
    simp [or_assoc]

end SelectionTree

end QueryPicker
