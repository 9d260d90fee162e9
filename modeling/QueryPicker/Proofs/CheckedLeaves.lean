import Mathlib
import QueryPicker.Proofs.TreeRuns

/-!
# The checked leaves

Schema and bounds settle the tree with nothing left to make. A tree that has grown stands for the
leaves of that full tree which it has checked: its marks follow from them, growing leaves them as
they are, and setting a mark adds or takes away the leaves below one node. Nodes are known by their
positions, so the fields of a type may share a name.
-/

namespace QueryPicker

namespace TreeNode

theorem at?_append (position more : List Nat) (n : TreeNode) :
    n.at? (position ++ more) = (n.at? position).bind (at? more) := by
  induction position generalizing n with
  | nil => rfl
  | cons i position ih =>
    rw [List.cons_append, at?, at?, Option.bind_assoc]
    congr 1
    funext c
    exact ih c

/-- The node has nothing below it, so no position goes on from it. -/
theorem eq_of_at?_of_leaf {position leaf : List Nat} {n m l : TreeNode} (hleaf : l.children = [])
    (hl : n.at? leaf = some l) (hm : n.at? position = some m) (hstart : leaf <+: position) :
    leaf = position := by
  obtain ⟨more, rfl⟩ := hstart
  rw [at?_append, hl, Option.bind_some] at hm
  cases more with
  | nil => exact (List.append_nil leaf).symm
  | cons i more => simp [at?, hleaf] at hm

end TreeNode

namespace TreeBounds

open TreeNode

variable {b : TreeBounds} {chain : List String} {n n' m m' : TreeNode} {position : List Nat}

theorem state_of_getElem? {i : Nat} {c : TreeNode} {s : CheckState} (h : Grown b chain n)
    (hs : n.state = s) (hmixed : s ≠ .mixed) (hget : n.children[i]? = some c) : c.state = s := by
  cases h with
  | waiting => simp [TreeNode.children] at hget
  | made _ _ hsettled _ =>
    exact state_of_settled (hs ▸ hsettled) hmixed c (List.mem_of_getElem? hget)

/-- A mark other than mixed is that of everything below. -/
theorem state_of_at? {s : CheckState} (h : Grown b chain n) (hs : n.state = s)
    (hmixed : s ≠ .mixed) (hat : n.at? position = some m) : m.state = s := by
  induction position generalizing chain n with
  | nil =>
    obtain rfl : n = m := by simpa [TreeNode.at?] using hat
    exact hs
  | cons i position ih =>
    obtain ⟨c, hget, hrest⟩ := Option.bind_eq_some_iff.mp hat
    have hstate := state_of_getElem? h hs hmixed hget
    obtain ⟨info, children⟩ := n
    exact ih (grown_of_mem h c (List.mem_of_getElem? hget)) hstate hrest

/-- If a node with children has another mark, so has one of them. -/
theorem exists_child_of_ne {s : CheckState} (h : Grown b chain n) (hs : n.state ≠ s)
    (hne : n.children ≠ []) :
    ∃ (i : Nat) (c : TreeNode), n.children[i]? = some c ∧ c.state ≠ s := by
  by_contra hnone
  have hall : ∀ c ∈ n.children, c.state = s := by
    intro c hc
    obtain ⟨i, hi, hget⟩ := List.getElem_of_mem hc
    by_contra hcs
    exact hnone ⟨i, c, List.getElem?_eq_some_iff.mpr ⟨hi, hget⟩, hcs⟩
  cases h with
  | waiting => exact hne rfl
  | @made _ info children _ _ hsettled _ =>
    have hne : children ≠ [] := hne
    rw [Settled, if_neg hne] at hsettled
    apply hs
    show info.state = s
    rw [hsettled]
    apply ofChildren_eq (by simpa using hne)
    intro u hu
    obtain ⟨c, hc, rfl⟩ := List.mem_map.mp hu
    exact hall c hc

/-- The second node is the first with nothing left to make below it. -/
structure Filled (b : TreeBounds) (chain : List String) (n n' : TreeNode) : Prop where
  grown : Grown b chain n
  grown' : Grown b chain n'
  full : Full n'
  blank : n'.info.blank = n.info.blank

namespace Filled

/-- Once the children of the node have been made, they stand beside those of the full node. -/
theorem children (h : Filled b chain n n') (hexpanded : n.info.expanded = true) :
    List.Forall₂ (Filled b (chainBelow chain n.info)) n.children n'.children := by
  obtain ⟨info, children⟩ := n
  obtain ⟨info', children'⟩ := n'
  obtain ⟨hgrown, hgrown', hfull, hblank⟩ := h
  have hblank : info'.blank = info.blank := hblank
  cases hfull with
  | made hexpanded' hfulls =>
    have hbelow := grown_of_mem hgrown'
    rw [chainBelow_eq_of_blank hblank] at hbelow
    have hblanks := map_blank_children hgrown hgrown' hexpanded hexpanded' hblank.symm
    refine forall₂_of_map_eq hblanks fun c hc c' hc' hcc' => ?_
    exact ⟨grown_of_mem hgrown c hc, hbelow c' hc', hfulls c' hc', hcc'.symm⟩

theorem expanded_of_getElem? {i : Nat} {c : TreeNode} (h : Filled b chain n n')
    (hget : n.children[i]? = some c) : n.info.expanded = true := by
  obtain ⟨info, children⟩ := n
  exact expanded_of_mem h.grown (List.mem_of_getElem? hget)

theorem child {i : Nat} {c : TreeNode} (h : Filled b chain n n')
    (hget : n.children[i]? = some c) :
    ∃ c', n'.children[i]? = some c' ∧ Filled b (chainBelow chain n.info) c c' :=
  getElem?_of_forall₂ (h.children (h.expanded_of_getElem? hget)) hget

/-- Nodes that are marked have been expanded. -/
theorem child_of_marked {i : Nat} {c' : TreeNode} (h : Filled b chain n n')
    (hs : n.state ≠ .unchecked) (hget : n'.children[i]? = some c') :
    ∃ c, n.children[i]? = some c ∧ Filled b (chainBelow chain n.info) c c' := by
  have hexpanded : n.info.expanded = true := by
    cases h.grown with
    | waiting _ hstate => exact absurd hstate hs
    | made hexpanded => exact hexpanded
  exact getElem?_of_forall₂ (h.children hexpanded).flip hget

/-- What has been made stands at the same position in the full node. -/
theorem at? (h : Filled b chain n n') (hat : n.at? position = some m) :
    ∃ chain' m', n'.at? position = some m' ∧ Filled b chain' m m' := by
  induction position generalizing chain n n' with
  | nil =>
    obtain rfl : n = m := by simpa [TreeNode.at?] using hat
    exact ⟨chain, n', rfl, h⟩
  | cons i position ih =>
    obtain ⟨c, hget, hrest⟩ := Option.bind_eq_some_iff.mp hat
    obtain ⟨c', hget', hc⟩ := h.child hget
    obtain ⟨chain', m', hm', hspec⟩ := ih hc hrest
    exact ⟨chain', m', Option.bind_eq_some_iff.mpr ⟨c', hget', hm'⟩, hspec⟩

/-- Below a checked node all has been made and checked. -/
theorem checked (h : Filled b chain n n') (hs : n.state = .checked)
    (hat : n'.at? position = some m') : ∃ m, n.at? position = some m ∧ m.state = .checked := by
  induction position generalizing chain n n' with
  | nil => exact ⟨n, rfl, hs⟩
  | cons i position ih =>
    obtain ⟨c', hget', hrest⟩ := Option.bind_eq_some_iff.mp hat
    obtain ⟨c, hget, hc⟩ := h.child_of_marked (by rw [hs]; decide) hget'
    obtain ⟨m, hm, hstate⟩ := ih hc (state_of_getElem? h.grown hs (by decide) hget) hrest
    exact ⟨m, Option.bind_eq_some_iff.mpr ⟨c, hget, hm⟩, hstate⟩

end Filled

theorem exists_leaf (hfull : Full n) :
    ∃ position leaf, n.at? position = some leaf ∧ leaf.children = [] := by
  induction hfull with
  | @made info children hexpanded hfulls ih =>
    cases children with
    | nil => exact ⟨[], _, rfl, rfl⟩
    | cons c children =>
      obtain ⟨position, leaf, hat, hleaf⟩ := ih c List.mem_cons_self
      exact ⟨0 :: position, leaf, hat, hleaf⟩

theorem expanded_of_mem_preorder (hfull : Full n) {x : NodeInfo} (hx : x ∈ n.preorder) :
    x.expanded = true := by
  induction hfull with
  | @made info children hexpanded hfulls ih =>
    rcases mem_preorder.mp hx with rfl | ⟨c, hc, hx⟩
    · exact hexpanded
    · exact ih c hc hx

/-- Some leaf below a node that is not checked has not been made or is not checked either. -/
theorem Filled.exists_not_checked (h : Filled b chain n n') (hs : n.state ≠ .checked) :
    ∃ position leaf, n'.at? position = some leaf ∧ leaf.children = [] ∧
      ∀ m, n.at? position = some m → m.state ≠ .checked := by
  have hfull := h.full
  induction hfull generalizing chain n with
  | @made info' children' hexpanded' hfulls ih =>
    by_cases hnone : children' = []
    · refine ⟨[], _, rfl, hnone, fun m hm => ?_⟩
      obtain rfl : n = m := by simpa [TreeNode.at?] using hm
      exact hs
    by_cases hempty : n.children = []
    · obtain ⟨position, leaf, hat, hleaf⟩ := exists_leaf h.full
      refine ⟨position, leaf, hat, hleaf, fun m hm => ?_⟩
      cases position with
      | nil =>
        obtain rfl : n = m := by simpa [TreeNode.at?] using hm
        exact hs
      | cons i position => simp [TreeNode.at?, hempty] at hm
    obtain ⟨i, c, hget, hcs⟩ := exists_child_of_ne h.grown hs hempty
    obtain ⟨c', hget', hc⟩ := h.child hget
    obtain ⟨position, leaf, hat, hleaf, hnot⟩ := ih c' (List.mem_of_getElem? hget') hc hcs
    refine ⟨i :: position, leaf, Option.bind_eq_some_iff.mpr ⟨c', hget', hat⟩, hleaf, ?_⟩
    intro m hm
    rw [TreeNode.at?, hget, Option.bind_some] at hm
    exact hnot m hm

/-- Some leaf below a node that is marked is checked. -/
theorem Filled.exists_checked (h : Filled b chain n n') (hs : n.state ≠ .unchecked) :
    ∃ position leaf m, n'.at? position = some leaf ∧ leaf.children = [] ∧
      n.at? position = some m ∧ m.state = .checked := by
  have hfull := h.full
  induction hfull generalizing chain n with
  | @made info' children' hexpanded' hfulls ih =>
    by_cases hempty : n.children = []
    · cases h.grown with
      | waiting _ hstate => exact absurd hstate hs
      | @made _ info children hexpanded _ hsettled _ =>
        have hempty : children = [] := hempty
        have hsides := h.children hexpanded
        have hnone : children' = [] := by
          subst hempty
          exact List.forall₂_nil_left_iff.mp hsides
        rw [Settled, if_pos hempty] at hsettled
        refine ⟨[], _, _, rfl, hnone, rfl, ?_⟩
        show info.state = .checked
        have hs : info.state ≠ .unchecked := hs
        cases hstate : info.state with
        | checked => rfl
        | unchecked => exact absurd hstate hs
        | mixed => exact absurd hstate hsettled
    · obtain ⟨i, c, hget, hcs⟩ := exists_child_of_ne h.grown hs hempty
      obtain ⟨c', hget', hc⟩ := h.child hget
      obtain ⟨position, leaf, m, hat, hleaf, hm, hchecked⟩ :=
        ih c' (List.mem_of_getElem? hget') hc hcs
      refine ⟨i :: position, leaf, m, Option.bind_eq_some_iff.mpr ⟨c', hget', hat⟩, hleaf, ?_,
        hchecked⟩
      exact Option.bind_eq_some_iff.mpr ⟨c, hget, hm⟩

/-- Which nodes are checked is told. -/
theorem exists_checked_pruned (h : Grown b chain n) (position : List Nat) :
    (∃ m, n.pruned.at? position = some m ∧ m.state = .checked) ↔
      ∃ m, n.at? position = some m ∧ m.state = .checked := by
  induction position generalizing chain n with
  | nil =>
    constructor
    · rintro ⟨m, hm, hs⟩
      obtain rfl : n.pruned = m := by simpa [TreeNode.at?] using hm
      exact ⟨n, rfl, (state_pruned n).symm.trans hs⟩
    · rintro ⟨m, hm, hs⟩
      obtain rfl : n = m := by simpa [TreeNode.at?] using hm
      exact ⟨n.pruned, rfl, (state_pruned n).trans hs⟩
  | cons i position ih =>
    by_cases hs : n.state = .unchecked
    · constructor
      · rintro ⟨m, hm, -⟩
        rw [pruned_of_unchecked hs] at hm
        simp [TreeNode.at?, TreeNode.children] at hm
      · rintro ⟨m, hm, hchecked⟩
        rw [state_of_at? h hs (by decide) hm] at hchecked
        cases hchecked
    · obtain ⟨info, children⟩ := n
      have hs : info.state ≠ .unchecked := hs
      rw [pruned_of_marked hs, TreeNode.at?, TreeNode.at?]
      simp only [TreeNode.children, List.getElem?_map]
      cases hget : children[i]? with
      | none => simp
      | some c => exact ih (grown_of_mem h c (List.mem_of_getElem? hget))

/-- Nothing is set beside the node whose mark is set. -/
theorem at?_setAt_beside {s : CheckState} (chain : List String) {position other : List Nat}
    (hnot : ¬ position <+: other) (hnot' : ¬ other <+: position) (n : TreeNode) (next : Nat) :
    (b.setAt s chain next position n).1.at? other = n.at? other := by
  induction position generalizing chain n other next with
  | nil => exact absurd List.nil_prefix hnot
  | cons i position ih =>
    cases other with
    | nil => exact absurd List.nil_prefix hnot'
    | cons j other =>
      obtain ⟨info, children⟩ := n
      cases hget : children[i]? with
      | none =>
        have hchild : (TreeNode.mk info children).children[i]? = none := hget
        rw [setAt, hchild]
      | some c =>
        rw [setAt_cons hget, TreeNode.at?, TreeNode.at?]
        simp only [TreeNode.children]
        by_cases hj : i = j
        · subst hj
          rw [List.prefix_cons_inj] at hnot hnot'
          rw [List.getElem?_set_self (List.getElem?_eq_some_iff.mp hget).1, hget]
          exact ih (chainBelow chain info) hnot hnot' c next
        · rw [List.getElem?_set_ne hj]

/-- The tree with nothing left to make. -/
def fullTree (b : TreeBounds) : SelectionTree :=
  let t := SelectionTree.build b.schema b.maxDepth
  let made := b.completeAll (fun _ => true) [] t.next t.roots
  t.withRoots made.1 made.2

/-- The leaves of the full tree at or below a position. -/
def leavesAt (b : TreeBounds) (position : List Nat) : Set (List Nat) :=
  {leaf | position <+: leaf ∧ ∃ n, b.fullTree.nodeAt? leaf = some n ∧ n.children = []}

theorem fullTree_spec (b : TreeBounds) :
    b.fullTree.IsGrown ∧ b.fullTree.bounds = b ∧ ∀ r ∈ b.fullTree.roots, Full r := by
  have hgrown := SelectionTree.isGrown_build b.schema b.maxDepth
  have hall := growsTo_completeAll (fun _ => true) (SelectionTree.build b.schema b.maxDepth).roots
    (SelectionTree.build b.schema b.maxDepth).next hgrown.grown
  have hnumbers := numbersAdded_completeAll (fun _ => true)
    (SelectionTree.build b.schema b.maxDepth).roots
    (SelectionTree.build b.schema b.maxDepth).next hgrown.grown
  refine ⟨(SelectionTree.extends_withRoots hgrown (hall.imp fun _ _ hr => hr.extends')
    hnumbers).grown, rfl, ?_⟩
  intro r hr
  obtain ⟨r₀, -, hgrows⟩ := mem_right_of_forall₂ hall r hr
  exact hgrows.full fun _ => rfl

end TreeBounds

namespace SelectionTree

open TreeBounds

variable {t t' : SelectionTree} {s : CheckState} {id : Nat} {position leaf : List Nat}
  {n : TreeNode}

theorem ne_nil_of_nodeAt? (hat : t.nodeAt? position = some n) : position ≠ [] := by
  rintro rfl
  cases hat

theorem nodeAt?_append (hne : position ≠ []) (more : List Nat) :
    t.nodeAt? (position ++ more) = (t.nodeAt? position).bind (TreeNode.at? more) := by
  obtain ⟨i, rest, rfl⟩ := List.exists_cons_of_ne_nil hne
  rw [List.cons_append, nodeAt?, nodeAt?, Option.bind_assoc]
  congr 1
  funext r
  exact TreeNode.at?_append rest more r

theorem nodeAt?_below (hat : t.nodeAt? position = some n) (more : List Nat) :
    t.nodeAt? (position ++ more) = n.at? more := by
  rw [nodeAt?_append (ne_nil_of_nodeAt? hat), hat, Option.bind_some]

/-- The roots stand beside those of the full tree. -/
theorem IsGrown.filled (h : t.IsGrown) :
    List.Forall₂ (Filled t.bounds []) t.roots t.bounds.fullTree.roots := by
  obtain ⟨hgrown, hbounds, hfull⟩ := t.bounds.fullTree_spec
  have hblanks : t.roots.map (·.info.blank) = t.bounds.fullTree.roots.map (·.info.blank) := by
    rw [h.roots, hgrown.roots, hbounds]
  refine forall₂_of_map_eq hblanks fun r hr r' hr' hrr' => ?_
  have hr'' := hgrown.grown r' hr'
  rw [hbounds] at hr''
  exact ⟨h.grown r hr, hr'', hfull r' hr', hrr'.symm⟩

/-- What has been made stands at the same position in the full tree. -/
theorem IsGrown.filled_nodeAt? (h : t.IsGrown) (hat : t.nodeAt? position = some n) :
    ∃ chain n', t.bounds.fullTree.nodeAt? position = some n' ∧ Filled t.bounds chain n n' := by
  obtain ⟨i, rest, r, rfl, hget, hat⟩ := exists_of_nodeAt? hat
  obtain ⟨r', hget', hr⟩ := getElem?_of_forall₂ h.filled hget
  obtain ⟨chain, n', hat', hn⟩ := hr.at? hat
  exact ⟨chain, n', Option.bind_eq_some_iff.mpr ⟨r', hget', hat'⟩, hn⟩

/-- The leaves of the full tree that have been made and checked. -/
def checkedLeaves (t : SelectionTree) : Set (List Nat) :=
  {leaf | leaf ∈ t.bounds.leavesAt [] ∧ ∃ n, t.nodeAt? leaf = some n ∧ n.state = .checked}

theorem mem_checkedLeaves : leaf ∈ t.checkedLeaves ↔
    leaf ∈ t.bounds.leavesAt [] ∧ ∃ n, t.nodeAt? leaf = some n ∧ n.state = .checked :=
  Iff.rfl

/-- The tree shows a set of leaves of the full tree: what has been made of it is numbered, and
marked by how many of the leaves below it are in the set. -/
structure Shows (t : SelectionTree) (leaves : Set (List Nat)) : Prop where
  leaves_subset : leaves ⊆ t.bounds.leavesAt []
  made : ∀ position n, t.nodeAt? position = some n →
    t.position? n.id = some position ∧
      ∃ n', t.bounds.fullTree.nodeAt? position = some n' ∧ n'.info.blank = n.info.blank
  checked_iff : ∀ position n, t.nodeAt? position = some n →
    (n.state = .checked ↔ t.bounds.leavesAt position ⊆ leaves)
  unchecked_iff : ∀ position n, t.nodeAt? position = some n →
    (n.state = .unchecked ↔ Disjoint (t.bounds.leavesAt position) leaves)
  mixed_iff : ∀ position n, t.nodeAt? position = some n →
    (n.state = .mixed ↔ ¬ t.bounds.leavesAt position ⊆ leaves ∧
      ¬ Disjoint (t.bounds.leavesAt position) leaves)
  derived : ∀ position n, t.nodeAt? position = some n → n.children ≠ [] →
    n.state = .ofChildren (n.children.map (·.state))
  complete : ∀ position n, t.nodeAt? position = some n → n.state = .checked →
    ∀ position', position <+: position' → (t.bounds.fullTree.nodeAt? position').isSome = true →
      (t.nodeAt? position').isSome = true

theorem mem_leavesAt_append {b : TreeBounds} {more : List Nat} {n' l : TreeNode}
    (hat : b.fullTree.nodeAt? position = some n') (hmore : n'.at? more = some l)
    (hleaf : l.children = []) : position ++ more ∈ b.leavesAt position := by
  refine ⟨List.prefix_append _ _, l, ?_, hleaf⟩
  rw [nodeAt?_below hat]
  exact hmore

theorem leavesAt_subset {b : TreeBounds} : b.leavesAt position ⊆ b.leavesAt [] :=
  fun _ hleaf => ⟨List.nil_prefix, hleaf.2⟩

theorem checkedLeaves_subset_iff (h : t.IsGrown) (hat : t.nodeAt? position = some n) :
    n.state = .checked ↔ t.bounds.leavesAt position ⊆ t.checkedLeaves := by
  obtain ⟨chain, n', hat', hn⟩ := h.filled_nodeAt? hat
  constructor
  · rintro hs leaf ⟨⟨more, rfl⟩, l, hl, hleaf⟩
    refine ⟨⟨List.nil_prefix, l, hl, hleaf⟩, ?_⟩
    rw [nodeAt?_below hat'] at hl
    rw [nodeAt?_below hat]
    exact hn.checked hs hl
  · intro hsubset
    by_contra hs
    obtain ⟨more, l, hmore, hleaf, hnot⟩ := hn.exists_not_checked hs
    obtain ⟨-, m, hm, hchecked⟩ := hsubset (mem_leavesAt_append hat' hmore hleaf)
    rw [nodeAt?_below hat] at hm
    exact hnot m hm hchecked

theorem disjoint_checkedLeaves_iff (h : t.IsGrown) (hat : t.nodeAt? position = some n) :
    n.state = .unchecked ↔ Disjoint (t.bounds.leavesAt position) t.checkedLeaves := by
  obtain ⟨chain, n', hat', hn⟩ := h.filled_nodeAt? hat
  rw [Set.disjoint_left]
  constructor
  · rintro hs leaf ⟨⟨more, rfl⟩, -⟩ ⟨-, m, hm, hchecked⟩
    rw [nodeAt?_below hat] at hm
    rw [state_of_at? hn.grown hs (by decide) hm] at hchecked
    cases hchecked
  · intro hdisjoint
    by_contra hs
    obtain ⟨more, l, m, hmore, hleaf, hm, hchecked⟩ := hn.exists_checked hs
    have hmem := mem_leavesAt_append hat' hmore hleaf
    refine hdisjoint hmem ⟨leavesAt_subset hmem, m, ?_, hchecked⟩
    rw [nodeAt?_below hat]
    exact hm

/-- A tree that has grown shows the leaves that it has checked. -/
theorem shows_checkedLeaves (h : t.IsGrown) : t.Shows t.checkedLeaves := by
  refine ⟨fun _ hleaf => hleaf.1, ?_, ?_, ?_, ?_, ?_, ?_⟩
  · intro position n hat
    obtain ⟨chain, n', hat', hn⟩ := h.filled_nodeAt? hat
    exact ⟨h.position?_of_nodeAt? hat, n', hat', hn.blank⟩
  · exact fun position n hat => checkedLeaves_subset_iff h hat
  · exact fun position n hat => disjoint_checkedLeaves_iff h hat
  · intro position n hat
    rw [← checkedLeaves_subset_iff h hat, ← disjoint_checkedLeaves_iff h hat]
    cases n.state <;> simp
  · intro position n hat hne
    obtain ⟨chain, n', -, hn⟩ := h.filled_nodeAt? hat
    cases hn.grown with
    | waiting => exact absurd rfl hne
    | @made _ info children _ _ hsettled _ =>
      have hne : children ≠ [] := hne
      rw [Settled, if_neg hne] at hsettled
      exact hsettled
  · rintro position n hat hs position' ⟨more, rfl⟩ hsome
    obtain ⟨chain, n', hat', hn⟩ := h.filled_nodeAt? hat
    obtain ⟨m', hm'⟩ := Option.isSome_iff_exists.mp hsome
    rw [nodeAt?_below hat'] at hm'
    obtain ⟨m, hm, -⟩ := hn.checked hs hm'
    rw [nodeAt?_below hat, hm]
    rfl

theorem exists_checked_told (h : t.IsGrown) (i : Nat) (rest : List Nat) :
    (∃ n, t.nodeAt? (i :: rest) = some n ∧ n.state = .checked) ↔
      ∃ m, t.told[i]?.bind (TreeNode.at? rest) = some m ∧ m.state = .checked := by
  rw [nodeAt?, told, List.getElem?_map]
  cases hget : t.roots[i]? with
  | none => simp
  | some r =>
    have hr := h.grown r (List.mem_of_getElem? hget)
    exact (exists_checked_pruned hr rest).symm

/-- Trees of which the same is told have checked the same leaves. -/
theorem checkedLeaves_eq_of_told (h : t.IsGrown) (h' : t'.IsGrown) (hbounds : t'.bounds = t.bounds)
    (htold : t'.told = t.told) : t'.checkedLeaves = t.checkedLeaves := by
  ext leaf
  rw [mem_checkedLeaves, mem_checkedLeaves, hbounds]
  apply and_congr_right
  intro _
  cases leaf with
  | nil => rfl
  | cons i rest => rw [exists_checked_told h, exists_checked_told h', htold]

theorem checkedLeaves_of_unchecked (h : t.IsGrown) (hall : ∀ r ∈ t.roots, r.state = .unchecked) :
    t.checkedLeaves = ∅ := by
  ext leaf
  rw [Set.mem_empty_iff_false, iff_false]
  rintro ⟨-, n, hat, hchecked⟩
  obtain ⟨i, rest, r, rfl, hget, hat⟩ := exists_of_nodeAt? hat
  have hr := List.mem_of_getElem? hget
  rw [state_of_at? (h.grown r hr) (hall r hr) (by decide) hat] at hchecked
  cases hchecked

theorem checkedLeaves_build (schema : Schema) (maxDepth : Nat) :
    (build schema maxDepth).checkedLeaves = ∅ := by
  obtain ⟨-, hroots, -⟩ := buildRoots_spec ⟨schema, maxDepth⟩ Operation.all 0
  exact checkedLeaves_of_unchecked (isGrown_build schema maxDepth) fun r hr => (hroots r hr).2

theorem checkedLeaves_resetSilently (h : t.IsGrown) : t.resetSilently.checkedLeaves = ∅ :=
  checkedLeaves_of_unchecked (isGrown_resetSilently h) fun _ => unchecked_of_mem_resetSilently

/-- The leaves of a set once the node with the number has been given the mark. What fails changes
nothing: there may be no such node, and no node is set to mixed. -/
def leavesWith (t : SelectionTree) (id : Nat) (s : CheckState) (leaves : Set (List Nat)) :
    Set (List Nat) :=
  match t.position? id with
  | none => leaves
  | some position =>
    match s with
    | .checked => leaves ∪ t.bounds.leavesAt position
    | .unchecked => leaves \ t.bounds.leavesAt position
    | .mixed => leaves

/-- What is left alone by setting a mark, and what gets it. -/
theorem nodeAt?_apply {changed : List NodeInfo} (hok : t.apply id s = .ok (t', changed)) :
    ∃ position m, t.position? id = some position ∧ t'.nodeAt? position = some m ∧ m.state = s ∧
      ∀ other, ¬ position <+: other → ¬ other <+: position →
        t'.nodeAt? other = t.nodeAt? other := by
  obtain ⟨-, i, rest, r, m, hposition, hget, hat, -, rfl, -⟩ := apply_spec hok
  obtain ⟨m', hat', -, -, hstate⟩ := at?_setAt (b := t.bounds) (s := s) [] hat t.next
  have hget' := getElem?_setRoot hget (t.bounds.setAt s [] t.next rest r).1
    (t.bounds.setAt s [] t.next rest r).2.1
  refine ⟨i :: rest, m', hposition, Option.bind_eq_some_iff.mpr ⟨_, hget', hat'⟩, hstate, ?_⟩
  intro other hnot hnot'
  cases other with
  | nil => exact absurd List.nil_prefix hnot'
  | cons j other =>
    by_cases hj : i = j
    · subst hj
      rw [List.prefix_cons_inj] at hnot hnot'
      rw [nodeAt?, nodeAt?, hget', hget, Option.bind_some, Option.bind_some]
      exact at?_setAt_beside [] hnot hnot' r t.next
    · have hother : (t.setRoot i (t.bounds.setAt s [] t.next rest r).1
          (t.bounds.setAt s [] t.next rest r).2.1).roots[j]? = t.roots[j]? :=
        List.getElem?_set_ne hj
      rw [nodeAt?, nodeAt?, hother]

/-- A leaf is at or below a node, or it lies beside it. -/
theorem prefix_of_leaf {n' : TreeNode} {b : TreeBounds} (hleaf : leaf ∈ b.leavesAt [])
    (hat : b.fullTree.nodeAt? position = some n') (hstart : leaf <+: position) :
    position <+: leaf := by
  obtain ⟨-, l, hl, hnone⟩ := hleaf
  obtain ⟨i, rest, r, rfl, hget, hl⟩ := exists_of_nodeAt? hl
  obtain ⟨j, rest', r', rfl, hget', hat⟩ := exists_of_nodeAt? hat
  obtain ⟨rfl, hrest⟩ := List.cons_prefix_cons.mp hstart
  obtain rfl : r = r' := by simpa [hget] using hget'
  rw [TreeNode.eq_of_at?_of_leaf hnone hl hat hrest]

/-- Setting the mark of a node adds the leaves at or below it, or takes them away. At or below the
node the marks of the new tree decide, beside it those of the old one. -/
theorem checkedLeaves_apply {changed : List NodeInfo} (h : t.IsGrown)
    (hok : t.apply id s = .ok (t', changed)) :
    t'.checkedLeaves = t.leavesWith id s t.checkedLeaves := by
  have hgrown := isGrown_apply h hok
  have hbounds := bounds_apply hok
  obtain ⟨hs, -⟩ := apply_spec hok
  obtain ⟨position, m, hposition, hat, hstate, hbeside⟩ := nodeAt?_apply hok
  obtain ⟨-, n', hat', -⟩ := hgrown.filled_nodeAt? hat
  have hold : ∀ leaf ∈ t.bounds.leavesAt [], leaf ∉ t.bounds.leavesAt position →
      (leaf ∈ t'.checkedLeaves ↔ leaf ∈ t.checkedLeaves) := by
    intro leaf hleaf hnot
    have hnot : ¬ position <+: leaf := fun hstart => hnot ⟨hstart, hleaf.2⟩
    rw [hbounds] at hat'
    have hnot' : ¬ leaf <+: position := fun hstart => hnot (prefix_of_leaf hleaf hat' hstart)
    rw [mem_checkedLeaves, mem_checkedLeaves, hbounds, hbeside leaf hnot hnot']
  have hsub : t'.checkedLeaves ⊆ t.bounds.leavesAt [] := fun leaf hleaf => hbounds ▸ hleaf.1
  rw [leavesWith, hposition]
  cases s with
  | mixed => exact absurd rfl hs
  | checked =>
    have hnew := (checkedLeaves_subset_iff hgrown hat).mp hstate
    rw [hbounds] at hnew
    ext leaf
    constructor
    · intro hleaf
      by_cases hbelow : leaf ∈ t.bounds.leavesAt position
      · exact Or.inr hbelow
      · exact Or.inl ((hold leaf (hsub hleaf) hbelow).mp hleaf)
    · intro hleaf
      by_cases hbelow : leaf ∈ t.bounds.leavesAt position
      · exact hnew hbelow
      · have hleaf := hleaf.resolve_right hbelow
        exact (hold leaf hleaf.1 hbelow).mpr hleaf
  | unchecked =>
    have hnew := (disjoint_checkedLeaves_iff hgrown hat).mp hstate
    rw [hbounds] at hnew
    ext leaf
    constructor
    · intro hleaf
      have hbelow : leaf ∉ t.bounds.leavesAt position := fun hmem =>
        Set.disjoint_left.mp hnew hmem hleaf
      exact ⟨(hold leaf (hsub hleaf) hbelow).mp hleaf, hbelow⟩
    · rintro ⟨hleaf, hbelow⟩
      exact (hold leaf hleaf.1 hbelow).mpr hleaf

theorem leavesWith_of_error {e : TreeError} (herror : t.apply id s = .error e)
    (leaves : Set (List Nat)) : t.leavesWith id s leaves = leaves := by
  rw [leavesWith]
  cases hposition : t.position? id with
  | none => rfl
  | some position =>
    obtain ⟨i, rest, rfl, -⟩ := (TreeNode.positionAmong?_spec id t.roots 0).2 position hposition
    obtain ⟨r, m, hget, hat, -⟩ := nodeAt?_of_position? hposition
    cases s with
    | mixed => rfl
    | checked | unchecked =>
      rw [apply_of_position? hposition hget hat (by decide)] at herror
      cases herror

/-- What a step does to the set of checked leaves. -/
def leavesAfter (t : SelectionTree) (leaves : Set (List Nat)) : Step → Set (List Nat)
  | .set id s | .setSilently id s => t.leavesWith id s leaves
  | .toggle id =>
    match t.state? id with
    | some old => t.leavesWith id old.toggled leaves
    | none => leaves
  | .reset => ∅
  | .expand _ | .expandPath _ | .expandToDepth _ | .listen | .unlisten _ => leaves

theorem checkedLeaves_set (h : t.IsGrown) (id : Nat) (s : CheckState) :
    (t.perform (.set id s)).tree.checkedLeaves = t.leavesWith id s t.checkedLeaves := by
  rw [tree_perform_set]
  cases happly : t.apply id s with
  | error e => exact (leavesWith_of_error happly t.checkedLeaves).symm
  | ok made => exact checkedLeaves_apply h happly

theorem checkedLeaves_perform (h : t.IsGrown) (step : Step) :
    (t.perform step).tree.checkedLeaves = t.leavesAfter t.checkedLeaves step := by
  obtain ⟨hgrown, hbounds⟩ := isGrown_perform h step
  cases step with
  | expand id =>
    apply checkedLeaves_eq_of_told h hgrown hbounds
    rw [perform]
    cases hok : t.expand id with
    | error e => rfl
    | ok made => exact told_expand h hok
  | expandPath path => exact checkedLeaves_eq_of_told h hgrown hbounds (told_expandPath h path)
  | expandToDepth depth =>
    exact checkedLeaves_eq_of_told h hgrown hbounds (told_expandToDepth h depth)
  | set id s => exact checkedLeaves_set h id s
  | setSilently id s =>
    rw [tree_perform_setSilently]
    exact checkedLeaves_set h id s
  | toggle id =>
    rw [tree_perform_toggle, leavesAfter]
    cases t.state? id with
    | none => rfl
    | some old => exact checkedLeaves_set h id old.toggled
  | reset => exact checkedLeaves_resetSilently h
  | listen => rfl
  | unlisten label => rfl

/-- A tree that has been built and run shows the leaves that it has checked. It starts with none of
them. Making nodes leaves them as they are, giving a mark to a node adds or takes away all leaves at
or below it, and a reset takes away all. -/
theorem run_shows_checkedLeaves (schema : Schema) (maxDepth : Nat) (steps : List Step) :
    (∀ x ∈ (fullTree ⟨schema, maxDepth⟩).nodes, x.expanded = true) ∧
      (build schema maxDepth).checkedLeaves = ∅ ∧
      let t := (build schema maxDepth).run steps
      t.bounds = ⟨schema, maxDepth⟩ ∧ t.Shows t.checkedLeaves ∧
        ∀ step, (t.perform step).tree.checkedLeaves = t.leavesAfter t.checkedLeaves step := by
  obtain ⟨hgrown, hbounds⟩ := isGrown_run (isGrown_build schema maxDepth) steps
  refine ⟨?_, checkedLeaves_build schema maxDepth, hbounds, shows_checkedLeaves hgrown, ?_⟩
  · intro x hx
    obtain ⟨r, hr, hx⟩ := mem_nodes.mp hx
    exact expanded_of_mem_preorder ((fullTree_spec ⟨schema, maxDepth⟩).2.2 r hr) hx
  · exact fun step => checkedLeaves_perform hgrown step

end SelectionTree

end QueryPicker
