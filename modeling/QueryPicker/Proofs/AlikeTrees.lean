import Mathlib
import QueryPicker.Proofs.TreeRuns

/-!
# Trees of which the same is told

Of two trees one may have more nodes than the other, and other numbers for them, while their marks
tell the same. A path then leads to the same position in both, and setting the mark of the nodes at
one position leaves the trees alike and reports the same changes, but for the numbers.
-/

namespace QueryPicker

namespace TreeBounds

open TreeNode

variable {b : TreeBounds} {chain : List String} {n n' m m' : TreeNode}

theorem leafName?_pruned (n : TreeNode) : n.pruned.path.leafName? = n.path.leafName? := by
  obtain ⟨info, children⟩ := n
  rfl

/-- The marks at all names are told. -/
theorem markAt_pruned (h : Grown b chain n) (names : List String) :
    n.pruned.markAt names = n.markAt names := by
  induction names generalizing chain n with
  | nil => exact state_pruned n
  | cons name names ih =>
    by_cases hs : n.state = .unchecked
    · rw [markAt_of_unchecked h hs, pruned_of_unchecked hs]
      rfl
    · obtain ⟨info, children⟩ := n
      have hs : info.state ≠ .unchecked := hs
      have hchild : ((TreeNode.mk info children).pruned).childNamed? name =
          ((TreeNode.mk info children).childNamed? name).map pruned := by
        rw [pruned_of_marked hs]
        simp only [childNamed?, TreeNode.children, List.find?_map, Function.comp_def,
          leafName?_pruned]
      rw [markAt_cons, markAt_cons, hchild]
      cases hfind : (TreeNode.mk info children).childNamed? name with
      | none => rfl
      | some c => exact ih (grown_of_mem h c (List.mem_of_find?_eq_some hfind))

/-- What is told of two nodes settles what is told of the nodes at one position below them. -/
theorem pruned_of_at? {position : List Nat} (h : Grown b chain n) (h' : Grown b chain n')
    (heq : n.pruned = n'.pruned) (hat : n.at? position = some m)
    (hat' : n'.at? position = some m') : m.pruned = m'.pruned := by
  induction position generalizing chain n n' with
  | nil =>
    obtain rfl : n = m := by simpa [TreeNode.at?] using hat
    obtain rfl : n' = m' := by simpa [TreeNode.at?] using hat'
    exact heq
  | cons i position ih =>
    obtain ⟨info, children⟩ := n
    obtain ⟨info', children'⟩ := n'
    obtain ⟨c, hget, hrest⟩ := Option.bind_eq_some_iff.mp hat
    obtain ⟨c', hget', hrest'⟩ := Option.bind_eq_some_iff.mp hat'
    have hget : children[i]? = some c := hget
    have hget' : children'[i]? = some c' := hget'
    have hblank : info.blank = info'.blank := blank_of_pruned heq
    have hchildren := map_pruned_children h h' (expanded_of_mem h (List.mem_of_getElem? hget))
      (expanded_of_mem h' (List.mem_of_getElem? hget')) heq
    have hcc' : c.pruned = c'.pruned := by
      have hi := congrArg (·[i]?) hchildren
      simpa [hget, hget'] using hi
    have hc' := grown_of_mem h' c' (List.mem_of_getElem? hget')
    rw [← chainBelow_eq_of_blank hblank] at hc'
    exact ih (grown_of_mem h c (List.mem_of_getElem? hget)) hc' hcc' hrest hrest'

/-- Which child a name leads to is settled by the shapes of the children. -/
theorem childIndex?_eq_of_blank {info info' : NodeInfo} {children children' : List TreeNode}
    (h : children.map (·.info.blank) = children'.map (·.info.blank)) (name : String) :
    (TreeNode.mk info children).childIndex? name =
      (TreeNode.mk info' children').childIndex? name := by
  have hindex : ∀ (info : NodeInfo) (ns : List TreeNode), (TreeNode.mk info ns).childIndex? name =
      (ns.map (·.info.blank)).findIdx? (·.path.leafName? == some name) := by
    intro info ns
    rw [List.findIdx?_map]
    rfl
  rw [hindex, hindex, h]

/-- Names lead on from two nodes of one shape to the same position, or from neither of them. -/
theorem found_expandAlong_of_blank (names : List String) (h : Grown b chain n)
    (h' : Grown b chain n') (hblank : n.info.blank = n'.info.blank) (next next' : Nat) :
    ((b.expandAlong chain next names n).2.2 = none ∧
        (b.expandAlong chain next' names n').2.2 = none) ∨
      ∃ position m m', (b.expandAlong chain next names n).2.2 = some m.id ∧
        (b.expandAlong chain next names n).1.at? position = some m ∧
        (b.expandAlong chain next' names n').2.2 = some m'.id ∧
        (b.expandAlong chain next' names n').1.at? position = some m' := by
  induction names generalizing chain n n' next next' with
  | nil => exact Or.inr ⟨[], n, n', rfl, rfl, rfl, rfl⟩
  | cons name names ih =>
    have hfirst := extends_expand h next
    have hfirst' := extends_expand h' next'
    have hexpanded := expanded_expand b chain next n
    have hexpanded' := expanded_expand b chain next' n'
    rw [expandAlong, expandAlong]
    generalize b.expand chain next n = made at hfirst hexpanded
    generalize b.expand chain next' n' = made' at hfirst' hexpanded'
    obtain ⟨⟨info, children⟩, after⟩ := made
    obtain ⟨⟨info', children'⟩, after'⟩ := made'
    dsimp only at hfirst hfirst' ⊢
    have hinfo : info.blank = info'.blank :=
      hfirst.blank.trans (hblank.trans hfirst'.blank.symm)
    have hblanks := map_blank_children hfirst.grown hfirst'.grown hexpanded hexpanded' hinfo
    have hindex : (TreeNode.mk info children).childIndex? name =
        (TreeNode.mk info' children').childIndex? name := childIndex?_eq_of_blank hblanks name
    rw [hindex]
    cases (TreeNode.mk info' children').childIndex? name with
    | none => exact Or.inl ⟨rfl, rfl⟩
    | some i =>
      have hi : (children[i]?).map (·.info.blank) = (children'[i]?).map (·.info.blank) := by
        rw [← List.getElem?_map, ← List.getElem?_map, hblanks]
      simp only [TreeNode.children]
      cases hget : children[i]? with
      | none =>
        have hget' : children'[i]? = none := by simpa [hget] using hi.symm
        rw [hget']
        exact Or.inl ⟨rfl, rfl⟩
      | some c =>
        obtain ⟨c', hget', hcc'⟩ :
            ∃ c', children'[i]? = some c' ∧ c'.info.blank = c.info.blank := by
          simpa [hget] using hi.symm
        have hlt := (List.getElem?_eq_some_iff.mp hget).1
        have hlt' := (List.getElem?_eq_some_iff.mp hget').1
        have hc := grown_of_mem hfirst.grown c (List.mem_of_getElem? hget)
        have hc' := grown_of_mem hfirst'.grown c' (List.mem_of_getElem? hget')
        rw [← chainBelow_eq_of_blank hinfo] at hc'
        rw [hget']
        dsimp only [TreeNode.info]
        rw [← chainBelow_eq_of_blank hinfo]
        rcases ih hc hc' hcc'.symm after after' with hnone | ⟨position, m, m', hspec⟩
        · exact Or.inl hnone
        · obtain ⟨hfound, hat, hfound', hat'⟩ := hspec
          refine Or.inr ⟨i :: position, m, m', hfound, ?_, hfound', ?_⟩
          · exact Option.bind_eq_some_iff.mpr ⟨_, List.getElem?_set_self hlt, hat⟩
          · exact Option.bind_eq_some_iff.mpr ⟨_, List.getElem?_set_self hlt', hat'⟩

end TreeBounds

/-- The change without the numbers of nodes. -/
def TreeChange.unnumbered (change : TreeChange) : TreeChange :=
  { change with target := 0, changed := change.changed.map NodeInfo.unnumbered }

namespace SelectionTree

open TreeBounds

variable {t t' t₁ t₁' : SelectionTree} {s : CheckState} {id id' : Nat} {position : List Nat}
  {m m' : TreeNode}

/-- Both trees have grown, and of both the same is told to the same listeners. -/
structure Alike (t t' : SelectionTree) : Prop where
  bounds : t'.bounds = t.bounds
  listeners : t'.listeners = t.listeners
  grown : t.IsGrown
  grown' : t'.IsGrown
  told : t'.told = t.told

/-- Nothing is told of a tree whose marks have been reset but its roots. -/
theorem told_resetSilently (t : SelectionTree) : t.resetSilently.told =
    (t.roots.map (·.info.blank)).map fun shape => .mk shape.unnumbered [] := by
  show (TreeNode.setAlls .unchecked t.roots).map TreeNode.pruned = _
  rw [TreeNode.setAlls_eq, List.map_map, List.map_map]
  apply List.map_congr_left
  intro r _
  show (r.setAll .unchecked).pruned = .mk r.info.blank.unnumbered []
  rw [TreeNode.pruned_of_unchecked (TreeNode.state_setAll .unchecked r)]
  congr 1
  apply NodeInfo.unnumbered_of_blank
  · rw [TreeNode.blank_setAll]
    rfl
  · exact TreeNode.state_setAll .unchecked r

/-- Whatever was marked before, trees with the same bounds are alike once their marks are reset. -/
theorem alike_resetSilently (h : t.IsGrown) (h' : t'.IsGrown) (hbounds : t'.bounds = t.bounds)
    (hlisteners : t'.listeners = t.listeners) : t.resetSilently.Alike t'.resetSilently := by
  refine ⟨hbounds, hlisteners, isGrown_resetSilently h, isGrown_resetSilently h', ?_⟩
  rw [told_resetSilently, told_resetSilently, h.roots, h'.roots, hbounds]

namespace Alike

theorem refl (h : t.IsGrown) : t.Alike t := ⟨rfl, rfl, h, h, rfl⟩

theorem symm (h : t.Alike t') : t'.Alike t :=
  ⟨h.bounds.symm, h.listeners.symm, h.grown', h.grown, h.told.symm⟩

/-- Trees stay alike while nodes are made in one of them. -/
theorem extend (h : t.Alike t') (hext : t'.Extends t₁') (htold : t₁'.told = t'.told) :
    t.Alike t₁' :=
  ⟨hext.bounds.trans h.bounds, hext.listeners.trans h.listeners, h.grown, hext.grown,
    htold.trans h.told⟩

theorem blanks (h : t.Alike t') : t.roots.map (·.info.blank) = t'.roots.map (·.info.blank) := by
  rw [h.grown.roots, h.grown'.roots, h.bounds]

theorem rootIndex?_eq (h : t.Alike t') (p : FieldPath) : t'.rootIndex? p = t.rootIndex? p := by
  have hindex : ∀ (roots : List TreeNode) (marker : String),
      roots.findIdx? (fun r => r.path.rootMarker? == some marker) =
        (roots.map (·.info.blank)).findIdx? (·.path.rootMarker? == some marker) := by
    intro roots marker
    rw [List.findIdx?_map]
    rfl
  rw [rootIndex?, rootIndex?]
  congr 1
  funext marker
  rw [hindex, hindex, h.blanks]

theorem root (h : t.Alike t') {i : Nat} {r : TreeNode} (hget : t.roots[i]? = some r) :
    ∃ r', t'.roots[i]? = some r' ∧ r.pruned = r'.pruned := by
  have hi : (t'.roots[i]?).map TreeNode.pruned = (t.roots[i]?).map TreeNode.pruned := by
    rw [← List.getElem?_map, ← List.getElem?_map]
    exact congrArg (·[i]?) h.told
  rw [hget] at hi
  obtain ⟨r', hget', hr⟩ := Option.map_eq_some_iff.mp hi
  exact ⟨r', hget', hr.symm⟩

theorem grown_root' (h : t.Alike t') {i : Nat} {r' : TreeNode} (hget : t'.roots[i]? = some r') :
    Grown t.bounds [] r' := by
  have hr := h.grown'.grown r' (List.mem_of_getElem? hget)
  rwa [h.bounds] at hr

/-- The marks at all paths are the same. -/
theorem markAt_eq (h : t.Alike t') (p : FieldPath) : t'.markAt p = t.markAt p := by
  have hindex := h.rootIndex?_eq p
  rcases h.grown.rootIndex?_cases p with ⟨hidx, -⟩ | ⟨i, r, hidx, hget, -⟩
  · rw [markAt_of_rootIndex?_eq_none hidx, markAt_of_rootIndex?_eq_none (hindex.trans hidx)]
  · obtain ⟨r', hget', hr⟩ := h.root hget
    rw [markAt_of_rootIndex? hidx hget, markAt_of_rootIndex? (hindex.trans hidx) hget',
      ← markAt_pruned (h.grown.grown r (List.mem_of_getElem? hget)), hr,
      markAt_pruned (h.grown_root' hget')]

/-- The same nodes are checked, but for their numbers. -/
theorem checkedNodes_eq (h : t.Alike t') :
    t'.checkedNodes.map NodeInfo.unnumbered = t.checkedNodes.map NodeInfo.unnumbered := by
  have htold : ∀ t : SelectionTree, t.IsGrown → t.checkedNodes.map NodeInfo.unnumbered =
      t.told.flatMap fun r => r.preorder.filter (·.state == .checked) := by
    intro t ht
    rw [checkedNodes, nodes, SelectionTree.told, List.filter_flatMap, List.map_flatMap,
      List.flatMap_map]
    apply List.flatMap_congr
    intro r hr
    rw [TreeNode.info_cons_descendants]
    exact filter_preorder_pruned (p := (· == .checked)) rfl (ht.grown r hr)
  rw [htold t h.grown, htold t' h.grown', h.told]

/-- Of the nodes at one position the same is told. -/
theorem pruned_of_nodeAt? (h : t.Alike t') (hat : t.nodeAt? position = some m)
    (hat' : t'.nodeAt? position = some m') : m.pruned = m'.pruned := by
  obtain ⟨i, rest, r, rfl, hget, hrest⟩ := exists_of_nodeAt? hat
  obtain ⟨r', hget', hr⟩ := h.root hget
  rw [nodeAt?, hget', Option.bind_some] at hat'
  exact pruned_of_at? (h.grown.grown r (List.mem_of_getElem? hget)) (h.grown_root' hget') hr hrest
    hat'

/-- A path leads to the same position in both trees, or to no node in either. -/
theorem expandPath (h : t.Alike t') (p : FieldPath) :
    (t.expandPath p).1.Alike (t'.expandPath p).1 ∧
      (((t.expandPath p).2 = none ∧ (t'.expandPath p).2 = none) ∨
        ∃ position m m', (t.expandPath p).2 = some m.id ∧ (t'.expandPath p).2 = some m'.id ∧
          (t.expandPath p).1.nodeAt? position = some m ∧
          (t'.expandPath p).1.nodeAt? position = some m') := by
  have hleft := h.symm.extend (extends_expandPath h.grown p) (told_expandPath h.grown p)
  have hboth := hleft.symm.extend (extends_expandPath h.grown' p) (told_expandPath h.grown' p)
  refine ⟨hboth, ?_⟩
  have hindex := h.rootIndex?_eq p
  rcases h.grown.rootIndex?_cases p with ⟨hidx, -⟩ | ⟨i, r, hidx, hget, -⟩
  · left
    rw [SelectionTree.expandPath, SelectionTree.expandPath, hidx, hindex.trans hidx]
    exact ⟨rfl, rfl⟩
  · obtain ⟨r', hget', hr⟩ := h.root hget
    have hgrown := h.grown.grown r (List.mem_of_getElem? hget)
    have hfound := found_expandAlong_of_blank p.fieldSegments hgrown (h.grown_root' hget')
      (TreeNode.blank_of_pruned hr) t.next t'.next
    rw [SelectionTree.expandPath, SelectionTree.expandPath, hidx, hindex.trans hidx]
    dsimp only
    rw [hget, hget', h.bounds]
    rcases hfound with hnone | ⟨position, m, m', hid, hat, hid', hat'⟩
    · exact Or.inl hnone
    · refine Or.inr ⟨i :: position, m, m', hid, hid', ?_, ?_⟩
      · exact Option.bind_eq_some_iff.mpr
          ⟨_, List.getElem?_set_self (List.getElem?_eq_some_iff.mp hget).1, hat⟩
      · exact Option.bind_eq_some_iff.mpr
          ⟨_, List.getElem?_set_self (List.getElem?_eq_some_iff.mp hget').1, hat'⟩

theorem apply_mixed (hat : t.nodeAt? position = some m)
    (hposition : t.position? id = some position) :
    t.apply id .mixed = .error (.partialNotSettable m.path) := by
  obtain ⟨i, rest, r, rfl, hget, -⟩ := exists_of_nodeAt? hat
  rw [SelectionTree.apply, hposition]
  dsimp only
  rw [hget, hat]
  rfl

/-- Setting the marks of the nodes at one position fails in the same way, or leaves the trees alike
with the same changes. -/
theorem apply (h : t.Alike t') (hat : t.nodeAt? position = some m)
    (hat' : t'.nodeAt? position = some m') (s : CheckState) :
    (∃ e, t.apply m.id s = .error e ∧ t'.apply m'.id s = .error e) ∨
      ∃ t₁ changed t₁' changed', t.apply m.id s = .ok (t₁, changed) ∧
        t'.apply m'.id s = .ok (t₁', changed') ∧ t₁.Alike t₁' ∧
        changed.map NodeInfo.unnumbered = changed'.map NodeInfo.unnumbered := by
  have hposition := h.grown.position?_of_nodeAt? hat
  have hposition' := h.grown'.position?_of_nodeAt? hat'
  have hm := h.pruned_of_nodeAt? hat hat'
  by_cases hs : s = .mixed
  · subst hs
    have hpath : m.path = m'.path := NodeInfo.path_eq_of_blank (TreeNode.blank_of_pruned hm)
    refine Or.inl ⟨_, apply_mixed hat hposition, ?_⟩
    rw [apply_mixed hat' hposition', hpath]
  · obtain ⟨i, rest, r, rfl, hget, hrest⟩ := exists_of_nodeAt? hat
    obtain ⟨r', hget', hr⟩ := h.root hget
    have hrest' : r'.at? rest = some m' := by
      rw [nodeAt?, hget', Option.bind_some] at hat'
      exact hat'
    have hok := apply_of_position? hposition hget hrest hs
    have hok' := apply_of_position? hposition' hget' hrest' hs
    obtain ⟨hpruned, hchanged⟩ := pruned_setAt hs (h.grown.grown r (List.mem_of_getElem? hget))
      (h.grown_root' hget') hr hrest hrest' t.next t'.next
    rw [← h.bounds] at hpruned hchanged
    refine Or.inr ⟨_, _, _, _, hok, hok', ?_, ?_⟩
    · refine ⟨h.bounds, h.listeners, isGrown_apply h.grown hok, isGrown_apply h.grown' hok', ?_⟩
      show (t'.roots.set i _).map TreeNode.pruned = (t.roots.set i _).map TreeNode.pruned
      have htold : t'.roots.map TreeNode.pruned = t.roots.map TreeNode.pruned := h.told
      rw [List.map_set, List.map_set, htold, ← hpruned, h.bounds]
    · rw [← hchanged, h.bounds]

/-- As above, with what the listeners are told. -/
theorem setState (h : t.Alike t') (hat : t.nodeAt? position = some m)
    (hat' : t'.nodeAt? position = some m') (s : CheckState) :
    (∃ e, t.setState m.id s = .error e ∧ t'.setState m'.id s = .error e) ∨
      ∃ t₁ calls t₁' calls', t.setState m.id s = .ok (t₁, calls) ∧
        t'.setState m'.id s = .ok (t₁', calls') ∧ t₁.Alike t₁' ∧
        calls.map (·.2.unnumbered) = calls'.map (·.2.unnumbered) := by
  have hpath : m.path = m'.path :=
    NodeInfo.path_eq_of_blank (TreeNode.blank_of_pruned (h.pruned_of_nodeAt? hat hat'))
  rw [SelectionTree.setState, SelectionTree.setState]
  rcases h.apply hat hat' s with
    ⟨e, he, he'⟩ | ⟨t₁, changed, t₁', changed', hok, hok', halike, hsame⟩
  · rw [he, he']
    exact Or.inl ⟨e, rfl, rfl⟩
  · rw [hok, hok']
    refine Or.inr ⟨_, _, _, _, rfl, rfl, halike, ?_⟩
    have hempty : changed.isEmpty = changed'.isEmpty := by
      have hmaps := congrArg List.isEmpty hsame
      rwa [List.isEmpty_map, List.isEmpty_map] at hmaps
    rw [notify_apply h.grown hat hok, notify_apply h.grown' hat' hok', hempty, h.listeners]
    split
    · rfl
    · rw [List.map_map, List.map_map]
      apply List.map_congr_left
      intro l _
      simp only [Function.comp_apply, TreeChange.unnumbered, hpath, hsame]

theorem setStateSilently (h : t.Alike t') (hat : t.nodeAt? position = some m)
    (hat' : t'.nodeAt? position = some m') (s : CheckState) :
    (∃ e, t.setStateSilently m.id s = .error e ∧ t'.setStateSilently m'.id s = .error e) ∨
      ∃ t₁ t₁', t.setStateSilently m.id s = .ok t₁ ∧ t'.setStateSilently m'.id s = .ok t₁' ∧
        t₁.Alike t₁' := by
  rw [SelectionTree.setStateSilently, SelectionTree.setStateSilently]
  rcases h.apply hat hat' s with ⟨e, he, he'⟩ | ⟨t₁, changed, t₁', changed', hok, hok', halike, -⟩
  · rw [he, he']
    exact Or.inl ⟨e, rfl, rfl⟩
  · rw [hok, hok']
    exact Or.inr ⟨_, _, rfl, rfl, halike⟩

/-- A click has the same outcome in both trees. -/
theorem toggle (h : t.Alike t') (hat : t.nodeAt? position = some m)
    (hat' : t'.nodeAt? position = some m') :
    (∃ e, t.toggle m.id = .error e ∧ t'.toggle m'.id = .error e) ∨
      ∃ t₁ calls t₁' calls' s, t.toggle m.id = .ok (t₁, calls, s) ∧
        t'.toggle m'.id = .ok (t₁', calls', s) ∧ t₁.Alike t₁' ∧
        calls.map (·.2.unnumbered) = calls'.map (·.2.unnumbered) := by
  have hstate : t.state? m.id = some m.state := by
    rw [state?, node?, h.grown.position?_of_nodeAt? hat, Option.bind_some, hat]
    rfl
  have hstate' : t'.state? m'.id = some m.state := by
    rw [state?, node?, h.grown'.position?_of_nodeAt? hat', Option.bind_some, hat',
      TreeNode.state_of_pruned (h.pruned_of_nodeAt? hat hat')]
    rfl
  rw [SelectionTree.toggle, SelectionTree.toggle, hstate, hstate']
  dsimp only
  rcases h.setState hat hat' m.state.toggled with
    ⟨e, he, he'⟩ | ⟨t₁, calls, t₁', calls', hok, hok', hspec⟩
  · rw [he, he']
    exact Or.inl ⟨e, rfl, rfl⟩
  · rw [hok, hok']
    exact Or.inr ⟨_, _, _, _, _, rfl, rfl, hspec⟩

theorem checkSilently (h : t.Alike t') (p : FieldPath) :
    (t.checkSilently p).Alike (t'.checkSilently p) := by
  obtain ⟨halike, hfound⟩ := h.expandPath p
  rw [SelectionTree.checkSilently, SelectionTree.checkSilently]
  generalize t.expandPath p = made at halike hfound
  generalize t'.expandPath p = made' at halike hfound
  obtain ⟨t₁, found⟩ := made
  obtain ⟨t₁', found'⟩ := made'
  dsimp only at halike hfound
  rcases hfound with ⟨rfl, rfl⟩ | ⟨position, m, m', rfl, rfl, hat, hat'⟩
  · exact halike
  · rcases halike.setStateSilently hat hat' .checked with
      ⟨e, he, he'⟩ | ⟨t₂, t₂', hok, hok', hset⟩
    · simp only [he, he']
      exact halike
    · simp only [hok, hok']
      exact hset

theorem foldl_checkSilently (h : t.Alike t') (ps : List FieldPath) :
    (ps.foldl SelectionTree.checkSilently t).Alike (ps.foldl SelectionTree.checkSilently t') := by
  induction ps generalizing t t' with
  | nil => exact h
  | cons p ps ih => exact ih (h.checkSilently p)

end Alike

end SelectionTree

end QueryPicker
