import Mathlib
import QueryPicker.Proofs.TreeRuns

/-!
# Nodes that are kept

A node that has been made stays: whatever is done to the tree, it is found at the same position,
with the same number and at the same path.
-/

namespace QueryPicker

namespace TreeNode

/-- Every node of the first tree stands in the second where it stood. -/
def KeptIn (n n' : TreeNode) : Prop :=
  ∀ position m, n.at? position = some m →
    ∃ m', n'.at? position = some m' ∧ m'.id = m.id ∧ m'.info.blank = m.info.blank

namespace KeptIn

variable {n n' n'' c c' : TreeNode} {info info' : NodeInfo} {children children' : List TreeNode}

theorem refl (n : TreeNode) : n.KeptIn n := fun _ m hat => ⟨m, hat, rfl, rfl⟩

theorem trans (h : n.KeptIn n') (h' : n'.KeptIn n'') : n.KeptIn n'' := by
  intro position m hat
  obtain ⟨m', hat', hid, hblank⟩ := h position m hat
  obtain ⟨m'', hat'', hid', hblank'⟩ := h' position m' hat'
  exact ⟨m'', hat'', hid'.trans hid, hblank'.trans hblank⟩

theorem of_children (hid : info'.id = info.id) (hblank : info'.blank = info.blank)
    (hchildren : ∀ (i : Nat) (c : TreeNode), children[i]? = some c →
      ∃ c', children'[i]? = some c' ∧ c.KeptIn c') :
    (mk info children).KeptIn (mk info' children') := by
  intro position m hat
  cases position with
  | nil =>
    obtain rfl : mk info children = m := by simpa [at?] using hat
    exact ⟨_, rfl, hid, hblank⟩
  | cons i position =>
    obtain ⟨c, hget, hrest⟩ := Option.bind_eq_some_iff.mp hat
    obtain ⟨c', hget', hc⟩ := hchildren i c hget
    obtain ⟨m', hm', hspec⟩ := hc position m hrest
    exact ⟨m', Option.bind_eq_some_iff.mpr ⟨c', hget', hm'⟩, hspec⟩

/-- Anything may be made below a node that has nothing below it. -/
theorem of_leaf (hid : info'.id = info.id) (hblank : info'.blank = info.blank) :
    (mk info []).KeptIn (mk info' children') :=
  of_children hid hblank (by simp)

theorem of_forall₂ (hid : info'.id = info.id) (hblank : info'.blank = info.blank)
    (hchildren : List.Forall₂ KeptIn children children') :
    (mk info children).KeptIn (mk info' children') :=
  of_children hid hblank fun _ _ hget => getElem?_of_forall₂ hchildren hget

theorem set {i : Nat} (hid : info'.id = info.id) (hblank : info'.blank = info.blank)
    (hget : children[i]? = some c) (h : c.KeptIn c') :
    (mk info children).KeptIn (mk info' (children.set i c')) :=
  of_forall₂ hid hblank (forall₂_set (fun d _ => refl d) hget h)

end KeptIn

mutual

theorem keptIn_setAll (s : CheckState) : ∀ n : TreeNode, n.KeptIn (n.setAll s)
  | mk _ children => .of_forall₂ rfl rfl (keptIn_setAlls s children)

theorem keptIn_setAlls (s : CheckState) : ∀ ns : List TreeNode,
    List.Forall₂ KeptIn ns (setAlls s ns)
  | [] => .nil
  | n :: ns => .cons (keptIn_setAll s n) (keptIn_setAlls s ns)

end

end TreeNode

namespace TreeBounds

open TreeNode

variable {b : TreeBounds} {chain : List String} {n : TreeNode}

theorem keptIn_expand (h : Grown b chain n) (next : Nat) : n.KeptIn (b.expand chain next n).1 := by
  cases h with
  | made hexpanded =>
    rw [expand, if_pos hexpanded]
    exact .refl _
  | waiting hexpanded =>
    rw [expand, if_neg (by simp [hexpanded])]
    exact .of_leaf rfl rfl

theorem keptIn_grow (reach : Nat → Bool) (chain : List String) (next : Nat) (info : NodeInfo) :
    (TreeNode.mk info []).KeptIn (b.grow reach chain next info).1 := by
  have hinfo := info_grow b reach chain next info
  generalize b.grow reach chain next info = made at hinfo
  obtain ⟨⟨info', children⟩, after⟩ := made
  have hinfo : info' = info ∨ info' = { info with expanded := true } := hinfo
  rcases hinfo with rfl | rfl
  · exact .of_leaf rfl rfl
  · exact .of_leaf rfl rfl

mutual

theorem keptIn_complete (reach : Nat → Bool) : ∀ (n : TreeNode) {chain : List String} (next : Nat),
    Grown b chain n → n.KeptIn (b.complete reach chain next n).1
  | .mk info children, chain, next, h => by
    rw [complete]
    split
    · exact .refl _
    · split
      · exact .of_forall₂ rfl rfl (keptIn_completeAll reach children next (grown_of_mem h))
      · rename_i hexpanded
        obtain ⟨rfl, -, -⟩ := waiting_of_not_expanded h (by simpa using hexpanded)
        exact keptIn_grow reach chain next info

theorem keptIn_completeAll (reach : Nat → Bool) : ∀ (ns : List TreeNode) {chain : List String}
    (next : Nat), (∀ n ∈ ns, Grown b chain n) →
    List.Forall₂ KeptIn ns (b.completeAll reach chain next ns).1
  | [], _, _, _ => .nil
  | n :: ns, chain, next, h => by
    have htail := keptIn_completeAll reach ns next fun m hm => h m (List.mem_cons_of_mem n hm)
    rw [completeAll]
    exact .cons (keptIn_complete reach n _ (h n List.mem_cons_self)) htail

end

theorem keptIn_expandAlong (names : List String) (h : Grown b chain n) (next : Nat) :
    n.KeptIn (b.expandAlong chain next names n).1 := by
  induction names generalizing chain n next with
  | nil => exact .refl n
  | cons name names ih =>
    have hfirst := extends_expand h next
    have hkept := keptIn_expand h next
    rw [expandAlong]
    generalize b.expand chain next n = made at hfirst hkept
    obtain ⟨⟨info, children⟩, after⟩ := made
    dsimp only at hfirst hkept ⊢
    split
    · exact hkept
    · split
      · exact hkept
      · rename_i c hget
        have hc := grown_of_mem hfirst.grown c (List.mem_of_getElem? hget)
        exact hkept.trans (.set rfl rfl hget (ih hc after))

theorem keptIn_expandAt (position : List Nat) (h : Grown b chain n) (next : Nat) :
    n.KeptIn (b.expandAt chain next position n).1 := by
  induction position generalizing chain n next with
  | nil => exact keptIn_expand h next
  | cons i position ih =>
    obtain ⟨info, children⟩ := n
    rw [expandAt]
    cases hget : (TreeNode.mk info children).children[i]? with
    | none => exact .refl _
    | some c =>
      have hc := grown_of_mem h c (List.mem_of_getElem? hget)
      exact .set rfl rfl hget (ih hc next)

theorem keptIn_setAt (s : CheckState) (position : List Nat) (h : Grown b chain n) (next : Nat) :
    n.KeptIn (b.setAt s chain next position n).1 := by
  induction position generalizing chain n next with
  | nil =>
    rw [setAt]
    by_cases hchecked : s = .checked
    · simp only [if_pos hchecked]
      exact (keptIn_complete (fun _ => true) n next h).trans (keptIn_setAll s _)
    · simp only [if_neg hchecked]
      exact keptIn_setAll s n
  | cons i position ih =>
    obtain ⟨info, children⟩ := n
    cases hget : children[i]? with
    | none =>
      have hchild : (TreeNode.mk info children).children[i]? = none := hget
      rw [setAt, hchild]
      exact .refl _
    | some c =>
      rw [setAt_cons hget]
      exact .set rfl rfl hget (ih (grown_of_mem h c (List.mem_of_getElem? hget)) next)

end TreeBounds

namespace SelectionTree

open TreeBounds

variable {t t' t'' : SelectionTree} {id : Nat} {s : CheckState}

/-- Every node of the first tree stands in the second where it stood. -/
def KeptIn (t t' : SelectionTree) : Prop := List.Forall₂ TreeNode.KeptIn t.roots t'.roots

namespace KeptIn

theorem refl (t : SelectionTree) : t.KeptIn t := List.forall₂_same.mpr fun r _ => .refl r

theorem trans (h : t.KeptIn t') (h' : t'.KeptIn t'') : t.KeptIn t'' := by
  have hforall : ∀ {as bs cs : List TreeNode}, List.Forall₂ TreeNode.KeptIn as bs →
      List.Forall₂ TreeNode.KeptIn bs cs → List.Forall₂ TreeNode.KeptIn as cs := by
    intro as bs cs hab hbc
    induction hab generalizing cs with
    | nil => exact hbc
    | cons hr _ ih =>
      cases hbc with
      | cons hr' hrest => exact .cons (hr.trans hr') (ih hrest)
  exact hforall h h'

theorem nodeAt? (h : t.KeptIn t') {position : List Nat} {m : TreeNode}
    (hat : t.nodeAt? position = some m) : ∃ m', t'.nodeAt? position = some m' ∧ m'.id = m.id ∧
      m'.info.blank = m.info.blank := by
  obtain ⟨i, rest, r, rfl, hget, hrest⟩ := exists_of_nodeAt? hat
  obtain ⟨r', hget', hr⟩ := getElem?_of_forall₂ h hget
  obtain ⟨m', hm', hspec⟩ := hr rest m hrest
  exact ⟨m', Option.bind_eq_some_iff.mpr ⟨r', hget', hm'⟩, hspec⟩

end KeptIn

theorem keptIn_setRoot {i : Nat} {r r' : TreeNode} (hget : t.roots[i]? = some r) (hr : r.KeptIn r')
    (next : Nat) : t.KeptIn (t.setRoot i r' next) :=
  forall₂_set (fun d _ => TreeNode.KeptIn.refl d) hget hr

theorem keptIn_expand (h : t.IsGrown) {children : List TreeNode}
    (hok : t.expand id = .ok (t', children)) : t.KeptIn t' := by
  unfold expand at hok
  split at hok
  · rename_i i position _
    split at hok
    · rename_i r hget
      cases hok
      have hr := h.grown r (List.mem_of_getElem? hget)
      exact keptIn_setRoot hget (keptIn_expandAt position hr t.next) _
    · cases hok
  · cases hok

theorem keptIn_expandPath (h : t.IsGrown) (p : FieldPath) : t.KeptIn (t.expandPath p).1 := by
  rw [expandPath]
  split
  · exact .refl t
  · split
    · exact .refl t
    · rename_i r hget
      have hr := h.grown r (List.mem_of_getElem? hget)
      exact keptIn_setRoot hget (keptIn_expandAlong p.fieldSegments hr t.next) _

theorem keptIn_expandToDepth (h : t.IsGrown) (depth : Nat) : t.KeptIn (t.expandToDepth depth) :=
  keptIn_completeAll _ t.roots t.next h.grown

theorem keptIn_apply {changed : List NodeInfo} (h : t.IsGrown)
    (hok : t.apply id s = .ok (t', changed)) : t.KeptIn t' := by
  obtain ⟨-, i, position, r, -, -, hget, -, -, rfl, -⟩ := apply_spec hok
  have hr := h.grown r (List.mem_of_getElem? hget)
  exact keptIn_setRoot hget (keptIn_setAt s position hr t.next) _

theorem keptIn_resetSilently (t : SelectionTree) : t.KeptIn t.resetSilently :=
  TreeNode.keptIn_setAlls .unchecked t.roots

theorem keptIn_set (h : t.IsGrown) (id : Nat) (s : CheckState) :
    t.KeptIn (t.perform (.set id s)).tree := by
  rw [tree_perform_set]
  cases happly : t.apply id s with
  | error e => exact .refl t
  | ok made => exact keptIn_apply h happly

theorem keptIn_perform (h : t.IsGrown) (step : Step) : t.KeptIn (t.perform step).tree := by
  cases step with
  | expand id =>
    rw [perform]
    cases hok : t.expand id with
    | error e => exact .refl t
    | ok made => exact keptIn_expand h hok
  | expandPath path => exact keptIn_expandPath h path
  | expandToDepth depth => exact keptIn_expandToDepth h depth
  | set id s => exact keptIn_set h id s
  | setSilently id s =>
    rw [tree_perform_setSilently]
    exact keptIn_set h id s
  | toggle id =>
    rw [tree_perform_toggle]
    cases t.state? id with
    | none => exact .refl t
    | some old => exact keptIn_set h id old.toggled
  | reset => exact keptIn_resetSilently t
  | listen | unlisten => exact .refl t

/-- What has been made stays over a whole run. -/
theorem keptIn_run (h : t.IsGrown) (steps : List Step) : t.KeptIn (t.run steps) := by
  induction steps generalizing t with
  | nil => exact .refl t
  | cons step steps ih => exact (keptIn_perform h step).trans (ih (isGrown_perform h step).1)

end SelectionTree

end QueryPicker
