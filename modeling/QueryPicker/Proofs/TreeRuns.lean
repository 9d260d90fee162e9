import Mathlib
import QueryPicker.Proofs.PrunedTrees
import QueryPicker.Proofs.TreeChanges
import QueryPicker.Tree.Run

/-!
# Runs of a tree

Every step leaves a tree that has grown as one that has grown, with the same bounds. The steps that
make nodes leave what the marks of the tree tell as it is; a step that sets a mark replaces one
root. The fields of a type may share a name.
-/

namespace QueryPicker.SelectionTree

open TreeBounds

variable {t t' : SelectionTree} {s : CheckState} {id : Nat} {changed : List NodeInfo}

/-- All that the marks of a tree tell. -/
def told (t : SelectionTree) : List TreeNode := t.roots.map TreeNode.pruned

theorem told_setRoot {i : Nat} {r r' : TreeNode} (hget : t.roots[i]? = some r)
    (hr : r'.pruned = r.pruned) (next : Nat) : (t.setRoot i r' next).told = t.told := by
  show (t.roots.set i r').map TreeNode.pruned = t.roots.map TreeNode.pruned
  rw [List.map_set, hr]
  apply set_of_getElem?
  rw [List.getElem?_map, hget]
  rfl

theorem told_expand (h : t.IsGrown) {children : List TreeNode}
    (hok : t.expand id = .ok (t', children)) : t'.told = t.told := by
  unfold expand at hok
  split at hok
  · rename_i i position _
    split at hok
    · rename_i r hget
      cases hok
      have hr := h.grown r (List.mem_of_getElem? hget)
      exact told_setRoot hget (pruned_expandAt position hr t.next) _
    · cases hok
  · cases hok

theorem told_expandPath (h : t.IsGrown) (p : FieldPath) : (t.expandPath p).1.told = t.told := by
  rw [expandPath]
  split
  · rfl
  · split
    · rfl
    · rename_i r hget
      have hr := h.grown r (List.mem_of_getElem? hget)
      exact told_setRoot hget (pruned_expandAlong p.fieldSegments hr t.next) _

theorem told_expandToDepth (h : t.IsGrown) (depth : Nat) : (t.expandToDepth depth).told = t.told :=
  pruned_completeAll _ t.roots t.next h.grown

/-- Setting a mark replaces the root above the node, and fails for unknown nodes and mixed marks. -/
theorem apply_spec (hok : t.apply id s = .ok (t', changed)) :
    s ≠ .mixed ∧ ∃ i position r m, t.position? id = some (i :: position) ∧
      t.roots[i]? = some r ∧ r.at? position = some m ∧ m.id = id ∧
      t' = t.setRoot i (t.bounds.setAt s [] t.next position r).1
        (t.bounds.setAt s [] t.next position r).2.1 ∧
      changed = (t.bounds.setAt s [] t.next position r).2.2 := by
  obtain ⟨hs, i, position, r, m, hposition, hget, hat, hid⟩ := apply_cases hok
  rw [apply_of_position? hposition hget hat hs] at hok
  cases hok
  exact ⟨hs, i, position, r, m, hposition, hget, hat, hid, rfl, rfl⟩

theorem isGrown_setAt (h : t.IsGrown) (hs : s ≠ .mixed) {i : Nat} {r : TreeNode}
    (hget : t.roots[i]? = some r) (position : List Nat) :
    (t.setRoot i (t.bounds.setAt s [] t.next position r).1
      (t.bounds.setAt s [] t.next position r).2.1).IsGrown := by
  have hr := h.grown r (List.mem_of_getElem? hget)
  obtain ⟨hgrown, hblank⟩ := grown_setAt hs position hr t.next
  exact isGrown_setRoot h hget hgrown hblank (numbersAdded_setAt s position hr t.next)

theorem isGrown_apply (h : t.IsGrown) (hok : t.apply id s = .ok (t', changed)) : t'.IsGrown := by
  obtain ⟨hs, i, position, r, -, -, hget, -, -, rfl, -⟩ := apply_spec hok
  exact isGrown_setAt h hs hget position

theorem bounds_apply (hok : t.apply id s = .ok (t', changed)) : t'.bounds = t.bounds := by
  obtain ⟨-, i, position, r, -, -, -, -, -, rfl, -⟩ := apply_spec hok
  rfl

theorem listeners_apply (hok : t.apply id s = .ok (t', changed)) :
    t'.listeners = t.listeners := by
  obtain ⟨-, i, position, r, -, -, -, -, -, rfl, -⟩ := apply_spec hok
  rfl

theorem notify_apply {position : List Nat} {m : TreeNode} (h : t.IsGrown)
    (hat : t.nodeAt? position = some m) (hok : t.apply m.id s = .ok (t', changed)) :
    t'.notify m.id s changed = if changed.isEmpty then []
      else t.listeners.map fun l => (l, ⟨m.id, m.path, s, changed⟩) := by
  obtain ⟨hs, i, rest, r, m', hposition, hget, hrest, -, rfl, -⟩ := apply_spec hok
  obtain rfl : position = i :: rest := by simpa [h.position?_of_nodeAt? hat] using hposition
  obtain rfl : m = m' := by
    rw [nodeAt?, hget, Option.bind_some, hrest] at hat
    exact (Option.some.inj hat).symm
  exact notify_setAt hget hrest (isGrown_setAt h hs hget rest) changed

theorem tree_perform_set (t : SelectionTree) (id : Nat) (s : CheckState) :
    (t.perform (.set id s)).tree =
      match t.apply id s with
      | .ok (t', _) => t'
      | .error _ => t := by
  rw [perform, setState]
  cases t.apply id s <;> rfl

theorem tree_perform_setSilently (t : SelectionTree) (id : Nat) (s : CheckState) :
    (t.perform (.setSilently id s)).tree = (t.perform (.set id s)).tree := by
  rw [tree_perform_set, perform, setStateSilently]
  cases t.apply id s <;> rfl

theorem tree_perform_toggle (t : SelectionTree) (id : Nat) :
    (t.perform (.toggle id)).tree =
      match t.state? id with
      | some old => (t.perform (.set id old.toggled)).tree
      | none => t := by
  rw [perform, toggle]
  cases t.state? id with
  | none => rfl
  | some old =>
    dsimp only
    rw [tree_perform_set, setState]
    cases t.apply id old.toggled <;> rfl

theorem isGrown_set (h : t.IsGrown) (id : Nat) (s : CheckState) :
    (t.perform (.set id s)).tree.IsGrown ∧ (t.perform (.set id s)).tree.bounds = t.bounds := by
  rw [tree_perform_set]
  cases happly : t.apply id s with
  | error e => exact ⟨h, rfl⟩
  | ok made => exact ⟨isGrown_apply h happly, bounds_apply happly⟩

/-- Whatever a step does, the tree has grown and its bounds are the same. -/
theorem isGrown_perform (h : t.IsGrown) (step : Step) :
    (t.perform step).tree.IsGrown ∧ (t.perform step).tree.bounds = t.bounds := by
  cases step with
  | expand id =>
    rw [perform]
    cases hok : t.expand id with
    | error e => exact ⟨h, rfl⟩
    | ok made =>
      have hext := extends_expand h hok
      exact ⟨hext.grown, hext.bounds⟩
  | expandPath path =>
    have hext := extends_expandPath h path
    exact ⟨hext.grown, hext.bounds⟩
  | expandToDepth depth =>
    have hext := extends_expandToDepth h depth
    exact ⟨hext.grown, hext.bounds⟩
  | set id s => exact isGrown_set h id s
  | setSilently id s =>
    rw [tree_perform_setSilently]
    exact isGrown_set h id s
  | toggle id =>
    rw [tree_perform_toggle]
    cases t.state? id with
    | none => exact ⟨h, rfl⟩
    | some old => exact isGrown_set h id old.toggled
  | reset => exact ⟨isGrown_resetSilently h, rfl⟩
  | listen => exact ⟨⟨h.roots, h.grown, h.numbers⟩, rfl⟩
  | unlisten label => exact ⟨⟨h.roots, h.grown, h.numbers⟩, rfl⟩

/-- A tree stays one that has grown over a whole run. -/
theorem isGrown_run (h : t.IsGrown) (steps : List Step) :
    (t.run steps).IsGrown ∧ (t.run steps).bounds = t.bounds := by
  induction steps generalizing t with
  | nil => exact ⟨h, rfl⟩
  | cons step steps ih =>
    obtain ⟨hgrown, hbounds⟩ := isGrown_perform h step
    obtain ⟨hrun, hrest⟩ := ih hgrown
    exact ⟨hrun, hrest.trans hbounds⟩

end QueryPicker.SelectionTree
