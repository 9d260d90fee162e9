import Mathlib
import QueryPicker.Proofs.NodePaths

/-!
# What is reported of a change

Setting the mark of a node reports the nodes whose marks differ from what they were before, where a
node made on the way counts as unchecked: first the node, then all below it, then those above it
from the nearest on. All other nodes are left as they are.
-/

namespace QueryPicker

namespace TreeNode

/-- The nodes passed on the way to a position, the nearest first. -/
def above : List Nat → TreeNode → List NodeInfo
  | [], _ => []
  | i :: is, n => ((n.children[i]?.map (above is)).getD []) ++ [n.info]

variable {n m : TreeNode} {position : List Nat}

theorem above_cons {i : Nat} {c : TreeNode} (hget : n.children[i]? = some c) :
    n.above (i :: position) = c.above position ++ [n.info] := by
  rw [above, hget]
  rfl

/-- The node at a position, those below it and those above it are different nodes of the tree. -/
theorem subperm_of_at? (h : n.at? position = some m) :
    (m.preorder ++ n.above position).Subperm n.preorder := by
  induction position generalizing n with
  | nil =>
    obtain rfl : n = m := by simpa [at?] using h
    rw [above, List.append_nil]
  | cons i position ih =>
    obtain ⟨info, children⟩ := n
    obtain ⟨c, hget, hrest⟩ := Option.bind_eq_some_iff.mp h
    rw [above_cons hget, ← List.append_assoc]
    have hbelow := (ih hrest).trans (preorder_sublist_of_getElem? hget).subperm
    exact (List.perm_append_singleton _ _).subperm.trans ((List.subperm_cons info).mpr hbelow)

end TreeNode

namespace TreeBounds

open TreeNode

variable {b : TreeBounds} {chain : List String} {n m : TreeNode} {info : NodeInfo}
  {old : Nat → CheckState} {position : List Nat} {s : CheckState} {next next' : Nat}
  {infos infos' : List NodeInfo}

/-- The old marks are those of the nodes. Of a number that is still free it is unchecked. -/
structure Remembers (old : Nat → CheckState) (next : Nat) (infos : List NodeInfo) : Prop where
  marks : ∀ x ∈ infos, x.state = old x.id
  free : ∀ id, next ≤ id → old id = .unchecked

theorem Remembers.of_subset (h : Remembers old next infos) (hnext : next ≤ next')
    (hsub : infos' ⊆ infos) : Remembers old next' infos' :=
  ⟨fun x hx => h.marks x (hsub hx), fun id hid => h.free id (hnext.trans hid)⟩

/-- A node that waits for its children is unchecked, and so is all that is made below it. -/
theorem marks_grow (reach : Nat → Bool) (h : Grown b chain (.mk info []))
    (hs : info.state = .unchecked) (hold : Remembers old next [info]) :
    ∀ x ∈ (b.grow reach chain next info).1.preorder, x.state = old x.id := by
  intro x hx
  have hgrows := (growsTo_grow b reach chain next info h).extends'
  obtain ⟨count, -, hperm⟩ := numbersAdded_grow b reach chain next info
  have hid : x.id ∈ info.id :: List.range' next count :=
    hperm.mem_iff.mp (List.mem_map.mpr ⟨x, hx, rfl⟩)
  rw [state_of_mem_preorder hgrows.grown (hgrows.state.trans hs) hx]
  rcases List.mem_cons.mp hid with heq | hmade
  · rw [heq, ← hold.marks info List.mem_cons_self, hs]
  · exact (hold.free x.id (List.left_le_of_mem_range' hmade)).symm

mutual

theorem marks_complete (reach : Nat → Bool) : ∀ (n : TreeNode) {chain : List String} {next : Nat},
    Grown b chain n → Remembers old next n.preorder →
      ∀ x ∈ (b.complete reach chain next n).1.preorder, x.state = old x.id
  | .mk info children, chain, next, h, hold => by
    rw [complete]
    split
    · exact hold.marks
    · split
      · have hbelow := hold.of_subset le_rfl (List.subset_cons_self info (preorders children))
        intro x hx
        rcases List.mem_cons.mp hx with rfl | hx
        · exact hold.marks x List.mem_cons_self
        · exact marks_completeAll reach children (grown_of_mem h) hbelow x hx
      · rename_i hexpanded
        obtain ⟨rfl, hs, -⟩ := waiting_of_not_expanded h (by simpa using hexpanded)
        exact marks_grow reach h hs hold

theorem marks_completeAll (reach : Nat → Bool) : ∀ (ns : List TreeNode) {chain : List String}
    {next : Nat}, (∀ n ∈ ns, Grown b chain n) → Remembers old next (preorders ns) →
      ∀ x ∈ preorders (b.completeAll reach chain next ns).1, x.state = old x.id
  | [], _, _, _, hold => hold.marks
  | n :: ns, chain, next, h, hold => by
    have hns : ∀ m ∈ ns, Grown b chain m := fun m hm => h m (List.mem_cons_of_mem n hm)
    obtain ⟨count, hafter, -⟩ := numbersAdded_completeAll reach ns next hns
    have hle : next ≤ (b.completeAll reach chain next ns).2 := hafter ▸ Nat.le_add_right next count
    have hhead := hold.of_subset hle (List.subset_append_left n.preorder (preorders ns))
    have htail := hold.of_subset le_rfl (List.subset_append_right n.preorder (preorders ns))
    intro x hx
    rw [completeAll] at hx
    rcases List.mem_append.mp hx with hx | hx
    · exact marks_complete reach n (h n List.mem_cons_self) hhead x hx
    · exact marks_completeAll reach ns hns htail x hx

end

/-- What is reported of setting the mark of the node that is then found at the position. Nodes
elsewhere are untouched. -/
structure Reports (old : Nat → CheckState) (position : List Nat) (m n n' : TreeNode)
    (changed : List NodeInfo) : Prop where
  found : n'.at? position = some m
  changed_eq : changed = (m.preorder ++ n'.above position).filter fun x => x.state ≠ old x.id
  elsewhere : ∀ x ∈ n'.preorder, x ∈ m.preorder ++ n'.above position ∨ x ∈ n.preorder

/-- Below the node all is listed that had another mark than it gets. -/
theorem reports_target (h : ∀ x ∈ m.preorder, x.state = old x.id) :
    Reports old [] (m.setAll s) n (m.setAll s)
      (((m.info :: m.descendants).filter (·.state != s)).map fun info =>
        { info with state := s }) := by
  refine ⟨rfl, ?_, fun x hx => Or.inl (List.mem_append_left _ hx)⟩
  rw [above, List.append_nil, info_cons_descendants, preorder_setAll, List.filter_map]
  congr 1
  refine List.filter_congr fun x hx => ?_
  show (x.state != s) = decide (s ≠ old x.id)
  rw [h x hx, bne_comm]
  exact (decide_not (p := s = old x.id)).symm

/-- The parent is listed after that if its derived mark is another one than before. -/
theorem reports_parent {children : List TreeNode} {c c' : TreeNode} {i : Nat}
    {changed : List NodeInfo} (hget : children[i]? = some c) (hold : info.state = old info.id)
    (h : Reports old position m c c' changed) (derived : CheckState) :
    Reports old (i :: position) m (.mk info children)
      (.mk { info with state := derived } (children.set i c'))
      (if info.state = derived then changed else changed ++ [{ info with state := derived }]) := by
  have hget' : (TreeNode.mk { info with state := derived } (children.set i c')).children[i]? =
      some c' := List.getElem?_set_self (List.getElem?_eq_some_iff.mp hget).1
  refine ⟨Option.bind_eq_some_iff.mpr ⟨c', hget', h.found⟩, ?_, fun x hx => ?_⟩
  · rw [above_cons hget', ← List.append_assoc, List.filter_append, ← h.changed_eq]
    by_cases hsame : info.state = derived
    · rw [if_pos hsame, List.filter_cons_of_neg, List.filter_nil, List.append_nil]
      simpa [TreeNode.info, ← hold] using hsame.symm
    · rw [if_neg hsame, List.filter_cons_of_pos, List.filter_nil]
      · rfl
      · simpa [TreeNode.info, ← hold] using Ne.symm hsame
  · rw [above_cons hget', ← List.append_assoc]
    rcases mem_preorder.mp hx with rfl | ⟨d, hd, hxd⟩
    · exact Or.inl (List.mem_append_right _ List.mem_cons_self)
    · rcases List.mem_or_eq_of_mem_set hd with hd | rfl
      · exact Or.inr (mem_preorder.mpr (Or.inr ⟨d, hd, hxd⟩))
      · rcases h.elsewhere x hxd with hxd | hxc
        · exact Or.inl (List.mem_append_left _ hxd)
        · exact Or.inr (mem_preorder.mpr (Or.inr ⟨c, List.mem_of_getElem? hget, hxc⟩))

theorem reports_setAt (s : CheckState) (h : Grown b chain n) (hat : n.at? position = some m)
    (hold : Remembers old next n.preorder) :
    ∃ m', Reports old position m' n (b.setAt s chain next position n).1
      (b.setAt s chain next position n).2.2 := by
  induction position generalizing chain n with
  | nil =>
    rw [setAt]
    by_cases hchecked : s = .checked
    · simp only [if_pos hchecked]
      exact ⟨_, reports_target (marks_complete (fun _ => true) n h hold)⟩
    · simp only [if_neg hchecked]
      exact ⟨_, reports_target hold.marks⟩
  | cons i position ih =>
    obtain ⟨info, children⟩ := n
    obtain ⟨c, hget, hrest⟩ := Option.bind_eq_some_iff.mp hat
    have hget : children[i]? = some c := hget
    have hc : Grown b (chainBelow chain info) c := grown_of_mem h c (List.mem_of_getElem? hget)
    have hsub : c.preorder ⊆ (TreeNode.mk info children).preorder :=
      ((preorder_sublist_of_getElem? hget).cons info).subset
    obtain ⟨m', hreports⟩ := ih hc hrest (hold.of_subset le_rfl hsub)
    rw [setAt_cons hget]
    exact ⟨m', reports_parent hget (hold.marks info List.mem_cons_self) hreports _⟩

end TreeBounds

namespace SelectionTree

open TreeBounds TreeNode

variable {t t' : SelectionTree} {id : Nat} {s : CheckState} {changed : List NodeInfo}
  {calls : List (Nat × TreeChange)}

/-- The nodes above a node, the nearest first. -/
def ancestors (t : SelectionTree) (id : Nat) : List NodeInfo :=
  match t.position? id with
  | some (i :: is) => (t.roots[i]?.map (TreeNode.above is)).getD []
  | _ => []

/-- The mark of a node, and unchecked if there is none with the number. -/
def markOf (t : SelectionTree) (id : Nat) : CheckState := (t.state? id).getD .unchecked

/-- The node, all below it, and those above it from the nearest on. -/
def touched (t : SelectionTree) (id : Nat) : List NodeInfo :=
  ((t.node? id).map (·.info)).toList ++ t.descendants id ++ t.ancestors id

theorem IsGrown.state?_of_mem (h : t.IsGrown) {x : NodeInfo} (hx : x ∈ t.nodes) :
    t.state? x.id = some x.state := by
  obtain ⟨n, hnode, rfl⟩ := h.exists_node?_of_mem hx
  rw [state?, hnode]
  rfl

theorem IsGrown.node?_eq_none (h : t.IsGrown) (hid : t.next ≤ id) : t.node? id = none := by
  cases hnode : t.node? id with
  | none => rfl
  | some n =>
    obtain ⟨rfl, position, hat⟩ := h.node?_eq_some_iff.mp hnode
    have hmem : n.id ∈ t.nodes.map (·.id) :=
      List.mem_map.mpr ⟨n.info, mem_nodes_of_nodeAt? hat, rfl⟩
    exact absurd (List.mem_range.mp (h.ids_nodes.mem_iff.mp hmem)) hid.not_gt

theorem IsGrown.remembers (h : t.IsGrown) : Remembers t.markOf t.next t.nodes := by
  constructor
  · intro x hx
    rw [markOf, h.state?_of_mem hx]
    rfl
  · intro id hid
    rw [markOf, state?, h.node?_eq_none hid]
    rfl

theorem touched_eq {i : Nat} {position : List Nat} {r m : TreeNode} (h : t.IsGrown)
    (hget : t.roots[i]? = some r) (hat : r.at? position = some m) :
    t.touched m.id = m.preorder ++ r.above position := by
  have hnodeAt : t.nodeAt? (i :: position) = some m := by
    rw [nodeAt?, hget, Option.bind_some, hat]
  have hposition := h.position?_of_nodeAt? hnodeAt
  have hnode : t.node? m.id = some m := by rw [node?, hposition, Option.bind_some, hnodeAt]
  rw [touched, descendants, ancestors, hnode, hposition, ← info_cons_descendants]
  dsimp only
  rw [hget]
  rfl

/-- Setting a mark reports what differs from before of the node, those below and those above it. -/
theorem IsGrown.changed_apply (h : t.IsGrown) (hok : t.apply id s = .ok (t', changed)) :
    ∃ target, t'.node? id = some target ∧ target.state = s ∧
      changed = (t'.touched id).filter (fun x => x.state ≠ t.markOf x.id) ∧
      (t'.touched id).Subperm t'.nodes ∧ ∀ x ∈ t'.nodes, x ∈ t'.touched id ∨ x ∈ t.nodes := by
  have h' := isGrown_apply h hok
  obtain ⟨hs, i, position, r, m, -, hget, hat, rfl, rfl, rfl⟩ := apply_spec hok
  have hr := List.mem_of_getElem? hget
  have hsub : r.preorder ⊆ t.nodes := fun x hx => mem_nodes.mpr ⟨r, hr, hx⟩
  obtain ⟨m', hreports⟩ :=
    reports_setAt s (h.grown r hr) hat (h.remembers.of_subset le_rfl hsub)
  obtain ⟨m'', hat', hid, -, hstate⟩ := at?_setAt (b := t.bounds) (s := s) [] hat t.next
  obtain rfl : m'' = m' := Option.some.inj (hat'.symm.trans hreports.found)
  have hget' := getElem?_setRoot hget (t.bounds.setAt s [] t.next position r).1
    (t.bounds.setAt s [] t.next position r).2.1
  have htouched := touched_eq h' hget' hat'
  have hnode : _ = some m'' := h'.node?_eq_some_iff.mpr
    ⟨hid, i :: position, Option.bind_eq_some_iff.mpr ⟨_, hget', hat'⟩⟩
  rw [← hid, htouched]
  refine ⟨m'', hid ▸ hnode, hstate, hreports.changed_eq, ?_, fun x hx => ?_⟩
  · refine (subperm_of_at? hat').trans ?_
    rw [nodes_eq]
    exact (preorder_sublist_of_getElem? hget').subperm
  · obtain ⟨d, hd, hx⟩ := mem_nodes.mp hx
    rcases List.mem_or_eq_of_mem_set hd with hd | rfl
    · exact Or.inr (mem_nodes.mpr ⟨d, hd, hx⟩)
    · exact (hreports.elsewhere x hx).imp_right fun hx => hsub hx

/-- No listener is called twice, and the next one gets a label of its own. -/
structure ListensApart (t : SelectionTree) : Prop where
  nodup : t.listeners.Nodup
  below : ∀ l ∈ t.listeners, l < t.nextListener

namespace ListensApart

theorem withRoots (h : t.ListensApart) (roots : List TreeNode) (next : Nat) :
    (t.withRoots roots next).ListensApart := ⟨h.nodup, h.below⟩

theorem listen (h : t.ListensApart) : t.listen.1.ListensApart := by
  constructor
  · refine List.nodup_append.mpr ⟨h.nodup, List.nodup_singleton _, fun l hl l' hl' => ?_⟩
    rw [List.mem_singleton.mp hl']
    exact (h.below l hl).ne
  · intro l hl
    rcases List.mem_append.mp hl with hl | hl
    · exact (h.below l hl).trans (Nat.lt_succ_self _)
    · rw [List.mem_singleton.mp hl]
      exact Nat.lt_succ_self _

theorem unlisten (h : t.ListensApart) (label : Nat) : (t.unlisten label).1.ListensApart :=
  ⟨h.nodup.filter _, fun l hl => h.below l (List.mem_of_mem_filter hl)⟩

theorem set (h : t.ListensApart) (id : Nat) (s : CheckState) :
    (t.perform (.set id s)).tree.ListensApart := by
  rw [tree_perform_set]
  cases hok : t.apply id s with
  | error e => exact h
  | ok made =>
    obtain ⟨made, changed⟩ := made
    obtain ⟨-, i, position, r, -, -, -, -, -, rfl, -⟩ := apply_spec hok
    exact h.withRoots _ _

theorem perform (h : t.ListensApart) (step : Step) : (t.perform step).tree.ListensApart := by
  cases step with
  | expand id =>
    rw [SelectionTree.perform]
    cases hok : t.expand id with
    | error e => exact h
    | ok made =>
      unfold SelectionTree.expand at hok
      split at hok
      · split at hok
        · cases hok
          exact h.withRoots _ _
        · cases hok
      · cases hok
  | expandPath path =>
    show (t.expandPath path).1.ListensApart
    rw [SelectionTree.expandPath]
    split
    · exact h
    · split
      · exact h
      · exact h.withRoots _ _
  | expandToDepth depth => exact h.withRoots _ _
  | set id s => exact h.set id s
  | setSilently id s =>
    rw [tree_perform_setSilently]
    exact h.set id s
  | toggle id =>
    rw [tree_perform_toggle]
    cases t.state? id with
    | none => exact h
    | some old => exact h.set id old.toggled
  | reset => exact h.withRoots _ _
  | listen => exact h.listen
  | unlisten label => exact h.unlisten label

theorem run (h : t.ListensApart) (steps : List Step) : (t.run steps).ListensApart := by
  induction steps generalizing t with
  | nil => exact h
  | cons step steps ih => exact ih (h.perform step)

end ListensApart

theorem listensApart_build (schema : Schema) (maxDepth : Nat) :
    (build schema maxDepth).ListensApart := ⟨List.nodup_nil, by simp [build]⟩

/-- A click sets the mark of the node. -/
theorem setState_of_toggle (h : t.toggle id = .ok (t', calls, s)) :
    t.setState id s = .ok (t', calls) := by
  unfold toggle at h
  split at h
  · cases h
  · rename_i old _
    cases hset : t.setState id old.toggled with
    | error e =>
      rw [hset] at h
      cases h
    | ok made =>
      rw [hset] at h
      cases h
      exact hset

theorem apply_of_setState (h : t.setState id s = .ok (t', calls)) :
    ∃ changed, t.apply id s = .ok (t', changed) ∧ calls = t'.notify id s changed := by
  unfold setState at h
  cases hok : t.apply id s with
  | error e =>
    rw [hok] at h
    cases h
  | ok made =>
    obtain ⟨made, changed⟩ := made
    rw [hok] at h
    cases h
    exact ⟨changed, rfl, rfl⟩

/-- Nodes that are not touched keep their marks, and none of them is made. -/
theorem IsGrown.state?_of_not_touched (h : t.IsGrown) (hok : t.apply id s = .ok (t', changed))
    {other : Nat} (hother : other ∉ (t'.touched id).map (·.id)) :
    t'.state? other = t.state? other := by
  have h' := isGrown_apply h hok
  obtain ⟨-, -, -, -, -, helsewhere⟩ := h.changed_apply hok
  cases hnode : t'.node? other with
  | some n =>
    obtain ⟨rfl, position, hat⟩ := h'.node?_eq_some_iff.mp hnode
    have hmem := mem_nodes_of_nodeAt? hat
    have hold : n.info ∈ t.nodes := (helsewhere _ hmem).resolve_left fun htouched =>
      hother (List.mem_map.mpr ⟨n.info, htouched, rfl⟩)
    exact (h'.state?_of_mem hmem).trans (h.state?_of_mem hold).symm
  | none =>
    cases hold : t.node? other with
    | none => rw [state?, state?, hnode, hold]
    | some n =>
      obtain ⟨rfl, position, hat⟩ := h.node?_eq_some_iff.mp hold
      obtain ⟨n', hat', hid, -⟩ := (keptIn_apply h hok).nodeAt? hat
      rw [h'.node?_eq_some_iff.mpr ⟨hid, position, hat'⟩] at hnode
      cases hnode

/-- Over every schema and after every run, a node that is set or toggled leads to one call of each
listener, unless nothing changed. The report lists the nodes with other marks than before, each once
and as it is now, in order: the node, those below it, and those above it from the nearest on. -/
theorem reports_what_changed (schema : Schema) (maxDepth : Nat) (steps : List Step) (id : Nat)
    (s : CheckState) (t' : SelectionTree) (calls : List (Nat × TreeChange)) :
    let t := (build schema maxDepth).run steps
    t.setState id s = .ok (t', calls) ∨ t.toggle id = .ok (t', calls, s) →
      ∃ target changed, t'.node? id = some target ∧ target.state = s ∧
      changed = (t'.touched id).filter (fun x => x.state ≠ t.markOf x.id) ∧
      (changed.map (·.id)).Nodup ∧
      (∀ x, x ∈ changed ↔ x ∈ t'.nodes ∧ x.state ≠ t.markOf x.id) ∧
      (∀ other, other ∉ (t'.touched id).map (·.id) → t'.state? other = t.state? other) ∧
      t.listeners.Nodup ∧
      calls = if changed.isEmpty then []
        else t.listeners.map fun l => (l, ⟨id, target.path, s, changed⟩) := by
  intro t hok
  obtain ⟨h, -⟩ := isGrown_run (isGrown_build schema maxDepth) steps
  have hlisteners : t.ListensApart := (listensApart_build schema maxDepth).run steps
  obtain ⟨changed, happly, rfl⟩ := apply_of_setState (hok.elim (·) setState_of_toggle)
  obtain ⟨target, hnode, hstate, hchanged, hsub, helsewhere⟩ := h.changed_apply happly
  refine ⟨target, changed, hnode, hstate, hchanged, ?_, fun x => ?_,
    fun other => h.state?_of_not_touched happly, hlisteners.nodup, ?_⟩
  · rw [hchanged]
    obtain ⟨l, hperm, hl⟩ := hsub
    have hids := (isGrown_apply h happly).nodup_ids.sublist (hl.map (·.id))
    have htouched := (hperm.map (·.id)).nodup_iff.mp hids
    exact htouched.sublist (List.filter_sublist.map _)
  · rw [hchanged, List.mem_filter, decide_eq_true_eq]
    refine and_congr_left fun hne => ⟨fun hx => hsub.subset hx, fun hx => ?_⟩
    exact (helsewhere x hx).resolve_right fun hold => hne (h.remembers.marks x hold)
  · rw [notify, hnode, listeners_apply happly]
    rfl

/-- Checking the user of an unexpanded tree makes its fields, which are reported as well. -/
theorem reports_what_changed_friends :
    let t := (build SelectionMap.friends defaultMaxDepth).run [.listen]
    ∃ t' calls, t.setState 1 .checked = .ok (t', calls) ∧
      calls.map (fun call => (call.1, call.2.changed.map (·.id))) = [(0, [1, 2, 3, 0])] ∧
      ∃ target changed, t'.node? 1 = some target ∧ target.state = .checked ∧
        (∀ x, x ∈ changed ↔ x ∈ t'.nodes ∧ x.state ≠ t.markOf x.id) ∧
        calls = if changed.isEmpty then []
          else t.listeners.map fun l => (l, ⟨1, target.path, .checked, changed⟩) := by
  intro t
  have hheard : (t.setState 1 .checked).toOption.map (fun made =>
      made.2.map fun call => (call.1, call.2.changed.map (·.id))) = some [(0, [1, 2, 3, 0])] := by
    subst t
    cbv
  cases hok : t.setState 1 .checked with
  | error e =>
    rw [hok] at hheard
    cases hheard
  | ok made =>
    obtain ⟨t', calls⟩ := made
    rw [hok] at hheard
    obtain ⟨target, changed, hnode, hstate, -, -, hchanged, -, -, hcalls⟩ :=
      reports_what_changed SelectionMap.friends defaultMaxDepth [.listen] 1 .checked t' calls
        (Or.inl hok)
    exact ⟨t', calls, rfl, Option.some.inj hheard, target, changed, hnode, hstate, hchanged, hcalls⟩

end SelectionTree

end QueryPicker
