import Mathlib
import QueryPicker.Proofs.Announcements
import QueryPicker.Proofs.MadeNodes
import QueryPicker.Proofs.NodePaths

/-!
# Steps that fail

A step fails for a node that is not in the tree, for a path that the tree cannot show, for a mixed
mark, for a field that is not in the schema, and for text that is no document. It then leaves the
selection, the surface and all marks alone, and calls nobody. Only the nodes along a path stay made,
with the marks that follow from those that were there.
-/

namespace QueryPicker

namespace TreeBounds

open TreeNode

variable {b : TreeBounds} {chain : List String} {n : TreeNode} {x : NodeInfo}

theorem mem_expand (h : Grown b chain n) (next : Nat)
    (hx : x ∈ (b.expand chain next n).1.preorder) :
    (∃ y ∈ n.preorder, y.id = x.id ∧ y.path = x.path) ∨ ∃ name, x.path = n.path.child name := by
  have hext := extends_expand h next
  have hexpanded := expanded_expand b chain next n
  obtain ⟨info, children⟩ := n
  cases hmade : info.expanded with
  | true =>
    rw [expand, if_pos hmade] at hx
    exact Or.inl ⟨x, hx, rfl, rfl⟩
  | false =>
    have hleaves : ∀ c ∈ (b.expand chain next (.mk info children)).1.children, c.children = [] := by
      rw [expand, if_neg (by simp [hmade])]
      intro c hc
      obtain ⟨y, -, rfl⟩ := List.mem_map.mp hc
      rfl
    have hid : (b.expand chain next (.mk info children)).1.info.id = info.id := by
      rw [expand, if_neg (by simp [hmade])]
      rfl
    generalize (b.expand chain next (.mk info children)).1 = made at hx hext hexpanded hleaves hid
    obtain ⟨info', children'⟩ := made
    have hparent : info'.path = info.path := NodeInfo.path_eq_of_blank hext.blank
    rcases mem_preorder.mp hx with rfl | ⟨c, hc, hxc⟩
    · exact Or.inl ⟨info, info_mem_preorder (.mk info children), hid.symm, hparent.symm⟩
    · right
      have hpath : c.path ∈ children'.map (·.path) := List.mem_map_of_mem hc
      rw [paths_of_shape (shape_of_expanded hext.grown hexpanded), List.map_map] at hpath
      obtain ⟨f, -, hf⟩ := List.mem_map.mp hpath
      obtain ⟨xc, childless⟩ := c
      obtain rfl : childless = [] := hleaves _ hc
      obtain rfl : x = xc := by simpa [preorder, preorders] using hxc
      exact ⟨f.name, hf.symm.trans (congrArg (FieldPath.child · f.name) hparent)⟩

/-- What stands below a node after the way along names has been made was there before, or stands
beside one of the names. -/
theorem mem_expandAlong (names : List String) (h : Grown b chain n) (next : Nat)
    (hx : x ∈ (b.expandAlong chain next names n).1.preorder) :
    (∃ y ∈ n.preorder, y.id = x.id ∧ y.path = x.path) ∨
      ∃ more, MadeAlong names more ∧ x.path = n.path ++ more := by
  induction names generalizing chain n next x with
  | nil => exact Or.inl ⟨x, hx, rfl, rfl⟩
  | cons name names ih =>
    have hfirst : ∀ y ∈ (b.expand chain next n).1.preorder,
        (∃ z ∈ n.preorder, z.id = y.id ∧ z.path = y.path) ∨
          ∃ more, MadeAlong (name :: names) more ∧ y.path = n.path ++ more := by
      intro y hy
      rcases mem_expand h next hy with hold | ⟨other, hpath⟩
      · exact Or.inl hold
      · exact Or.inr ⟨[other], .beside, hpath⟩
    have hext := extends_expand h next
    have hexpanded := expanded_expand b chain next n
    rw [expandAlong] at hx
    generalize b.expand chain next n = made at hx hfirst hext hexpanded
    obtain ⟨⟨info, children⟩, after⟩ := made
    dsimp only at hx hfirst hext hexpanded
    rcases childIndex?_cases (shape_of_expanded hext.grown hexpanded) name with
      ⟨hindex, -⟩ | ⟨i, c, f, hindex, hget, hleaf, hcf, -⟩
    · rw [hindex] at hx
      exact hfirst x hx
    · have hget' : (TreeNode.mk info children).children[i]? = some c := hget
      have hmem := List.mem_of_getElem? hget
      rw [hindex] at hx
      dsimp only at hx
      rw [hget'] at hx
      rcases mem_preorder.mp hx with rfl | ⟨d, hd, hxd⟩
      · exact hfirst _ (mem_preorder.mpr (Or.inl rfl))
      · rcases List.mem_or_eq_of_mem_set hd with hd | rfl
        · exact hfirst x (mem_preorder.mpr (Or.inr ⟨d, hd, hxd⟩))
        · rcases ih (grown_of_mem hext.grown c hmem) after hxd with
            ⟨y, hy, hid, hpath⟩ | ⟨more, hmore, hpath⟩
          · rw [← hid, ← hpath]
            exact hfirst y (mem_preorder.mpr (Or.inr ⟨c, hmem, hy⟩))
          · have hparent : info.path = n.path := NodeInfo.path_eq_of_blank hext.blank
            have hname : f.name = name := by simpa [hleaf] using leafName?_child hcf name
            have hchild : c.path = info.path.child f.name := NodeInfo.path_eq_of_blank hcf
            refine Or.inr ⟨name :: more, .further hmore, ?_⟩
            rw [hpath, hchild, hname, hparent, FieldPath.child, List.append_assoc]
            rfl

end TreeBounds

theorem MadeAlong.append {names rest : List String} (h : MadeAlong names rest)
    (above : List String) : MadeAlong (above ++ names) (above ++ rest) := by
  induction above with
  | nil => exact h
  | cons name above ih => exact .further ih

namespace SelectionTree

open TreeBounds

variable {t t' : SelectionTree}

/-- All nodes have stayed, with their marks. The others stand on the way to the path, or beside it,
and the marks of all parents follow from those of their children. -/
structure GrownAlong (path : FieldPath) (t t' : SelectionTree) : Prop where
  kept : ∀ id n, t.node? id = some n →
    ∃ n', t'.node? id = some n' ∧ n'.path = n.path ∧ n'.state = n.state
  made : ∀ id n', t'.node? id = some n' → (∃ n, t.node? id = some n) ∨ MadeAlong path n'.path
  derived : ∀ id n', t'.node? id = some n' → n'.children ≠ [] →
    n'.state = .ofChildren (n'.children.map (·.state))

theorem IsGrown.derived (h : t.IsGrown) (id : Nat) (n : TreeNode) (hnode : t.node? id = some n)
    (hchildren : n.children ≠ []) : n.state = .ofChildren (n.children.map (·.state)) := by
  obtain ⟨-, position, hat⟩ := h.node?_eq_some_iff.mp hnode
  exact (shows_checkedLeaves h).derived position n hat hchildren

theorem grownAlong_refl (h : t.IsGrown) (path : FieldPath) : t.GrownAlong path t :=
  ⟨fun _ n hnode => ⟨n, hnode, rfl, rfl⟩, fun _ n hnode => Or.inl ⟨n, hnode⟩, h.derived⟩

theorem mem_nodes_expandPath (h : t.IsGrown) (path : FieldPath) {x : NodeInfo}
    (hx : x ∈ (t.expandPath path).1.nodes) :
    (∃ y ∈ t.nodes, y.id = x.id) ∨ MadeAlong path x.path := by
  rw [expandPath] at hx
  rcases h.rootIndex?_cases path with ⟨hidx, -⟩ | ⟨i, r, hidx, hget, hpath, -⟩
  · rw [hidx] at hx
    exact Or.inl ⟨x, hx, rfl⟩
  · rw [hidx] at hx
    dsimp only at hx
    rw [hget] at hx
    have hr := List.mem_of_getElem? hget
    obtain ⟨d, hd, hxd⟩ := mem_nodes.mp hx
    rcases List.mem_or_eq_of_mem_set hd with hd | rfl
    · exact Or.inl ⟨x, mem_nodes.mpr ⟨d, hd, hxd⟩, rfl⟩
    · rcases mem_expandAlong path.fieldSegments (h.grown r hr) t.next hxd with
        ⟨y, hy, hid, -⟩ | ⟨more, hmore, hxpath⟩
      · exact Or.inl ⟨y, mem_nodes.mpr ⟨r, hr, hy⟩, hid⟩
      · right
        rw [hpath, hxpath]
        exact hmore.append r.path

theorem grownAlong_expandPath (h : t.IsGrown) (path : FieldPath) :
    t.GrownAlong path (t.expandPath path).1 := by
  have hext := extends_expandPath h path
  have hleaves := checkedLeaves_eq_of_told h hext.grown hext.bounds (told_expandPath h path)
  refine ⟨fun id n hnode => ?_, fun id n' hnode' => ?_, hext.grown.derived⟩
  · obtain ⟨hid, position, hat⟩ := h.node?_eq_some_iff.mp hnode
    obtain ⟨n', hat', hid', hblank⟩ := (keptIn_expandPath h path).nodeAt? hat
    exact ⟨n', hext.grown.node?_eq_some_iff.mpr ⟨hid'.trans hid, position, hat'⟩,
      NodeInfo.path_eq_of_blank hblank,
      state_eq_of_checkedLeaves h hext.grown hext.bounds hleaves hat hat'⟩
  · obtain ⟨rfl, position, hat'⟩ := hext.grown.node?_eq_some_iff.mp hnode'
    rcases mem_nodes_expandPath h path (mem_nodes_of_nodeAt? hat') with ⟨y, hy, hid⟩ | hmade
    · obtain ⟨position', n, hat, rfl⟩ := exists_nodeAt?_of_mem hy
      exact Or.inl ⟨n, h.node?_eq_some_iff.mpr ⟨hid, position', hat⟩⟩
    · exact Or.inr hmade

theorem node?_cases (t : SelectionTree) (id : Nat) :
    (t.position? id = none ∧ t.node? id = none) ∨
      ∃ i rest r m, t.position? id = some (i :: rest) ∧ t.roots[i]? = some r ∧
        r.at? rest = some m ∧ t.node? id = some m := by
  cases hposition : t.position? id with
  | none => exact Or.inl ⟨rfl, by rw [node?, hposition, Option.bind_none]⟩
  | some position =>
    obtain ⟨i, rest, rfl, -⟩ := (TreeNode.positionAmong?_spec id t.roots 0).2 position hposition
    obtain ⟨r, m, hget, hat, -⟩ := nodeAt?_of_position? hposition
    refine Or.inr ⟨0 + i, rest, r, m, rfl, hget, hat, ?_⟩
    rw [node?, hposition, Option.bind_some, nodeAt?, hget, Option.bind_some, hat]

theorem apply_fails_iff (t : SelectionTree) (id : Nat) (s : CheckState) :
    (∃ e, t.apply id s = .error e) ↔ t.node? id = none ∨ s = .mixed := by
  rcases t.node?_cases id with ⟨hposition, hnone⟩ | ⟨i, rest, r, m, hposition, hget, hat, hsome⟩
  · rw [apply, hposition, hnone]
    simp
  · rw [apply, hposition, hsome]
    by_cases hs : s = .mixed <;> simp [nodeAt?, hget, hat, hs]

theorem expand_fails_iff (t : SelectionTree) (id : Nat) :
    (∃ e, t.expand id = .error e) ↔ t.node? id = none := by
  rcases t.node?_cases id with ⟨hposition, hnone⟩ | ⟨i, rest, r, m, hposition, hget, -, hsome⟩
  · rw [expand, hposition, hnone]
    simp
  · rw [expand, hposition, hsome]
    simp [hget]

theorem toggle_fails_iff (t : SelectionTree) (id : Nat) :
    (∃ e, t.toggle id = .error e) ↔ t.node? id = none := by
  rw [toggle, state?]
  cases hnode : t.node? id with
  | none => simp
  | some n =>
    have hstate : n.state.toggled ≠ .mixed := by cases n.state <;> decide
    have hfails := not_congr (apply_fails_iff t id n.state.toggled)
    rw [Option.map_some]
    dsimp only
    rw [setState]
    cases happly : t.apply id n.state.toggled with
    | ok made => simp [bind, Except.bind, pure, Except.pure]
    | error e => simp [happly, hnode, hstate] at hfails

end SelectionTree

namespace Picker

open SelectionTree

variable {p : Picker} {step : Step}

/-- The steps that are refused. Text that is set and read at once is refused by its reading. -/
def Refuses (p : Picker) : Step → Prop
  | .toggle id => p.tree.node? id = none
  | .set id s => p.tree.node? id = none ∨ s = .mixed
  | .setPath path s => ¬ p.tree.bounds.ShowsPath path ∨ s = .mixed
  | .expand id => p.tree.node? id = none
  | .readText => ∃ e, QueryText.paths p.schema p.surface.text = .error e
  | .edit text => ∃ e, QueryText.paths p.schema (p.surface.setText text).1.text = .error e
  | .select path _ => p.schema.resolve? path = none
  | .expandPath _ | .expandToDepth _ | .setText _ | .setTextSilently _ | .replaceSchema _
  | .session _ => False

/-- What has been done of a step before it is refused. -/
def tried (p : Picker) : Step → Picker
  | .setPath path _ => { p with tree := (p.tree.expandPath path).1 }
  | _ => p

theorem refused_or_done {ε α : Type} {x : Except ε α} {refused : Prop}
    (h : (∃ e, x = .error e) ↔ refused) :
    (refused ∧ ∃ e, x = .error e) ∨ (¬ refused ∧ ∃ a, x = .ok a) := by
  rw [← h]
  cases x with
  | error e => exact Or.inl ⟨⟨e, rfl⟩, e, rfl⟩
  | ok a => exact Or.inr ⟨by simp, a, rfl⟩

theorem perform_setPath_cases (h : p.IsReady) (path : FieldPath) (s : CheckState) :
    (p.Refuses (.setPath path s) ∧
        ∃ e, p.perform (.setPath path s) = ⟨p.tried (.setPath path s), .failed e, []⟩) ∨
      (¬ p.Refuses (.setPath path s) ∧
        ∀ e, (p.perform (.setPath path s)).answer ≠ .failed e) := by
  have hshows := isSome_expandPath_iff (p := path) h.grown
  have hgrown := (extends_expandPath h.grown path).grown
  have hfound := nodeAt?_of_expandPath (p := path) h.grown
  rw [Refuses, ← hshows, tried, perform, setPathState]
  generalize p.tree.expandPath path = made at hgrown hfound
  obtain ⟨t, found⟩ := made
  cases found with
  | none => exact Or.inl ⟨Or.inl Bool.false_ne_true, .tree (.unknownPath path), rfl⟩
  | some id =>
    obtain ⟨position, n, hat, -, hid⟩ := hfound id rfl
    have hnode : t.node? id = some n := hgrown.node?_eq_some_iff.mpr ⟨hid, position, hat⟩
    have hfails := apply_fails_iff t id s
    rw [hnode] at hfails
    dsimp only
    rcases refused_or_done hfails with ⟨hrefused, e, he⟩ | ⟨hnot, made, hok⟩
    · rw [setState, SelectionTree.setState, he]
      exact Or.inl ⟨Or.inr (hrefused.resolve_left (Option.some_ne_none n)), .tree e, rfl⟩
    · rw [setState, SelectionTree.setState, hok]
      refine Or.inr ⟨?_, by rintro e ⟨⟩⟩
      rintro (hnone | hs)
      · exact hnone rfl
      · exact hnot (Or.inr hs)

theorem perform_readText_cases (h : p.IsReady) :
    (p.Refuses .readText ∧ ∃ e, p.readText = (p, .error e)) ∨
      (¬ p.Refuses .readText ∧ p.readText.2 = .ok ()) := by
  cases hpaths : QueryText.paths p.schema p.surface.text with
  | error e =>
    refine Or.inl ⟨⟨e, hpaths⟩, e, ?_⟩
    rw [readText, not_isHeld_of_free h.free.1, if_neg Bool.false_ne_true, hpaths]
  | ok paths =>
    refine Or.inr ⟨?_, (readText_spec h hpaths).1⟩
    rintro ⟨e, he⟩
    cases hpaths.symm.trans he

theorem perform_cases (h : p.IsReady) (hstep : ∀ text, step ≠ .edit text) :
    (p.Refuses step ∧ ∃ e, p.perform step = ⟨p.tried step, .failed e, []⟩) ∨
      (¬ p.Refuses step ∧ ∀ e, (p.perform step).answer ≠ .failed e) := by
  cases step with
  | toggle id =>
    rcases refused_or_done (toggle_fails_iff p.tree id) with
      ⟨hrefused, e, he⟩ | ⟨hnot, made, hok⟩
    · exact Or.inl ⟨hrefused, .tree e, by rw [perform, toggle, he]; rfl⟩
    · exact Or.inr ⟨hnot, by rw [perform, toggle, hok]; rintro e ⟨⟩⟩
  | set id s =>
    rcases refused_or_done (apply_fails_iff p.tree id s) with
      ⟨hrefused, e, he⟩ | ⟨hnot, made, hok⟩
    · exact Or.inl ⟨hrefused, .tree e, by rw [perform, setState, SelectionTree.setState, he]; rfl⟩
    · exact Or.inr ⟨hnot, by rw [perform, setState_of_apply hok]; rintro e ⟨⟩⟩
  | setPath path s => exact perform_setPath_cases h path s
  | expand id =>
    rcases refused_or_done (expand_fails_iff p.tree id) with
      ⟨hrefused, e, he⟩ | ⟨hnot, made, hok⟩
    · exact Or.inl ⟨hrefused, .tree e, by rw [perform, expand, he]; rfl⟩
    · exact Or.inr ⟨hnot, by rw [perform, expand, hok]; rintro e ⟨⟩⟩
  | readText =>
    rcases perform_readText_cases h with ⟨hrefused, e, he⟩ | ⟨hnot, hok⟩
    · exact Or.inl ⟨hrefused, .text e, by rw [perform, he]; rfl⟩
    · refine Or.inr ⟨hnot, fun e he => ?_⟩
      have hanswer : readAnswer p.readText.2 = .failed e := he
      rw [hok] at hanswer
      cases hanswer
  | select path args? =>
    rw [Refuses, perform, select?]
    cases hf : p.schema.resolve? path with
    | none => exact Or.inl ⟨rfl, .noSuchField, rfl⟩
    | some f => exact Or.inr ⟨Option.some_ne_none f, by rintro e ⟨⟩⟩
  | edit text => exact absurd rfl (hstep text)
  | expandPath | expandToDepth | setText | setTextSilently | replaceSchema | session =>
    exact Or.inr ⟨id, by rintro e ⟨⟩⟩

theorem readText_fails_iff (h : p.IsReady) :
    (∃ e, readAnswer p.readText.2 = .failed e) ↔ p.Refuses .readText := by
  rcases perform_readText_cases h with ⟨hrefused, e, he⟩ | ⟨hnot, hok⟩
  · rw [he]
    exact iff_of_true ⟨.text e, rfl⟩ hrefused
  · rw [hok]
    exact iff_of_false (by rintro ⟨e, ⟨⟩⟩) hnot

theorem perform_fails_iff (h : p.IsReady) (step : Step) :
    (∃ e, (p.perform step).answer = .failed e) ↔ p.Refuses step := by
  by_cases hedit : ∃ text, step = .edit text
  · obtain ⟨text, rfl⟩ := hedit
    exact readText_fails_iff (isReady_withSurface h (p.surface.setText text).1)
  · rcases perform_cases h (not_exists.mp hedit) with ⟨hrefused, e, he⟩ | ⟨hnot, hdone⟩
    · exact iff_of_true ⟨e, by rw [he]⟩ hrefused
    · exact iff_of_false (not_exists.mpr hdone) hnot

/-- A step that fails leaves the session with all that is kept beside it, and every mark. -/
theorem perform_of_failed (h : p.IsReady) (hstep : ∀ text, step ≠ .edit text) {e : Error}
    (hfailed : (p.perform step).answer = .failed e) :
    (p.perform step).picker.session = p.session ∧ (p.perform step).heard = [] ∧
      ∃ path, p.tree.GrownAlong path (p.perform step).picker.tree ∧
        ((p.perform step).picker.tree = p.tree ∨ ∃ s, step = .setPath path s) := by
  rcases perform_cases h hstep with ⟨-, e', he⟩ | ⟨-, hdone⟩
  · rw [he]
    cases step with
    | setPath path s =>
      exact ⟨rfl, rfl, path, grownAlong_expandPath h.grown path, Or.inr ⟨s, rfl⟩⟩
    | _ => exact ⟨rfl, rfl, [], grownAlong_refl h.grown [], Or.inl rfl⟩
  · exact absurd hfailed (hdone e)

/-- Whatever has happened to a picker, the steps that fail are those that are refused. They leave
the selection and its version, the surface and the marks of all nodes as they are, nobody is called,
and nothing is being written afterwards. At most the nodes on the way to a path are made. Setting a
text and reading it at once are two steps here, as the text stays even if it cannot be read. -/
theorem failed_step_changes_nothing (schema : Schema) (maxDepth : Nat) (surface : TextSurface)
    (steps : List Step) (step : Step) :
    let p := (start schema maxDepth surface).run steps
    let o := p.perform step
    ((∃ e, o.answer = .failed e) ↔ p.Refuses step) ∧
      ∀ e, o.answer = .failed e → (∀ text, step ≠ .edit text) →
        o.picker.session = p.session ∧ o.heard = [] ∧ o.picker.display.isBusy = false ∧
          ∃ path, p.tree.GrownAlong path o.picker.tree ∧
            (o.picker.tree = p.tree ∨ ∃ s, step = .setPath path s) := by
  intro p o
  have h : p.IsReady := isReady_run (isReady_start schema maxDepth surface) steps
  refine ⟨perform_fails_iff h step, fun e hfailed hstep => ?_⟩
  obtain ⟨hsession, hheard, hgrown⟩ := perform_of_failed h hstep hfailed
  obtain ⟨hclicks, htext⟩ := (isReady_perform h step).free
  refine ⟨hsession, hheard, ?_, hgrown⟩
  rw [Display.isBusy, not_isHeld_of_free hclicks, not_isHeld_of_free htext]
  rfl

/-- A mixed mark is refused, but the nodes on the way to its path have been made by then. -/
theorem failed_step_changes_nothing_friends :
    let p := start SelectionMap.friends SelectionTree.defaultMaxDepth (.showing "")
    let o := p.perform (.setPath ["Query", "user", "name"] .mixed)
    p.tree.next = 2 ∧ o.picker.tree.next = 4 ∧ (∃ e, o.answer = .failed e) ∧
      o.picker.session = p.session ∧ o.heard = [] := by
  intro p o
  obtain ⟨hfails, hstays⟩ := failed_step_changes_nothing SelectionMap.friends
    SelectionTree.defaultMaxDepth (.showing "") [] (.setPath ["Query", "user", "name"] .mixed)
  obtain ⟨e, hfailed⟩ := hfails.mpr (Or.inr rfl)
  obtain ⟨hsession, hheard, -⟩ := hstays e hfailed (by simp)
  exact ⟨rfl, rfl, ⟨e, hfailed⟩, hsession, hheard⟩

end Picker

end QueryPicker
