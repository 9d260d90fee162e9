import Mathlib
import QueryPicker.Picker.Basic
import QueryPicker.Proofs.ShownPaths

/-!
# Changes of a tree

What building, growing, resetting and clicking do to the marks at the paths of a tree. Growing does
nothing to them; a click gives its mark to all that is shown below, and lists exactly the nodes with
another mark than before.
-/

namespace QueryPicker.SelectionTree

open TreeBounds

variable {t t' t'' : SelectionTree} {p q : FieldPath}

/-- The second tree is the first with more nodes. -/
structure Extends (t t' : SelectionTree) : Prop where
  bounds : t'.bounds = t.bounds
  listeners : t'.listeners = t.listeners
  grown : t'.IsGrown
  marks : ∀ p, t'.markAt p = t.markAt p

theorem Extends.refl (h : t.IsGrown) : t.Extends t := ⟨rfl, rfl, h, fun _ => rfl⟩

theorem Extends.trans (h : t.Extends t') (h' : t'.Extends t'') : t.Extends t'' :=
  ⟨h'.bounds.trans h.bounds, h'.listeners.trans h.listeners, h'.grown,
    fun p => (h'.marks p).trans (h.marks p)⟩

/-- A tree of which every root has grown. -/
theorem extends_withRoots (h : t.IsGrown) {roots : List TreeNode} {next : Nat}
    (hall : List.Forall₂ (TreeBounds.Extends t.bounds []) t.roots roots)
    (hnumbers : NumbersAdded t.next next (TreeNode.idsOf t.roots) (TreeNode.idsOf roots)) :
    t.Extends (t.withRoots roots next) := by
  have hblank := hall.imp fun _ _ hr => hr.blank
  have hgrown : ∀ r ∈ roots, Grown t.bounds [] r := by
    intro r hr
    obtain ⟨r₀, -, hext⟩ := mem_right_of_forall₂ hall r hr
    exact hext.grown
  refine ⟨rfl, rfl, h.withRoots hblank hgrown hnumbers, fun p => ?_⟩
  have hindex := rootIndex?_withRoots hblank next p
  rcases h.rootIndex?_cases p with ⟨hidx, -⟩ | ⟨i, r, hidx, hget, -⟩
  · rw [markAt_of_rootIndex?_eq_none hidx, markAt_of_rootIndex?_eq_none (hindex.trans hidx)]
  · obtain ⟨r', hget', hext⟩ := getElem?_of_forall₂ hall hget
    rw [markAt_of_rootIndex? hidx hget, markAt_of_rootIndex? (hindex.trans hidx) hget', hext.marks]

/-- The tree with another node for one of its roots. -/
def setRoot (t : SelectionTree) (i : Nat) (r : TreeNode) (next : Nat) : SelectionTree :=
  t.withRoots (t.roots.set i r) next

theorem getElem?_setRoot {i : Nat} {r : TreeNode} (hget : t.roots[i]? = some r) (r' : TreeNode)
    (next : Nat) : (t.setRoot i r' next).roots[i]? = some r' :=
  List.getElem?_set_self (List.getElem?_eq_some_iff.mp hget).1

theorem blank_setRoot {i : Nat} {r r' : TreeNode} (hget : t.roots[i]? = some r)
    (hblank : r'.info.blank = r.info.blank) :
    List.Forall₂ (fun d d' : TreeNode => d'.info.blank = d.info.blank) t.roots
      (t.roots.set i r') :=
  forall₂_set (S := fun d d' : TreeNode => d'.info.blank = d.info.blank) (fun _ _ => rfl) hget
    hblank

/-- A tree of which one root has grown. -/
theorem extends_setRoot (h : t.IsGrown) {i next : Nat} {r r' : TreeNode}
    (hget : t.roots[i]? = some r) (hr : TreeBounds.Extends t.bounds [] r r')
    (hnumbers : NumbersAdded t.next next r.ids r'.ids) :
    t.Extends (t.setRoot i r' next) :=
  extends_withRoots h
    (forall₂_set (fun d hd => TreeBounds.Extends.refl (h.grown d hd)) hget hr)
    (TreeNode.numbersAdded_set hget hnumbers)

theorem extends_expand (h : t.IsGrown) {id : Nat} {children : List TreeNode}
    (hok : t.expand id = .ok (t', children)) : t.Extends t' := by
  unfold expand at hok
  split at hok
  · rename_i i position _
    split at hok
    · rename_i r hget
      cases hok
      have hr := h.grown r (List.mem_of_getElem? hget)
      exact extends_setRoot h hget (extends_expandAt position hr t.next)
        (numbersAdded_expandAt hr t.next)
    · cases hok
  · cases hok

theorem extends_expandPath (h : t.IsGrown) (p : FieldPath) : t.Extends (t.expandPath p).1 := by
  rw [expandPath]
  split
  · exact Extends.refl h
  · rename_i i _
    split
    · exact Extends.refl h
    · rename_i r hget
      have hr := h.grown r (List.mem_of_getElem? hget)
      exact extends_setRoot h hget (extends_expandAlong p.fieldSegments hr t.next)
        (numbersAdded_expandAlong hr t.next)

theorem extends_expandToDepth (h : t.IsGrown) (depth : Nat) :
    t.Extends (t.expandToDepth depth) := by
  have hall := growsTo_completeAll (fun length => decide (length < depth)) t.roots t.next h.grown
  exact extends_withRoots h (hall.imp fun _ _ hr => hr.extends')
    (numbersAdded_completeAll (fun length => decide (length < depth)) t.roots t.next h.grown)

/-- The number of a node is found for exactly the paths that are shown. -/
theorem isSome_expandPath_iff (h : t.IsGrown) :
    (t.expandPath p).2.isSome = true ↔ t.bounds.ShowsPath p := by
  rcases h.rootIndex?_cases p with ⟨hidx, hnot⟩ | ⟨i, r, hidx, hget, -, hshows⟩
  · rw [expandPath, hidx]
    simpa using hnot
  · rw [expandPath, hidx, hshows]
    dsimp only
    rw [hget]
    exact (found_expandAlong _ (h.grown r (List.mem_of_getElem? hget)) t.next).1

theorem IsGrown.position?_of_at? (h : t.IsGrown) {i : Nat} {r m : TreeNode} {position : List Nat}
    (hget : t.roots[i]? = some r) (hat : r.at? position = some m) :
    t.position? m.id = some (i :: position) := by
  have hnodup : (TreeNode.idsOf t.roots).Nodup := h.numbers.nodup_iff.mpr List.nodup_range
  have hr : r.ids.Nodup := by
    rw [TreeNode.idsOf_eq] at hnodup
    exact (List.nodup_flatMap.mp hnodup).1 r (List.mem_of_getElem? hget)
  have hposition := TreeNode.positionAmong?_of_getElem? hnodup hget
    (TreeNode.position?_of_at? hr hat) 0
  rwa [Nat.zero_add] at hposition

/-- The number that is found for a path is that of the node at the path. -/
theorem nodeAt?_of_expandPath (h : t.IsGrown) (id : Nat) (hid : (t.expandPath p).2 = some id) :
    ∃ position m, (t.expandPath p).1.nodeAt? position = some m ∧ m.path = p ∧ m.id = id := by
  rcases h.rootIndex?_cases p with ⟨hidx, -⟩ | ⟨i, r, hidx, hget, hp, -⟩
  · rw [expandPath, hidx] at hid
    cases hid
  · have hr := h.grown r (List.mem_of_getElem? hget)
    have hext := extends_expandAlong p.fieldSegments hr t.next
    have hfound := (found_expandAlong p.fieldSegments hr t.next).2
    have heq : t.expandPath p = (t.setRoot i (t.bounds.expandAlong [] t.next p.fieldSegments r).1
        (t.bounds.expandAlong [] t.next p.fieldSegments r).2.1,
        (t.bounds.expandAlong [] t.next p.fieldSegments r).2.2) := by
      rw [expandPath, hidx]
      dsimp only
      rw [hget]
      rfl
    rw [heq] at hid ⊢
    generalize t.bounds.expandAlong [] t.next p.fieldSegments r = made at hid hext hfound ⊢
    obtain ⟨r', next, found⟩ := made
    obtain ⟨m, hfollow, hm⟩ := hfound id hid
    obtain ⟨position, hat⟩ := at?_of_follow? hfollow
    refine ⟨i :: position, m, ?_, ?_, hm⟩
    · exact Option.bind_eq_some_iff.mpr ⟨r', getElem?_setRoot hget r' next, hat⟩
    · have hpath : r'.path = r.path := NodeInfo.path_eq_of_blank hext.blank
      rw [(follow?_spec hext.grown hfollow).2.1, hpath, ← hp]

theorem nodeAt?_of_position? {id i : Nat} {position : List Nat}
    (h : t.position? id = some (i :: position)) :
    ∃ r m, t.roots[i]? = some r ∧ r.at? position = some m ∧ m.id = id := by
  obtain ⟨j, rest, hposition, m, hm, hid⟩ :=
    (TreeNode.positionAmong?_spec id t.roots 0).2 (i :: position) h
  obtain ⟨rfl, rfl⟩ := List.cons.inj hposition
  rw [Nat.zero_add]
  obtain ⟨r, hget, hat⟩ := Option.bind_eq_some_iff.mp hm
  exact ⟨r, m, hget, hat, hid⟩

theorem exists_of_nodeAt? {position : List Nat} {m : TreeNode} (h : t.nodeAt? position = some m) :
    ∃ i rest r, position = i :: rest ∧ t.roots[i]? = some r ∧ r.at? rest = some m := by
  cases position with
  | nil => cases h
  | cons i rest =>
    obtain ⟨r, hget, hat⟩ := Option.bind_eq_some_iff.mp h
    exact ⟨i, rest, r, rfl, hget, hat⟩

theorem IsGrown.position?_of_nodeAt? (h : t.IsGrown) {position : List Nat} {m : TreeNode}
    (hat : t.nodeAt? position = some m) : t.position? m.id = some position := by
  obtain ⟨i, rest, r, rfl, hget, hrest⟩ := exists_of_nodeAt? hat
  exact h.position?_of_at? hget hrest

/-- The listeners are told of the path at which the node stands. -/
theorem IsGrown.notify_of_nodeAt? (h : t.IsGrown) {position : List Nat} {m : TreeNode}
    (hat : t.nodeAt? position = some m) (s : CheckState) (changed : List NodeInfo) :
    t.notify m.id s changed = if changed.isEmpty then []
      else t.listeners.map fun l => (l, ⟨m.id, m.path, s, changed⟩) := by
  have hnode : t.node? m.id = some m := by
    rw [node?, h.position?_of_nodeAt? hat, Option.bind_some, hat]
  rw [notify, hnode]
  rfl

/-- What setting the mark of the node at a path leads to. -/
structure SetsMarkAt (s : CheckState) (t : SelectionTree) (target : FieldPath) (t' : SelectionTree)
    (changed : List NodeInfo) : Prop where
  bounds : t'.bounds = t.bounds
  listeners : t'.listeners = t.listeners
  grown : t'.IsGrown
  below : ∀ q, t.bounds.ShowsPath q → target <+: q → t'.markAt q = s
  beside : ∀ q, ¬ target <+: q → ¬ q <+: target → t'.markAt q = t.markAt q
  above : ∀ q, q ≠ [] → q <+: target → q ≠ target → t'.markAt q ≠ s.toggled
  reported : ∀ x ∈ changed, x ∈ t'.nodes
  complete : ∀ q, t.bounds.ShowsPath q → t'.markAt q ≠ t.markAt q → ∃ x ∈ changed, x.path = q
  silent : t.markAt target = s → changed = []

section Apply

variable {s : CheckState} {id i : Nat} {position : List Nat} {r m : TreeNode}

theorem apply_of_position? (hposition : t.position? id = some (i :: position))
    (hget : t.roots[i]? = some r) (hat : r.at? position = some m) (hs : s ≠ .mixed) :
    t.apply id s = .ok (t.setRoot i (t.bounds.setAt s [] t.next position r).1
        (t.bounds.setAt s [] t.next position r).2.1,
      (t.bounds.setAt s [] t.next position r).2.2) := by
  have hnode : t.nodeAt? (i :: position) = some m := by rw [nodeAt?, hget, Option.bind_some, hat]
  rw [apply, hposition]
  dsimp only
  rw [hget, hnode]
  dsimp only
  rw [if_neg hs]
  rfl

theorem apply_cases {changed : List NodeInfo} (hok : t.apply id s = .ok (t', changed)) :
    s ≠ .mixed ∧ ∃ i position r m, t.position? id = some (i :: position) ∧
      t.roots[i]? = some r ∧ r.at? position = some m ∧ m.id = id := by
  unfold apply at hok
  split at hok
  · rename_i i position hposition
    obtain ⟨r, m, hget, hat, hid⟩ := nodeAt?_of_position? hposition
    refine ⟨?_, i, position, r, m, hposition, hget, hat, hid⟩
    rintro rfl
    split at hok
    · rw [if_pos rfl] at hok
      cases hok
    · cases hok
  · cases hok

/-- One root with something else below it, and what stays beside it. -/
theorem markAt_setRoot {r' : TreeNode} (h : t.IsGrown) (hget : t.roots[i]? = some r)
    (hblank : r'.info.blank = r.info.blank) (next : Nat) :
    (∀ names, (t.setRoot i r' next).markAt (r.path ++ names) = r'.markAt names) ∧
      ∀ q, (∃ names, q = r.path ++ names) ∨ (t.setRoot i r' next).markAt q = t.markAt q := by
  have hindex : ∀ q, (t.setRoot i r' next).rootIndex? q = t.rootIndex? q :=
    rootIndex?_withRoots (blank_setRoot hget hblank) next
  have hget' := getElem?_setRoot hget r' next
  constructor
  · intro names
    obtain ⟨hidx, hnames⟩ := h.rootIndex?_of_getElem? hget names
    rw [markAt_of_rootIndex? ((hindex _).trans hidx) hget', hnames]
  · intro q
    rcases h.rootIndex?_cases q with ⟨hidx, -⟩ | ⟨j, d, hidx, hgetj, hq, -⟩
    · right
      rw [markAt_of_rootIndex?_eq_none hidx, markAt_of_rootIndex?_eq_none ((hindex q).trans hidx)]
    · by_cases hj : i = j
      · subst hj
        obtain rfl : r = d := by simpa [hget] using hgetj
        exact Or.inl ⟨q.fieldSegments, hq⟩
      · right
        have hgetj' : (t.setRoot i r' next).roots[j]? = some d :=
          (List.getElem?_set_ne hj).trans hgetj
        rw [markAt_of_rootIndex? hidx hgetj, markAt_of_rootIndex? ((hindex q).trans hidx) hgetj']

theorem isGrown_setRoot {r' : TreeNode} {next : Nat} (h : t.IsGrown) (hget : t.roots[i]? = some r)
    (hgrown : Grown t.bounds [] r') (hblank : r'.info.blank = r.info.blank)
    (hnumbers : NumbersAdded t.next next r.ids r'.ids) :
    (t.setRoot i r' next).IsGrown := by
  have hall : ∀ d ∈ t.roots.set i r', Grown t.bounds [] d := by
    intro d hd
    rcases List.mem_or_eq_of_mem_set hd with hd | rfl
    · exact h.grown d hd
    · exact hgrown
  exact h.withRoots (blank_setRoot hget hblank) hall (TreeNode.numbersAdded_set hget hnumbers)

theorem setsMarkAt_setAt (h : t.IsGrown) (hdistinct : t.bounds.schema.DistinctFields)
    (hget : t.roots[i]? = some r) (hat : r.at? position = some m) (hs : s ≠ .mixed) :
    SetsMarkAt s t m.path (t.setRoot i (t.bounds.setAt s [] t.next position r).1
        (t.bounds.setAt s [] t.next position r).2.1)
      (t.bounds.setAt s [] t.next position r).2.2 ∧ t.bounds.ShowsPath m.path := by
  have hr := h.grown r (List.mem_of_getElem? hget)
  have hi : i < t.roots.length := (List.getElem?_eq_some_iff.mp hget).1
  obtain ⟨names, hfollow, hsets⟩ := setsMark_setAt hdistinct hs hr hat t.next
  obtain ⟨hshows, htarget, -, -⟩ := follow?_spec hr hfollow
  have hnumbers := numbersAdded_setAt s position hr t.next
  generalize t.bounds.setAt s [] t.next position r = made at hsets hnumbers
  obtain ⟨r', next, changed⟩ := made
  dsimp only at hsets hnumbers ⊢
  obtain ⟨hbelow, hcases⟩ := markAt_setRoot h hget hsets.blank next
  have hstart : ∀ names names' : List String,
      r.path ++ names <+: r.path ++ names' ↔ names <+: names' := fun _ _ =>
    List.prefix_append_right_inj r.path
  rw [htarget]
  refine ⟨⟨rfl, rfl, isGrown_setRoot h hget hsets.grown hsets.blank hnumbers, ?_, ?_, ?_, ?_, ?_,
    ?_⟩, (h.showsPath_iff hget names).mpr hshows⟩
  · rintro q hq ⟨more, rfl⟩
    rw [List.append_assoc] at hq ⊢
    rw [hbelow]
    exact hsets.below _ ((h.showsPath_iff hget _).mp hq) (List.prefix_append _ _)
  · intro q hnot hnot'
    rcases hcases q with ⟨names', rfl⟩ | hsame
    · rw [hstart] at hnot hnot'
      rw [h.markAt_root hget, hbelow]
      exact hsets.beside names' hnot hnot'
    · exact hsame
  · rintro q hne ⟨more, hmore⟩ hqne
    obtain ⟨marker, names', rfl⟩ := List.exists_cons_of_ne_nil hne
    obtain ⟨op, -, hpath⟩ := h.root_of_mem (List.mem_of_getElem? hget)
    have hq : marker :: names' = r.path ++ names' := by
      rw [hpath] at hmore ⊢
      exact congrArg (· :: names') (List.cons.inj hmore).1
    rw [hq] at hmore hqne ⊢
    rw [hbelow]
    exact hsets.above names' ((hstart names' names).mp ⟨more, hmore⟩) fun heq => hqne (by rw [heq])
  · intro x hx
    exact mem_nodes.mpr ⟨r', List.mem_set hi r', hsets.reported x hx⟩
  · intro q hq hchanged
    rcases hcases q with ⟨names', rfl⟩ | hsame
    · rw [h.markAt_root hget, hbelow] at hchanged
      exact hsets.complete names' ((h.showsPath_iff hget _).mp hq) hchanged
    · exact absurd hsame hchanged
  · intro hmark
    rw [h.markAt_root hget] at hmark
    exact hsets.silent hmark

/-- Of the change of a mark the listeners are told at the path of the node that was set. -/
theorem notify_setAt (hget : t.roots[i]? = some r) (hat : r.at? position = some m)
    (h : (t.setRoot i (t.bounds.setAt s [] t.next position r).1
      (t.bounds.setAt s [] t.next position r).2.1).IsGrown) (changed : List NodeInfo) :
    (t.setRoot i (t.bounds.setAt s [] t.next position r).1
        (t.bounds.setAt s [] t.next position r).2.1).notify m.id s changed =
      if changed.isEmpty then []
      else t.listeners.map fun l => (l, ⟨m.id, m.path, s, changed⟩) := by
  obtain ⟨m', hat', hid, hpath, -⟩ := at?_setAt (b := t.bounds) (s := s) [] hat t.next
  have hnode : (t.setRoot i (t.bounds.setAt s [] t.next position r).1
      (t.bounds.setAt s [] t.next position r).2.1).nodeAt? (i :: position) = some m' :=
    Option.bind_eq_some_iff.mpr ⟨_, getElem?_setRoot hget _ _, hat'⟩
  rw [← hid, ← hpath]
  exact h.notify_of_nodeAt? hnode s changed

theorem exists_apply (h : t.IsGrown) (hat : t.nodeAt? position = some m) (hs : s ≠ .mixed) :
    ∃ t' changed, t.apply m.id s = .ok (t', changed) := by
  have hposition := h.position?_of_nodeAt? hat
  obtain ⟨i, rest, r, rfl, hget, hrest⟩ := exists_of_nodeAt? hat
  exact ⟨_, _, apply_of_position? hposition hget hrest hs⟩

/-- Setting the mark of a node, with what the listeners are told. -/
theorem setsMarkAt_of_nodeAt? {changed : List NodeInfo} (h : t.IsGrown)
    (hdistinct : t.bounds.schema.DistinctFields) (hat : t.nodeAt? position = some m)
    (hok : t.apply m.id s = .ok (t', changed)) :
    t.bounds.ShowsPath m.path ∧ SetsMarkAt s t m.path t' changed ∧
      t'.notify m.id s changed = if changed.isEmpty then []
        else t.listeners.map fun l => (l, ⟨m.id, m.path, s, changed⟩) := by
  have hs := (apply_cases hok).1
  have hposition := h.position?_of_nodeAt? hat
  obtain ⟨i, rest, r, rfl, hget, hrest⟩ := exists_of_nodeAt? hat
  obtain ⟨hsets, hshown⟩ := setsMarkAt_setAt h hdistinct hget hrest hs
  rw [apply_of_position? hposition hget hrest hs] at hok
  cases hok
  exact ⟨hshown, hsets, notify_setAt hget hrest hsets.grown _⟩

theorem setsMarkAt_apply {changed : List NodeInfo} (h : t.IsGrown)
    (hdistinct : t.bounds.schema.DistinctFields) (hok : t.apply id s = .ok (t', changed)) :
    ∃ target, t.bounds.ShowsPath target ∧ SetsMarkAt s t target t' changed ∧
      t'.notify id s changed = if changed.isEmpty then []
        else t.listeners.map fun l => (l, ⟨id, target, s, changed⟩) := by
  obtain ⟨-, i, rest, r, m, -, hget, hrest, rfl⟩ := apply_cases hok
  have hat : t.nodeAt? (i :: rest) = some m := Option.bind_eq_some_iff.mpr ⟨r, hget, hrest⟩
  exact ⟨m.path, setsMarkAt_of_nodeAt? h hdistinct hat hok⟩

end Apply

/-- Checking the node of a path unmarks nothing, and if the path is shown, marks all on the way. -/
structure ChecksAt (t : SelectionTree) (p : FieldPath) (t' : SelectionTree) : Prop where
  bounds : t'.bounds = t.bounds
  listeners : t'.listeners = t.listeners
  grown : t'.IsGrown
  keeps : ∀ q, t.bounds.ShowsPath q → t.markAt q ≠ .unchecked → t'.markAt q ≠ .unchecked
  marks : t.bounds.ShowsPath p → ∀ q, q ≠ [] → q <+: p → t'.markAt q ≠ .unchecked

/-- A tree that has grown and in which the node of the path has then been checked. -/
theorem checksAt_of_setsMarkAt {t₁ : SelectionTree} {changed : List NodeInfo}
    (hext : t.Extends t₁) (hsets : SetsMarkAt .checked t₁ p t' changed) : t.ChecksAt p t' := by
  have hbelow : ∀ q, t.bounds.ShowsPath q → p <+: q → t'.markAt q ≠ .unchecked := by
    intro q hq hstart
    rw [hsets.below q (hext.bounds ▸ hq) hstart]
    decide
  refine ⟨hsets.bounds.trans hext.bounds, hsets.listeners.trans hext.listeners, hsets.grown, ?_, ?_⟩
  · intro q hq hmark
    by_cases hstart : p <+: q
    · exact hbelow q hq hstart
    by_cases hstart' : q <+: p
    · apply hsets.above q hq.ne_nil hstart'
      rintro rfl
      exact hstart List.prefix_rfl
    · rw [hsets.beside q hstart hstart', hext.marks]
      exact hmark
  · intro hp q hne hstart
    by_cases heq : q = p
    · subst heq
      exact hbelow q hp List.prefix_rfl
    · exact hsets.above q hne hstart heq

/-- A path that is not shown only makes nodes. Of one that is shown the node is made and checked. -/
theorem checkSilently_eq (h : t.IsGrown) (p : FieldPath) :
    (¬ t.bounds.ShowsPath p ∧ t.expandPath p = (t.checkSilently p, none)) ∨
      ∃ t₁ position m changed, t.bounds.ShowsPath p ∧ t.expandPath p = (t₁, some m.id) ∧
        t₁.nodeAt? position = some m ∧ m.path = p ∧
          t₁.apply m.id .checked = .ok (t.checkSilently p, changed) := by
  have hgrown := (extends_expandPath h p).grown
  have hsome := isSome_expandPath_iff (p := p) h
  have hfound := nodeAt?_of_expandPath (p := p) h
  rw [checkSilently]
  generalize t.expandPath p = made at hgrown hsome hfound
  obtain ⟨t₁, found⟩ := made
  cases found with
  | none => exact Or.inl ⟨fun hp => by simpa using hsome.mpr hp, rfl⟩
  | some id =>
    obtain ⟨position, m, hat, hpath, rfl⟩ := hfound id rfl
    obtain ⟨t', changed, happly⟩ := exists_apply hgrown hat (s := .checked) (by decide)
    have hset : t₁.setStateSilently m.id .checked = .ok t' := by
      rw [setStateSilently, happly]
      rfl
    dsimp only
    rw [hset]
    exact Or.inr ⟨t₁, position, m, changed, hsome.mp rfl, rfl, hat, hpath, happly⟩

theorem checkSilently_cases (h : t.IsGrown) (hdistinct : t.bounds.schema.DistinctFields)
    (p : FieldPath) : (¬ t.bounds.ShowsPath p ∧ t.Extends (t.checkSilently p)) ∨
      ∃ t₁ changed, t.bounds.ShowsPath p ∧ t.Extends t₁ ∧
        SetsMarkAt .checked t₁ p (t.checkSilently p) changed := by
  have hext := extends_expandPath h p
  rcases checkSilently_eq h p with
    ⟨hnot, heq⟩ | ⟨t₁, position, m, changed, hshows, heq, hat, rfl, hok⟩
  · rw [heq] at hext
    exact Or.inl ⟨hnot, hext⟩
  · rw [heq] at hext
    have hdistinct₁ : t₁.bounds.schema.DistinctFields := hext.bounds ▸ hdistinct
    obtain ⟨-, hsets, -⟩ := setsMarkAt_of_nodeAt? hext.grown hdistinct₁ hat hok
    exact Or.inr ⟨t₁, changed, hshows, hext, hsets⟩

theorem checksAt_checkSilently (h : t.IsGrown) (hdistinct : t.bounds.schema.DistinctFields)
    (p : FieldPath) : t.ChecksAt p (t.checkSilently p) := by
  rcases checkSilently_cases h hdistinct p with ⟨hnot, hext⟩ | ⟨t₁, changed, -, hext, hsets⟩
  · refine ⟨hext.bounds, hext.listeners, hext.grown, ?_, ?_⟩
    · intro q _ hmark
      rw [hext.marks]
      exact hmark
    · intro hp
      exact absurd hp hnot
  · exact checksAt_of_setsMarkAt hext hsets

/-- Checking the nodes of some paths marks all that is shown on the way to them. -/
theorem markAt_foldl_checkSilently (ps : List FieldPath) (h : t.IsGrown)
    (hdistinct : t.bounds.schema.DistinctFields) :
    (ps.foldl checkSilently t).bounds = t.bounds ∧
      (ps.foldl checkSilently t).listeners = t.listeners ∧ (ps.foldl checkSilently t).IsGrown ∧
      (∀ q, t.bounds.ShowsPath q → t.markAt q ≠ .unchecked →
        (ps.foldl checkSilently t).markAt q ≠ .unchecked) ∧
      ∀ p ∈ ps, t.bounds.ShowsPath p → ∀ q, q ≠ [] → q <+: p →
        (ps.foldl checkSilently t).markAt q ≠ .unchecked := by
  induction ps generalizing t with
  | nil => exact ⟨rfl, rfl, h, fun _ _ hq => hq, by simp⟩
  | cons p ps ih =>
    have hfirst := checksAt_checkSilently h hdistinct p
    have hdistinct' : (t.checkSilently p).bounds.schema.DistinctFields := by
      rw [hfirst.bounds]
      exact hdistinct
    obtain ⟨hbounds, hlisteners, hgrown, hkeeps, hmarks⟩ := ih hfirst.grown hdistinct'
    rw [hfirst.bounds] at hbounds hkeeps hmarks
    rw [List.foldl_cons]
    refine ⟨hbounds, hlisteners.trans hfirst.listeners, hgrown, ?_, ?_⟩
    · exact fun q hq hmark => hkeeps q hq (hfirst.keeps q hq hmark)
    · intro p' hp' hshown q hne hstart
      rcases List.mem_cons.mp hp' with rfl | hp'
      · exact hkeeps q (hshown.of_start hstart hne) (hfirst.marks hshown q hne hstart)
      · exact hmarks p' hp' hshown q hne hstart

theorem markAt_of_unchecked (h : t.IsGrown) (hall : ∀ r ∈ t.roots, r.state = .unchecked)
    (p : FieldPath) : t.markAt p = .unchecked := by
  rcases h.rootIndex?_cases p with ⟨hidx, -⟩ | ⟨i, r, hidx, hget, -⟩
  · exact markAt_of_rootIndex?_eq_none hidx
  · have hr := List.mem_of_getElem? hget
    rw [markAt_of_rootIndex? hidx hget]
    exact TreeBounds.markAt_of_unchecked (h.grown r hr) (hall r hr) _

theorem isGrown_resetSilently (h : t.IsGrown) : t.resetSilently.IsGrown := by
  have hroots : t.resetSilently.roots = t.roots.map (TreeNode.setAll .unchecked) :=
    TreeNode.setAlls_eq .unchecked t.roots
  have hblank : List.Forall₂ (fun r r' : TreeNode => r'.info.blank = r.info.blank) t.roots
      (t.roots.map (TreeNode.setAll .unchecked)) :=
    List.forall₂_map_right_iff.mpr
      (List.forall₂_same.mpr fun r _ => TreeNode.blank_setAll .unchecked r)
  refine ⟨?_, fun r hr => ?_, ?_⟩
  · rw [hroots, map_eq_of_forall₂ hblank]
    exact h.roots
  · rw [hroots] at hr
    obtain ⟨r₀, hr₀, rfl⟩ := List.mem_map.mp hr
    exact grown_setAll (h.grown r₀ hr₀) (by decide) fun heq => by cases heq
  · rw [hroots, TreeNode.idsOf_eq, List.flatMap_map]
    simp only [TreeNode.ids_setAll]
    rw [← TreeNode.idsOf_eq]
    exact h.numbers

theorem unchecked_of_mem_resetSilently {r : TreeNode} (hr : r ∈ t.resetSilently.roots) :
    r.state = .unchecked := by
  have hr : r ∈ TreeNode.setAlls .unchecked t.roots := hr
  rw [TreeNode.setAlls_eq] at hr
  obtain ⟨r₀, -, rfl⟩ := List.mem_map.mp hr
  exact TreeNode.state_setAll .unchecked r₀

theorem markAt_resetSilently (h : t.IsGrown) (p : FieldPath) :
    t.resetSilently.markAt p = .unchecked :=
  markAt_of_unchecked (isGrown_resetSilently h) (fun _ hr => unchecked_of_mem_resetSilently hr) p

/-- The root of an operation before it has children. -/
theorem grown_rootInfo (b : TreeBounds) (op : Operation) (id : Nat) (name : String)
    (root : TypeDef) : Grown b [] (.mk (rootInfo op id name root) []) := by
  cases hempty : root.fields.isEmpty with
  | true =>
    have hfields : b.fieldsOf (rootInfo op id name root) = [] := by
      simp [fieldsOf, rootInfo, hempty]
    refine .made hempty (by rw [hfields]; exact .nil) ?_ (by simp)
    exact settled_of_all (s := .unchecked) (by simp) (by decide)
  | false => exact .waiting hempty rfl fun _ _ => by simp

theorem buildRoot?_cases (b : TreeBounds) (next : Nat) (op : Operation) :
    (buildRoot? b next op = none ∧ b.rootShape? op = none) ∨
      ∃ r next', buildRoot? b next op = some (r, next') ∧ b.rootShape? op = some r.info.blank ∧
        Grown b [] r ∧ r.state = .unchecked ∧ NumbersAdded next next' [] r.ids := by
  rw [buildRoot?, rootShape?]
  cases hname : b.schema.rootTypeName? op with
  | none => exact Or.inl ⟨rfl, rfl⟩
  | some name =>
    cases hroot : b.schema.typeNamed? name with
    | none => exact Or.inl ⟨by simp [hroot], by simp [hroot]⟩
    | some root =>
      right
      have hgrown := grown_rootInfo b op next name root
      have hext := TreeBounds.extends_expand hgrown (next + 1)
      have hnumbers := numbersAdded_expand hgrown (next + 1)
      refine ⟨(b.expand [] (next + 1) (.mk (rootInfo op next name root) [])).1,
        (b.expand [] (next + 1) (.mk (rootInfo op next name root) [])).2, ?_, ?_, hext.grown,
        hext.state, ?_⟩
      · simp [hroot]
      · rw [hext.blank]
        simp [hroot]
        rfl
      · have hfirst : NumbersAdded next (next + 1) []
            (TreeNode.mk (rootInfo op next name root) []).ids := ⟨1, rfl, List.Perm.refl _⟩
        exact hfirst.trans hnumbers

theorem buildRoots_spec (b : TreeBounds) (ops : List Operation) (next : Nat) :
    (buildRoots b next ops).1.map (·.info.blank) = ops.filterMap b.rootShape? ∧
      (∀ r ∈ (buildRoots b next ops).1, Grown b [] r ∧ r.state = .unchecked) ∧
      NumbersAdded next (buildRoots b next ops).2 []
        (TreeNode.idsOf (buildRoots b next ops).1) := by
  induction ops generalizing next with
  | nil => exact ⟨rfl, by simp [buildRoots], .refl next []⟩
  | cons op ops ih =>
    rw [buildRoots]
    rcases buildRoot?_cases b next op with ⟨hnone, hshape⟩ | ⟨r, next', hsome, hshape, hr⟩
    · rw [hnone, List.filterMap_cons_none hshape]
      exact ih next
    · obtain ⟨hblanks, hroots, hnumbers⟩ := ih next'
      obtain ⟨hgrown, hstate, hfirst⟩ := hr
      rw [hsome, List.filterMap_cons_some hshape]
      dsimp only
      refine ⟨by rw [List.map_cons, hblanks], ?_, ?_⟩
      · intro d hd
        rcases List.mem_cons.mp hd with rfl | hd
        · exact ⟨hgrown, hstate⟩
        · exact hroots d hd
      · rw [TreeNode.idsOf_cons]
        have hrest := hnumbers.append_left r.ids
        rw [List.append_nil] at hrest
        exact hfirst.trans hrest

theorem isGrown_build (schema : Schema) (maxDepth : Nat) : (build schema maxDepth).IsGrown := by
  obtain ⟨hblanks, hroots, count, hcount, hperm⟩ :=
    buildRoots_spec ⟨schema, maxDepth⟩ Operation.all 0
  refine ⟨hblanks, fun r hr => (hroots r hr).1, ?_⟩
  have hnext : (build schema maxDepth).next = count := hcount.trans (Nat.zero_add count)
  rw [hnext, List.range_eq_range']
  exact hperm

theorem markAt_build (schema : Schema) (maxDepth : Nat) (p : FieldPath) :
    (build schema maxDepth).markAt p = .unchecked := by
  obtain ⟨-, hroots, -⟩ := buildRoots_spec ⟨schema, maxDepth⟩ Operation.all 0
  exact markAt_of_unchecked (isGrown_build schema maxDepth) (fun r hr => (hroots r hr).2) p

end QueryPicker.SelectionTree
