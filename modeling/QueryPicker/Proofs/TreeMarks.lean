import Mathlib
import QueryPicker.Proofs.TreeShape

/-!
# Marks in a tree

If the fields of every type have different names, a node is known by the names that lead to it.
Setting a node's mark gives it to everything that is shown below, and leaves what lies beside as it
was. The list of changes names exactly the nodes with another mark than before.
-/

namespace QueryPicker

/-- The fields of every type have different names. -/
def Schema.DistinctFields (s : Schema) : Prop :=
  ∀ entry ∈ s.types, (entry.2.fields.map (·.name)).Nodup

theorem find?_of_nodup {α κ : Type} [BEq κ] [LawfulBEq κ] {key : α → κ} {as : List α} {a : α}
    (h : (as.map key).Nodup) (ha : a ∈ as) : as.find? (key · == key a) = some a := by
  induction as with
  | nil => simp at ha
  | cons c as ih =>
    rw [List.map_cons, List.nodup_cons] at h
    rcases List.mem_cons.mp ha with rfl | ha
    · simp
    · have hne : key c ≠ key a := fun heq => h.1 (heq ▸ List.mem_map_of_mem ha)
      rw [List.find?_cons_of_neg (by simpa using hne), ih h.2 ha]

theorem find?_set_of_neg {α : Type} {p : α → Bool} {as : List α} {i : Nat} {a a' : α}
    (hget : as[i]? = some a) (ha : p a = false) (ha' : p a' = false) :
    (as.set i a').find? p = as.find? p := by
  induction as generalizing i with
  | nil => simp at hget
  | cons c as ih =>
    cases i with
    | zero =>
      obtain rfl : c = a := by simpa using hget
      simp [ha, ha']
    | succ i =>
      rw [List.set_cons_succ, List.find?_cons, List.find?_cons, ih (by simpa using hget)]

theorem set_of_getElem? {α : Type} {as : List α} {i : Nat} {a : α} (h : as[i]? = some a) :
    as.set i a = as := by
  obtain ⟨hi, rfl⟩ := List.getElem?_eq_some_iff.mp h
  exact List.set_getElem_self hi

theorem find?_set_of_findIdx? {α : Type} {p : α → Bool} {as : List α} {i : Nat} {a' : α}
    (hidx : as.findIdx? p = some i) (ha' : p a' = true) : (as.set i a').find? p = some a' := by
  induction as generalizing i with
  | nil => simp at hidx
  | cons c as ih =>
    rw [List.findIdx?_cons] at hidx
    split at hidx
    · obtain rfl : 0 = i := by simpa using hidx
      simp [ha']
    · rename_i hc
      obtain ⟨j, hj, rfl⟩ := Option.map_eq_some_iff.mp hidx
      rw [List.set_cons_succ, List.find?_cons_of_neg (by simpa using hc), ih hj]

namespace TreeNode

theorem preorders_eq (ns : List TreeNode) : preorders ns = ns.flatMap preorder := by
  induction ns with
  | nil => rfl
  | cons n ns ih => rw [preorders, ih, List.flatMap_cons]

theorem preorders_append (ns ms : List TreeNode) :
    preorders (ns ++ ms) = preorders ns ++ preorders ms := by
  simp only [preorders_eq, List.flatMap_append]

theorem visit_eq (stack : List TreeNode) : visit stack = preorders stack := by
  induction stack using visit.induct with
  | case1 =>
    rw [visit]
    rfl
  | case2 info children stack ih =>
    rw [visit, ih, preorders_append]
    rfl

theorem mem_preorders {x : NodeInfo} {ns : List TreeNode} :
    x ∈ preorders ns ↔ ∃ n ∈ ns, x ∈ n.preorder := by
  rw [preorders_eq, List.mem_flatMap]

theorem mem_preorder {x : NodeInfo} {info : NodeInfo} {children : List TreeNode} :
    x ∈ (mk info children).preorder ↔ x = info ∨ ∃ c ∈ children, x ∈ c.preorder := by
  rw [preorder, List.mem_cons, mem_preorders]

mutual

theorem preorder_setAll (s : CheckState) : ∀ n : TreeNode,
    (n.setAll s).preorder = n.preorder.map fun info => { info with state := s }
  | mk info children => by
    rw [setAll, preorder, preorders_setAlls s children]
    rfl

theorem preorders_setAlls (s : CheckState) : ∀ ns : List TreeNode,
    preorders (setAlls s ns) = (preorders ns).map fun info => { info with state := s }
  | [] => rfl
  | n :: ns => by
    rw [setAlls, preorders, preorder_setAll s n, preorders_setAlls s ns, preorders, List.map_append]

end

theorem setAlls_eq (s : CheckState) (ns : List TreeNode) : setAlls s ns = ns.map (setAll s) := by
  induction ns with
  | nil => rfl
  | cons n ns ih => rw [setAlls, ih, List.map_cons]

theorem blank_setAll (s : CheckState) (n : TreeNode) : (n.setAll s).info.blank = n.info.blank := by
  obtain ⟨info, children⟩ := n
  rfl

theorem state_setAll (s : CheckState) (n : TreeNode) : (n.setAll s).state = s := by
  obtain ⟨info, children⟩ := n
  rfl

theorem childNamed?_setAll (s : CheckState) (n : TreeNode) (name : String) :
    (n.setAll s).childNamed? name = (n.childNamed? name).map (setAll s) := by
  obtain ⟨info, children⟩ := n
  have hpath : ∀ c : TreeNode, (c.setAll s).path = c.path := fun c =>
    NodeInfo.path_eq_of_blank (blank_setAll s c)
  simp only [childNamed?, setAll, TreeNode.children, setAlls_eq, List.find?_map,
    Function.comp_def, hpath]

theorem follow?_setAll (s : CheckState) (names : List String) (n : TreeNode) :
    (n.setAll s).follow? names = (n.follow? names).map (setAll s) := by
  induction names generalizing n with
  | nil => rfl
  | cons name names ih =>
    rw [follow?, follow?, childNamed?_setAll]
    cases n.childNamed? name with
    | none => rfl
    | some c => exact ih c

theorem markAt_setAll (s : CheckState) (n : TreeNode) (names : List String) :
    (n.setAll s).markAt names = if (n.follow? names).isSome then s else .unchecked := by
  rw [markAt, follow?_setAll]
  cases n.follow? names with
  | none => rfl
  | some m => exact state_setAll s m

theorem info_cons_descendants (n : TreeNode) : n.info :: n.descendants = n.preorder := by
  obtain ⟨info, children⟩ := n
  rw [descendants, visit_eq]
  rfl

end TreeNode

namespace TreeBounds

variable {b : TreeBounds} {chain : List String} {info : NodeInfo} {children : List TreeNode}

theorem nodup_fieldsOf (h : b.schema.DistinctFields) (info : NodeInfo) :
    ((b.fieldsOf info).map (·.name)).Nodup := by
  unfold fieldsOf
  cases htype : info.objectType?.bind b.schema.typeNamed? with
  | none => simp
  | some t =>
    obtain ⟨name, -, hname⟩ := Option.bind_eq_some_iff.mp htype
    exact h _ (Schema.mem_types_of_typeNamed? hname)

theorem shape_of_mem {c : TreeNode} (h : Grown b chain (.mk info children)) (hc : c ∈ children) :
    List.Forall₂ (fun c f => c.info.blank = b.childShape chain info f) children
      (b.fieldsOf info) := by
  cases h with
  | waiting => simp at hc
  | made _ hshape => exact hshape

theorem shape_of_expanded (h : Grown b chain (.mk info children))
    (hexpanded : info.expanded = true) :
    List.Forall₂ (fun c f => c.info.blank = b.childShape chain info f) children
      (b.fieldsOf info) := by
  cases h with
  | waiting hnot => simp [hexpanded] at hnot
  | made _ hshape => exact hshape

/-- A node with children has the type from whose fields they were made. -/
theorem exists_type_of_mem {c : TreeNode} (h : Grown b chain (.mk info children))
    (hc : c ∈ children) : ∃ name t, info.objectType? = some name ∧
      b.schema.typeNamed? name = some t ∧ b.fieldsOf info = t.fields := by
  have hshape := shape_of_mem h hc
  cases htype : info.objectType?.bind b.schema.typeNamed? with
  | none =>
    have hfields : b.fieldsOf info = [] := by rw [fieldsOf, htype]
    rw [hfields, List.forall₂_nil_right_iff] at hshape
    rw [hshape] at hc
    cases hc
  | some t =>
    obtain ⟨name, hobject, hname⟩ := Option.bind_eq_some_iff.mp htype
    exact ⟨name, t, hobject, hname, by rw [fieldsOf, htype]⟩

/-- The children of a node are named after the fields of its type. -/
theorem paths_of_shape (h : List.Forall₂ (fun c f => c.info.blank = b.childShape chain info f)
    children (b.fieldsOf info)) :
    children.map (·.path) = ((b.fieldsOf info).map (·.name)).map info.path.child := by
  generalize b.fieldsOf info = fields at h
  induction h with
  | nil => rfl
  | @cons c f _ _ hcf _ ih =>
    have hpath : c.path = info.path.child f.name := NodeInfo.path_eq_of_blank hcf
    rw [List.map_cons, ih, hpath, List.map_cons, List.map_cons]

/-- If the fields of a node have different names, every child is found under the name of its
field. -/
theorem childNamed?_of_nodup {c : TreeNode} (hnodup : ((b.fieldsOf info).map (·.name)).Nodup)
    (h : Grown b chain (.mk info children)) (hc : c ∈ children) :
    ∃ f, c.info.blank = b.childShape chain info f ∧
      (b.fieldsOf info).find? (·.name == f.name) = some f ∧
      (TreeNode.mk info children).childNamed? f.name = some c := by
  have hshape := shape_of_mem h hc
  obtain ⟨i, hi, rfl⟩ := List.getElem_of_mem hc
  obtain ⟨f, hf, hcf⟩ := getElem?_of_forall₂ hshape (List.getElem?_eq_getElem hi)
  have hleaves : (children.map (·.path.leafName?)).Nodup := by
    have hmap : children.map (·.path.leafName?) =
        (children.map (·.path)).map FieldPath.leafName? := by
      rw [List.map_map]
      rfl
    rw [hmap, paths_of_shape hshape, List.map_map]
    refine hnodup.map fun name name' heq => ?_
    simpa [FieldPath.leafName?_child] using heq
  refine ⟨f, hcf, find?_of_nodup hnodup (List.mem_of_getElem? hf), ?_⟩
  have hleaf : (children[i]).path.leafName? = some f.name := by
    have hpath : (children[i]).path = info.path.child f.name := NodeInfo.path_eq_of_blank hcf
    rw [hpath, FieldPath.leafName?_child]
  have hfind := find?_of_nodup hleaves (List.getElem_mem hi)
  rw [hleaf] at hfind
  exact hfind

theorem childNamed?_of_mem (hdistinct : b.schema.DistinctFields) {c : TreeNode}
    (h : Grown b chain (.mk info children)) (hc : c ∈ children) :
    ∃ f, c.info.blank = b.childShape chain info f ∧
      (b.fieldsOf info).find? (·.name == f.name) = some f ∧
      (TreeNode.mk info children).childNamed? f.name = some c :=
  childNamed?_of_nodup (nodup_fieldsOf hdistinct info) h hc

/-- Where names lead in a tree that has grown. -/
theorem follow?_spec {names : List String} {n m : TreeNode} (h : Grown b chain n)
    (hfollow : n.follow? names = some m) :
    b.Shows chain n.info names ∧ m.path = n.path ++ names ∧ m.info ∈ n.preorder ∧
      (names ≠ [] → m.info.field?.isSome = true) := by
  induction names generalizing chain n with
  | nil =>
    obtain rfl : n = m := by simpa [TreeNode.follow?] using hfollow
    refine ⟨trivial, by simp, ?_, fun hne => absurd rfl hne⟩
    obtain ⟨info, children⟩ := n
    exact TreeNode.mem_preorder.mpr (Or.inl rfl)
  | cons name names ih =>
    rw [TreeNode.follow?] at hfollow
    obtain ⟨c, hchild, hrest⟩ := Option.bind_eq_some_iff.mp hfollow
    obtain ⟨info, children⟩ := n
    have hc : c ∈ children := List.mem_of_find?_eq_some hchild
    have hshape := shape_of_mem h hc
    rcases childNamed?_cases hshape name with ⟨hnone, -⟩ | ⟨c', f, hcf, -, hchild', hf⟩
    · rw [hnone] at hchild
      cases hchild
    · obtain rfl : c' = c := by simpa [hchild'] using hchild
      have hname : f.name = name := by simpa using List.find?_some hf
      have hpath : c'.path = info.path.child name := hname ▸ NodeInfo.path_eq_of_blank hcf
      obtain ⟨hshows, hm, hmem, hfield⟩ := ih (grown_of_mem h c' hc) hrest
      refine ⟨(shows_cons_iff hcf hf names).mpr hshows, ?_, ?_, ?_⟩
      · rw [hm, hpath]
        simp [FieldPath.child, TreeNode.path, TreeNode.info]
      · exact TreeNode.mem_preorder.mpr (Or.inr ⟨c', hc, hmem⟩)
      · intro _
        cases names with
        | nil =>
          obtain rfl : c' = m := by simpa [TreeNode.follow?] using hrest
          rw [(NodeInfo.eq_of_blank hcf).2.2.1]
          rfl
        | cons => exact hfield (by simp)

/-- Every node is where its path leads. -/
theorem follow?_of_mem (hdistinct : b.schema.DistinctFields) {n : TreeNode} (h : Grown b chain n)
    {x : NodeInfo} (hx : x ∈ n.preorder) : ∃ names m, n.follow? names = some m ∧ m.info = x := by
  induction h with
  | waiting =>
    rcases TreeNode.mem_preorder.mp hx with rfl | ⟨c, hc, -⟩
    · exact ⟨[], _, rfl, rfl⟩
    · simp at hc
  | @made chain info children hexpanded hshape hsettled hgrown ih =>
    rcases TreeNode.mem_preorder.mp hx with rfl | ⟨c, hc, hxc⟩
    · exact ⟨[], _, rfl, rfl⟩
    · obtain ⟨names, m, hfollow, hm⟩ := ih c hc hxc
      obtain ⟨f, -, -, hchild⟩ :=
        childNamed?_of_mem hdistinct (.made hexpanded hshape hsettled hgrown) hc
      exact ⟨f.name :: names, m, by rw [TreeNode.follow?, hchild]; exact hfollow, hm⟩

/-- In a tree without waiting nodes all that is shown has been made. -/
theorem follow?_of_full {n : TreeNode} (hfull : Full n) {names : List String} (h : Grown b chain n)
    (hshows : b.Shows chain n.info names) : ∃ m, n.follow? names = some m := by
  induction names generalizing chain n with
  | nil => exact ⟨n, rfl⟩
  | cons name names ih =>
    cases h with
    | waiting hexpanded =>
      cases hfull with
      | made hmade => simp [hexpanded] at hmade
    | @made _ info children hexpanded hshape hsettled hgrown =>
      cases hfull with
      | made _ hfulls =>
        rcases childNamed?_cases hshape name with ⟨-, hnone⟩ | ⟨c, f, hcf, hc, hchild, hf⟩
        · exact absurd hshows (not_shows_cons hnone names)
        · have hnames := (shows_cons_iff hcf hf names).mp hshows
          obtain ⟨m, hm⟩ := ih (hfulls c hc) (hgrown c hc) hnames
          exact ⟨m, by rw [TreeNode.follow?, hchild]; exact hm⟩

/-- What setting the mark of the node under the names leads to. -/
structure SetsMark (b : TreeBounds) (chain : List String) (s : CheckState) (n : TreeNode)
    (names : List String) (n' : TreeNode) (changed : List NodeInfo) : Prop where
  grown : Grown b chain n'
  blank : n'.info.blank = n.info.blank
  below : ∀ q, b.Shows chain n.info q → names <+: q → n'.markAt q = s
  beside : ∀ q, ¬ names <+: q → ¬ q <+: names → n'.markAt q = n.markAt q
  above : ∀ q, q <+: names → q ≠ names → n'.markAt q ≠ s.toggled
  reported : ∀ x ∈ changed, x ∈ n'.preorder
  complete : ∀ q, b.Shows chain n.info q → n'.markAt q ≠ n.markAt q →
    ∃ x ∈ changed, x.path = n.path ++ q
  silent : n.markAt names = s → changed = []

theorem grown_setAll {s : CheckState} {n : TreeNode} (h : Grown b chain n) (hs : s ≠ .mixed)
    (hfull : s = .checked → Full n) : Grown b chain (n.setAll s) := by
  induction h with
  | @waiting chain info hexpanded hstate hfresh =>
    have hunchecked : s = .unchecked := by
      cases s with
      | unchecked => rfl
      | mixed => exact absurd rfl hs
      | checked =>
        cases hfull rfl with
        | made hmade => simp [hexpanded] at hmade
    subst hunchecked
    exact .waiting hexpanded rfl hfresh
  | @made chain info children hexpanded hshape hsettled hgrown ih =>
    rw [TreeNode.setAll, TreeNode.setAlls_eq]
    refine .made hexpanded ?_ (settled_of_all ?_ hs) ?_
    · refine forall₂_shape ?_ hshape
      exact List.forall₂_map_right_iff.mpr
        (List.forall₂_same.mpr fun c _ => TreeNode.blank_setAll s c)
    · intro c hc
      obtain ⟨c, -, rfl⟩ := List.mem_map.mp hc
      exact TreeNode.state_setAll s c
    · intro c hc
      obtain ⟨c, hmem, rfl⟩ := List.mem_map.mp hc
      apply ih c hmem
      intro hchecked
      cases hfull hchecked with
      | made _ hfulls => exact hfulls c hmem

/-- The node itself, with all that is below it. -/
theorem setsMark_target (hdistinct : b.schema.DistinctFields) {s : CheckState} {n n₁ : TreeNode}
    (hs : s ≠ .mixed) (h : Extends b chain n n₁)
    (hfull : s = .checked → Full n₁) :
    SetsMark b chain s n [] (n₁.setAll s)
      (((n₁.info :: n₁.descendants).filter (·.state != s)).map fun info =>
        { info with state := s }) := by
  have hpath : n₁.path = n.path := NodeInfo.path_eq_of_blank h.blank
  rw [TreeNode.info_cons_descendants]
  refine ⟨grown_setAll h.grown hs hfull, (TreeNode.blank_setAll s n₁).trans h.blank, ?_, ?_, ?_,
    ?_, ?_, ?_⟩
  · intro q hq _
    rw [TreeNode.markAt_setAll]
    cases s with
    | mixed => exact absurd rfl hs
    | unchecked => split <;> rfl
    | checked =>
      have hshows := (shows_iff_of_blank h.blank q).mpr hq
      obtain ⟨m, hm⟩ := follow?_of_full (hfull rfl) h.grown hshows
      rw [hm]
      rfl
  · intro q hq
    exact absurd List.nil_prefix hq
  · intro q hq hne
    exact absurd (List.prefix_nil.mp hq) hne
  · intro x hx
    obtain ⟨y, hy, rfl⟩ := List.mem_map.mp hx
    rw [TreeNode.preorder_setAll]
    exact List.mem_map.mpr ⟨y, (List.mem_filter.mp hy).1, rfl⟩
  · intro q hq hchanged
    rw [TreeNode.markAt_setAll, ← h.marks q] at hchanged
    obtain ⟨m, hm⟩ : ∃ m, n₁.follow? q = some m := by
      cases hfollow : n₁.follow? q with
      | some m => exact ⟨m, rfl⟩
      | none => simp [TreeNode.markAt, hfollow] at hchanged
    obtain ⟨-, hmpath, hmem, -⟩ := follow?_spec h.grown hm
    have hstate : m.state ≠ s := by
      simpa [TreeNode.markAt, hm] using Ne.symm hchanged
    refine ⟨{ m.info with state := s }, List.mem_map.mpr ⟨m.info, ?_, rfl⟩, hpath ▸ hmpath⟩
    exact List.mem_filter.mpr ⟨hmem, by simpa [TreeNode.state] using hstate⟩
  · intro hstate
    rw [List.map_eq_nil_iff, List.filter_eq_nil_iff]
    intro y hy
    obtain ⟨q, m, hfollow, rfl⟩ := follow?_of_mem hdistinct h.grown hy
    have hm := state_of_follow? h.grown (h.state.trans hstate) hs hfollow
    have hm : m.info.state = s := hm
    simp [hm]

theorem ofChildren_ne_toggled {states : List CheckState} {s t : CheckState} (ht : t ∈ states)
    (hne : t ≠ s.toggled) : CheckState.ofChildren states ≠ s.toggled := by
  intro heq
  have hmixed : s.toggled ≠ .mixed := by cases s <;> decide
  exact hne (eq_of_ofChildren hmixed heq t ht)

section Parent

variable {s derived : CheckState} {i : Nat} {c c' : TreeNode} {f : Field}

/-- A node with another child in place of one that has the same shape. -/
theorem grown_set (h : Grown b chain (.mk info children)) (hget : children[i]? = some c)
    (hc' : Grown b (chainBelow chain info) c') (hblank : c'.info.blank = c.info.blank)
    (hderived : derived = .ofChildren ((children.set i c').map (·.state))) :
    Grown b chain (.mk { info with state := derived } (children.set i c')) := by
  have hc : c ∈ children := List.mem_of_getElem? hget
  have hmem : c' ∈ children.set i c' := List.mem_set (List.getElem?_eq_some_iff.mp hget).1 c'
  have hexpanded := expanded_of_mem h hc
  have hchildren := forall₂_set (S := fun d d' : TreeNode => d'.info.blank = d.info.blank)
    (fun _ _ => rfl) hget hblank
  have hshape := forall₂_shape hchildren (shape_of_mem h hc)
  refine .made hexpanded hshape ?_ ?_
  · rw [Settled, if_neg (List.ne_nil_of_mem hmem)]
    exact hderived
  · intro d hd
    rcases List.mem_or_eq_of_mem_set hd with hd | rfl
    · exact grown_of_mem h d hd
    · exact hc'

theorem childNamed?_set_same (hdistinct : b.schema.DistinctFields)
    (h : Grown b chain (.mk { info with state := derived } (children.set i c')))
    (hi : i < children.length) (hpath : c'.path = info.path.child f.name) :
    (TreeNode.mk { info with state := derived } (children.set i c')).childNamed? f.name =
      some c' := by
  obtain ⟨g, hg, -, hchild⟩ := childNamed?_of_mem hdistinct h (List.mem_set hi c')
  have hgpath : c'.path = info.path.child g.name := NodeInfo.path_eq_of_blank hg
  have hname : g.name = f.name := by
    have heq := hgpath.symm.trans hpath
    simpa [FieldPath.child] using heq
  exact hname ▸ hchild

theorem childNamed?_set_other (hget : children[i]? = some c)
    (hpath : c.path = info.path.child f.name) (hpath' : c'.path = info.path.child f.name)
    {name : String} (hname : name ≠ f.name) :
    (TreeNode.mk { info with state := derived } (children.set i c')).childNamed? name =
      (TreeNode.mk info children).childNamed? name := by
  have hleaf : ∀ d : TreeNode, d.path = info.path.child f.name →
      (d.path.leafName? == some name) = false := by
    intro d hd
    rw [hd, FieldPath.leafName?_child]
    simpa using hname.symm
  exact find?_set_of_neg hget (hleaf c hpath) (hleaf c' hpath')

/-- The replaced child is found under the name of its field, and its marks with it. -/
theorem markAt_set_same (hdistinct : b.schema.DistinctFields)
    (h : Grown b chain (.mk { info with state := derived } (children.set i c')))
    (hi : i < children.length) (hpath : c'.path = info.path.child f.name) (names : List String) :
    (TreeNode.mk { info with state := derived } (children.set i c')).markAt (f.name :: names) =
      c'.markAt names := by
  rw [TreeNode.markAt_cons, childNamed?_set_same hdistinct h hi hpath]

theorem markAt_set_other (hget : children[i]? = some c)
    (hpath : c.path = info.path.child f.name) (hpath' : c'.path = info.path.child f.name)
    {name : String} (hname : name ≠ f.name) (names : List String) :
    (TreeNode.mk { info with state := derived } (children.set i c')).markAt (name :: names) =
      (TreeNode.mk info children).markAt (name :: names) := by
  rw [TreeNode.markAt_cons, TreeNode.markAt_cons, childNamed?_set_other hget hpath hpath' hname]

theorem SetsMark.state_ne_toggled {below : List String} {names : List String}
    {changed : List NodeInfo} (h : SetsMark b below s c names c' changed) :
    c'.state ≠ s.toggled := by
  by_cases hnil : names = []
  · subst hnil
    have hstate : c'.state = s := h.below [] trivial List.prefix_rfl
    rw [hstate]
    cases s <;> decide
  · apply h.above [] List.nil_prefix
    intro heq
    exact hnil heq.symm

/-- Where the mark was already set, the node keeps its own. -/
theorem SetsMark.state_of_silent {below : List String} {names : List String}
    {changed : List NodeInfo} (h : SetsMark b below s c names c' changed)
    (hmark : c.markAt names = s) : c'.state = c.state := by
  by_contra hne
  obtain ⟨x, hx, -⟩ := h.complete [] trivial hne
  rw [h.silent hmark] at hx
  cases hx

/-- A child with the mark it had leaves the mark of its parent as it was. -/
theorem state_eq_derived (h : Grown b chain (.mk info children)) (hget : children[i]? = some c)
    (hstate : c'.state = c.state)
    (hderived : derived = .ofChildren ((children.set i c').map (·.state))) :
    info.state = derived := by
  have hi : i < children.length := (List.getElem?_eq_some_iff.mp hget).1
  have hold : (children.map (·.state))[i]? = some c.state := by
    rw [List.getElem?_map, hget]
    rfl
  have hstates : (children.set i c').map (·.state) = children.map (·.state) := by
    rw [List.map_set, hstate]
    exact set_of_getElem? hold
  cases h with
  | waiting => simp at hi
  | made _ _ hsettled _ =>
    have hne : children ≠ [] := List.ne_nil_of_length_pos (by omega)
    rw [Settled, if_neg hne] at hsettled
    rw [hsettled, hderived, hstates]

/-- A node above: its mark is derived anew from those of its children. -/
theorem setsMark_parent (hdistinct : b.schema.DistinctFields) {names : List String}
    {changed : List NodeInfo} (h : Grown b chain (.mk info children))
    (hget : children[i]? = some c) (hshape : c.info.blank = b.childShape chain info f)
    (hfield : (b.fieldsOf info).find? (·.name == f.name) = some f)
    (hchild : (TreeNode.mk info children).childNamed? f.name = some c)
    (hsets : SetsMark b (chainBelow chain info) s c names c' changed)
    (hderived : derived = .ofChildren ((children.set i c').map (·.state))) :
    SetsMark b chain s (.mk info children) (f.name :: names)
      (.mk { info with state := derived } (children.set i c'))
      (if info.state = derived then changed else changed ++ [{ info with state := derived }]) := by
  have hgrown := grown_set h hget hsets.grown hsets.blank hderived
  have hi : i < children.length := (List.getElem?_eq_some_iff.mp hget).1
  have hpath : c.path = info.path.child f.name := NodeInfo.path_eq_of_blank hshape
  have hpath' : c'.path = info.path.child f.name :=
    (NodeInfo.path_eq_of_blank hsets.blank).trans hpath
  have hshows := shows_cons_iff hshape hfield
  have hsame := markAt_set_same hdistinct hgrown hi hpath'
  have hbefore : ∀ q, (TreeNode.mk info children).markAt (f.name :: q) = c.markAt q := by
    intro q
    rw [TreeNode.markAt_cons, hchild]
  refine ⟨hgrown, rfl, ?_, ?_, ?_, ?_, ?_, ?_⟩
  · rintro q hq ⟨more, rfl⟩
    rw [List.cons_append] at hq ⊢
    rw [hsame]
    exact hsets.below _ ((hshows _).mp hq) (List.prefix_append _ _)
  · intro q hnot hnot'
    cases q with
    | nil => exact absurd List.nil_prefix hnot'
    | cons name q =>
      by_cases hname : name = f.name
      · subst hname
        rw [hsame, hbefore]
        rw [List.prefix_cons_inj] at hnot hnot'
        exact hsets.beside q hnot hnot'
      · exact markAt_set_other hget hpath hpath' hname q
  · intro q hstart hne
    cases q with
    | nil =>
      show derived ≠ s.toggled
      have hmem : c'.state ∈ (children.set i c').map (·.state) :=
        List.mem_map.mpr ⟨c', List.mem_set hi c', rfl⟩
      rw [hderived]
      exact ofChildren_ne_toggled hmem hsets.state_ne_toggled
    | cons name q =>
      obtain ⟨rfl, hq⟩ := List.cons_prefix_cons.mp hstart
      rw [hsame]
      apply hsets.above q hq
      intro heq
      exact hne (by rw [heq])
  · intro x hx
    have hx : x ∈ changed ∨ x = { info with state := derived } := by
      split at hx
      · exact Or.inl hx
      · simpa using hx
    rcases hx with hx | rfl
    · exact TreeNode.mem_preorder.mpr (Or.inr ⟨c', List.mem_set hi c', hsets.reported x hx⟩)
    · exact TreeNode.mem_preorder.mpr (Or.inl rfl)
  · intro q hq hchanged
    cases q with
    | nil =>
      have hne : ¬ info.state = derived := fun heq => hchanged heq.symm
      rw [if_neg hne]
      exact ⟨_, List.mem_append_right _ List.mem_cons_self, (List.append_nil _).symm⟩
    | cons name q =>
      by_cases hname : name = f.name
      · subst hname
        rw [hsame, hbefore] at hchanged
        obtain ⟨x, hx, hxpath⟩ := hsets.complete q ((hshows q).mp hq) hchanged
        refine ⟨x, ?_, ?_⟩
        · split
          · exact hx
          · exact List.mem_append_left _ hx
        · rw [hxpath, hpath, FieldPath.child, List.append_assoc]
          rfl
      · exact absurd (markAt_set_other hget hpath hpath' hname q) hchanged
  · intro hmark
    rw [hbefore] at hmark
    rw [if_pos (state_eq_derived h hget (hsets.state_of_silent hmark) hderived)]
    exact hsets.silent hmark

end Parent

theorem expanded_expand (b : TreeBounds) (chain : List String) (next : Nat) (n : TreeNode) :
    (b.expand chain next n).1.info.expanded = true := by
  obtain ⟨info, children⟩ := n
  rw [expand]
  split
  · assumption
  · rfl

theorem info_grow (b : TreeBounds) (reach : Nat → Bool) (chain : List String) (next : Nat)
    (info : NodeInfo) : (b.grow reach chain next info).1.info = info ∨
      (b.grow reach chain next info).1.info = { info with expanded := true } := by
  rw [grow]
  split
  · exact Or.inl rfl
  · right
    split
    · rfl
    · split
      · rfl
      · split <;> rfl

theorem info_complete (b : TreeBounds) (reach : Nat → Bool) (chain : List String) (next : Nat)
    (n : TreeNode) : (b.complete reach chain next n).1.info = n.info ∨
      (b.complete reach chain next n).1.info = { n.info with expanded := true } := by
  obtain ⟨info, children⟩ := n
  rw [complete]
  split
  · exact Or.inl rfl
  · split
    · exact Or.inl rfl
    · exact info_grow b reach chain next info

/-- Setting the mark of the node at a position. -/
theorem setsMark_setAt (hdistinct : b.schema.DistinctFields) {s : CheckState} (hs : s ≠ .mixed)
    {position : List Nat} {n m : TreeNode} (h : Grown b chain n) (hat : n.at? position = some m)
    (next : Nat) : ∃ names, n.follow? names = some m ∧
      SetsMark b chain s n names (b.setAt s chain next position n).1
        (b.setAt s chain next position n).2.2 := by
  induction position generalizing chain n next with
  | nil =>
    obtain rfl : n = m := by simpa [TreeNode.at?] using hat
    refine ⟨[], rfl, ?_⟩
    rw [setAt]
    by_cases hchecked : s = .checked
    · have hgrows := growsTo_complete (fun _ => true) n next h
      simp only [if_pos hchecked]
      exact setsMark_target hdistinct hs hgrows.extends' fun _ => hgrows.full fun _ => rfl
    · simp only [if_neg hchecked]
      exact setsMark_target hdistinct hs (Extends.refl h) fun heq => absurd heq hchecked
  | cons i position ih =>
    obtain ⟨info, children⟩ := n
    obtain ⟨c, hget, hrest⟩ := Option.bind_eq_some_iff.mp hat
    have hc : c ∈ children := List.mem_of_getElem? hget
    obtain ⟨names, hfollow, hsets⟩ := ih (grown_of_mem h c hc) hrest next
    obtain ⟨f, hshape, hfield, hchild⟩ := childNamed?_of_mem hdistinct h hc
    refine ⟨f.name :: names, by rw [TreeNode.follow?, hchild]; exact hfollow, ?_⟩
    rw [setAt, hget]
    exact setsMark_parent hdistinct h hget hshape hfield hchild hsets rfl

theorem at?_of_follow? {names : List String} {n m : TreeNode} (h : n.follow? names = some m) :
    ∃ position, n.at? position = some m := by
  induction names generalizing n with
  | nil => exact ⟨[], h⟩
  | cons name names ih =>
    obtain ⟨c, hchild, hrest⟩ := Option.bind_eq_some_iff.mp h
    obtain ⟨position, hposition⟩ := ih hrest
    obtain ⟨i, hi, hget⟩ := List.getElem_of_mem (List.mem_of_find?_eq_some hchild)
    refine ⟨i :: position, ?_⟩
    rw [TreeNode.at?, List.getElem?_eq_getElem hi, hget]
    exact hposition

/-- A field of an expanded node is that of the child that is found under its name. -/
theorem childIndex?_cases
    (h : List.Forall₂ (fun c f => c.info.blank = b.childShape chain info f) children
      (b.fieldsOf info)) (name : String) :
    ((TreeNode.mk info children).childIndex? name = none ∧
        (b.fieldsOf info).find? (·.name == name) = none) ∨
      ∃ i c f, (TreeNode.mk info children).childIndex? name = some i ∧ children[i]? = some c ∧
        c.path.leafName? = some name ∧ c.info.blank = b.childShape chain info f ∧
        (b.fieldsOf info).find? (·.name == name) = some f := by
  have hindex := findIdx?_cases (fun c : TreeNode => c.path.leafName? == some name) children
  rcases childNamed?_cases h name with ⟨hnone, hnofield⟩ | ⟨c, f, hshape, -, hchild, hfield⟩
  · left
    have hnone : children.find? (fun c => c.path.leafName? == some name) = none := hnone
    rcases hindex with ⟨hidx, -⟩ | ⟨i, c, -, -, hfind⟩
    · exact ⟨hidx, hnofield⟩
    · rw [hnone] at hfind
      cases hfind
  · right
    have hchild : children.find? (fun c => c.path.leafName? == some name) = some c := hchild
    have hleaf : c.path.leafName? = some name := by simpa using List.find?_some hchild
    rcases hindex with ⟨-, hnone⟩ | ⟨i, found, hidx, hget, hfind⟩
    · rw [hchild] at hnone
      cases hnone
    · obtain rfl : c = found := by simpa [hchild] using hfind
      exact ⟨i, c, f, hidx, hget, hleaf, hshape, hfield⟩

theorem childNamed?_set_of_childIndex? {i : Nat} {c c' : TreeNode} {name : String}
    (hindex : (TreeNode.mk info children).childIndex? name = some i)
    (hleaf : c.path.leafName? = some name) (hpath : c'.path = c.path) :
    (TreeNode.mk info (children.set i c')).childNamed? name = some c' := by
  have hname : (c'.path.leafName? == some name) = true := by
    rw [hpath, hleaf]
    exact beq_self_eq_true _
  exact find?_set_of_findIdx? hindex hname

/-- Names lead to a number exactly if the tree shows them. -/
theorem found_expandAlong (names : List String) {n : TreeNode} (h : Grown b chain n) (next : Nat) :
    ((b.expandAlong chain next names n).2.2.isSome = true ↔ b.Shows chain n.info names) ∧
      ∀ id, (b.expandAlong chain next names n).2.2 = some id →
        ∃ m, (b.expandAlong chain next names n).1.follow? names = some m ∧ m.id = id := by
  induction names generalizing chain n next with
  | nil =>
    constructor
    · exact ⟨fun _ => trivial, fun _ => rfl⟩
    · intro id hid
      exact ⟨n, rfl, by simpa [expandAlong] using hid⟩
  | cons name names ih =>
    have hfirst := extends_expand h next
    have hexpanded := expanded_expand b chain next n
    rw [← shows_iff_of_blank hfirst.blank, expandAlong]
    generalize b.expand chain next n = made at hfirst hexpanded
    obtain ⟨⟨info, children⟩, after⟩ := made
    dsimp only at hfirst ⊢
    have hshape := shape_of_expanded hfirst.grown hexpanded
    rcases childIndex?_cases hshape name with
      ⟨hindex, hnone⟩ | ⟨i, c, f, hindex, hget, hleaf, hcf, hf⟩
    · rw [hindex]
      dsimp only
      constructor
      · constructor
        · intro hsome
          cases hsome
        · intro hshows
          exact absurd hshows (not_shows_cons hnone names)
      · intro id hid
        cases hid
    · have hget' : (TreeNode.mk info children).children[i]? = some c := hget
      have hc := grown_of_mem hfirst.grown c (List.mem_of_getElem? hget)
      obtain ⟨hsome, hfound⟩ := ih hc after
      have hpath : (b.expandAlong (chainBelow chain info) after names c).1.path = c.path :=
        NodeInfo.path_eq_of_blank (extends_expandAlong names hc after).blank
      rw [hindex]
      dsimp only
      rw [hget']
      dsimp only
      constructor
      · exact hsome.trans (shows_cons_iff hcf hf names).symm
      · intro id hid
        obtain ⟨m, hm, hmid⟩ := hfound id hid
        refine ⟨m, ?_, hmid⟩
        rw [TreeNode.follow?]
        have hchild := childNamed?_set_of_childIndex? hindex hleaf hpath
        exact Option.bind_eq_some_iff.mpr ⟨_, hchild, hm⟩

end TreeBounds

end QueryPicker
