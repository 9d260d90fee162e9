import Mathlib
import QueryPicker.Proofs.SelectedPaths
import QueryPicker.Proofs.TreeNumbers
import QueryPicker.Tree.Basic

/-!
# Paths that a tree shows

A tree shows a path if it has a node for it or would make one when asked to. The paths that it shows
are settled by its schema and its bounds, and all of them can be selected. Nodes that have not been
made count as unchecked, so every path has a mark, and growth changes none.
-/

namespace QueryPicker

namespace TreeBounds

variable {b : TreeBounds} {p q : FieldPath}

/-- What is settled about the root of an operation, if its type is defined. -/
def rootShape? (b : TreeBounds) (op : Operation) : Option NodeInfo := do
  let name ← b.schema.rootTypeName? op
  let root ← b.schema.typeNamed? name
  return (SelectionTree.rootInfo op 0 name root).blank

/-- The tree has a node for the path or would make one. -/
def ShowsPath (b : TreeBounds) (p : FieldPath) : Prop :=
  ∃ op shape names, b.rootShape? op = some shape ∧ p = op.marker :: names ∧ b.Shows [] shape names

theorem rootShape?_eq_some {op : Operation} {shape : NodeInfo} (h : b.rootShape? op = some shape) :
    ∃ name root, b.schema.rootTypeName? op = some name ∧ b.schema.typeNamed? name = some root ∧
      shape = (SelectionTree.rootInfo op 0 name root).blank := by
  unfold rootShape? at h
  obtain ⟨name, hname, h⟩ := Option.bind_eq_some_iff.mp h
  obtain ⟨root, hroot, h⟩ := Option.bind_eq_some_iff.mp h
  exact ⟨name, root, hname, hroot, (Option.some.inj h).symm⟩

theorem path_of_rootShape? {op : Operation} {shape : NodeInfo} (h : b.rootShape? op = some shape) :
    shape.path = FieldPath.root op := by
  obtain ⟨name, root, -, -, rfl⟩ := rootShape?_eq_some h
  rfl

theorem ShowsPath.ne_nil (h : b.ShowsPath p) : p ≠ [] := by
  obtain ⟨op, shape, names, -, rfl, -⟩ := h
  simp

theorem ShowsPath.of_start (h : b.ShowsPath p) (hq : q <+: p) (hne : q ≠ []) : b.ShowsPath q := by
  obtain ⟨op, shape, names, hshape, rfl, hshows⟩ := h
  obtain ⟨more, hmore⟩ := hq
  obtain ⟨marker, names', rfl⟩ := List.exists_cons_of_ne_nil hne
  obtain ⟨rfl, rfl⟩ := List.cons.inj hmore
  exact ⟨op, shape, names', hshape, rfl, shows_of_append hshows⟩

theorem objectType?_childShape_eq_none (chain : List String) (info : NodeInfo) {f : Field}
    (hobject : b.schema.objectOf? f = none) : (b.childShape chain info f).objectType? = none := by
  show (b.childInfo _ info 0 f).objectType? = none
  simp [childInfo, enterable?, hobject]

/-- A child that can be entered has the type that its field leads to. -/
theorem eq_innerName_of_childShape {chain : List String} {info : NodeInfo} {f : Field}
    {typeName : String} (h : (b.childShape chain info f).objectType? = some typeName) :
    typeName = f.type.innerName := by
  have hchild : (b.childInfo (chainBelow chain info) info 0 f).objectType? = some typeName := h
  simp only [childInfo, enterable?] at hchild
  split at hchild
  · rename_i name hentered
    have hname : name = f.type.innerName := by
      split at hentered
      · split at hentered
        · cases hentered
        · exact (Option.some.inj hentered).symm
      · cases hentered
    split at hchild
    · cases hchild
    · exact (Option.some.inj hchild).symm.trans hname
  · cases hchild

/-- What a tree shows below a node leads on along the schema. -/
theorem selects_of_shows {chain : List String} {info : NodeInfo} {names : List String} {t : TypeDef}
    (htype : ∀ name, info.objectType? = some name → b.schema.typeNamed? name = some t)
    (h : b.Shows chain info names) : b.schema.Selects t names := by
  induction names generalizing chain info t with
  | nil => trivial
  | cons name names ih =>
    obtain ⟨f, hf, hnames⟩ := h
    have hfields : b.fieldsOf info = t.fields := by
      cases hobject : info.objectType? with
      | none => simp [fieldsOf, hobject] at hf
      | some typeName => simp [fieldsOf, hobject, htype typeName hobject]
    rw [hfields] at hf
    refine ⟨f, hf, ?_⟩
    by_cases hnil : names = []
    · exact Or.inl hnil
    · right
      obtain ⟨next, more, rfl⟩ := List.exists_cons_of_ne_nil hnil
      cases hobject : b.schema.objectOf? f with
      | none =>
        obtain ⟨g, hg, -⟩ := hnames
        have hleaf := objectType?_childShape_eq_none chain info hobject
        simp [fieldsOf, hleaf] at hg
      | some inner =>
        refine ⟨inner, rfl, ih ?_ hnames⟩
        intro typeName htypeName
        rw [eq_innerName_of_childShape htypeName]
        exact (Option.filter_eq_some_iff.mp hobject).1

theorem ShowsPath.selectable (h : b.ShowsPath p) : b.schema.Selectable p := by
  obtain ⟨op, shape, names, hshape, rfl, hshows⟩ := h
  obtain ⟨name, root, hname, hroot, rfl⟩ := rootShape?_eq_some hshape
  refine ⟨op, root, names, ?_, rfl, selects_of_shows ?_ hshows⟩
  · rw [Schema.rootType?, hname]
    exact hroot
  · intro typeName htypeName
    have hobject : (if root.fields.isEmpty then none else some name) = some typeName := htypeName
    split at hobject
    · cases hobject
    · cases hobject
      exact hroot

end TreeBounds

namespace SelectionTree

open TreeBounds

variable {t : SelectionTree} {p q : FieldPath}

/-- A tree as it is built, grown and marked: a root for each operation with a defined type, and each
of the first numbers used once. -/
structure IsGrown (t : SelectionTree) : Prop where
  roots : t.roots.map (·.info.blank) = Operation.all.filterMap t.bounds.rootShape?
  grown : ∀ r ∈ t.roots, Grown t.bounds [] r
  numbers : (TreeNode.idsOf t.roots).Perm (List.range t.next)

/-- The mark at a path. -/
def markAt (t : SelectionTree) (p : FieldPath) : CheckState :=
  match t.find? p with
  | some n => n.state
  | none => .unchecked

theorem IsGrown.root_of_mem (h : t.IsGrown) {r : TreeNode} (hr : r ∈ t.roots) :
    ∃ op, t.bounds.rootShape? op = some r.info.blank ∧ r.path = FieldPath.root op := by
  have hmem : r.info.blank ∈ t.roots.map (·.info.blank) := List.mem_map.mpr ⟨r, hr, rfl⟩
  rw [h.roots] at hmem
  obtain ⟨op, -, hop⟩ := List.mem_filterMap.mp hmem
  have hpath : r.info.blank.path = FieldPath.root op := path_of_rootShape? hop
  exact ⟨op, hop, hpath⟩

theorem IsGrown.nodup_paths (h : t.IsGrown) : (t.roots.map (·.path)).Nodup := by
  have heq : t.roots.map (·.path) =
      Operation.all.filterMap fun op => (t.bounds.rootShape? op).map (·.path) := by
    rw [← List.map_filterMap, ← h.roots, List.map_map]
    rfl
  rw [heq]
  apply List.Nodup.filterMap _ (by decide)
  intro op op' p hp hp'
  obtain ⟨shape, hshape, rfl⟩ := Option.map_eq_some_iff.mp hp
  obtain ⟨shape', hshape', hpath⟩ := Option.map_eq_some_iff.mp hp'
  rw [path_of_rootShape? hshape, path_of_rootShape? hshape'] at hpath
  exact (Operation.marker_injective (List.cons.inj hpath).1).symm

/-- A path starts at the root that is named first in it. -/
theorem IsGrown.rootIndex?_cases (h : t.IsGrown) (p : FieldPath) :
    (t.rootIndex? p = none ∧ ¬ t.bounds.ShowsPath p) ∨
      ∃ i r, t.rootIndex? p = some i ∧ t.roots[i]? = some r ∧ p = r.path ++ p.fieldSegments ∧
        (t.bounds.ShowsPath p ↔ t.bounds.Shows [] r.info p.fieldSegments) := by
  cases p with
  | nil => exact Or.inl ⟨rfl, fun hshows => hshows.ne_nil rfl⟩
  | cons marker names =>
    rcases findIdx?_cases (fun r : TreeNode => r.path.rootMarker? == some marker) t.roots with
      ⟨hidx, hnone⟩ | ⟨i, r, hidx, hget, hfind⟩
    · refine Or.inl ⟨hidx, ?_⟩
      rintro ⟨op, shape, names', hshape, hp, -⟩
      obtain ⟨rfl, rfl⟩ := List.cons.inj hp
      have hmem : shape ∈ t.roots.map (·.info.blank) := by
        rw [h.roots]
        exact List.mem_filterMap.mpr ⟨op, by cases op <;> decide, hshape⟩
      obtain ⟨r, hr, rfl⟩ := List.mem_map.mp hmem
      have hpath : r.info.blank.path = FieldPath.root op := path_of_rootShape? hshape
      have hpath : r.path = FieldPath.root op := hpath
      have hnot := List.find?_eq_none.mp hnone r hr
      rw [hpath] at hnot
      simp [FieldPath.root, FieldPath.rootMarker?] at hnot
    · refine Or.inr ⟨i, r, hidx, hget, ?_⟩
      obtain ⟨op, hshape, hpath⟩ := h.root_of_mem (List.mem_of_getElem? hget)
      have hmarker : op.marker = marker := by
        have hleaf := List.find?_some hfind
        rw [hpath] at hleaf
        simpa [FieldPath.root, FieldPath.rootMarker?] using hleaf
      subst hmarker
      refine ⟨by rw [hpath]; rfl, ?_⟩
      constructor
      · rintro ⟨op', shape, names', hshape', hp, hshows⟩
        obtain ⟨hmarker, rfl⟩ := List.cons.inj hp
        obtain rfl := Operation.marker_injective hmarker
        obtain rfl : r.info.blank = shape := by simpa [hshape] using hshape'
        exact (shows_blank names).mp hshows
      · intro hshows
        exact ⟨op, r.info.blank, names, hshape, rfl, (shows_blank names).mpr hshows⟩

theorem IsGrown.rootIndex?_of_getElem? (h : t.IsGrown) {i : Nat} {r : TreeNode}
    (hget : t.roots[i]? = some r) (names : List String) :
    t.rootIndex? (r.path ++ names) = some i ∧ (r.path ++ names).fieldSegments = names := by
  obtain ⟨op, hshape, hpath⟩ := h.root_of_mem (List.mem_of_getElem? hget)
  refine ⟨?_, by rw [hpath]; rfl⟩
  rcases h.rootIndex?_cases (r.path ++ names) with ⟨hnone, -⟩ | ⟨j, r', hidx, hget', hp, -⟩
  · rw [hpath] at hnone
    have hall := List.findIdx?_eq_none_iff.mp hnone r (List.mem_of_getElem? hget)
    rw [hpath] at hall
    simp [FieldPath.root, FieldPath.rootMarker?] at hall
  · have hsame : r'.path = r.path := by
      obtain ⟨op', -, hpath'⟩ := h.root_of_mem (List.mem_of_getElem? hget')
      rw [hpath, hpath'] at hp ⊢
      obtain ⟨hmarker, -⟩ := List.cons.inj hp
      exact congrArg (fun m => [m]) hmarker.symm
    have hi : (t.roots.map (·.path))[i]? = some r.path := by rw [List.getElem?_map, hget]; rfl
    have hj : (t.roots.map (·.path))[j]? = some r.path := by
      rw [List.getElem?_map, hget', ← hsame]
      rfl
    have hlt := (List.getElem?_eq_some_iff.mp hi).1
    have heq : i = j := (List.getElem?_inj hlt h.nodup_paths).mp (hi.trans hj.symm)
    rw [hidx, heq]

theorem mem_nodes {x : NodeInfo} : x ∈ t.nodes ↔ ∃ r ∈ t.roots, x ∈ r.preorder := by
  rw [nodes, List.mem_flatMap]
  apply exists_congr
  intro r
  rw [TreeNode.info_cons_descendants]

theorem markAt_of_rootIndex? {i : Nat} {r : TreeNode} (hidx : t.rootIndex? p = some i)
    (hget : t.roots[i]? = some r) : t.markAt p = r.markAt p.fieldSegments := by
  rw [markAt, find?, hidx, Option.bind_some, hget, Option.bind_some]
  rfl

theorem markAt_of_rootIndex?_eq_none (hidx : t.rootIndex? p = none) : t.markAt p = .unchecked := by
  rw [markAt, find?, hidx]
  rfl

theorem IsGrown.markAt_root (h : t.IsGrown) {i : Nat} {r : TreeNode} (hget : t.roots[i]? = some r)
    (names : List String) : t.markAt (r.path ++ names) = r.markAt names := by
  obtain ⟨hidx, hnames⟩ := h.rootIndex?_of_getElem? hget names
  rw [markAt_of_rootIndex? hidx hget, hnames]

theorem IsGrown.showsPath_iff (h : t.IsGrown) {i : Nat} {r : TreeNode} (hget : t.roots[i]? = some r)
    (names : List String) :
    t.bounds.ShowsPath (r.path ++ names) ↔ t.bounds.Shows [] r.info names := by
  obtain ⟨hidx, hnames⟩ := h.rootIndex?_of_getElem? hget names
  rcases h.rootIndex?_cases (r.path ++ names) with ⟨hnone, -⟩ | ⟨j, d, hidx', hgetj, -, hshows⟩
  · rw [hidx] at hnone
    cases hnone
  · obtain rfl : i = j := by simpa [hidx] using hidx'
    obtain rfl : r = d := by simpa [hget] using hgetj
    rwa [hnames] at hshows

/-- A node shows its path and has the mark there. -/
theorem IsGrown.node_spec (h : t.IsGrown) (hdistinct : t.bounds.schema.DistinctFields)
    {x : NodeInfo} (hx : x ∈ t.nodes) : t.bounds.ShowsPath x.path ∧ t.markAt x.path = x.state ∧
      (x.field?.isSome = true ↔ 2 ≤ x.path.length) := by
  obtain ⟨r, hr, hx⟩ := mem_nodes.mp hx
  obtain ⟨names, m, hfollow, rfl⟩ := follow?_of_mem hdistinct (h.grown r hr) hx
  obtain ⟨hshows, hm, -, hfield⟩ := follow?_spec (h.grown r hr) hfollow
  obtain ⟨op, hshape, hpath⟩ := h.root_of_mem hr
  obtain ⟨i, hi, hget⟩ := List.getElem_of_mem hr
  have hget : t.roots[i]? = some r := by rw [List.getElem?_eq_getElem hi, hget]
  have hm : m.info.path = r.path ++ names := hm
  rw [hm]
  refine ⟨(h.showsPath_iff hget names).mpr hshows, ?_, ?_⟩
  · rw [h.markAt_root hget, TreeNode.markAt, hfollow]
    rfl
  · rw [hpath]
    cases names with
    | nil =>
      obtain rfl : r = m := by simpa [TreeNode.follow?] using hfollow
      obtain ⟨name, root, -, -, hblank⟩ := rootShape?_eq_some hshape
      have hnone : r.info.blank.field? = none := by
        rw [hblank]
        rfl
      have hnone : r.info.field? = none := hnone
      simp [hnone, FieldPath.root]
    | cons name names =>
      simp [hfield (by simp), FieldPath.root]

/-- Where something is marked there is a node. -/
theorem IsGrown.exists_node (h : t.IsGrown) (hp : t.markAt p ≠ .unchecked) :
    ∃ x ∈ t.nodes, x.path = p ∧ x.state = t.markAt p := by
  rcases h.rootIndex?_cases p with ⟨hnone, -⟩ | ⟨i, r, hidx, hget, hpath, -⟩
  · simp [markAt, find?, hnone] at hp
  · have hr := List.mem_of_getElem? hget
    rw [markAt_of_rootIndex? hidx hget, TreeNode.markAt] at hp ⊢
    cases hfollow : r.follow? p.fieldSegments with
    | none => simp [hfollow] at hp
    | some m =>
      obtain ⟨-, hm, hmem, -⟩ := follow?_spec (h.grown r hr) hfollow
      exact ⟨m.info, mem_nodes.mpr ⟨r, hr, hmem⟩, hm.trans hpath.symm, rfl⟩

/-- Below an unchecked node nothing is marked. -/
theorem IsGrown.markAt_of_start (h : t.IsGrown) (hne : p ≠ []) (hmark : t.markAt p = .unchecked)
    (hstart : p <+: q) : t.markAt q = .unchecked := by
  obtain ⟨more, rfl⟩ := hstart
  rcases h.rootIndex?_cases p with ⟨hnone, -⟩ | ⟨i, r, -, hget, hpath, -⟩
  · obtain ⟨marker, names, rfl⟩ := List.exists_cons_of_ne_nil hne
    exact markAt_of_rootIndex?_eq_none hnone
  · rw [hpath, h.markAt_root hget] at hmark
    rw [hpath, List.append_assoc, h.markAt_root hget]
    exact markAt_append (h.grown r (List.mem_of_getElem? hget)) hmark more

/-- The tree with other roots. -/
def withRoots (t : SelectionTree) (roots : List TreeNode) (next : Nat) : SelectionTree :=
  { t with roots, next }

section WithRoots

variable {next : Nat} {roots : List TreeNode}

theorem IsGrown.withRoots (h : t.IsGrown)
    (hblank : List.Forall₂ (fun r r' => r'.info.blank = r.info.blank) t.roots roots)
    (hgrown : ∀ r ∈ roots, Grown t.bounds [] r)
    (hnumbers : NumbersAdded t.next next (TreeNode.idsOf t.roots) (TreeNode.idsOf roots)) :
    (t.withRoots roots next).IsGrown := by
  refine ⟨(map_eq_of_forall₂ hblank).trans h.roots, hgrown, ?_⟩
  obtain ⟨count, rfl, hperm⟩ := hnumbers
  show (TreeNode.idsOf roots).Perm (List.range (t.next + count))
  refine hperm.trans ((h.numbers.append_right _).trans ?_)
  rw [List.range_eq_range', List.range_eq_range', ← List.range'_append_1, Nat.zero_add]

theorem rootIndex?_withRoots
    (hblank : List.Forall₂ (fun r r' => r'.info.blank = r.info.blank) t.roots roots) (next : Nat)
    (p : FieldPath) : (t.withRoots roots next).rootIndex? p = t.rootIndex? p := by
  have hpaths : roots.map (·.path) = t.roots.map (·.path) :=
    map_eq_of_forall₂ (hblank.imp fun _ _ hr => NodeInfo.path_eq_of_blank hr)
  have hindex : ∀ (roots : List TreeNode) (marker : String),
      roots.findIdx? (fun r => r.path.rootMarker? == some marker) =
        (roots.map (·.path)).findIdx? (·.rootMarker? == some marker) := by
    intro roots marker
    rw [List.findIdx?_map]
    rfl
  rw [rootIndex?, rootIndex?]
  congr 1
  funext marker
  show roots.findIdx? _ = t.roots.findIdx? _
  rw [hindex, hindex, hpaths]

end WithRoots

end SelectionTree

end QueryPicker
