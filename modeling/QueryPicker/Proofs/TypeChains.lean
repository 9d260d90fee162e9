import Mathlib
import QueryPicker.Proofs.CheckedLeaves
import QueryPicker.Proofs.PathRange

/-!
# Types on the way to a node

On the way from a root to a node no type is entered twice, however the types refer to each other.
So the path of a node is at most one longer than the number of types, whatever the greatest depth.
-/

namespace QueryPicker

namespace TreeNode

/-- The types of the nodes on the way to a position, in the order in which they are entered. -/
def typesAlong (position : List Nat) (n : TreeNode) : List String :=
  position.inits.filterMap fun p => (n.at? p).bind (·.info.objectType?)

theorem typesAlong_nil (n : TreeNode) : n.typesAlong [] = n.info.objectType?.toList := by
  cases hobject : n.info.objectType? <;> simp [typesAlong, at?, hobject]

theorem typesAlong_cons (i : Nat) (position : List Nat) (n : TreeNode) :
    n.typesAlong (i :: position) = n.info.objectType?.toList ++
      (n.children[i]?.map (typesAlong position)).getD [] := by
  have hbelow : (position.inits.map (i :: ·)).filterMap
      (fun p => (n.at? p).bind (·.info.objectType?)) =
        (n.children[i]?.map (typesAlong position)).getD [] := by
    rw [List.filterMap_map]
    cases hget : n.children[i]? with
    | none => simp [at?, hget]
    | some c => simp [at?, hget, typesAlong]
  rw [typesAlong, List.inits_cons, List.filterMap_cons, hbelow]
  cases hobject : n.info.objectType? <;> simp [at?, hobject]

end TreeNode

namespace TreeBounds

variable {b : TreeBounds} {chain : List String} {info : NodeInfo} {children : List TreeNode}
  {n m : TreeNode} {position : List Nat}

theorem entersNew_of_mem {c : TreeNode} (h : Grown b chain (.mk info children))
    (hc : c ∈ children) : EntersNew (chainBelow chain info) c.info := by
  obtain ⟨i, hi, rfl⟩ := List.getElem_of_mem hc
  obtain ⟨f, -, hcf⟩ := getElem?_of_forall₂ (shape_of_mem h hc) (List.getElem?_eq_getElem hi)
  have hobject : children[i].info.objectType? = (b.childShape chain info f).objectType? :=
    (NodeInfo.eq_of_blank hcf).2.2.2
  intro name hname
  exact entersNew_childInfo b (chainBelow chain info) info 0 f name (hobject ▸ hname)

theorem nodup_chainBelow (hchain : chain.Nodup) (hnew : EntersNew chain info) :
    (chainBelow chain info).Nodup := by
  rw [chainBelow]
  cases hobject : info.objectType? with
  | none => exact hchain
  | some name => exact List.nodup_cons.mpr ⟨hnew name hobject, hchain⟩

theorem nodup_typesAlong (h : Grown b chain n) (hchain : chain.Nodup)
    (hnew : EntersNew chain n.info) (position : List Nat) :
    (n.typesAlong position ++ chain).Nodup := by
  induction position generalizing chain n with
  | nil =>
    rw [TreeNode.typesAlong_nil]
    exact nodup_chainBelow hchain hnew
  | cons i position ih =>
    obtain ⟨info, children⟩ := n
    rw [TreeNode.typesAlong_cons]
    cases hget : (TreeNode.mk info children).children[i]? with
    | none =>
      rw [Option.map_none, Option.getD_none, List.append_nil]
      exact nodup_chainBelow hchain hnew
    | some c =>
      have hc : c ∈ children := List.mem_of_getElem? hget
      have hbelow := ih (grown_of_mem h c hc) (nodup_chainBelow hchain hnew) (entersNew_of_mem h hc)
      refine List.Perm.nodup ?_ hbelow
      rw [Option.map_some, Option.getD_some, chainBelow, ← List.append_assoc]
      exact List.perm_append_comm.append_right chain

/-- With each level another of the types has been entered. -/
theorem length_position_le (h : Grown b chain n) (hchain : chain.Nodup)
    (hnew : EntersNew chain n.info) (hknown : chain ⊆ b.schema.types.map (·.1))
    (hat : n.at? position = some m) : position.length + chain.length ≤ b.schema.types.length := by
  induction position generalizing chain n with
  | nil =>
    have hle := (hchain.subperm hknown).length_le
    rw [List.length_map] at hle
    simpa using hle
  | cons i position ih =>
    obtain ⟨info, children⟩ := n
    obtain ⟨c, hget, hrest⟩ := Option.bind_eq_some_iff.mp hat
    have hc : c ∈ children := List.mem_of_getElem? hget
    obtain ⟨name, t, hobject, htype, -⟩ := exists_type_of_mem h hc
    have hname : name ∈ b.schema.types.map (·.1) :=
      List.mem_map.mpr ⟨_, Schema.mem_types_of_typeNamed? htype, rfl⟩
    have hbelow : chainBelow chain info = name :: chain := by
      rw [chainBelow, hobject]
      rfl
    have hknown' : chainBelow chain info ⊆ b.schema.types.map (·.1) := by
      rw [hbelow]
      exact List.cons_subset.mpr ⟨hname, hknown⟩
    have hle := ih (grown_of_mem h c hc) (nodup_chainBelow hchain hnew) (entersNew_of_mem h hc)
      hknown' hrest
    rw [hbelow, List.length_cons] at hle
    rw [List.length_cons]
    omega

/-- A path is as long as the position of its node is deep. -/
theorem length_path_of_at? (h : Grown b chain n) (hat : n.at? position = some m) :
    m.path.length = n.path.length + position.length := by
  induction position generalizing chain n with
  | nil =>
    obtain rfl : n = m := by simpa [TreeNode.at?] using hat
    rfl
  | cons i position ih =>
    obtain ⟨info, children⟩ := n
    obtain ⟨c, hget, hrest⟩ := Option.bind_eq_some_iff.mp hat
    obtain ⟨f, -, hcf⟩ := getElem?_of_forall₂ (shape_of_mem h (List.mem_of_getElem? hget)) hget
    have hpath : c.path = info.path.child f.name := NodeInfo.path_eq_of_blank hcf
    rw [ih (grown_of_mem h c (List.mem_of_getElem? hget)) hrest, hpath, FieldPath.length_child,
      List.length_cons]
    show _ = info.path.length + _
    omega

end TreeBounds

namespace SelectionTree

open TreeBounds

variable {t : SelectionTree} {position : List Nat} {n : TreeNode}

/-- The types of the nodes on the way to a position, in the order in which they are entered. -/
def typesAlong (t : SelectionTree) (position : List Nat) : List String :=
  position.inits.filterMap fun p => (t.nodeAt? p).bind (·.info.objectType?)

theorem typesAlong_of_root {i : Nat} {r : TreeNode} (hget : t.roots[i]? = some r)
    (rest : List Nat) : t.typesAlong (i :: rest) = r.typesAlong rest := by
  rw [typesAlong, List.inits_cons, List.filterMap_cons, List.filterMap_map]
  simp [Function.comp_def, nodeAt?, hget, TreeNode.typesAlong]

theorem IsGrown.nodup_typesAlong (h : t.IsGrown) (hat : t.nodeAt? position = some n) :
    (t.typesAlong position).Nodup := by
  obtain ⟨i, rest, r, rfl, hget, hrest⟩ := exists_of_nodeAt? hat
  have hr := h.grown r (List.mem_of_getElem? hget)
  have hnodup := TreeBounds.nodup_typesAlong hr List.nodup_nil (fun _ _ => List.not_mem_nil) rest
  rw [typesAlong_of_root hget]
  simpa using hnodup

theorem IsGrown.length_path_le (h : t.IsGrown) (hat : t.nodeAt? position = some n) :
    n.path.length ≤ t.bounds.schema.types.length + 1 := by
  obtain ⟨i, rest, r, rfl, hget, hrest⟩ := exists_of_nodeAt? hat
  have hr := h.grown r (List.mem_of_getElem? hget)
  obtain ⟨op, -, hpath⟩ := h.root_of_mem (List.mem_of_getElem? hget)
  have hle := length_position_le hr List.nodup_nil (fun _ _ => List.not_mem_nil)
    (List.nil_subset _) hrest
  rw [length_path_of_at? hr hrest, hpath]
  simp only [FieldPath.root, List.length_cons, List.length_nil] at hle ⊢
  omega

end SelectionTree

end QueryPicker
