import Mathlib
import QueryPicker.Proofs.MadeNodes
import QueryPicker.Proofs.NodePaths

/-!
# Bounded paths

The paths of a tree are settled by the schema and the greatest depth: a path goes on below a field
as long as the field leads to an object type with fields that has not been entered on the way, and
is not too long yet. Walking such a path makes its node, and growing a tree to a depth makes the
nodes of all such paths up to that length, whatever has been made or marked before.
-/

namespace QueryPicker

namespace TreeBounds

open TreeNode

/-- The path enters the type. On the way to it the types of the chain have been entered, the type
itself first and that of the root last. -/
inductive Enters (b : TreeBounds) : FieldPath → List String → TypeDef → Prop where
  | root {op name root} : b.schema.rootTypeName? op = some name →
      b.schema.typeNamed? name = some root → Enters b (.root op) [name] root
  | field {p chain t f t'} : Enters b p chain t → t.field? f.name = some f →
      b.schema.typeNamed? f.type.innerName = some t' → t'.kind = .object → t'.fields ≠ [] →
      f.type.innerName ∉ chain → (p.child f.name).length < b.maxDepth →
      Enters b (p.child f.name) (f.type.innerName :: chain) t'

/-- The path is that of an operation with a root type, or of a field of a type that is entered. -/
inductive IsBounded (b : TreeBounds) : FieldPath → Prop where
  | root {op root} : b.schema.rootType? op = some root → IsBounded b (.root op)
  | field {p chain t f} : b.Enters p chain t → t.field? f.name = some f →
      IsBounded b (p.child f.name)

variable {b : TreeBounds} {chain : List String} {info : NodeInfo} {children : List TreeNode}
  {n n' : TreeNode} {p : FieldPath} {t t' : TypeDef} {f : Field} {depth : Nat}

/-- When the node for a field can be entered, and as which type. -/
theorem objectType?_childShape_eq_some_iff {name : String} :
    (b.childShape chain info f).objectType? = some name ↔ f.type.innerName = name ∧
      (∃ t, b.schema.typeNamed? f.type.innerName = some t ∧ t.kind = .object ∧ t.fields ≠ []) ∧
        f.type.innerName ∉ chainBelow chain info ∧
          (info.path.child f.name).length < b.maxDepth := by
  have hchild : (b.childShape chain info f).objectType? =
      (b.childInfo (chainBelow chain info) info 0 f).objectType? := rfl
  rw [hchild]
  simp only [childInfo, enterable?, Schema.objectOf?]
  cases htype : b.schema.typeNamed? f.type.innerName with
  | none => simp
  | some t =>
    by_cases hkind : t.kind = .object
    · by_cases hfields : t.fields = []
      · simp [Option.filter, hkind, hfields]
      · simp only [Option.filter, hkind, hfields, decide_true, if_true, List.isEmpty_iff, if_false]
        by_cases hstop : f.type.innerName ∈ chainBelow chain info ∨
            b.maxDepth ≤ (info.path.child f.name).length
        · rw [if_pos hstop]
          refine iff_of_false (Option.some_ne_none name).symm ?_
          rintro ⟨-, -, hnew, hlength⟩
          exact hstop.elim hnew hlength.not_ge
        · rw [if_neg hstop]
          obtain ⟨hnew, hlength⟩ := not_or.mp hstop
          simp [hnew, not_le.mp hlength, hkind, hfields]
    · simp [Option.filter, hkind]

theorem field?_eq_of_fieldsOf (h : b.fieldsOf info = t.fields) (name : String) :
    (b.fieldsOf info).find? (·.name == name) = t.field? name := by
  rw [h, TypeDef.field?]

/-- What is shown below an entered type is bounded. -/
theorem isBounded_of_shows (henters : b.Enters p (chainBelow chain info) t)
    (hpath : info.path = p) (hfields : b.fieldsOf info = t.fields) {names : List String}
    (hnames : names ≠ []) (h : b.Shows chain info names) : b.IsBounded (p ++ names) := by
  induction names generalizing p chain info t with
  | nil => exact absurd rfl hnames
  | cons name names ih =>
    obtain ⟨f, hf, hshows⟩ := h
    have hname : f.name = name := by simpa using List.find?_some hf
    rw [field?_eq_of_fieldsOf hfields, ← hname] at hf
    have hchild : p ++ name :: names = p.child f.name ++ names := by
      rw [FieldPath.child, List.append_assoc, hname]
      rfl
    rw [hchild]
    cases names with
    | nil =>
      rw [List.append_nil]
      exact .field henters hf
    | cons next more =>
      obtain ⟨g, hg, -⟩ := id hshows
      cases hobject : (b.childShape chain info f).objectType? with
      | none => simp [fieldsOf, hobject] at hg
      | some typeName =>
        obtain ⟨rfl, ⟨t', htype, hkind, hne⟩, hnew, hlength⟩ :=
          objectType?_childShape_eq_some_iff.mp hobject
        have hbelow : chainBelow (chainBelow chain info) (b.childShape chain info f) =
            f.type.innerName :: chainBelow chain info := by
          rw [chainBelow, hobject]
          rfl
        rw [hpath] at hlength
        refine ih (t := t') ?_ ?_ ?_ (List.cons_ne_nil _ _) hshows
        · rw [hbelow]
          exact .field henters hf htype hkind hne hnew hlength
        · exact congrArg (FieldPath.child · f.name) hpath
        · simp [fieldsOf, hobject, htype]

/-- The names that lead to an entered type lead to a node with its fields. What is shown below that
node is shown at the end of the path. -/
theorem exists_info_of_enters (h : b.Enters p chain t) :
    ∃ op shape names, b.rootShape? op = some shape ∧ p = op.marker :: names ∧
      ∃ chain' info, chainBelow chain' info ⊆ chain ∧ info.path = p ∧ b.fieldsOf info = t.fields ∧
        ∀ more, b.Shows chain' info more → b.Shows [] shape (names ++ more) := by
  induction h with
  | @root op name root hname hroot =>
    have hshape : b.rootShape? op = some (SelectionTree.rootInfo op 0 name root).blank := by
      simp [rootShape?, hname, hroot]
    refine ⟨op, (SelectionTree.rootInfo op 0 name root).blank, [], hshape, rfl, [],
      (SelectionTree.rootInfo op 0 name root).blank, ?_, rfl, ?_, fun _ hshows => hshows⟩
    · cases hempty : root.fields.isEmpty <;>
        simp [chainBelow, NodeInfo.blank, SelectionTree.rootInfo, hempty]
    · cases hempty : root.fields.isEmpty with
      | true => simp_all [fieldsOf, NodeInfo.blank, SelectionTree.rootInfo]
      | false => simp [fieldsOf, NodeInfo.blank, SelectionTree.rootInfo, hempty, hroot]
  | @field p chain t f t' _ hf htype hkind hne hnew hlength ih =>
    obtain ⟨op, shape, names, hshape, rfl, chain', info, hchain, hpath, hfields, hshows⟩ := ih
    have hobject : (b.childShape chain' info f).objectType? = some f.type.innerName :=
      objectType?_childShape_eq_some_iff.mpr ⟨rfl, ⟨t', htype, hkind, hne⟩,
        fun hmem => hnew (hchain hmem), hpath ▸ hlength⟩
    refine ⟨op, shape, names ++ [f.name], hshape, rfl, chainBelow chain' info,
      b.childShape chain' info f, ?_, ?_, ?_, ?_⟩
    · rw [chainBelow, hobject]
      exact List.cons_subset_cons _ hchain
    · exact congrArg (FieldPath.child · f.name) hpath
    · simp [fieldsOf, hobject, htype]
    · intro more hmore
      rw [List.append_assoc]
      refine hshows (f.name :: more) ⟨f, ?_, hmore⟩
      rw [field?_eq_of_fieldsOf hfields]
      exact hf

/-- A tree shows the bounded paths. -/
theorem showsPath_iff_isBounded : b.ShowsPath p ↔ b.IsBounded p := by
  constructor
  · rintro ⟨op, shape, names, hshape, rfl, hshows⟩
    obtain ⟨name, root, hname, hroot, rfl⟩ := rootShape?_eq_some hshape
    cases names with
    | nil =>
      have hroot : b.schema.rootType? op = some root := by
        rw [Schema.rootType?, hname]
        exact hroot
      exact .root hroot
    | cons next more =>
      have hempty : root.fields.isEmpty = false := by
        obtain ⟨f, hf, -⟩ := hshows
        by_contra hempty
        simp_all [fieldsOf, NodeInfo.blank, SelectionTree.rootInfo]
      have hobject : (SelectionTree.rootInfo op 0 name root).blank.objectType? = some name := by
        simp [NodeInfo.blank, SelectionTree.rootInfo, hempty]
      refine isBounded_of_shows (p := .root op) (t := root) ?_ rfl ?_ (List.cons_ne_nil _ _) hshows
      · rw [chainBelow, hobject]
        exact .root hname hroot
      · simp [fieldsOf, hobject, hroot]
  · intro h
    cases h with
    | @root op root hroot =>
      obtain ⟨name, hname, hroot⟩ := Option.bind_eq_some_iff.mp hroot
      exact ⟨op, (SelectionTree.rootInfo op 0 name root).blank, [],
        by simp [rootShape?, hname, hroot], rfl, trivial⟩
    | @field p chain t f henters hf =>
      obtain ⟨op, shape, names, hshape, rfl, chain', info, -, -, hfields, hshows⟩ :=
        exists_info_of_enters henters
      refine ⟨op, shape, names ++ [f.name], hshape, rfl, hshows [f.name] ⟨f, ?_, trivial⟩⟩
      rw [field?_eq_of_fieldsOf hfields]
      exact hf

/-- Of what is shown, the second node has what the first has, and all that lies within the depth. -/
def MakesTo (b : TreeBounds) (depth : Nat) (chain : List String) (n n' : TreeNode) : Prop :=
  Makes b chain n n' fun names => n.path.length + names.length ≤ depth

/-- Nodes below an expanded node are found through its children. -/
theorem makesTo_children {children' : List TreeNode} (h : Grown b chain (.mk info children))
    (hexpanded : info.expanded = true)
    (hchildren : List.Forall₂ (fun c c' => c'.info.blank = c.info.blank ∧
      MakesTo b depth (chainBelow chain info) c c') children children') :
    MakesTo b depth chain (.mk info children) (.mk info children') := by
  have hshape := shape_of_expanded h hexpanded
  intro names
  cases names with
  | nil => exact iff_of_true (has_nil _) (.inl (has_nil _))
  | cons name names =>
    have hfound := find?_of_forall₂ (p := fun c : TreeNode => c.path.leafName? == some name)
      (q := fun c : TreeNode => c.path.leafName? == some name) hchildren fun c c' hc => by
        rw [show c'.path = c.path from NodeInfo.path_eq_of_blank hc.1]
    rcases childNamed?_cases hshape name with ⟨hnone, hnofield⟩ | ⟨c, f, hcf, -, hchild, hf⟩
    · rcases hfound with ⟨-, hnone'⟩ | ⟨c, -, -, hc, -⟩
      · refine iff_of_false (not_has_cons hnone') ?_
        rintro (hhas | ⟨hshows, -⟩)
        · exact not_has_cons hnone hhas
        · exact not_shows_cons hnofield names hshows
      · exact absurd (hnone.symm.trans hc) nofun
    · rcases hfound with ⟨hnone, -⟩ | ⟨d, c', ⟨-, hmakes⟩, hd, hc'⟩
      · exact absurd (hnone.symm.trans hchild) nofun
      · obtain rfl : d = c := Option.some.inj (hd.symm.trans hchild)
        have hpath : d.path = info.path.child f.name := NodeInfo.path_eq_of_blank hcf
        have hlength :
            d.path.length + names.length = info.path.length + (name :: names).length := by
          rw [hpath, FieldPath.length_child, List.length_cons]
          omega
        have hchild' : (TreeNode.mk info children').childNamed? name = some c' := hc'
        rw [has_cons hchild', has_cons hchild, hmakes names]
        refine or_congr_right (and_congr (shows_cons_iff hcf hf names).symm ?_)
        exact iff_of_eq (congrArg (· ≤ depth) hlength)

/-- A node without fields has nothing to make. -/
theorem makesTo_of_no_fields {info' : NodeInfo} (hfields : b.fieldsOf info = []) :
    MakesTo b depth chain (.mk info []) (.mk info' []) := by
  intro names
  cases names with
  | nil => exact iff_of_true (has_nil _) (.inl (has_nil _))
  | cons name names =>
    refine iff_of_false (not_has_cons rfl) ?_
    rintro (hhas | ⟨hshows, -⟩)
    · exact not_has_cons rfl hhas
    · have hnone : (b.fieldsOf info).find? (·.name == name) = none := by rw [hfields]; rfl
      exact not_shows_cons hnone names hshows

/-- What lies beyond the depth is left as it is. -/
theorem makesTo_beyond (h : depth ≤ n.path.length) : MakesTo b depth chain n n := by
  intro names
  refine (or_iff_left_of_imp ?_).symm
  rintro ⟨-, hlength⟩
  obtain rfl : names = [] := List.length_eq_zero_iff.mp (by omega)
  exact has_nil n

theorem MakesTo.of_expand (h : Grown b chain (.mk info [])) (hdepth : info.path.length < depth)
    (next : Nat) (hbelow : MakesTo b depth chain (b.expand chain next (.mk info [])).1 n') :
    MakesTo b depth chain (.mk info []) n' := by
  have hfirst := makes_expand h next
  have hblank := (extends_expand h next).blank
  have hpath : (b.expand chain next (.mk info [])).1.path = info.path :=
    NodeInfo.path_eq_of_blank hblank
  refine (hfirst.trans hblank hbelow).congr fun names _ => ?_
  show (∃ name, names = [name]) ∨ _ ↔ info.path.length + names.length ≤ depth
  rw [hpath]
  refine or_iff_right_of_imp ?_
  rintro ⟨name, rfl⟩
  exact hdepth

theorem makesTo_grow (b : TreeBounds) (depth : Nat) (chain : List String) (next : Nat)
    (info : NodeInfo) : Grown b chain (.mk info []) → MakesTo b depth chain (.mk info [])
      (b.grow (fun length => decide (length < depth)) chain next info).1 := by
  induction chain, next, info using grow.induct b (fun length => decide (length < depth)) _
    (fun chain next infos => (∀ c ∈ infos, Grown b chain (.mk c [])) →
      List.Forall₂ (fun c n => n.info.blank = c.blank ∧ MakesTo b depth chain (.mk c []) n) infos
        (b.growAll (fun length => decide (length < depth)) chain next infos).1) with
  | case1 chain next info hstop =>
    intro h
    rw [grow_stopped hstop]
    rcases Bool.or_eq_true_iff.mp hstop with hexpanded | hbeyond
    · have hfields : b.fieldsOf info = [] := by
        simpa using shape_of_expanded h hexpanded
      exact makesTo_of_no_fields hfields
    · have hbeyond : depth ≤ info.path.length := by simpa using hbeyond
      exact makesTo_beyond hbeyond
  | case2 chain next info hgo hobject =>
    intro h
    have hnone : info.objectType?.bind b.schema.typeNamed? = none := by rw [hobject]; rfl
    rw [grow_leaf hgo hnone]
    exact makesTo_of_no_fields (by rw [fieldsOf, hnone])
  | case3 chain next info hgo name hobject htype =>
    intro h
    have hnone : info.objectType?.bind b.schema.typeNamed? = none := by
      rw [hobject]
      exact htype
    rw [grow_leaf hgo hnone]
    exact makesTo_of_no_fields (by rw [fieldsOf, hnone])
  | case4 chain next info hgo name hobject t htype hmem =>
    intro h
    have hexpanded : info.expanded = false := by simp at hgo; exact hgo.1
    exact absurd hmem ((waiting_of_not_expanded h hexpanded).2.2 name hobject)
  | case5 chain next info hgo name hobject t htype hname infos _ children after _ ih =>
    intro h
    obtain ⟨hexpanded, hdepth⟩ : info.expanded = false ∧ info.path.length < depth := by
      simpa using hgo
    obtain ⟨-, hs, -⟩ := waiting_of_not_expanded h hexpanded
    have hfields : b.fieldsOf info = t.fields := by simp [fieldsOf, hobject, htype]
    have hbelow : chainBelow chain info = name :: chain := by simp [chainBelow, hobject]
    have hall := ih (grown_childInfos hs)
    have hexpand : (b.expand chain next (.mk info [])).1 =
        .mk { info with expanded := true } (infos.map (.mk · [])) := by
      rw [expand, if_neg (by simp [hexpanded]), hbelow, hfields]
    have hgrown := (extends_expand h next).grown
    refine MakesTo.of_expand h hdepth next ?_
    rw [hexpand] at hgrown ⊢
    rw [grow_type hgo hobject htype hname]
    refine makesTo_children hgrown rfl (List.forall₂_map_left_iff.mpr ?_)
    rw [show chainBelow chain { info with expanded := true } = name :: chain from hbelow]
    exact hall
  | case6 chain next =>
    rw [growAll]
    exact List.Forall₂.nil
  | case7 chain next info infos children after hall n last hgrow ihall ihgrow =>
    rename_i h
    have htail := ihall fun c hc => h c (List.mem_cons_of_mem info hc)
    have hhead := ihgrow (h info List.mem_cons_self)
    have hinfo := info_grow b (fun length => decide (length < depth)) chain after info
    rw [hall] at htail
    rw [hgrow] at hhead hinfo
    rw [growAll, hall]
    dsimp only
    rw [hgrow]
    refine .cons ⟨?_, hhead⟩ htail
    rcases hinfo with hinfo | hinfo
    · rw [hinfo]
    · rw [hinfo]
      rfl

mutual

theorem makesTo_complete (depth : Nat) : ∀ (n : TreeNode) {chain : List String} (next : Nat),
    Grown b chain n →
      MakesTo b depth chain n (b.complete (fun length => decide (length < depth)) chain next n).1
  | .mk info children, chain, next, h => by
    rw [complete]
    split
    · rename_i hstop
      have hstop : depth ≤ info.path.length := by simpa using hstop
      exact makesTo_beyond hstop
    · split
      · rename_i hexpanded
        exact makesTo_children h hexpanded
          (makesTo_completeAll depth children next (grown_of_mem h))
      · rename_i hexpanded
        obtain ⟨rfl, -, -⟩ := waiting_of_not_expanded h (by simpa using hexpanded)
        exact makesTo_grow b depth chain next info h

theorem makesTo_completeAll (depth : Nat) : ∀ (ns : List TreeNode) {chain : List String}
    (next : Nat), (∀ n ∈ ns, Grown b chain n) →
      List.Forall₂ (fun n n' => n'.info.blank = n.info.blank ∧ MakesTo b depth chain n n') ns
        (b.completeAll (fun length => decide (length < depth)) chain next ns).1
  | [], _, _, _ => .nil
  | n :: ns, chain, next, h => by
    have htail := makesTo_completeAll depth ns next fun m hm => h m (List.mem_cons_of_mem n hm)
    have hn := h n List.mem_cons_self
    rw [completeAll]
    exact .cons ⟨(growsTo_complete _ n _ hn).extends'.blank, makesTo_complete depth n _ hn⟩ htail

end

end TreeBounds

namespace SelectionTree

open TreeBounds

variable {t : SelectionTree} {p : FieldPath}

/-- Growing a tree to a depth makes the nodes of all paths up to that length that it shows. -/
theorem has_expandToDepth (h : t.IsGrown) (depth : Nat) : (t.expandToDepth depth).Has p ↔
    t.Has p ∨ (t.bounds.ShowsPath p ∧ p.length ≤ depth) := by
  obtain ⟨roots, next, hall, hroots⟩ : ∃ roots next,
      List.Forall₂ (fun r r' => r'.info.blank = r.info.blank ∧ MakesTo t.bounds depth [] r r')
        t.roots roots ∧ t.expandToDepth depth = t.withRoots roots next :=
    ⟨_, _, makesTo_completeAll depth t.roots t.next h.grown, rfl⟩
  have hindex := rootIndex?_withRoots (hall.imp fun _ _ hr => hr.1) next p
  rw [hroots, Has, Has, find?, find?, hindex]
  rcases h.rootIndex?_cases p with ⟨hidx, hnot⟩ | ⟨i, r, hidx, hget, hp, hshows⟩
  · rw [hidx]
    simp [hnot]
  · obtain ⟨r', hget', -, hmakes⟩ := getElem?_of_forall₂ hall hget
    have hget' : (t.withRoots roots next).roots[i]? = some r' := hget'
    have hlength : r.path.length + p.fieldSegments.length = p.length := by
      conv_rhs => rw [hp, List.length_append]
    rw [hidx, Option.bind_some, Option.bind_some, hget, hget', hshows, ← hlength]
    exact hmakes p.fieldSegments

/-- Over every schema and after every run, walking a path finds a node exactly if the path is
bounded, and it is the node of that path. Growing the tree to a depth makes a node for every bounded
path up to that length and for no other. -/
theorem expandPath_finds_bounded (schema : Schema) (maxDepth : Nat) (steps : List Step)
    (p : FieldPath) :
    let t := (build schema maxDepth).run steps
    let b : TreeBounds := ⟨schema, maxDepth⟩
    ((t.expandPath p).2.isSome = true ↔ b.IsBounded p) ∧
      (∀ id, (t.expandPath p).2 = some id →
        ∃ n, (t.expandPath p).1.node? id = some n ∧ n.path = p) ∧
      ∀ depth, ((t.expandToDepth depth).find? p).isSome = true ↔
        (t.find? p).isSome = true ∨ (b.IsBounded p ∧ p.length ≤ depth) := by
  intro t b
  obtain ⟨h, hbounds⟩ := isGrown_run (isGrown_build schema maxDepth) steps
  have hbounds : t.bounds = b := hbounds
  refine ⟨?_, fun id hid => ?_, fun depth => ?_⟩
  · rw [isSome_expandPath_iff h, hbounds, showsPath_iff_isBounded]
  · obtain ⟨position, n, hat, hpath, hnumber⟩ := nodeAt?_of_expandPath h id hid
    exact ⟨n, (extends_expandPath h p).grown.node?_eq_some_iff.mpr ⟨hnumber, position, hat⟩, hpath⟩
  · rw [← showsPath_iff_isBounded, ← hbounds]
    exact has_expandToDepth h depth

end SelectionTree

end QueryPicker
