import Mathlib
import QueryPicker.Proofs.TreeNumbers

/-!
# What the marks of a tree tell

Below an unchecked node nothing is marked, so it tells nothing how much has been made there. A tree
that is cut off at its unchecked nodes, without the numbers of the nodes, is all that its marks
tell. Growing leaves it as it is. Setting the mark of a node leads from equal ones to equal ones,
with the same changes. Nothing here needs the fields of a type to have different names.
-/

namespace QueryPicker

theorem forall₂_of_map_eq {α β : Type} {f : α → β} {R : α → α → Prop} {as as' : List α}
    (h : as.map f = as'.map f) (hall : ∀ a ∈ as, ∀ a' ∈ as', f a = f a' → R a a') :
    List.Forall₂ R as as' := by
  induction as generalizing as' with
  | nil =>
    obtain rfl : as' = [] := by simpa using h.symm
    exact .nil
  | cons a as ih =>
    obtain ⟨a', rest, rfl⟩ : ∃ a' rest, as' = a' :: rest := by
      cases as' with
      | nil => simp at h
      | cons a' rest => exact ⟨a', rest, rfl⟩
    rw [List.map_cons, List.map_cons, List.cons.injEq] at h
    refine .cons (hall a List.mem_cons_self a' List.mem_cons_self h.1) (ih h.2 ?_)
    exact fun b hb b' hb' => hall b (List.mem_cons_of_mem a hb) b' (List.mem_cons_of_mem a' hb')

theorem map_eq_of_map_eq {α β γ : Type} {f : α → β} {g : α → γ} {as as' : List α}
    (h : as.map f = as'.map f) (hfg : ∀ a ∈ as, ∀ a' ∈ as', f a = f a' → g a = g a') :
    as.map g = as'.map g := by
  have hsides : List.Forall₂ (fun a a' => g a' = g a) as as' :=
    forall₂_of_map_eq h fun a ha a' ha' heq => (hfg a ha a' ha' heq).symm
  exact (map_eq_of_forall₂ hsides).symm

namespace NodeInfo

/-- The node without its number, and whether or not it has been expanded. -/
def unnumbered (info : NodeInfo) : NodeInfo := { info with id := 0, expanded := false }

variable {info info' : NodeInfo}

theorem unnumbered_eq (info : NodeInfo) :
    info.unnumbered = { info.blank with state := info.state } := rfl

theorem unnumbered_of_blank (h : info.blank = info'.blank) (hs : info.state = info'.state) :
    info.unnumbered = info'.unnumbered := by
  rw [unnumbered_eq, unnumbered_eq, h, hs]

theorem state_of_unnumbered (h : info.unnumbered = info'.unnumbered) :
    info.state = info'.state := by
  have hstate : info.unnumbered.state = info'.unnumbered.state := by rw [h]
  exact hstate

theorem blank_of_unnumbered (h : info.unnumbered = info'.unnumbered) :
    info.blank = info'.blank := by
  have hblank : info.unnumbered.blank = info'.unnumbered.blank := by rw [h]
  exact hblank

theorem unnumbered_setState (h : info.blank = info'.blank) (s : CheckState) :
    ({ info with state := s } : NodeInfo).unnumbered =
      ({ info' with state := s } : NodeInfo).unnumbered := by
  rw [unnumbered_eq, unnumbered_eq]
  exact congrArg (fun x : NodeInfo => { x with state := s }) h

end NodeInfo

namespace TreeNode

mutual

/-- The tree without the numbers of its nodes. -/
def unnumbered : TreeNode → TreeNode
  | mk info children => mk info.unnumbered (unnumbereds children)

def unnumbereds : List TreeNode → List TreeNode
  | [] => []
  | n :: ns => unnumbered n :: unnumbereds ns

end

mutual

/-- The tree without numbers, cut off at the unchecked nodes. -/
def pruned : TreeNode → TreeNode
  | mk info children =>
    mk info.unnumbered (if info.state = .unchecked then [] else pruneds children)

def pruneds : List TreeNode → List TreeNode
  | [] => []
  | n :: ns => pruned n :: pruneds ns

end

variable {n n' : TreeNode} {info info' : NodeInfo} {children children' : List TreeNode}

theorem unnumbereds_eq (ns : List TreeNode) : unnumbereds ns = ns.map unnumbered := by
  induction ns with
  | nil => rfl
  | cons n ns ih => rw [unnumbereds, ih, List.map_cons]

theorem pruneds_eq (ns : List TreeNode) : pruneds ns = ns.map pruned := by
  induction ns with
  | nil => rfl
  | cons n ns ih => rw [pruneds, ih, List.map_cons]

theorem info_pruned (n : TreeNode) : n.pruned.info = n.info.unnumbered := by
  obtain ⟨info, children⟩ := n
  rfl

theorem state_pruned (n : TreeNode) : n.pruned.state = n.state := by
  obtain ⟨info, children⟩ := n
  rfl

theorem unnumbered_of_pruned (h : n.pruned = n'.pruned) :
    n.info.unnumbered = n'.info.unnumbered := by
  rw [← info_pruned, ← info_pruned, h]

theorem state_of_pruned (h : n.pruned = n'.pruned) : n.state = n'.state :=
  NodeInfo.state_of_unnumbered (unnumbered_of_pruned h)

theorem blank_of_pruned (h : n.pruned = n'.pruned) : n.info.blank = n'.info.blank :=
  NodeInfo.blank_of_unnumbered (unnumbered_of_pruned h)

theorem pruned_of_unchecked (h : n.state = .unchecked) : n.pruned = mk n.info.unnumbered [] := by
  obtain ⟨info, children⟩ := n
  have h : info.state = .unchecked := h
  rw [pruned, if_pos h]
  rfl

theorem pruned_of_marked (h : info.state ≠ .unchecked) :
    (mk info children).pruned = mk info.unnumbered (children.map pruned) := by
  rw [pruned, if_neg h, pruneds_eq]

/-- Of an unchecked node only the node itself is told. -/
theorem pruned_eq_of_unchecked (hblank : n.info.blank = n'.info.blank) (h : n.state = .unchecked)
    (h' : n'.state = .unchecked) : n.pruned = n'.pruned := by
  rw [pruned_of_unchecked h, pruned_of_unchecked h',
    NodeInfo.unnumbered_of_blank hblank (h.trans h'.symm)]

theorem pruned_mk (hinfo : info.unnumbered = info'.unnumbered)
    (hchildren : children.map pruned = children'.map pruned) :
    (mk info children).pruned = (mk info' children').pruned := by
  have hstate := NodeInfo.state_of_unnumbered hinfo
  rw [pruned, pruned, pruneds_eq, pruneds_eq, hinfo, hstate, hchildren]

theorem pruned_set {i : Nat} {c c' : TreeNode} (hget : children[i]? = some c)
    (hc : c'.pruned = c.pruned) :
    (mk info (children.set i c')).pruned = (mk info children).pruned := by
  apply pruned_mk rfl
  rw [List.map_set, hc]
  apply set_of_getElem?
  rw [List.getElem?_map, hget]
  rfl

mutual

theorem pruned_unnumbered : ∀ n : TreeNode, n.unnumbered.pruned = n.pruned
  | mk info children => by
    have hchildren := pruneds_unnumbereds children
    have hinfo : info.unnumbered.unnumbered = info.unnumbered := rfl
    have hstate : info.unnumbered.state = info.state := rfl
    rw [unnumbered, pruned, hinfo, hstate, hchildren]
    rfl

theorem pruneds_unnumbereds : ∀ ns : List TreeNode, pruneds (unnumbereds ns) = pruneds ns
  | [] => rfl
  | n :: ns => by
    rw [unnumbereds, pruneds, pruned_unnumbered n, pruneds_unnumbereds ns]
    rfl

end

mutual

theorem preorder_unnumbered : ∀ n : TreeNode,
    n.unnumbered.preorder = n.preorder.map NodeInfo.unnumbered
  | mk info children => by
    rw [unnumbered, preorder, preorder, preorders_unnumbereds children]
    rfl

theorem preorders_unnumbereds : ∀ ns : List TreeNode,
    preorders (unnumbereds ns) = (preorders ns).map NodeInfo.unnumbered
  | [] => rfl
  | n :: ns => by
    rw [unnumbereds, preorders, preorder_unnumbered n, preorders_unnumbereds ns, preorders,
      List.map_append]

end

mutual

theorem unnumbered_setAll (s : CheckState) : ∀ n : TreeNode,
    (n.setAll s).unnumbered = n.unnumbered.setAll s
  | mk info children => by
    rw [setAll, unnumbered, unnumbereds_setAlls s children, unnumbered, setAll]
    rfl

theorem unnumbereds_setAlls (s : CheckState) : ∀ ns : List TreeNode,
    unnumbereds (setAlls s ns) = setAlls s (unnumbereds ns)
  | [] => rfl
  | n :: ns => by
    rw [setAlls, unnumbereds, unnumbered_setAll s n, unnumbereds_setAlls s ns, unnumbereds, setAlls]

end

/-- The nodes with another mark, in order and without their numbers. -/
theorem map_filter_unnumbered (p : CheckState → Bool) (infos : List NodeInfo) :
    (infos.filter (p ·.state)).map NodeInfo.unnumbered =
      (infos.map NodeInfo.unnumbered).filter (p ·.state) := by
  rw [List.filter_map]
  rfl

end TreeNode

namespace TreeBounds

open TreeNode

variable {b : TreeBounds} {chain : List String} {info info' : NodeInfo}
  {children children' : List TreeNode} {n n' : TreeNode}

theorem blank_children (h : Grown b chain (.mk info children)) (hexpanded : info.expanded = true) :
    children.map (·.info.blank) = (b.fieldsOf info).map (b.childShape chain info) := by
  have hshape := shape_of_expanded h hexpanded
  exact List.forall₂_eq_eq_eq ▸
    List.forall₂_map_left_iff.mpr (List.forall₂_map_right_iff.mpr hshape)

/-- The shape of a node settles those of its children. -/
theorem map_blank_children (h : Grown b chain (.mk info children))
    (h' : Grown b chain (.mk info' children')) (hexpanded : info.expanded = true)
    (hexpanded' : info'.expanded = true) (hblank : info.blank = info'.blank) :
    children.map (·.info.blank) = children'.map (·.info.blank) := by
  rw [blank_children h hexpanded, blank_children h' hexpanded', fieldsOf_eq_of_blank hblank]
  congr 1
  funext f
  exact childShape_eq_of_blank hblank f

theorem unchecked_of_mem {c : TreeNode} (h : Grown b chain (.mk info children))
    (hs : info.state = .unchecked) (hc : c ∈ children) : c.state = .unchecked := by
  cases h with
  | waiting => simp at hc
  | made _ _ hsettled _ => exact state_of_settled (hs ▸ hsettled) (by decide) c hc

/-- Children of an unchecked node differ from each other only by their shapes. -/
theorem map_pruned_of_unchecked (h : Grown b chain (.mk info children))
    (hs : info.state = .unchecked) :
    children.map pruned = (children.map (·.info.blank)).map (TreeNode.mk · []) := by
  rw [List.map_map]
  apply List.map_congr_left
  intro c hc
  have hcs : c.info.state = .unchecked := unchecked_of_mem h hs hc
  rw [pruned_of_unchecked hcs, NodeInfo.unnumbered_eq, hcs]
  rfl

/-- What is told of two nodes with children settles what is told of the children. -/
theorem map_pruned_children (h : Grown b chain (.mk info children))
    (h' : Grown b chain (.mk info' children')) (hexpanded : info.expanded = true)
    (hexpanded' : info'.expanded = true)
    (heq : (TreeNode.mk info children).pruned = (TreeNode.mk info' children').pruned) :
    children.map pruned = children'.map pruned := by
  have hblank : info.blank = info'.blank := blank_of_pruned heq
  have hstate : info.state = info'.state := state_of_pruned heq
  by_cases hs : info.state = .unchecked
  · rw [map_pruned_of_unchecked h hs, map_pruned_of_unchecked h' (hstate ▸ hs),
      map_blank_children h h' hexpanded hexpanded' hblank]
  · rw [pruned_of_marked hs, pruned_of_marked (hstate ▸ hs)] at heq
    exact (TreeNode.mk.inj heq).2

theorem state_of_mem_preorder (h : Grown b chain n) (hs : n.state = .unchecked) {x : NodeInfo}
    (hx : x ∈ n.preorder) : x.state = .unchecked := by
  induction h with
  | waiting =>
    rcases mem_preorder.mp hx with rfl | ⟨c, hc, -⟩
    · exact hs
    · simp at hc
  | @made chain info children hexpanded hshape hsettled hgrown ih =>
    rcases mem_preorder.mp hx with rfl | ⟨c, hc, hxc⟩
    · exact hs
    · have hgrownNode : Grown b chain (.mk info children) := .made hexpanded hshape hsettled hgrown
      exact ih c hc (unchecked_of_mem hgrownNode hs hc) hxc

/-- The nodes with marks of a kind that unchecked nodes are not of are all told. -/
theorem filter_preorder_pruned {p : CheckState → Bool} (hp : p .unchecked = false)
    (h : Grown b chain n) : (n.preorder.filter (p ·.state)).map NodeInfo.unnumbered =
      n.pruned.preorder.filter (p ·.state) := by
  induction h with
  | @waiting chain info hexpanded hs hfresh =>
    have hstate : info.unnumbered.state = .unchecked := hs
    simp [pruned, preorder, preorders, hs, hstate, hp]
  | @made chain info children hexpanded hshape hsettled hgrown ih =>
    by_cases hs : info.state = .unchecked
    · have hnone : ((TreeNode.mk info children).preorder.filter (p ·.state)) = [] := by
        apply List.filter_eq_nil_iff.mpr
        intro x hx
        rw [state_of_mem_preorder (.made hexpanded hshape hsettled hgrown) hs hx, hp]
        exact Bool.false_ne_true
      have hstate : info.unnumbered.state = .unchecked := hs
      rw [hnone]
      simp [pruned, preorder, preorders, hs, hstate, hp]
    · have hlists : ∀ ns : List TreeNode, (∀ c ∈ ns, c ∈ children) →
          ((preorders ns).filter (p ·.state)).map NodeInfo.unnumbered =
            (preorders (ns.map pruned)).filter (p ·.state) := by
        intro ns hns
        induction ns with
        | nil => rfl
        | cons c ns ihns =>
          have hc := ih c (hns c List.mem_cons_self)
          have hrest := ihns fun d hd => hns d (List.mem_cons_of_mem c hd)
          rw [preorders, List.filter_append, List.map_append, hc, hrest, List.map_cons, preorders,
            List.filter_append]
      have hall := hlists children fun c hc => hc
      have hstate : info.unnumbered.state = info.state := rfl
      rw [pruned_of_marked hs, preorder, preorder, List.filter_cons, List.filter_cons, hstate]
      split
      · rw [List.map_cons, hall]
      · exact hall

/-- If nothing is left to make, all but the numbers is told. -/
theorem unnumbered_of_full (hfull : Full n) (hfull' : Full n') (h : Grown b chain n)
    (h' : Grown b chain n') (heq : n.pruned = n'.pruned) : n.unnumbered = n'.unnumbered := by
  induction hfull generalizing chain n' with
  | @made info children hexpanded hfulls ih =>
    cases hfull' with
    | @made info' children' hexpanded' hfulls' =>
      have hblank : info.blank = info'.blank := blank_of_pruned heq
      have hchildren := map_pruned_children h h' hexpanded hexpanded' heq
      have hbelow := grown_of_mem h
      have hbelow' := grown_of_mem h'
      rw [← chainBelow_eq_of_blank hblank] at hbelow'
      rw [unnumbered, unnumbered, unnumbereds_eq, unnumbereds_eq]
      congr 1
      · exact unnumbered_of_pruned heq
      · apply map_eq_of_map_eq hchildren
        intro c hc c' hc' hcc'
        exact ih c hc (hfulls' c' hc') (hbelow c hc) (hbelow' c' hc') hcc'

theorem pruned_expand (h : Grown b chain n) (next : Nat) :
    (b.expand chain next n).1.pruned = n.pruned := by
  cases h with
  | made hexpanded => rw [expand, if_pos hexpanded]
  | waiting hexpanded hs =>
    rw [expand, if_neg (by simp [hexpanded])]
    exact pruned_eq_of_unchecked rfl hs hs

mutual

theorem pruned_complete (reach : Nat → Bool) : ∀ (n : TreeNode) {chain : List String} (next : Nat),
    Grown b chain n → (b.complete reach chain next n).1.pruned = n.pruned
  | .mk info children, chain, next, h => by
    rw [complete]
    split
    · rfl
    · split
      · exact pruned_mk rfl (pruned_completeAll reach children next (grown_of_mem h))
      · rename_i hexpanded
        obtain ⟨-, hs, -⟩ := waiting_of_not_expanded h (by simpa using hexpanded)
        have hstate : ∀ m : TreeNode, (m.info = info ∨ m.info = { info with expanded := true }) →
            m.pruned = (TreeNode.mk info children).pruned := by
          rintro ⟨info₁, children₁⟩ (rfl | rfl)
          · exact pruned_eq_of_unchecked rfl hs hs
          · exact pruned_eq_of_unchecked rfl hs hs
        exact hstate _ (info_grow b reach chain next info)

theorem pruned_completeAll (reach : Nat → Bool) : ∀ (ns : List TreeNode) {chain : List String}
    (next : Nat), (∀ n ∈ ns, Grown b chain n) →
    (b.completeAll reach chain next ns).1.map pruned = ns.map pruned
  | [], _, _, _ => rfl
  | n :: ns, chain, next, h => by
    have htail := pruned_completeAll reach ns next fun m hm => h m (List.mem_cons_of_mem n hm)
    have hhead := pruned_complete reach n (b.completeAll reach chain next ns).2
      (h n List.mem_cons_self)
    rw [completeAll]
    dsimp only
    rw [List.map_cons, hhead, htail, List.map_cons]

end

theorem pruned_expandAt (position : List Nat) (h : Grown b chain n) (next : Nat) :
    (b.expandAt chain next position n).1.pruned = n.pruned := by
  induction position generalizing chain n next with
  | nil => exact pruned_expand h next
  | cons i position ih =>
    obtain ⟨info, children⟩ := n
    rw [expandAt]
    cases hget : (TreeNode.mk info children).children[i]? with
    | none => rfl
    | some c =>
      have hc := grown_of_mem h c (List.mem_of_getElem? hget)
      exact pruned_set hget (ih hc next)

theorem pruned_expandAlong (names : List String) (h : Grown b chain n) (next : Nat) :
    (b.expandAlong chain next names n).1.pruned = n.pruned := by
  induction names generalizing chain n next with
  | nil => rfl
  | cons name names ih =>
    have hfirst := extends_expand h next
    have hpruned := pruned_expand h next
    rw [expandAlong]
    generalize b.expand chain next n = made at hfirst hpruned
    obtain ⟨⟨info, children⟩, after⟩ := made
    dsimp only at hfirst hpruned ⊢
    split
    · exact hpruned
    · split
      · exact hpruned
      · rename_i c hget
        have hc := grown_of_mem hfirst.grown c (List.mem_of_getElem? hget)
        exact (pruned_set hget (ih hc after)).trans hpruned

theorem grown_setAt {s : CheckState} (hs : s ≠ .mixed) (position : List Nat) (h : Grown b chain n)
    (next : Nat) : Grown b chain (b.setAt s chain next position n).1 ∧
      (b.setAt s chain next position n).1.info.blank = n.info.blank := by
  induction position generalizing chain n next with
  | nil =>
    rw [setAt]
    by_cases hchecked : s = .checked
    · have hgrows := growsTo_complete (fun _ => true) n next h
      simp only [if_pos hchecked]
      exact ⟨grown_setAll hgrows.extends'.grown hs fun _ => hgrows.full fun _ => rfl,
        (blank_setAll s _).trans hgrows.extends'.blank⟩
    · simp only [if_neg hchecked]
      exact ⟨grown_setAll h hs fun heq => absurd heq hchecked, blank_setAll s n⟩
  | cons i position ih =>
    obtain ⟨info, children⟩ := n
    rw [setAt]
    cases hget : (TreeNode.mk info children).children[i]? with
    | none => exact ⟨h, rfl⟩
    | some c =>
      have hc := grown_of_mem h c (List.mem_of_getElem? hget)
      obtain ⟨hgrown, hblank⟩ := ih hc next
      exact ⟨grown_set h hget hgrown hblank rfl, rfl⟩

/-- The list of changes of the node itself and of what lies below it. -/
theorem map_changed (s : CheckState) (n : TreeNode) :
    (((n.info :: n.descendants).filter (·.state != s)).map fun info =>
      { info with state := s }).map NodeInfo.unnumbered =
    ((n.preorder.filter (·.state != s)).map NodeInfo.unnumbered).map fun info =>
      { info with state := s } := by
  rw [info_cons_descendants, List.map_map, List.map_map]
  rfl

/-- Above the node that is set one child is replaced and the mark derived anew. -/
theorem setAt_cons {s : CheckState} {i : Nat} {c : TreeNode} (hget : children[i]? = some c)
    {next : Nat} {position : List Nat} :
    b.setAt s chain next (i :: position) (.mk info children) =
      let made := b.setAt s (chainBelow chain info) next position c
      let derived := CheckState.ofChildren ((children.set i made.1).map (·.state))
      (.mk { info with state := derived } (children.set i made.1), made.2.1,
        if info.state = derived then made.2.2
        else made.2.2 ++ [{ info with state := derived }]) := by
  have hchild : (TreeNode.mk info children).children[i]? = some c := hget
  rw [setAt, hchild]
  rfl

/-- The node itself is set: it is completed or has nothing below it that is told. -/
theorem pruned_setAt_target {s : CheckState} (hs : s ≠ .mixed) (h : Grown b chain n)
    (h' : Grown b chain n') (heq : n.pruned = n'.pruned) (next next' : Nat) :
    (b.setAt s chain next [] n).1.pruned = (b.setAt s chain next' [] n').1.pruned ∧
      (b.setAt s chain next [] n).2.2.map NodeInfo.unnumbered =
        (b.setAt s chain next' [] n').2.2.map NodeInfo.unnumbered := by
  rw [setAt, setAt]
  by_cases hchecked : s = .checked
  · have hgrows := growsTo_complete (fun _ => true) n next h
    have hgrows' := growsTo_complete (fun _ => true) n' next' h'
    have hpruned := pruned_complete (fun _ => true) n next h
    have hpruned' := pruned_complete (fun _ => true) n' next' h'
    simp only [if_pos hchecked]
    generalize b.complete (fun _ => true) chain next n = made at hgrows hpruned ⊢
    generalize b.complete (fun _ => true) chain next' n' = made' at hgrows' hpruned' ⊢
    have hsame : made.1.unnumbered = made'.1.unnumbered :=
      unnumbered_of_full (hgrows.full fun _ => rfl) (hgrows'.full fun _ => rfl)
        hgrows.extends'.grown hgrows'.extends'.grown (hpruned.trans (heq.trans hpruned'.symm))
    constructor
    · rw [← pruned_unnumbered, unnumbered_setAll, hsame, ← unnumbered_setAll, pruned_unnumbered]
    · rw [map_changed, map_changed, map_filter_unnumbered (· != s),
        map_filter_unnumbered (· != s), ← preorder_unnumbered, hsame, preorder_unnumbered]
  · have hunchecked : s = .unchecked := by
      cases s with
      | checked => exact absurd rfl hchecked
      | unchecked => rfl
      | mixed => exact absurd rfl hs
    subst hunchecked
    simp only [if_neg hchecked]
    constructor
    · refine pruned_eq_of_unchecked ?_ (state_setAll _ n) (state_setAll _ n')
      rw [blank_setAll, blank_setAll, blank_of_pruned heq]
    · rw [map_changed, map_changed, filter_preorder_pruned (p := (· != .unchecked)) rfl h, heq,
        filter_preorder_pruned (p := (· != .unchecked)) rfl h']

/-- Above the node the same child is replaced by what is told to be the same. -/
theorem pruned_setAt_parent {s : CheckState} {i : Nat} {c c' : TreeNode} {position : List Nat}
    {next next' : Nat} (hget : children[i]? = some c) (hget' : children'[i]? = some c')
    (hblank : info.blank = info'.blank) (hstate : info.state = info'.state)
    (hchildren : children.map pruned = children'.map pruned)
    (hpruned : (b.setAt s (chainBelow chain info) next position c).1.pruned =
      (b.setAt s (chainBelow chain info) next' position c').1.pruned)
    (hchanged : (b.setAt s (chainBelow chain info) next position c).2.2.map NodeInfo.unnumbered =
      (b.setAt s (chainBelow chain info) next' position c').2.2.map NodeInfo.unnumbered) :
    (b.setAt s chain next (i :: position) (.mk info children)).1.pruned =
        (b.setAt s chain next' (i :: position) (.mk info' children')).1.pruned ∧
      (b.setAt s chain next (i :: position) (.mk info children)).2.2.map NodeInfo.unnumbered =
        (b.setAt s chain next' (i :: position) (.mk info' children')).2.2.map
          NodeInfo.unnumbered := by
  rw [setAt_cons hget, setAt_cons hget', ← chainBelow_eq_of_blank hblank]
  generalize b.setAt s (chainBelow chain info) next position c = made at hpruned hchanged ⊢
  generalize b.setAt s (chainBelow chain info) next' position c' = made' at hpruned hchanged ⊢
  have hset : (children.set i made.1).map pruned = (children'.set i made'.1).map pruned := by
    rw [List.map_set, List.map_set, hchildren, hpruned]
  have hstates : (children.set i made.1).map (·.state) = (children'.set i made'.1).map (·.state) :=
    map_eq_of_map_eq hset fun _ _ _ _ hd => state_of_pruned hd
  have hinfo := NodeInfo.unnumbered_setState hblank
    (.ofChildren ((children'.set i made'.1).map (·.state)))
  dsimp only
  rw [hstates, hstate]
  constructor
  · exact pruned_mk hinfo hset
  · split
    · exact hchanged
    · rw [List.map_append, List.map_append, hchanged]
      exact congrArg (_ ++ [·]) hinfo

/-- Setting the mark of a node does the same to nodes that are told to be the same. -/
theorem pruned_setAt {s : CheckState} (hs : s ≠ .mixed) {position : List Nat} {m m' : TreeNode}
    (h : Grown b chain n) (h' : Grown b chain n') (heq : n.pruned = n'.pruned)
    (hat : n.at? position = some m) (hat' : n'.at? position = some m') (next next' : Nat) :
    (b.setAt s chain next position n).1.pruned = (b.setAt s chain next' position n').1.pruned ∧
      (b.setAt s chain next position n).2.2.map NodeInfo.unnumbered =
        (b.setAt s chain next' position n').2.2.map NodeInfo.unnumbered := by
  induction position generalizing chain n n' next next' with
  | nil => exact pruned_setAt_target hs h h' heq next next'
  | cons i position ih =>
    obtain ⟨info, children⟩ := n
    obtain ⟨info', children'⟩ := n'
    obtain ⟨c, hget, hrest⟩ := Option.bind_eq_some_iff.mp hat
    obtain ⟨c', hget', hrest'⟩ := Option.bind_eq_some_iff.mp hat'
    have hget : children[i]? = some c := hget
    have hget' : children'[i]? = some c' := hget'
    have hblank : info.blank = info'.blank := blank_of_pruned heq
    have hc := grown_of_mem h c (List.mem_of_getElem? hget)
    have hc' := grown_of_mem h' c' (List.mem_of_getElem? hget')
    have hchildren := map_pruned_children h h' (expanded_of_mem h (List.mem_of_getElem? hget))
      (expanded_of_mem h' (List.mem_of_getElem? hget')) heq
    have hcc' : c.pruned = c'.pruned := by
      have hi := congrArg (·[i]?) hchildren
      simpa [hget, hget'] using hi
    rw [← chainBelow_eq_of_blank hblank] at hc'
    obtain ⟨hpruned, hchanged⟩ := ih hc hc' hcc' hrest hrest' next next'
    exact pruned_setAt_parent hget hget' hblank (state_of_pruned heq) hchildren hpruned hchanged

end TreeBounds

end QueryPicker
