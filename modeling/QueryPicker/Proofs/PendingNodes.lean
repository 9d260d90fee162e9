import Mathlib
import QueryPicker.Proofs.NodePaths
import QueryPicker.Proofs.RoundTrip
import QueryPicker.Proofs.TypeChains

/-!
# Growing node by node

A tree grows to a depth, and below a node that is to be checked, by rounds: one of the pending nodes
is taken, its children are made, and they are pending from then on. However the types refer to each
other, the rounds end, after at most one for each node of the tree that has grown.
-/

namespace QueryPicker

/-- What stands around a list of siblings, up to the roots: the node above with its own siblings. -/
inductive Around where
  | top
  | inside (above : Around) (before : List TreeNode) (info : NodeInfo) (after : List TreeNode)

namespace Around

/-- The roots above the siblings. -/
def fill : Around → List TreeNode → List TreeNode
  | top, ns => ns
  | inside above before info after, ns => above.fill (before ++ .mk info ns :: after)

/-- The types that are entered above the siblings. -/
def chain : Around → List String
  | top => []
  | inside above _ info _ => TreeBounds.chainBelow above.chain info

/-- The position of the node above the siblings. -/
def place : Around → List Nat
  | top => []
  | inside above before _ _ => above.place ++ [before.length]

end Around

namespace TreeBounds

variable {b : TreeBounds} {reach : Nat → Bool} {chain : List String} {next : Nat}
  {info : NodeInfo} {children : List TreeNode} {n m : TreeNode}

theorem complete_leaf (b : TreeBounds) (reach : Nat → Bool) (chain : List String) (next : Nat)
    (info : NodeInfo) :
    b.complete reach chain next (.mk info []) = b.grow reach chain next info := by
  rw [complete]
  split
  · rename_i hstop
    rw [grow_stopped (by simp [hstop])]
  · split
    · rename_i hexpanded
      rw [grow_stopped (by simp [hexpanded]), completeAll]
    · rfl

theorem growAll_eq (b : TreeBounds) (reach : Nat → Bool) (chain : List String) (next : Nat)
    (infos : List NodeInfo) : b.growAll reach chain next infos =
      b.completeAll reach chain next (infos.map (.mk · [])) := by
  induction infos with
  | nil => rw [growAll, List.map_nil, completeAll]
  | cons info infos ih =>
    rw [growAll, ih, List.map_cons, completeAll]
    simp only [complete_leaf]

theorem complete_stopped (hreach : reach n.path.length = false) :
    b.complete reach chain next n = (n, next) := by
  obtain ⟨info, children⟩ := n
  have hreach : reach info.path.length = false := hreach
  rw [complete, if_pos (by simp [hreach])]

theorem complete_expanded (hreach : reach info.path.length = true)
    (hexpanded : info.expanded = true) : b.complete reach chain next (.mk info children) =
      (.mk info (b.completeAll reach (chainBelow chain info) next children).1,
        (b.completeAll reach (chainBelow chain info) next children).2) := by
  rw [complete, if_neg (by simp [hreach]), if_pos hexpanded]

/-- Within the reach a node may get its children first. -/
theorem complete_expand (h : Grown b chain n) (hreach : reach n.path.length = true) :
    b.complete reach chain (b.expand chain next n).2 (b.expand chain next n).1 =
      b.complete reach chain next n := by
  cases h with
  | made hexpanded => rw [expand, if_pos hexpanded]
  | @waiting chain info hexpanded _ hfresh =>
    have hreach : reach info.path.length = true := hreach
    have hgo : ¬ (info.expanded || !reach info.path.length) = true := by simp [hexpanded, hreach]
    have hmade : reach ({ info with expanded := true } : NodeInfo).path.length = true := hreach
    rw [expand, if_neg (by simp [hexpanded]), complete_leaf]
    dsimp only
    rw [complete_expanded hmade rfl, ← growAll_eq]
    cases htype : info.objectType?.bind b.schema.typeNamed? with
    | none =>
      rw [grow_leaf hgo htype, fieldsOf, htype]
      simp [childInfos, growAll]
    | some t =>
      obtain ⟨name, hobject, hname⟩ := Option.bind_eq_some_iff.mp htype
      have hfields : b.fieldsOf info = t.fields := by rw [fieldsOf, htype]
      have hbelow : chainBelow chain info = name :: chain := by
        rw [chainBelow, hobject]
        rfl
      have hbelow' : chainBelow chain { info with expanded := true } = name :: chain := hbelow
      rw [grow_type hgo hobject hname (hfresh name hobject), hfields, hbelow', hbelow]

theorem completeAll_eq_self {ns : List TreeNode} (h : ∀ n ∈ ns, ∀ (chain : List String)
    (next : Nat), b.complete reach chain next n = (n, next)) (chain : List String) (next : Nat) :
    b.completeAll reach chain next ns = (ns, next) := by
  induction ns with
  | nil => rw [completeAll]
  | cons n ns ih =>
    rw [completeAll, ih fun m hm => h m (List.mem_cons_of_mem n hm)]
    dsimp only
    rw [h n List.mem_cons_self]

theorem complete_of_full (hfull : Full n) (chain : List String) (next : Nat) :
    b.complete reach chain next n = (n, next) := by
  induction hfull generalizing chain next with
  | @made info children hexpanded _ ih =>
    rw [complete]
    split
    · rfl
    · simp only [completeAll_eq_self ih]

theorem Filled.expand (h : Filled b chain n m) (next : Nat) :
    Filled b chain (b.expand chain next n).1 m := by
  have hext := extends_expand h.grown next
  exact ⟨hext.grown, h.grown', h.full, h.blank.trans hext.blank.symm⟩

/-- Makes the children of the node at a position among siblings. -/
def expandAmong (b : TreeBounds) (chain : List String) (next : Nat) :
    List Nat → List TreeNode → List TreeNode × Nat
  | [], ns => (ns, next)
  | i :: is, ns =>
    match ns[i]? with
    | none => (ns, next)
    | some n => (ns.set i (b.expandAt chain next is n).1, (b.expandAt chain next is n).2)

theorem expandAt_eq {position : List Nat} (hne : position ≠ []) :
    b.expandAt chain next position (.mk info children) =
      (.mk info (b.expandAmong (chainBelow chain info) next position children).1,
        (b.expandAmong (chainBelow chain info) next position children).2) := by
  obtain ⟨i, is, rfl⟩ := List.exists_cons_of_ne_nil hne
  cases hget : children[i]? with
  | none =>
    have hchild : (TreeNode.mk info children).children[i]? = none := hget
    rw [expandAt, hchild, expandAmong, hget]
  | some c =>
    have hchild : (TreeNode.mk info children).children[i]? = some c := hget
    rw [expandAt, hchild, expandAmong, hget]
    rfl

theorem expandAmong_at (before after : List TreeNode) (position : List Nat) :
    b.expandAmong chain next (before.length :: position) (before ++ n :: after) =
      (before ++ (b.expandAt chain next position n).1 :: after,
        (b.expandAt chain next position n).2) := by
  rw [expandAmong, List.getElem?_append_right (Nat.le_refl _), Nat.sub_self]
  simp

theorem expandAmong_fill (a : Around) {position : List Nat} (hne : position ≠ [])
    (ns : List TreeNode) : b.expandAmong [] next (a.place ++ position) (a.fill ns) =
      (a.fill (b.expandAmong a.chain next position ns).1,
        (b.expandAmong a.chain next position ns).2) := by
  induction a generalizing position ns with
  | top => rfl
  | inside above before info after ih =>
    rw [Around.place, Around.fill, List.append_assoc, List.singleton_append,
      ih (List.cons_ne_nil _ _), expandAmong_at, expandAt_eq hne]
    rfl

/-- Sets the mark of the node at a position among siblings. -/
def setAmong (b : TreeBounds) (s : CheckState) (chain : List String) (next : Nat) :
    List Nat → List TreeNode → List TreeNode × Nat × List NodeInfo
  | [], ns => (ns, next, [])
  | i :: is, ns =>
    match ns[i]? with
    | none => (ns, next, [])
    | some n => ((ns.set i (b.setAt s chain next is n).1), (b.setAt s chain next is n).2)

theorem setAmong_at (s : CheckState) (before after : List TreeNode) (position : List Nat) :
    b.setAmong s chain next (before.length :: position) (before ++ n :: after) =
      (before ++ (b.setAt s chain next position n).1 :: after,
        (b.setAt s chain next position n).2) := by
  rw [setAmong, List.getElem?_append_right (Nat.le_refl _), Nat.sub_self]
  simp

theorem setAt_eq {s : CheckState} {i : Nat} (hi : i < children.length) (position : List Nat) :
    b.setAt s chain next (i :: position) (.mk info children) =
      let made := b.setAmong s (chainBelow chain info) next (i :: position) children
      let derived := CheckState.ofChildren (made.1.map (·.state))
      (.mk { info with state := derived } made.1, made.2.1,
        if info.state = derived then made.2.2
        else made.2.2 ++ [{ info with state := derived }]) := by
  have hget : children[i]? = some children[i] := List.getElem?_eq_getElem hi
  rw [setAt_cons hget, setAmong, hget]

/-- Where setting a mark leads to the same siblings, it leads to the same roots. -/
theorem setAmong_fill {s : CheckState} {next next' i : Nat} {ns ns' : List TreeNode} (a : Around)
    (position : List Nat) (hi : i < ns.length) (hi' : i < ns'.length)
    (h : b.setAmong s a.chain next (i :: position) ns =
      b.setAmong s a.chain next' (i :: position) ns') :
    b.setAmong s [] next (a.place ++ i :: position) (a.fill ns) =
      b.setAmong s [] next' (a.place ++ i :: position) (a.fill ns') := by
  induction a generalizing i position ns ns' with
  | top => exact h
  | inside above before info after ih =>
    rw [Around.place, Around.fill, Around.fill, List.append_assoc, List.singleton_append]
    refine ih (i :: position) (by simp) (by simp) ?_
    rw [setAmong_at, setAmong_at, setAt_eq hi, setAt_eq hi']
    have h : b.setAmong s (chainBelow above.chain info) next (i :: position) ns =
      b.setAmong s (chainBelow above.chain info) next' (i :: position) ns' := h
    rw [h]

/-- A node may be completed before it is checked. -/
theorem setAt_complete (h : Grown b chain n) (next : Nat) : b.setAt .checked chain next [] n =
    b.setAt .checked chain (b.complete (fun _ => true) chain next n).2 []
      (b.complete (fun _ => true) chain next n).1 := by
  have hfull := (growsTo_complete (fun _ => true) n next h).full fun _ => rfl
  rw [setAt, setAt, if_pos rfl, if_pos rfl, complete_of_full hfull]

/-- Checking a node below which nothing is waiting makes no node. -/
theorem next_setAt_of_full (hfull : Full m) {position : List Nat} (hat : n.at? position = some m)
    (chain : List String) (next : Nat) : (b.setAt .checked chain next position n).2.1 = next := by
  induction position generalizing chain n with
  | nil =>
    obtain rfl : n = m := by simpa [TreeNode.at?] using hat
    rw [setAt, if_pos rfl, complete_of_full hfull]
  | cons i position ih =>
    obtain ⟨info, children⟩ := n
    obtain ⟨c, hget, hrest⟩ := Option.bind_eq_some_iff.mp hat
    have hget : children[i]? = some c := hget
    rw [setAt_cons hget]
    exact ih hrest (chainBelow chain info)

end TreeBounds

namespace SelectionTree

open TreeBounds

variable {t t' : SelectionTree} {reach : Nat → Bool} {a : Around}
  {before after ns ms : List TreeNode} {n m : TreeNode} {id next : Nat} {position : List Nat}

theorem nodeAt?_fill (t : SelectionTree) (next : Nat) (a : Around) (hne : position ≠ [])
    (ns : List TreeNode) : (t.withRoots (a.fill ns) next).nodeAt? (a.place ++ position) =
      (t.withRoots ns next).nodeAt? position := by
  induction a generalizing position ns with
  | top => rfl
  | inside above before info after ih =>
    rw [Around.place, Around.fill, List.append_assoc, List.singleton_append,
      ih (List.cons_ne_nil _ _), nodeAt?]
    have hget : (before ++ TreeNode.mk info ns :: after)[before.length]? = some (.mk info ns) := by
      rw [List.getElem?_append_right (Nat.le_refl _), Nat.sub_self, List.getElem?_cons_zero]
    obtain ⟨i, is, rfl⟩ := List.exists_cons_of_ne_nil hne
    show (before ++ TreeNode.mk info ns :: after)[before.length]?.bind _ = _
    rw [hget]
    rfl

/-- The tree with a node among its siblings. -/
def focus (t : SelectionTree) (a : Around) (before : List TreeNode) (n : TreeNode)
    (after : List TreeNode) (next : Nat) : SelectionTree :=
  t.withRoots (a.fill (before ++ n :: after)) next

theorem nodeAt?_focus (t : SelectionTree) (a : Around) (before : List TreeNode) (n : TreeNode)
    (after : List TreeNode) (next : Nat) :
    (t.focus a before n after next).nodeAt? (a.place ++ [before.length]) = some n := by
  rw [focus, nodeAt?_fill t next a (List.cons_ne_nil _ _)]
  show (before ++ n :: after)[before.length]?.bind _ = _
  rw [List.getElem?_append_right (Nat.le_refl _), Nat.sub_self, List.getElem?_cons_zero]
  rfl

theorem expand_eq (hposition : t.position? id = some position)
    (hat : t.nodeAt? position = some n) :
    t.expand id =
      let made := t.bounds.expandAmong [] t.next position t.roots
      let t' := t.withRoots made.1 made.2
      .ok (t', ((t'.nodeAt? position).map (·.children)).getD []) := by
  obtain ⟨i, rest, r, rfl, hget, -⟩ := exists_of_nodeAt? hat
  rw [expand, hposition]
  dsimp only
  rw [hget, expandAmong, hget]
  rfl

theorem expand_focus (h : (t.focus a before n after next).IsGrown) :
    (t.focus a before n after next).expand n.id =
      .ok (t.focus a before (t.bounds.expand a.chain next n).1 after
          (t.bounds.expand a.chain next n).2, (t.bounds.expand a.chain next n).1.children) := by
  have hat := nodeAt?_focus t a before n after next
  have hmade : (t.focus a before n after next).bounds.expandAmong []
      (t.focus a before n after next).next (a.place ++ [before.length])
      (t.focus a before n after next).roots =
        (a.fill (before ++ (t.bounds.expand a.chain next n).1 :: after),
          (t.bounds.expand a.chain next n).2) := by
    show t.bounds.expandAmong [] next _ (a.fill (before ++ n :: after)) = _
    rw [expandAmong_fill a (List.cons_ne_nil _ _), expandAmong_at]
    rfl
  have hsame : ∀ n' next', (t.focus a before n after next).withRoots
      (a.fill (before ++ n' :: after)) next' = t.focus a before n' after next' := fun _ _ => rfl
  rw [expand_eq (h.position?_of_nodeAt? hat) hat, hmade]
  dsimp only
  rw [hsame, nodeAt?_focus]
  rfl

/-- One round: of the pending nodes the first is taken. If its path is within the reach its children
are made, and they are pending from then on, the last of them first. -/
def round (reach : Nat → Bool) : SelectionTree × List Nat → SelectionTree × List Nat
  | (t, []) => (t, [])
  | (t, id :: pending) =>
    match (t.node? id).filter (reach ·.path.length), t.expand id with
    | some _, .ok (t, children) => (t, (children.map (·.id)).reverse ++ pending)
    | _, _ => (t, pending)

theorem isGrown_round (reach : Nat → Bool) (h : t.IsGrown) (pending : List Nat) :
    (round reach (t, pending)).1.IsGrown := by
  cases pending with
  | nil => exact h
  | cons id pending =>
    rw [round]
    split
    · rename_i t' children _ hok
      exact (extends_expand h hok).grown
    · exact h

theorem isGrown_rounds (reach : Nat → Bool) (h : t.IsGrown) (pending : List Nat) (rounds : Nat) :
    ((round reach)^[rounds] (t, pending)).1.IsGrown := by
  induction rounds generalizing t pending with
  | zero => exact h
  | succ rounds ih => exact ih (isGrown_round reach h pending) (round reach (t, pending)).2

theorem node?_focus (h : (t.focus a before n after next).IsGrown) :
    (t.focus a before n after next).node? n.id = some n :=
  h.node?_eq_some_iff.mpr ⟨rfl, _, nodeAt?_focus t a before n after next⟩

theorem round_stopped (h : (t.focus a before n after next).IsGrown)
    (hreach : reach n.path.length = false) (pending : List Nat) :
    round reach (t.focus a before n after next, n.id :: pending) =
      (t.focus a before n after next, pending) := by
  have hnot : (some n).filter (reach ·.path.length) = none := by simp [hreach]
  rw [round, node?_focus h, hnot]

theorem round_taken (h : (t.focus a before n after next).IsGrown)
    (hreach : reach n.path.length = true) (pending : List Nat) :
    round reach (t.focus a before n after next, n.id :: pending) =
      (t.focus a before (t.bounds.expand a.chain next n).1 after (t.bounds.expand a.chain next n).2,
        ((t.bounds.expand a.chain next n).1.children.map (·.id)).reverse ++ pending) := by
  have hsome : (some n).filter (reach ·.path.length) = some n := by simp [hreach]
  rw [round, node?_focus h, hsome, expand_focus h]

/-- Rounds complete the node that is taken next. -/
def Completes (reach : Nat → Bool) (t : SelectionTree) (a : Around) (n : TreeNode) : Prop :=
  ∀ before after next pending, (t.focus a before n after next).IsGrown →
    ∃ rounds ≤ (t.bounds.complete reach a.chain next n).1.preorder.length,
      (round reach)^[rounds] (t.focus a before n after next, n.id :: pending) =
        (t.focus a before (t.bounds.complete reach a.chain next n).1 after
          (t.bounds.complete reach a.chain next n).2, pending)

/-- Siblings are completed one by one, the last first. -/
theorem rounds_siblings (hns : ∀ n ∈ ns, t.Completes reach a n) (before after : List TreeNode)
    (next : Nat) (pending : List Nat)
    (h : (t.withRoots (a.fill (before ++ (ns ++ after))) next).IsGrown) :
    ∃ rounds ≤ (TreeNode.preorders (t.bounds.completeAll reach a.chain next ns).1).length,
      (round reach)^[rounds] (t.withRoots (a.fill (before ++ (ns ++ after))) next,
          (ns.map (·.id)).reverse ++ pending) =
        (t.withRoots (a.fill (before ++ ((t.bounds.completeAll reach a.chain next ns).1 ++ after)))
          (t.bounds.completeAll reach a.chain next ns).2, pending) := by
  induction ns generalizing before after next pending with
  | nil => exact ⟨0, Nat.zero_le _, by rw [completeAll]; rfl⟩
  | cons n ns ih =>
    have hsplit : ∀ ms : List TreeNode, before ++ [n] ++ ms = before ++ n :: ms := fun ms => by simp
    have hstack : ((n :: ns).map (·.id)).reverse ++ pending =
        (ns.map (·.id)).reverse ++ n.id :: pending := by simp
    obtain ⟨rounds, hle, hrounds⟩ := ih (fun m hm => hns m (List.mem_cons_of_mem n hm))
      (before ++ [n]) after next (n.id :: pending) (by rw [hsplit]; exact h)
    rw [hsplit, hsplit] at hrounds
    rw [completeAll, hstack, List.cons_append]
    generalize t.bounds.completeAll reach a.chain next ns = made at hle hrounds
    obtain ⟨siblings, next'⟩ := made
    have hgrown : (t.focus a before n (siblings ++ after) next').IsGrown := by
      have hkept := isGrown_rounds reach h ((ns.map (·.id)).reverse ++ n.id :: pending) rounds
      rw [List.cons_append, hrounds] at hkept
      exact hkept
    obtain ⟨more, hle', hmore⟩ := hns n List.mem_cons_self before (siblings ++ after) next' pending
      hgrown
    refine ⟨more + rounds, ?_, ?_⟩
    · rw [TreeNode.preorders, List.length_append]
      exact Nat.add_le_add hle' hle
    · rw [Function.iterate_add_apply, hrounds]
      exact hmore

theorem rounds_all (hns : ∀ n ∈ ns, t.Completes reach a n) (next : Nat) (pending : List Nat)
    (h : (t.withRoots (a.fill ns) next).IsGrown) :
    ∃ rounds ≤ (TreeNode.preorders (t.bounds.completeAll reach a.chain next ns).1).length,
      (round reach)^[rounds] (t.withRoots (a.fill ns) next, (ns.map (·.id)).reverse ++ pending) =
        (t.withRoots (a.fill (t.bounds.completeAll reach a.chain next ns).1)
          (t.bounds.completeAll reach a.chain next ns).2, pending) := by
  have hrounds := rounds_siblings hns [] [] next pending
  simp only [List.nil_append, List.append_nil] at hrounds
  exact hrounds h

/-- By rounds every node that the schema allows for is completed. -/
theorem completes_of_full {m : TreeNode} (hfull : Full m) : ∀ (a : Around) (n : TreeNode),
    Filled t.bounds a.chain n m → t.Completes reach a n := by
  induction hfull with
  | @made info' children' hexpanded' hfulls ih =>
    intro a n hfilled before after next pending hgrown
    cases hreach : reach n.path.length with
    | false =>
      refine ⟨1, ?_, ?_⟩
      · rw [complete_stopped hreach, ← TreeNode.info_cons_descendants]
        exact Nat.succ_le_succ (Nat.zero_le _)
      · rw [Function.iterate_one, round_stopped hgrown hreach pending, complete_stopped hreach]
    | true =>
      have htaken := round_taken hgrown hreach pending
      have hexpanded := expanded_expand t.bounds a.chain next n
      have hkept := isGrown_round reach hgrown (n.id :: pending)
      have hmade := hfilled.expand next
      have hpath : (t.bounds.expand a.chain next n).1.path = n.path :=
        NodeInfo.path_eq_of_blank (TreeBounds.extends_expand hfilled.grown next).blank
      rw [htaken] at hkept
      rw [← complete_expand hfilled.grown hreach]
      generalize t.bounds.expand a.chain next n = made at htaken hexpanded hkept hmade hpath
      obtain ⟨⟨info, children⟩, next'⟩ := made
      have hreach' : reach info.path.length = true := by
        have hpath : info.path = n.path := hpath
        rw [hpath]
        exact hreach
      have hchildren : ∀ c ∈ children, t.Completes reach (.inside a before info after) c := by
        intro c hc
        obtain ⟨i, hi, rfl⟩ := List.getElem_of_mem hc
        obtain ⟨c', hget, hfilled'⟩ := hmade.child (List.getElem?_eq_getElem hi)
        exact ih c' (List.mem_of_getElem? hget) _ _ hfilled'
      obtain ⟨rounds, hle, hrounds⟩ := rounds_all hchildren next' pending hkept
      rw [complete_expanded hreach' hexpanded]
      refine ⟨rounds + 1, Nat.succ_le_succ hle, ?_⟩
      rw [Function.iterate_succ_apply, htaken]
      exact hrounds

theorem IsGrown.completes_roots (h : t.IsGrown) : ∀ r ∈ t.roots, t.Completes reach .top r := by
  intro r hr
  obtain ⟨i, hi, rfl⟩ := List.getElem_of_mem hr
  obtain ⟨m, -, hfilled⟩ := getElem?_of_forall₂ h.filled (List.getElem?_eq_getElem hi)
  exact completes_of_full hfilled.full .top _ hfilled

theorem rounds_expandToDepth (h : t.IsGrown) (depth : Nat) :
    ∃ rounds ≤ (t.expandToDepth depth).nodes.length,
      (round fun length => decide (length < depth))^[rounds] (t, (t.roots.map (·.id)).reverse) =
        (t.expandToDepth depth, []) := by
  have hroots : ∀ r ∈ t.roots, t.Completes (fun length => decide (length < depth)) .top r :=
    h.completes_roots
  have hrounds := rounds_all hroots t.next [] h
  rw [List.append_nil] at hrounds
  rw [nodes_eq]
  exact hrounds

/-- Every node stands among siblings. -/
theorem exists_around {b : TreeBounds} {c : TreeNode} (hfilled : Filled b a.chain c m)
    (hat : c.at? position = some n) (before after : List TreeNode) :
    ∃ (a' : Around) (before' after' : List TreeNode) (m' : TreeNode),
      a'.fill (before' ++ n :: after') = a.fill (before ++ c :: after) ∧
        Filled b a'.chain n m' := by
  induction position generalizing a c m before after with
  | nil =>
    obtain rfl : c = n := by simpa [TreeNode.at?] using hat
    exact ⟨a, before, after, m, rfl, hfilled⟩
  | cons i position ih =>
    obtain ⟨info, children⟩ := c
    obtain ⟨c, hget, hrest⟩ := Option.bind_eq_some_iff.mp hat
    obtain ⟨m', -, hfilled'⟩ := hfilled.child hget
    obtain ⟨before', after', hchildren⟩ := List.append_of_mem (List.mem_of_getElem? hget)
    have hchildren : children = before' ++ c :: after' := hchildren
    subst hchildren
    have hfilled' : Filled b (Around.inside a before info after).chain c m' := hfilled'
    exact ih hfilled' hrest before' after'

theorem IsGrown.exists_focus (h : t.IsGrown) (hat : t.nodeAt? position = some n) :
    ∃ a before after m, t = t.focus a before n after t.next ∧ Filled t.bounds a.chain n m := by
  obtain ⟨i, rest, r, rfl, hget, hrest⟩ := exists_of_nodeAt? hat
  obtain ⟨r', -, hr⟩ := getElem?_of_forall₂ h.filled hget
  obtain ⟨before, after, hroots⟩ := List.append_of_mem (List.mem_of_getElem? hget)
  have hr : Filled t.bounds Around.top.chain r r' := hr
  obtain ⟨a, before', after', m, hfill, hfilled⟩ := exists_around hr hrest before after
  refine ⟨a, before', after', m, ?_, hfilled⟩
  rw [focus, hfill, Around.fill, ← hroots]
  rfl

theorem apply_eq {s : CheckState} (hposition : t.position? id = some position)
    (hat : t.nodeAt? position = some n) (hs : s ≠ .mixed) :
    t.apply id s =
      let made := t.bounds.setAmong s [] t.next position t.roots
      .ok (t.withRoots made.1 made.2.1, made.2.2) := by
  obtain ⟨i, rest, r, rfl, hget, hrest⟩ := exists_of_nodeAt? hat
  rw [apply_of_position? hposition hget hrest hs, setAmong, hget]
  rfl

/-- Where setting the mark of a node leads to the same for two trees, so does applying it. -/
theorem apply_focus {s : CheckState} {n' : TreeNode} {next' : Nat}
    (h : (t.focus a before n after next).IsGrown) (h' : (t.focus a before n' after next').IsGrown)
    (hs : s ≠ .mixed) (hid : n'.id = n.id)
    (hset : t.bounds.setAt s a.chain next [] n = t.bounds.setAt s a.chain next' [] n') :
    (t.focus a before n' after next').apply n.id s =
      (t.focus a before n after next).apply n.id s := by
  have hat := nodeAt?_focus t a before n after next
  have hat' := nodeAt?_focus t a before n' after next'
  have hposition' := h'.position?_of_nodeAt? hat'
  rw [hid] at hposition'
  have hmade : t.bounds.setAmong s [] next (a.place ++ [before.length])
      (a.fill (before ++ n :: after)) =
    t.bounds.setAmong s [] next' (a.place ++ [before.length]) (a.fill (before ++ n' :: after)) := by
    refine setAmong_fill a [] (by simp) (by simp) ?_
    rw [setAmong_at, setAmong_at, hset]
  rw [apply_eq (h.position?_of_nodeAt? hat) hat hs, apply_eq hposition' hat' hs]
  dsimp only [focus, withRoots]
  rw [hmade]

theorem IsGrown.length_nodes (h : t.IsGrown) : t.nodes.length = t.next := by
  have hlength := h.ids_nodes.length_eq
  rwa [List.length_map, List.length_range] at hlength

/-- Checking a node below which nothing is waiting makes no node. -/
theorem length_nodes_of_full {changed : List NodeInfo} (h : t.IsGrown)
    (hat : t.nodeAt? position = some n) (hfull : Full n)
    (hok : t.apply n.id .checked = .ok (t', changed)) : t'.nodes.length = t.nodes.length := by
  have hgrown := isGrown_apply h hok
  obtain ⟨-, i, rest, r, m, hposition, hget, hrest, -, rfl, -⟩ := apply_spec hok
  obtain rfl : position = i :: rest := by simpa [h.position?_of_nodeAt? hat] using hposition
  obtain rfl : n = m := by simpa [nodeAt?, hget, hrest] using hat.symm
  rw [hgrown.length_nodes, h.length_nodes]
  exact next_setAt_of_full hfull hrest [] t.next

/-- By rounds a node is completed, and then checking it makes no further node. -/
theorem rounds_check (h : t.IsGrown) (hnode : t.node? id = some n) :
    ∃ t' rounds, rounds ≤ t'.nodes.length ∧
      (round fun _ => true)^[rounds] (t, [id]) = (t', []) ∧
      ∃ t'' changed, t.apply id .checked = .ok (t'', changed) ∧
        t'.apply id .checked = .ok (t'', changed) ∧ t''.nodes.length = t'.nodes.length := by
  obtain ⟨rfl, position, hat⟩ := h.node?_eq_some_iff.mp hnode
  obtain ⟨a, before, after, m, heq, hfilled⟩ := h.exists_focus hat
  have hgrown : (t.focus a before n after t.next).IsGrown := heq ▸ h
  have hcompletes : t.Completes (fun _ => true) a n := completes_of_full hfilled.full a n hfilled
  obtain ⟨rounds, hle, hrounds⟩ := hcompletes before after t.next [] hgrown
  have hfull := (growsTo_complete (fun _ => true) n t.next hfilled.grown).full fun _ => rfl
  have hset := setAt_complete hfilled.grown t.next
  have hid : (t.bounds.complete (fun _ => true) a.chain t.next n).1.id = n.id := by
    rcases info_complete t.bounds (fun _ => true) a.chain t.next n with hinfo | hinfo
    · rw [TreeNode.id, hinfo]
      rfl
    · rw [TreeNode.id, hinfo]
      rfl
  generalize t.bounds.complete (fun _ => true) a.chain t.next n = made at hle hrounds hfull hset hid
  obtain ⟨n', next'⟩ := made
  have hgrown' : (t.focus a before n' after next').IsGrown := by
    have hkept := isGrown_rounds (fun _ => true) hgrown [n.id] rounds
    rw [hrounds] at hkept
    exact hkept
  have hat' := nodeAt?_focus t a before n' after next'
  have happly := apply_focus hgrown hgrown' (by decide) hid hset
  rw [← heq] at hrounds happly
  obtain ⟨t'', changed, hok⟩ := exists_apply h hat (s := .checked) (by decide)
  refine ⟨t.focus a before n' after next', rounds, ?_, hrounds, t'', changed, hok, ?_, ?_⟩
  · exact hle.trans (preorder_sublist_of_nodeAt? hat').length_le
  · exact happly.trans hok
  · have hid : n'.id = n.id := hid
    have hok' : (t.focus a before n' after next').apply n'.id .checked = .ok (t'', changed) := by
      rw [hid]
      exact happly.trans hok
    exact length_nodes_of_full hgrown' hat' hfull hok'

/-- Over every schema and with every greatest depth, after every run: growing to a depth ends, and
so does growing below a node that is checked, both after at most one round for each node; no type is
entered twice on the way to a node, and its path is at most one longer than the number of types. -/
theorem growing_ends (schema : Schema) (maxDepth : Nat) (steps : List Step) :
    let t := (build schema maxDepth).run steps
    (∀ depth, ∃ rounds ≤ (t.expandToDepth depth).nodes.length,
      (round fun length => decide (length < depth))^[rounds] (t, (t.roots.map (·.id)).reverse) =
        (t.expandToDepth depth, [])) ∧
    (∀ id n, t.node? id = some n → ∃ t' rounds, rounds ≤ t'.nodes.length ∧
      (round fun _ => true)^[rounds] (t, [id]) = (t', []) ∧
      ∃ t'' changed, t.apply id .checked = .ok (t'', changed) ∧
        t'.apply id .checked = .ok (t'', changed) ∧ t''.nodes.length = t'.nodes.length) ∧
    ∀ position n, t.nodeAt? position = some n →
      (t.typesAlong position).Nodup ∧ n.path.length ≤ schema.types.length + 1 := by
  intro t
  obtain ⟨h, hbounds⟩ := isGrown_run (isGrown_build schema maxDepth) steps
  refine ⟨rounds_expandToDepth h, fun id n hnode => rounds_check h hnode, fun position n hat => ?_⟩
  refine ⟨h.nodup_typesAlong hat, ?_⟩
  have hle := h.length_path_le hat
  rw [hbounds] at hle
  exact hle

/-- Users are friends of users, and no depth is set: the user below the root is completed in the
end, and no path has more than three parts. -/
theorem growing_ends_friends :
    let t := (build SelectionMap.friends 18446744073709551615).run []
    ∃ n, t.node? 1 = some n ∧ t.nodeAt? [0, 0] = some n ∧
      (∃ t' rounds, rounds ≤ t'.nodes.length ∧ (round fun _ => true)^[rounds] (t, [1]) = (t', []) ∧
        ∃ t'' changed, t.apply 1 .checked = .ok (t'', changed) ∧
          t'.apply 1 .checked = .ok (t'', changed) ∧ t''.nodes.length = t'.nodes.length) ∧
      (t.typesAlong [0, 0]).Nodup ∧ n.path.length ≤ 3 := by
  obtain ⟨-, hchecks, hpaths⟩ := growing_ends SelectionMap.friends 18446744073709551615 []
  exact ⟨_, rfl, rfl, hchecks 1 _ rfl, hpaths [0, 0] _ rfl⟩

end SelectionTree

end QueryPicker
