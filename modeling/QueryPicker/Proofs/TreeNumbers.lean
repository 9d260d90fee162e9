import Mathlib
import QueryPicker.Proofs.TreeMarks

/-!
# Numbers of nodes

New nodes take the next free numbers, and a node keeps its number when it gets another mark. As long
as no two nodes share a number, a node is found by its number where it stands.
-/

namespace QueryPicker

/-- The numbers from the next one up to another have been added. -/
def NumbersAdded (next next' : Nat) (ids ids' : List Nat) : Prop :=
  ∃ count, next' = next + count ∧ ids'.Perm (ids ++ List.range' next count)

namespace NumbersAdded

variable {next next' next'' : Nat} {ids ids' ids'' : List Nat}

theorem refl (next : Nat) (ids : List Nat) : NumbersAdded next next ids ids :=
  ⟨0, rfl, by simp⟩

theorem trans (h : NumbersAdded next next' ids ids') (h' : NumbersAdded next' next'' ids' ids'') :
    NumbersAdded next next'' ids ids'' := by
  obtain ⟨count, rfl, hperm⟩ := h
  obtain ⟨count', rfl, hperm'⟩ := h'
  refine ⟨count + count', Nat.add_assoc _ _ _, hperm'.trans ?_⟩
  rw [← List.range'_append_1, ← List.append_assoc]
  exact hperm.append_right _

theorem append_left (before : List Nat) (h : NumbersAdded next next' ids ids') :
    NumbersAdded next next' (before ++ ids) (before ++ ids') := by
  obtain ⟨count, rfl, hperm⟩ := h
  refine ⟨count, rfl, ?_⟩
  rw [List.append_assoc]
  exact hperm.append_left before

theorem append_right (after : List Nat) (h : NumbersAdded next next' ids ids') :
    NumbersAdded next next' (ids ++ after) (ids' ++ after) := by
  obtain ⟨count, rfl, hperm⟩ := h
  refine ⟨count, rfl, (hperm.append_right after).trans ?_⟩
  rw [List.append_assoc, List.append_assoc]
  exact List.perm_append_comm.append_left ids

theorem cons (id : Nat) (h : NumbersAdded next next' ids ids') :
    NumbersAdded next next' (id :: ids) (id :: ids') :=
  append_left [id] h

end NumbersAdded

namespace TreeNode

/-- The numbers of a node and of all below it. -/
def ids (n : TreeNode) : List Nat := n.preorder.map (·.id)

def idsOf (ns : List TreeNode) : List Nat := (preorders ns).map (·.id)

theorem ids_mk (info : NodeInfo) (children : List TreeNode) :
    (mk info children).ids = info.id :: idsOf children := rfl

theorem idsOf_cons (n : TreeNode) (ns : List TreeNode) : idsOf (n :: ns) = n.ids ++ idsOf ns := by
  rw [idsOf, preorders, List.map_append]
  rfl

theorem ids_setAll (s : CheckState) (n : TreeNode) : (n.setAll s).ids = n.ids := by
  rw [ids, preorder_setAll, List.map_map]
  rfl

theorem idsOf_leaves (infos : List NodeInfo) : idsOf (infos.map (mk · [])) = infos.map (·.id) := by
  induction infos with
  | nil => rfl
  | cons info infos ih =>
    rw [List.map_cons, idsOf_cons, ih]
    rfl

theorem idsOf_eq (ns : List TreeNode) : idsOf ns = ns.flatMap ids := by
  rw [idsOf, preorders_eq, List.map_flatMap]
  rfl

theorem mem_idsOf {id : Nat} {ns : List TreeNode} : id ∈ idsOf ns ↔ ∃ n ∈ ns, id ∈ n.ids := by
  rw [idsOf_eq, List.mem_flatMap]

theorem numbersAdded_set {next next' i : Nat} {ns : List TreeNode} {n n' : TreeNode}
    (hget : ns[i]? = some n) (h : NumbersAdded next next' n.ids n'.ids) :
    NumbersAdded next next' (idsOf ns) (idsOf (ns.set i n')) := by
  induction ns generalizing i with
  | nil => simp at hget
  | cons m ns ih =>
    cases i with
    | zero =>
      obtain rfl : m = n := by simpa using hget
      rw [List.set_cons_zero, idsOf_cons, idsOf_cons]
      exact h.append_right _
    | succ i =>
      rw [List.set_cons_succ, idsOf_cons, idsOf_cons]
      exact (ih (by simpa using hget)).append_left _

mutual

theorem position?_spec (id : Nat) : ∀ n : TreeNode,
    (n.position? id = none → id ∉ n.ids) ∧
      ∀ position, n.position? id = some position → ∃ m, n.at? position = some m ∧ m.id = id
  | mk info children => by
    obtain ⟨hnone, hsome⟩ := positionAmong?_spec id children 0
    rw [position?, ids_mk, List.mem_cons]
    split
    · rename_i heq
      constructor
      · intro h
        cases h
      · intro position h
        obtain rfl : [] = position := by simpa using h
        exact ⟨_, rfl, heq⟩
    · rename_i hne
      constructor
      · rintro h (heq | hmem)
        · exact hne heq.symm
        · exact hnone h hmem
      · intro position h
        obtain ⟨i, rest, rfl, m, hm, hid⟩ := hsome position h
        rw [Nat.zero_add]
        exact ⟨m, hm, hid⟩

theorem positionAmong?_spec (id : Nat) : ∀ (ns : List TreeNode) (index : Nat),
    (positionAmong? id index ns = none → id ∉ idsOf ns) ∧
      ∀ position, positionAmong? id index ns = some position →
        ∃ i rest, position = (index + i) :: rest ∧ ∃ m, ns[i]?.bind (at? rest) = some m ∧ m.id = id
  | [], index => by
    constructor
    · intro _
      simp [idsOf, preorders]
    · intro position h
      cases h
  | n :: ns, index => by
    obtain ⟨hnone, hsome⟩ := position?_spec id n
    obtain ⟨hnones, hsomes⟩ := positionAmong?_spec id ns (index + 1)
    rw [positionAmong?, idsOf_cons, List.mem_append]
    split
    · rename_i rest hrest
      constructor
      · intro h
        cases h
      · intro position h
        obtain rfl : index :: rest = position := by simpa using h
        obtain ⟨m, hm, hid⟩ := hsome rest hrest
        exact ⟨0, rest, rfl, m, hm, hid⟩
    · rename_i hhere
      constructor
      · rintro h (hmem | hmem)
        · exact hnone hhere hmem
        · exact hnones h hmem
      · intro position h
        obtain ⟨i, rest, rfl, m, hm, hid⟩ := hsomes position h
        refine ⟨i + 1, rest, ?_, m, by simpa using hm, hid⟩
        rw [Nat.add_assoc, Nat.add_comm 1 i]

end

theorem mem_ids_of_at? {position : List Nat} {n m : TreeNode} (h : n.at? position = some m) :
    m.id ∈ n.ids := by
  induction position generalizing n with
  | nil =>
    obtain rfl : n = m := by simpa [at?] using h
    obtain ⟨info, children⟩ := n
    exact List.mem_cons_self
  | cons i position ih =>
    obtain ⟨c, hget, hrest⟩ := Option.bind_eq_some_iff.mp h
    obtain ⟨info, children⟩ := n
    exact List.mem_cons_of_mem _ (mem_idsOf.mpr ⟨c, List.mem_of_getElem? hget, ih hrest⟩)

theorem position?_eq_none {id : Nat} {n : TreeNode} (h : id ∉ n.ids) : n.position? id = none := by
  cases hposition : n.position? id with
  | none => rfl
  | some position =>
    obtain ⟨m, hm, rfl⟩ := (position?_spec _ n).2 position hposition
    exact absurd (mem_ids_of_at? hm) h

theorem positionAmong?_of_getElem? {id i : Nat} {ns : List TreeNode} {n : TreeNode}
    {position : List Nat} (hnodup : (idsOf ns).Nodup) (hget : ns[i]? = some n)
    (h : n.position? id = some position) (index : Nat) :
    positionAmong? id index ns = some ((index + i) :: position) := by
  induction ns generalizing i index with
  | nil => simp at hget
  | cons m ns ih =>
    rw [idsOf_cons] at hnodup
    obtain ⟨-, hns, hdisjoint⟩ := List.nodup_append.mp hnodup
    cases i with
    | zero =>
      obtain rfl : m = n := by simpa using hget
      rw [positionAmong?, h]
      rfl
    | succ i =>
      have hget : ns[i]? = some n := by simpa using hget
      obtain ⟨found, hfound, rfl⟩ := (position?_spec _ n).2 position h
      have hmem : found.id ∈ idsOf ns :=
        mem_idsOf.mpr ⟨n, List.mem_of_getElem? hget, mem_ids_of_at? hfound⟩
      have hm : m.position? found.id = none :=
        position?_eq_none fun hmem' => hdisjoint _ hmem' _ hmem rfl
      rw [positionAmong?, hm]
      dsimp only
      rw [ih hns hget, Nat.add_assoc, Nat.add_comm 1 i]

/-- If no number is used twice, a node is found where it stands. -/
theorem position?_of_at? {position : List Nat} {n m : TreeNode} (hnodup : n.ids.Nodup)
    (h : n.at? position = some m) : n.position? m.id = some position := by
  induction position generalizing n with
  | nil =>
    obtain rfl : n = m := by simpa [at?] using h
    obtain ⟨info, children⟩ := n
    exact if_pos rfl
  | cons i position ih =>
    obtain ⟨c, hget, hrest⟩ := Option.bind_eq_some_iff.mp h
    obtain ⟨info, children⟩ := n
    have hget : children[i]? = some c := hget
    rw [ids_mk, List.nodup_cons] at hnodup
    have hmem : m.id ∈ idsOf children :=
      mem_idsOf.mpr ⟨c, List.mem_of_getElem? hget, mem_ids_of_at? hrest⟩
    have hc : c.ids.Nodup := by
      have hflat := hnodup.2
      rw [idsOf_eq] at hflat
      exact (List.nodup_flatMap.mp hflat).1 c (List.mem_of_getElem? hget)
    have hne : info.id ≠ m.id := fun heq => hnodup.1 (heq ▸ hmem)
    rw [position?, if_neg hne, positionAmong?_of_getElem? hnodup.2 hget (ih hc hrest) 0,
      Nat.zero_add]

end TreeNode

namespace TreeBounds

open TreeNode

variable {b : TreeBounds} {chain : List String}

theorem ids_childInfos (b : TreeBounds) (below : List String) (parent : NodeInfo) (next : Nat)
    (fields : List Field) : (b.childInfos below parent next fields).map (·.id) =
      List.range' next fields.length := by
  induction fields generalizing next with
  | nil => rfl
  | cons f fields ih =>
    rw [childInfos_cons, List.map_cons, ih, List.length_cons, List.range'_succ]
    rfl

/-- A waiting node gets a child for each of the fields. -/
theorem numbersAdded_childInfos (b : TreeBounds) (below : List String) (parent : NodeInfo)
    (id next : Nat) (fields : List Field) :
    NumbersAdded next (next + fields.length) [id]
      (id :: (b.childInfos below parent next fields).map (·.id)) := by
  refine ⟨fields.length, rfl, ?_⟩
  rw [ids_childInfos]
  exact List.Perm.refl _

theorem numbersAdded_expand {n : TreeNode} (h : Grown b chain n) (next : Nat) :
    NumbersAdded next (b.expand chain next n).2 n.ids (b.expand chain next n).1.ids := by
  obtain ⟨info, children⟩ := n
  rw [expand]
  split
  · exact .refl _ _
  · rename_i hexpanded
    obtain ⟨rfl, -, -⟩ := waiting_of_not_expanded h (by simpa using hexpanded)
    dsimp only
    rw [ids_mk, ids_mk, idsOf_leaves]
    exact numbersAdded_childInfos b _ info info.id next (b.fieldsOf info)

theorem numbersAdded_grow (b : TreeBounds) (reach : Nat → Bool) (chain : List String) (next : Nat)
    (info : NodeInfo) : NumbersAdded next (b.grow reach chain next info).2 [info.id]
      (b.grow reach chain next info).1.ids := by
  induction chain, next, info using grow.induct b reach _
    (fun chain next infos =>
      NumbersAdded next (b.growAll reach chain next infos).2 (infos.map (·.id))
        (idsOf (b.growAll reach chain next infos).1)) with
  | case1 chain next info hstop =>
    rw [grow_stopped hstop]
    exact .refl _ _
  | case2 chain next info hgo hobject =>
    rw [grow_leaf hgo (by rw [hobject]; rfl)]
    exact .refl _ _
  | case3 chain next info hgo name hobject htype =>
    rw [grow_leaf hgo (by rw [hobject]; exact htype)]
    exact .refl _ _
  | case4 chain next info hgo name hobject t htype hmem =>
    rw [grow_repeated hgo hobject hmem]
    exact .refl _ _
  | case5 chain next info hgo name hobject t htype hname infos _ children after _ ih =>
    rw [grow_type hgo hobject htype hname]
    exact (numbersAdded_childInfos b _ info info.id next t.fields).trans (ih.cons info.id)
  | case6 chain next =>
    rw [growAll]
    exact .refl _ _
  | case7 chain next info infos children after hall n last hgrow ihall ihgrow =>
    rw [hall] at ihall
    rw [hgrow] at ihgrow
    rw [growAll, hall]
    dsimp only
    rw [hgrow, List.map_cons, idsOf_cons]
    exact (ihall.append_left [info.id]).trans (ihgrow.append_right _)

mutual

theorem numbersAdded_complete (reach : Nat → Bool) : ∀ (n : TreeNode) {chain : List String}
    (next : Nat), Grown b chain n → NumbersAdded next (b.complete reach chain next n).2 n.ids
      (b.complete reach chain next n).1.ids
  | .mk info children, chain, next, h => by
    rw [complete]
    split
    · exact .refl _ _
    · split
      · exact (numbersAdded_completeAll reach children next (grown_of_mem h)).cons info.id
      · rename_i hexpanded
        obtain ⟨rfl, -, -⟩ := waiting_of_not_expanded h (by simpa using hexpanded)
        exact numbersAdded_grow b reach chain next info

theorem numbersAdded_completeAll (reach : Nat → Bool) : ∀ (ns : List TreeNode) {chain : List String}
    (next : Nat), (∀ n ∈ ns, Grown b chain n) →
    NumbersAdded next (b.completeAll reach chain next ns).2 (idsOf ns)
      (idsOf (b.completeAll reach chain next ns).1)
  | [], _, next, _ => .refl next _
  | n :: ns, chain, next, h => by
    have htail := numbersAdded_completeAll reach ns next fun m hm => h m (List.mem_cons_of_mem n hm)
    have hhead := numbersAdded_complete reach n (b.completeAll reach chain next ns).2
      (h n List.mem_cons_self)
    rw [completeAll]
    dsimp only
    rw [idsOf_cons, idsOf_cons]
    exact (htail.append_left n.ids).trans (hhead.append_right _)

end

theorem numbersAdded_expandAlong {names : List String} {n : TreeNode} (h : Grown b chain n)
    (next : Nat) : NumbersAdded next (b.expandAlong chain next names n).2.1 n.ids
      (b.expandAlong chain next names n).1.ids := by
  induction names generalizing chain n next with
  | nil => exact .refl next _
  | cons name names ih =>
    have hadded := numbersAdded_expand h next
    have hfirst := extends_expand h next
    rw [expandAlong]
    generalize b.expand chain next n = made at hadded hfirst
    obtain ⟨⟨info, children⟩, after⟩ := made
    dsimp only at hadded hfirst ⊢
    split
    · exact hadded
    · split
      · exact hadded
      · rename_i c hget
        have hc := grown_of_mem hfirst.grown c (List.mem_of_getElem? hget)
        exact hadded.trans ((numbersAdded_set hget (ih hc after)).cons info.id)

theorem numbersAdded_expandAt {position : List Nat} {n : TreeNode} (h : Grown b chain n)
    (next : Nat) : NumbersAdded next (b.expandAt chain next position n).2 n.ids
      (b.expandAt chain next position n).1.ids := by
  induction position generalizing chain n next with
  | nil => exact numbersAdded_expand h next
  | cons i position ih =>
    obtain ⟨info, children⟩ := n
    rw [expandAt]
    cases hget : (TreeNode.mk info children).children[i]? with
    | none => exact .refl next _
    | some c =>
      have hc := grown_of_mem h c (List.mem_of_getElem? hget)
      exact (numbersAdded_set hget (ih hc next)).cons info.id

theorem numbersAdded_setAt (s : CheckState) (position : List Nat) {n : TreeNode}
    (h : Grown b chain n) (next : Nat) :
    NumbersAdded next (b.setAt s chain next position n).2.1 n.ids
      (b.setAt s chain next position n).1.ids := by
  induction position generalizing chain n next with
  | nil =>
    rw [setAt]
    split
    rename_i n₁ next₁ heq
    dsimp only
    rw [ids_setAll]
    split at heq
    · have hadded := numbersAdded_complete (fun _ => true) n next h
      rw [heq] at hadded
      exact hadded
    · cases heq
      exact .refl next _
  | cons i position ih =>
    obtain ⟨info, children⟩ := n
    rw [setAt]
    cases hget : (TreeNode.mk info children).children[i]? with
    | none => exact .refl next _
    | some c =>
      have hc := grown_of_mem h c (List.mem_of_getElem? hget)
      exact (numbersAdded_set hget (ih hc next)).cons info.id

/-- The node whose mark is set stays where it is. -/
theorem at?_setAt {s : CheckState} (chain : List String) {position : List Nat} {n m : TreeNode}
    (hat : n.at? position = some m) (next : Nat) :
    ∃ m', (b.setAt s chain next position n).1.at? position = some m' ∧ m'.id = m.id ∧
      m'.path = m.path ∧ m'.state = s := by
  induction position generalizing chain n next with
  | nil =>
    obtain rfl : n = m := by simpa [at?] using hat
    refine ⟨_, rfl, ?_⟩
    have hsetAll : ∀ n₁ : TreeNode, (n₁.setAll s).id = n₁.id ∧ (n₁.setAll s).path = n₁.path ∧
        (n₁.setAll s).state = s := by
      rintro ⟨info, children⟩
      exact ⟨rfl, rfl, rfl⟩
    have hcomplete : (b.complete (fun _ => true) chain next n).1.id = n.id ∧
        (b.complete (fun _ => true) chain next n).1.path = n.path := by
      rw [TreeNode.id, TreeNode.path]
      rcases info_complete b (fun _ => true) chain next n with heq | heq
      · rw [heq]
        exact ⟨rfl, rfl⟩
      · rw [heq]
        exact ⟨rfl, rfl⟩
    rw [setAt]
    split
    rename_i n₁ next₁ heq
    obtain ⟨hid, hpath, hstate⟩ := hsetAll n₁
    split at heq
    · rw [heq] at hcomplete
      exact ⟨hid.trans hcomplete.1, hpath.trans hcomplete.2, hstate⟩
    · cases heq
      exact ⟨hid, hpath, hstate⟩
  | cons i position ih =>
    obtain ⟨info, children⟩ := n
    obtain ⟨c, hget, hrest⟩ := Option.bind_eq_some_iff.mp hat
    obtain ⟨m', hm', hspec⟩ := ih (chainBelow chain info) hrest next
    refine ⟨m', ?_, hspec⟩
    have hi : i < children.length := (List.getElem?_eq_some_iff.mp hget).1
    rw [setAt, hget]
    dsimp only
    rw [at?]
    refine Option.bind_eq_some_iff.mpr ⟨_, ?_, hm'⟩
    exact List.getElem?_set_self hi

end TreeBounds

end QueryPicker
