import Mathlib
import QueryPicker.Proofs.LeafMarks

/-!
# What checking a node turns mixed

Checking a node reports the nodes whose marks change: first those that are checked now, the node
and what lies below it or was completed by it, and then those above it that are mixed. These are
exactly the nodes that are mixed and were unchecked before. Nodes are known by their positions, so
the fields of a type may share a name.
-/

namespace QueryPicker

/-- A node is mixed, and at its place there was none or an unchecked one. -/
def TreeNode.TurnsMixed (n n' : TreeNode) (x : NodeInfo) : Prop :=
  ∃ position m', n'.at? position = some m' ∧ m'.info = x ∧ m'.state = .mixed ∧
    ∀ m, n.at? position = some m → m.state = .unchecked

namespace TreeBounds

open TreeNode

variable {b : TreeBounds} {chain : List String} {n n' m c c' : TreeNode} {info info' : NodeInfo}
  {children : List TreeNode} {i : Nat} {position : List Nat} {x : NodeInfo}

/-- With another mark and one other child, the node itself may turn mixed, or one at or below that
child. -/
theorem turnsMixed_set (hget : children[i]? = some c) :
    (TreeNode.mk info children).TurnsMixed (.mk info' (children.set i c')) x ↔
      (info' = x ∧ info'.state = .mixed ∧ info.state = .unchecked) ∨ c.TurnsMixed c' x := by
  have hget' : (children.set i c')[i]? = some c' :=
    List.getElem?_set_self (List.getElem?_eq_some_iff.mp hget).1
  constructor
  · rintro ⟨position, m', hat', hx, hmixed, hbefore⟩
    cases position with
    | nil =>
      obtain rfl : TreeNode.mk info' (children.set i c') = m' := by simpa [at?] using hat'
      exact Or.inl ⟨hx, hmixed, hbefore _ rfl⟩
    | cons j position =>
      obtain ⟨d', hgetd', hrest'⟩ := Option.bind_eq_some_iff.mp hat'
      have hgetd' : (children.set i c')[j]? = some d' := hgetd'
      by_cases hj : i = j
      · subst hj
        obtain rfl : c' = d' := by simpa [hget'] using hgetd'
        refine Or.inr ⟨position, m', hrest', hx, hmixed, fun m hm => hbefore m ?_⟩
        exact Option.bind_eq_some_iff.mpr ⟨c, hget, hm⟩
      · rw [List.getElem?_set_ne hj] at hgetd'
        have hunchecked := hbefore m' (Option.bind_eq_some_iff.mpr ⟨d', hgetd', hrest'⟩)
        rw [hmixed] at hunchecked
        cases hunchecked
  · rintro (⟨hx, hmixed, hunchecked⟩ | ⟨position, m', hat', hx, hmixed, hbefore⟩)
    · refine ⟨[], _, rfl, hx, hmixed, fun m hm => ?_⟩
      obtain rfl : TreeNode.mk info children = m := by simpa [at?] using hm
      exact hunchecked
    · refine ⟨i :: position, m', Option.bind_eq_some_iff.mpr ⟨c', hget', hat'⟩, hx, hmixed, ?_⟩
      intro m hm
      obtain ⟨d, hgetd, hrest⟩ := Option.bind_eq_some_iff.mp hm
      have hgetd : children[i]? = some d := hgetd
      obtain rfl : c = d := by simpa [hget] using hgetd
      exact hbefore m hrest

/-- Above a mixed node all is mixed. -/
theorem ofChildren_of_mixed {states : List CheckState} (h : .mixed ∈ states) :
    CheckState.ofChildren states = .mixed := by
  by_contra hne
  exact hne (eq_of_ofChildren hne rfl _ h).symm

/-- What is reported of checking a node at or below this one. -/
structure ReportsChecked (n n' : TreeNode) (changed : List NodeInfo) : Prop where
  marked : n'.state ≠ .unchecked
  stays : n.state = .checked → n'.state = .checked
  reports : ∃ checks above, changed = checks ++ above ∧ (∀ x ∈ checks, x.state = .checked) ∧
    (above ≠ [] → n'.state = .mixed) ∧ ∀ x, x ∈ above ↔ n.TurnsMixed n' x

theorem reportsChecked_target (h : Grown b chain n') (hs : n'.state = .checked)
    {changed : List NodeInfo} (hchanged : ∀ x ∈ changed, x.state = .checked) :
    ReportsChecked n n' changed := by
  have hnot : ∀ x, ¬ n.TurnsMixed n' x := by
    rintro x ⟨position, m', hat', -, hmixed, -⟩
    rw [state_of_at? h hs (by decide) hat'] at hmixed
    cases hmixed
  refine ⟨by rw [hs]; decide, fun _ => hs, changed, [], by simp, hchanged, by simp, fun x => ?_⟩
  simpa using hnot x

/-- The parent is reported if its mark changes: first if it is checked now, last if it is mixed. -/
theorem reportsChecked_parent (h : Grown b chain (.mk info children)) (hget : children[i]? = some c)
    {changed : List NodeInfo} (hc : ReportsChecked c c' changed) {derived : CheckState}
    (hderived : derived = .ofChildren ((children.set i c').map (·.state))) :
    ReportsChecked (.mk info children) (.mk { info with state := derived } (children.set i c'))
      (if info.state = derived then changed else changed ++ [{ info with state := derived }]) := by
  obtain ⟨hmarked, hstays, checks, above, rfl, hchecks, hmixed, habove⟩ := hc
  have hmem : c'.state ∈ (children.set i c').map (·.state) :=
    List.mem_map.mpr ⟨c', List.mem_set (List.getElem?_eq_some_iff.mp hget).1 c', rfl⟩
  have hmarked' : derived ≠ .unchecked :=
    hderived ▸ ofChildren_ne_toggled (s := .checked) hmem hmarked
  have hstays' : info.state = .checked → derived = .checked := by
    intro hchecked
    have hchild : c.state = .checked := state_of_getElem? h hchecked (by decide) hget
    exact (state_eq_derived h hget ((hstays hchild).trans hchild.symm) hderived).symm.trans hchecked
  have habove' : above ≠ [] → derived = .mixed := by
    intro hne
    rw [hderived]
    exact ofChildren_of_mixed (hmixed hne ▸ hmem)
  refine ⟨hmarked', hstays', ?_⟩
  by_cases hsame : info.state = derived
  · rw [if_pos hsame]
    refine ⟨checks, above, rfl, hchecks, habove', fun x => ?_⟩
    have hnot : ¬ (derived = .mixed ∧ info.state = .unchecked) := by
      rintro ⟨hd, hu⟩
      rw [hu, hd] at hsame
      cases hsame
    rw [turnsMixed_set hget, habove]
    exact ⟨Or.inr, fun hor => hor.resolve_left fun hself => hnot hself.2⟩
  · rw [if_neg hsame]
    cases hd : derived with
    | unchecked => exact absurd hd hmarked'
    | checked =>
      obtain rfl : above = [] := by
        by_contra hne
        rw [habove' hne] at hd
        cases hd
      refine ⟨checks ++ [{ info with state := .checked }], [], by simp, ?_, by simp, fun x => ?_⟩
      · intro x hx
        rcases List.mem_append.mp hx with hx | hx
        · exact hchecks x hx
        · rw [List.mem_singleton.mp hx]
      · rw [turnsMixed_set hget, habove]
        exact ⟨Or.inr, fun hor => hor.resolve_left fun hself => by cases hself.2.1⟩
    | mixed =>
      have hunchecked : info.state = .unchecked := by
        cases hs : info.state with
        | unchecked => rfl
        | checked => exact absurd (hs.trans (hstays' hs).symm) hsame
        | mixed => exact absurd (hs.trans hd.symm) hsame
      refine ⟨checks, above ++ [{ info with state := .mixed }], by simp, hchecks, fun _ => rfl, ?_⟩
      intro x
      rw [turnsMixed_set hget, List.mem_append, habove, List.mem_singleton, or_comm]
      apply or_congr_left
      exact ⟨fun hx => ⟨hx.symm, rfl, hunchecked⟩, fun hself => hself.1.symm⟩

theorem reportsChecked_setAt (h : Grown b chain n) (hat : n.at? position = some m) (next : Nat) :
    ReportsChecked n (b.setAt .checked chain next position n).1
      (b.setAt .checked chain next position n).2.2 := by
  induction position generalizing chain n next with
  | nil =>
    refine reportsChecked_target (grown_setAt (by decide) [] h next).1 ?_ ?_
    · rw [setAt]
      exact state_setAll .checked _
    · intro x hx
      rw [setAt] at hx
      obtain ⟨y, -, rfl⟩ := List.mem_map.mp hx
      rfl
  | cons i position ih =>
    obtain ⟨info, children⟩ := n
    obtain ⟨c, hget, hrest⟩ := Option.bind_eq_some_iff.mp hat
    have hget : children[i]? = some c := hget
    rw [setAt_cons hget]
    exact reportsChecked_parent h hget
      (ih (grown_of_mem h c (List.mem_of_getElem? hget)) hrest next) rfl

end TreeBounds

namespace SelectionTree

open TreeBounds

variable {t t₁ t' : SelectionTree} {id : Nat} {path : FieldPath} {position : List Nat}

/-- A node of the path is mixed, and at its place there was none or an unchecked one. -/
def TurnsMixed (t t' : SelectionTree) (path : FieldPath) : Prop :=
  ∃ position m', t'.nodeAt? position = some m' ∧ m'.path = path ∧ m'.state = .mixed ∧
    ∀ m, t.nodeAt? position = some m → m.state = .unchecked

theorem turnsMixed_setRoot {i : Nat} {r r' : TreeNode} (hget : t.roots[i]? = some r) (next : Nat) :
    t.TurnsMixed (t.setRoot i r' next) path ↔ ∃ x, r.TurnsMixed r' x ∧ x.path = path := by
  have hget' := getElem?_setRoot hget r' next
  constructor
  · rintro ⟨position, m', hat', hpath, hmixed, hbefore⟩
    obtain ⟨j, rest, d', rfl, hgetd', hrest'⟩ := exists_of_nodeAt? hat'
    by_cases hj : i = j
    · subst hj
      obtain rfl : r' = d' := by simpa [hget'] using hgetd'
      refine ⟨m'.info, ⟨rest, m', hrest', rfl, hmixed, fun m hm => hbefore m ?_⟩, hpath⟩
      rw [nodeAt?, hget, Option.bind_some, hm]
    · have hgetd : t.roots[j]? = some d' := by
        rw [← hgetd']
        exact (List.getElem?_set_ne hj).symm
      have hunchecked := hbefore m' (by rw [nodeAt?, hgetd, Option.bind_some, hrest'])
      rw [hmixed] at hunchecked
      cases hunchecked
  · rintro ⟨x, ⟨rest, m', hat', rfl, hmixed, hbefore⟩, hpath⟩
    refine ⟨i :: rest, m', ?_, hpath, hmixed, fun m hm => hbefore m ?_⟩
    · rw [nodeAt?, hget', Option.bind_some, hat']
    · rwa [nodeAt?, hget, Option.bind_some] at hm

/-- Checking a node reports checked nodes, and after them those that turn mixed. -/
theorem reports_apply {changed : List NodeInfo} (h : t.IsGrown)
    (hok : t.apply id .checked = .ok (t', changed)) :
    ∃ checks above, changed = checks ++ above ∧ (∀ x ∈ checks, x.state = .checked) ∧
      (∀ x ∈ above, x.state = .mixed) ∧
        ∀ path, (∃ x ∈ above, x.path = path) ↔ t.TurnsMixed t' path := by
  obtain ⟨-, i, position, r, m, -, hget, hat, -, rfl, rfl⟩ := apply_spec hok
  obtain ⟨-, -, checks, above, heq, hchecks, -, habove⟩ :=
    reportsChecked_setAt (h.grown r (List.mem_of_getElem? hget)) hat t.next
  refine ⟨checks, above, heq, hchecks, fun x hx => ?_, fun path => ?_⟩
  · obtain ⟨_, m', -, rfl, hmixed, -⟩ := (habove x).mp hx
    exact hmixed
  · rw [turnsMixed_setRoot hget]
    simp only [habove]

/-- New nodes are unchecked, and the others keep their marks while a tree grows. -/
theorem turnsMixed_of_told (h : t.IsGrown) (h₁ : t₁.IsGrown) (hbounds : t₁.bounds = t.bounds)
    (htold : t₁.told = t.told) (hkept : t.KeptIn t₁) :
    t.TurnsMixed t' path ↔ t₁.TurnsMixed t' path := by
  have hleaves := checkedLeaves_eq_of_told h h₁ hbounds htold
  have hbefore : ∀ position, (∀ m, t.nodeAt? position = some m → m.state = .unchecked) ↔
      ∀ m, t₁.nodeAt? position = some m → m.state = .unchecked := by
    intro position
    constructor
    · intro hall m₁ hm₁
      by_contra hmarked
      obtain ⟨m, hm⟩ := exists_nodeAt?_of_checkedLeaves h₁ hleaves.symm hm₁ hmarked
      rw [state_eq_of_checkedLeaves h h₁ hbounds hleaves hm hm₁] at hmarked
      exact hmarked (hall m hm)
    · intro hall m hm
      obtain ⟨m₁, hm₁, -, -⟩ := hkept.nodeAt? hm
      rw [← state_eq_of_checkedLeaves h h₁ hbounds hleaves hm hm₁]
      exact hall m₁ hm₁
  simp only [TurnsMixed, hbefore]

/-- Nothing turns mixed in a tree that stays as it is. -/
theorem not_turnsMixed (t : SelectionTree) (path : FieldPath) : ¬ t.TurnsMixed t path := by
  rintro ⟨position, m, hat, -, hmixed, hbefore⟩
  rw [hbefore m hat] at hmixed
  cases hmixed

end SelectionTree

end QueryPicker
