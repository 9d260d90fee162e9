import Mathlib
import QueryPicker.Proofs.ForgottenHistory
import QueryPicker.Proofs.MixedAncestors

/-!
# Arguments that are kept

Checking a node adds fields to a selection and takes none away but those of the nodes that turn
mixed by it, which lie above the node. Whatever else is selected keeps its arguments, and they are
written with it.
-/

namespace QueryPicker

namespace SelectionMap

variable {m : SelectionMap} {x : SelectedField} {p : FieldPath}

theorem mem_remove : x ∈ (m.remove p).1.entries ↔ x ∈ m.entries ∧ x.path ≠ p := by
  simp [remove, filter, List.mem_filter]

end SelectionMap

namespace FieldTree

/-- The first field of a name: the arguments after it and the fields below it. -/
def field? (name : String) : List FieldTree → Option (Arguments × List FieldTree)
  | [] => none
  | .node own args children :: trees =>
    if own = name then some (args, children) else field? name trees

/-- The arguments that are written with the field to which names lead. -/
def argumentsAt? : List String → List FieldTree → Option Arguments
  | [], _ => none
  | [name], trees => (field? name trees).map Prod.fst
  | name :: next :: names, trees =>
    (field? name trees).bind fun found => argumentsAt? (next :: names) found.2

end FieldTree

namespace SelectionMap

open FieldTree

variable {m : SelectionMap} {x : SelectedField} {p : FieldPath} {levels : Nat}

theorem field?_treesBelow {name : String} (h : name ∈ m.childNames p) :
    field? name (m.treesBelow (levels + 1) p) =
      some (m.argumentsAt (p.child name), m.treesBelow levels (p.child name)) := by
  rw [treesBelow]
  generalize m.childNames p = names at h
  induction names with
  | nil => cases h
  | cons first names ih =>
    rw [List.map_cons, field?]
    split
    · rename_i heq
      rw [heq]
    · rename_i hne
      exact ih ((List.mem_cons.mp h).resolve_left fun heq => hne heq.symm)

theorem argumentsAt?_treesBelow {names : List String} (hne : names ≠ [])
    (hmem : p ++ names ∈ m.paths) (hlevels : names.length ≤ levels) :
    argumentsAt? names (m.treesBelow levels p) = some (m.argumentsAt (p ++ names)) := by
  induction names generalizing p levels with
  | nil => exact absurd rfl hne
  | cons name names ih =>
    rw [← FieldPath.child_append] at hmem ⊢
    obtain ⟨levels, rfl⟩ : ∃ l, levels = l + 1 := ⟨levels - 1, by simp at hlevels; omega⟩
    have hname : name ∈ m.childNames p := mem_childNames.mpr ⟨_, hmem, List.prefix_append _ _⟩
    cases names with
    | nil =>
      rw [argumentsAt?, field?_treesBelow hname, List.append_nil]
      rfl
    | cons next names =>
      rw [argumentsAt?, field?_treesBelow hname, Option.bind_some]
      exact ih (by simp) hmem (by simpa using hlevels)

/-- A selected field is written with its own arguments. -/
theorem argumentsAt?_operationTrees (hx : x ∈ m.entries) {op : Operation} {names : List String}
    (hpath : x.path = FieldPath.root op ++ names) (hne : names ≠ []) :
    argumentsAt? names (m.operationTrees op) = some (x.args?.getD []) := by
  have hmem : FieldPath.root op ++ names ∈ m.paths := mem_paths.mpr ⟨x, hx, hpath⟩
  have hlength : names.length ≤ m.depth := by
    have hdepth := length_le_depth hmem
    rw [List.length_append] at hdepth
    omega
  rw [operationTrees, argumentsAt?_treesBelow hne hmem hlength, ← hpath, argumentsAt_of_mem hx]

end SelectionMap

namespace Batch

variable {b : Batch} {x : SelectedField} {info : NodeInfo} {checks above : List NodeInfo}

/-- What is selected already stays as it is when a node is checked. -/
theorem mem_followNode_of_checked (hs : info.state = .checked) (hx : x ∈ b.selections.entries) :
    x ∈ (b.followNode info).selections.entries := by
  unfold followNode
  rw [hs]
  cases info.field? with
  | none => exact hx
  | some f =>
    dsimp only
    unfold addIfMissing
    split
    · exact hx
    · rename_i hnew
      refine SelectionMap.mem_insert_of_mem hx fun heq => hnew ?_
      exact SelectionMap.isSelected_iff.mpr (SelectionMap.mem_paths.mpr ⟨x, hx, heq⟩)

theorem mem_foldl_of_checked (hchecks : ∀ y ∈ checks, y.state = .checked)
    (hx : x ∈ b.selections.entries) :
    x ∈ (checks.foldl followNode b).selections.entries := by
  induction checks generalizing b with
  | nil => exact hx
  | cons y checks ih =>
    exact ih (fun z hz => hchecks z (List.mem_cons_of_mem y hz))
      (mem_followNode_of_checked (hchecks y List.mem_cons_self) hx)

theorem mem_foldl_of_mixed (habove : ∀ y ∈ above, y.state = .mixed) :
    x ∈ (above.foldl followNode b).selections.entries ↔
      x ∈ b.selections.entries ∧ ∀ y ∈ above, y.path ≠ x.path := by
  induction above generalizing b with
  | nil => simp
  | cons y above ih =>
    have hremove : b.followNode y = (b.remove y.path).1 := by
      rw [followNode, habove y List.mem_cons_self]
    have hmem : x ∈ (b.remove y.path).1.selections.entries ↔
        x ∈ b.selections.entries ∧ x.path ≠ y.path := SelectionMap.mem_remove
    rw [List.foldl_cons, ih fun z hz => habove z (List.mem_cons_of_mem y hz), hremove, hmem,
      List.forall_mem_cons, and_assoc, ne_comm]

/-- Of what was selected, only the fields of the nodes that turned mixed are taken away. -/
theorem mem_follow_of_checked (b : Batch) (id : Nat) (path : FieldPath) {changed : List NodeInfo}
    (hchanged : changed = checks ++ above) (hchecks : ∀ y ∈ checks, y.state = .checked)
    (habove : ∀ y ∈ above, y.state = .mixed) :
    (∀ x ∈ b.selections.entries, (∀ y ∈ above, y.path ≠ x.path) →
        x ∈ (b.follow ⟨id, path, .checked, changed⟩).selections.entries) ∧
      ∀ y ∈ above, y.path ∉ (b.follow ⟨id, path, .checked, changed⟩).selections.paths := by
  rw [follow_eq, if_neg (by simp), hchanged, List.foldl_append]
  constructor
  · intro x hx hnot
    exact (mem_foldl_of_mixed habove).mpr ⟨mem_foldl_of_checked hchecks hx, hnot⟩
  · intro y hy hmem
    obtain ⟨z, hz, heq⟩ := SelectionMap.mem_paths.mp hmem
    exact ((mem_foldl_of_mixed habove).mp hz).2 y hy heq.symm

end Batch

namespace Picker

variable {p p' q : Picker}

/-- Whether the step sets a node to checked. A click does so unless the node is checked. -/
def Step.checks (p : Picker) : Step → Prop
  | .set _ state => state = .checked
  | .setPath _ state => state = .checked
  | .toggle id => (p.tree.state? id).map CheckState.toggled = some .checked
  | _ => False

/-- Nodes may be made, and then one may be checked. -/
inductive Checks (p : Picker) : Picker → Prop where
  | grown {q : Picker} (h : p.GrowsOnly q) : Checks p q
  | checked {q : Picker} {t : SelectionTree} {id : Nat} {changed : List NodeInfo}
      (h : p.GrowsOnly q) (happly : q.tree.apply id .checked = .ok (t, changed)) :
      Checks p (q.afterClick t (t.notify id .checked changed))

/-- Making nodes turns none of them mixed, and hides none that turns so afterwards. -/
theorem GrowsOnly.turnsMixed (hgrows : p.GrowsOnly q) (h : p.tree.IsGrown) (t : SelectionTree)
    (path : FieldPath) : p.tree.TurnsMixed t path ↔ q.tree.TurnsMixed t path :=
  SelectionTree.turnsMixed_of_told h hgrows.tree.grown hgrows.tree.bounds hgrows.told hgrows.kept

theorem growsOnly_refl (h : p.tree.IsGrown) : p.GrowsOnly p := ⟨rfl, .refl h, rfl, .refl _⟩

/-- Setting a node to checked, after some nodes may have been made. -/
theorem checks_setState (h : p.GrowsOnly q) (id : Nat) :
    (∃ e, q.setState id .checked = .error e) ∨
      ∃ p', q.setState id .checked = .ok p' ∧ p.Checks p' := by
  cases happly : q.tree.apply id .checked with
  | error e =>
    left
    refine ⟨e, ?_⟩
    rw [setState, SelectionTree.setState, happly]
    rfl
  | ok made => exact Or.inr ⟨_, setState_of_apply happly, .checked h happly⟩

theorem checks_perform (h : p.tree.IsGrown) {step : Step} (hstep : step.checks p) :
    p.Checks (p.perform step).picker := by
  cases step with
  | set id state =>
    obtain rfl : state = .checked := hstep
    rw [perform]
    rcases checks_setState (growsOnly_refl h) id with ⟨e, he⟩ | ⟨p', hok, hchecks⟩
    · rw [he]
      exact .grown (growsOnly_refl h)
    · rw [hok]
      exact hchecks
  | setPath path state =>
    obtain rfl : state = .checked := hstep
    have hgrows := growsOnly_step h (.expandPath path)
    rw [Growth.step, perform, expandPath] at hgrows
    rw [perform, setPathState]
    generalize p.tree.expandPath path = made at hgrows
    obtain ⟨t, found⟩ := made
    cases found with
    | none => exact .grown hgrows
    | some id =>
      dsimp only at hgrows ⊢
      rcases checks_setState hgrows id with ⟨e, he⟩ | ⟨p', hok, hchecks⟩
      · rw [he]
        exact .grown hgrows
      · rw [hok]
        exact hchecks
  | toggle id =>
    obtain ⟨old, hold, htoggled⟩ := Option.map_eq_some_iff.mp hstep
    rw [perform, toggle, SelectionTree.toggle, hold]
    dsimp only
    rw [htoggled, SelectionTree.setState]
    cases happly : p.tree.apply id .checked with
    | error e => exact .grown (growsOnly_refl h)
    | ok made => exact .checked (growsOnly_refl h) happly
  | expand | expandPath | expandToDepth | readText | setText | setTextSilently | edit
  | replaceSchema | select | session => exact hstep.elim

/-- Either nothing is written, or one change is: the checked nodes and those that turned mixed. -/
theorem Checks.reports (hchecks : p.Checks p') (h : p.tree.IsGrown)
    (hlisteners : p.tree.listeners = [0]) :
    (p'.session = p.session ∧ ∀ path, ¬ p.tree.TurnsMixed p'.tree path) ∨
      ∃ id path checks above,
        p'.session = followChange p.session ⟨id, path, .checked, checks ++ above⟩ ∧
          (∀ y ∈ checks, y.state = .checked) ∧ (∀ y ∈ above, y.state = .mixed) ∧
            ∀ path, (∃ y ∈ above, y.path = path) ↔ p.tree.TurnsMixed p'.tree path := by
  cases hchecks with
  | grown hgrows =>
    refine Or.inl ⟨hgrows.session, fun path => ?_⟩
    rw [hgrows.turnsMixed h]
    exact SelectionTree.not_turnsMixed p'.tree path
  | @checked q t id changed hgrows happly =>
    obtain ⟨checks, above, heq, hchecks, habove, hturns⟩ :=
      SelectionTree.reports_apply hgrows.tree.grown happly
    have hturns' : ∀ path, (∃ y ∈ above, y.path = path) ↔ p.tree.TurnsMixed t path := by
      intro path
      rw [hturns, hgrows.turnsMixed h]
    rw [← hgrows.session]
    by_cases hnil : changed = []
    · subst hnil
      obtain ⟨-, rfl⟩ := List.append_eq_nil_iff.mp heq.symm
      refine Or.inl ⟨rfl, fun path hpath => ?_⟩
      obtain ⟨y, hy, -⟩ := (hturns' path).mpr hpath
      cases hy
    · have hlisten : t.listeners = [0] :=
        (SelectionTree.listeners_apply happly).trans (hgrows.tree.listeners.trans hlisteners)
      obtain ⟨path, hnotify⟩ : ∃ path, t.notify id .checked changed =
          [(0, ⟨id, path, .checked, changed⟩)] := by
        rw [SelectionTree.notify, if_neg (by simpa using hnil), hlisten]
        exact ⟨_, rfl⟩
      refine Or.inr ⟨id, path, checks, above, ?_, hchecks, habove, hturns'⟩
      rw [hnotify, heq]
      rfl

/-- At most one version has come after that of the first picker: nobody has changed the selection in
turn while a change was announced. -/
def Undisturbed (p p' : Picker) : Prop :=
  p'.session.current.version ≤ p.session.current.version + 1

/-- The change that is written by the owner of a session, with what it keeps beside it. -/
theorem followChange_of_free {s : Session Display} (hfree : s.outside.fromText = .free)
    (change : TreeChange) : ∃ outside,
      (followChange s change).current =
        (({ s with outside } : Session Display).change Display.react
          ((Batch.start s.current.selections).follow change)).current := by
  rw [followChange, not_isHeld_of_free hfree, if_neg Bool.false_ne_true]
  exact ⟨_, rfl⟩

theorem keeps_follow (m : SelectionMap) (change : TreeChange) :
    Batch.Keeps m (fun _ => True) ((Batch.start m).follow change) :=
  Batch.keeps_follow (Batch.keeps_start fun _ _ => trivial) fun _ _ _ _ => trivial

/-- What was selected stays, unless its node turns mixed: then it is selected no more. -/
theorem Checks.selections (hchecks : p.Checks p') (h : p.IsReady)
    (hlisteners : p.tree.listeners = [0]) (hversion : p.Undisturbed p') {x : SelectedField}
    (hx : x ∈ p.selections.entries) :
    (¬ p.tree.TurnsMixed p'.tree x.path → x ∈ p'.selections.entries) ∧
      (p.tree.TurnsMixed p'.tree x.path → x.path ∉ p'.selections.paths) := by
  rcases hchecks.reports h.grown hlisteners with
    ⟨hsame, hnot⟩ | ⟨id, path, checks, above, hsession, hchecks, habove, hturns⟩
  · rw [Picker.selections, hsame]
    exact ⟨fun _ => hx, fun hturns => absurd hturns (hnot x.path)⟩
  · obtain ⟨outside, hcurrent⟩ :=
      followChange_of_free h.free.2 ⟨id, path, .checked, checks ++ above⟩
    rw [Undisturbed, hsession, hcurrent] at hversion
    have hselections : p'.selections = ((Batch.start p.selections).follow
        ⟨id, path, .checked, checks ++ above⟩).selections := by
      rw [Picker.selections, hsession, hcurrent]
      exact Session.selections_change (keeps_follow p.selections _) hversion
    obtain ⟨hkept, hremoved⟩ :=
      Batch.mem_follow_of_checked (.start p.selections) id path rfl hchecks habove
    rw [← hturns, hselections]
    constructor
    · intro hnot
      exact hkept x hx fun y hy hpath => hnot ⟨y, hy, hpath⟩
    · rintro ⟨y, hy, hpath⟩
      exact hpath ▸ hremoved y hy

/-- With no follow-up left, there is at most one version. -/
theorem Checks.undisturbed (hchecks : p.Checks p') (h : p.IsReady)
    (hlisteners : p.tree.listeners = [0]) (hnone : p.session.followUps = []) :
    p.Undisturbed p' := by
  rcases hchecks.reports h.grown hlisteners with
    ⟨hsame, -⟩ | ⟨id, path, checks, above, hsession, -⟩
  · rw [Undisturbed, hsame]
    exact Nat.le_succ _
  · obtain ⟨outside, hcurrent⟩ :=
      followChange_of_free h.free.2 ⟨id, path, .checked, checks ++ above⟩
    rw [Undisturbed, hsession, hcurrent]
    exact (Session.change_of_no_followUps Display.react (s := { p.session with outside }) hnone
      ((Batch.start p.selections).follow _)).1

/-- A listener that clears the selection in its first call leaves nothing of it, if a selected field
has turned mixed. -/
theorem Checks.selections_of_clearing (hchecks : p.Checks p') (h : p.IsReady)
    (htree : p.tree.listeners = [0]) (label : Nat)
    (hlisteners : p.session.listeners = [.owner, .scripted label])
    (hfollowUps : p.session.followUps = [(label, .edit .clear)])
    {x : SelectedField} (hx : x ∈ p.selections.entries)
    (hturns : p.tree.TurnsMixed p'.tree x.path) : p'.selections = .empty := by
  rcases hchecks.reports h.grown htree with
    ⟨-, hnot⟩ | ⟨id, path, checks, above, hsession, hchecks, habove, hiff⟩
  · exact absurd hturns (hnot x.path)
  · obtain ⟨outside, hcurrent⟩ :=
      followChange_of_free h.free.2 ⟨id, path, .checked, checks ++ above⟩
    have hchanged : ((Batch.start p.selections).follow
        ⟨id, path, .checked, checks ++ above⟩).changed = true := by
      by_contra hnot
      obtain ⟨y, hy, hpath⟩ := (hiff x.path).mpr hturns
      have hremoved := (Batch.mem_follow_of_checked (.start p.selections) id path rfl hchecks
        habove).2 y hy
      rw [(keeps_follow p.selections _).unchanged (Bool.eq_false_iff.mpr hnot), hpath] at hremoved
      exact hremoved (SelectionMap.mem_paths.mpr ⟨x, hx, rfl⟩)
    rw [Picker.selections, hsession, hcurrent]
    exact Session.selections_change_of_followUp Display.react (s := { p.session with outside })
      hlisteners hfollowUps hchanged

/-- Whatever steps have been taken, checking a node leaves all that is selected with its arguments,
and these are written with it, if nobody else changes the selection while the change is announced.
Only the fields of nodes that were unchecked and turn mixed are selected no more. -/
theorem selection_stays_checking (schema : Schema) (maxDepth : Nat) (surface : TextSurface)
    (steps : List Step) (step : Step) :
    let p := (start schema maxDepth surface).run steps
    let p' := (p.perform step).picker
    step.checks p → p.Undisturbed p' → ∀ x ∈ p.selections.entries,
      (¬ p.tree.TurnsMixed p'.tree x.path → x ∈ p'.selections.entries ∧
        ∀ op names, x.path = FieldPath.root op ++ names → names ≠ [] →
          FieldTree.argumentsAt? names (p'.selections.operationTrees op) =
            some (x.args?.getD [])) ∧
      (p.tree.TurnsMixed p'.tree x.path → x.path ∉ p'.selections.paths) := by
  intro p p' hstep hversion x hx
  have hready : p.IsReady := isReady_run (isReady_start schema maxDepth surface) steps
  have howns : OwnsTree maxDepth p :=
    ownsTree_run (ownsTree_start schema maxDepth surface) (isReady_start schema maxDepth surface)
      steps
  obtain ⟨hstays, hgone⟩ :=
    (checks_perform hready.grown hstep).selections hready howns.listeners hversion hx
  refine ⟨fun hnot => ⟨hstays hnot, fun op names hpath hne => ?_⟩, hgone⟩
  exact SelectionMap.argumentsAt?_operationTrees (hstays hnot) hpath hne

theorem turnsMixed_of_nodeAt? {t t' : SelectionTree} {path : FieldPath} (position : List Nat)
    (hbefore : (t.nodeAt? position).all (·.state == .unchecked) = true)
    (hafter : (t'.nodeAt? position).any (fun m => m.path == path && m.state == .mixed) = true) :
    t.TurnsMixed t' path := by
  obtain ⟨m, hat, hm⟩ := (Option.any_eq_true _ _).mp hafter
  rw [Bool.and_eq_true, beq_iff_eq, beq_iff_eq] at hm
  refine ⟨position, m, hat, hm.1, hm.2, fun n hn => ?_⟩
  rw [hn] at hbefore
  simpa using hbefore

theorem not_turnsMixed_of_nodes {t t' : SelectionTree} {path : FieldPath}
    (h : t'.nodes.all (fun x => !(x.path == path && x.state == .mixed)) = true) :
    ¬ t.TurnsMixed t' path := by
  rintro ⟨position, m, hat, hpath, hmixed, -⟩
  have hm := List.all_eq_true.mp h m.info (SelectionTree.mem_nodes_of_nodeAt? hat)
  have hpath : m.info.path = path := hpath
  have hmixed : m.info.state = .mixed := hmixed
  simp [hpath, hmixed] at hm

def userWithId : SelectedField := ⟨["Query", "user"], default, some [("id", .int 7)]⟩

def firstFriends : SelectedField := ⟨["Query", "user", "friend"], default, some [("first", .int 3)]⟩

def storeArguments : Step := .session (.batch [.add userWithId, .add firstFriends])

def checkName : Step := .setPath ["Query", "user", "name"] .checked

theorem entries_storeArguments :
    ((start SelectionMap.friends 5 (.showing "")).run [storeArguments]).selections.entries =
      [userWithId, firstFriends] := by
  have hsession : ((start SelectionMap.friends 5 (.showing "")).run [storeArguments]).session =
      Session.drain Display.react _ [.call .owner _] := rfl
  rw [selections, hsession, Session.drain_owner]
  rfl

/-- The name of the user is checked, and the friends of the user keep their argument. -/
theorem selection_stays_first_friends :
    let p := (start SelectionMap.friends 5 (.showing "")).run [storeArguments]
    let p' := (p.perform checkName).picker
    firstFriends ∈ p'.selections.entries ∧ FieldTree.argumentsAt? ["user", "friend"]
      (p'.selections.operationTrees .query) = some [("first", .int 3)] := by
  intro p p'
  have hready : p.IsReady := isReady_run (isReady_start _ _ _) _
  have hchecks : p.Checks p' := checks_perform hready.grown rfl
  have hnone : p.session.followUps = [] :=
    followUps_run rfl (isReady_start _ _ _) (by simp [storeArguments, Step.isDirect])
  have hnot : ¬ p.tree.TurnsMixed p'.tree firstFriends.path :=
    not_turnsMixed_of_nodes (by decide +kernel)
  have hx : firstFriends ∈ p.selections.entries := by simp [p, entries_storeArguments]
  have hstays := (selection_stays_checking SelectionMap.friends 5 (.showing "") [storeArguments]
    checkName rfl (hchecks.undisturbed hready rfl hnone) firstFriends hx).1 hnot
  exact ⟨hstays.1, hstays.2 .query ["user", "friend"] rfl (by simp)⟩

/-- The name of the user is checked: the user turns mixed and loses its argument. A listener that
clears the selection in its first call takes away the argument of the friends of the user too. -/
theorem arguments_lost_checking_name :
    let p := (start SelectionMap.friends 5 (.showing "")).run [storeArguments]
    let q := (start SelectionMap.friends 5 (.showing "")).run
      [storeArguments, .session (.listen (some (.edit .clear)))]
    let p' := (p.perform checkName).picker
    let q' := (q.perform checkName).picker
    checkName.checks p ∧ userWithId ∈ p.selections.entries ∧
      userWithId.path ∉ p'.selections.paths ∧
    checkName.checks q ∧ firstFriends ∈ q.selections.entries ∧
      ¬ q.tree.TurnsMixed q'.tree firstFriends.path ∧ q'.selections = .empty := by
  intro p q p' q'
  have hp : p.IsReady := isReady_run (isReady_start _ _ _) _
  have hq : q.IsReady := isReady_run (isReady_start _ _ _) _
  have hpchecks : p.Checks p' := checks_perform hp.grown rfl
  have hqchecks : q.Checks q' := checks_perform hq.grown rfl
  have hpuser : userWithId ∈ p.selections.entries := by simp [p, entries_storeArguments]
  have hundisturbed : p.Undisturbed p' := hpchecks.undisturbed hp rfl
    (followUps_run rfl (isReady_start _ _ _) (by simp [storeArguments, Step.isDirect]))
  have hpturns : p.tree.TurnsMixed p'.tree userWithId.path :=
    turnsMixed_of_nodeAt? [0, 0] (by decide +kernel) (by decide +kernel)
  have hqsession : q.session = Session.drain Display.react (Session.listen
      (Session.drain Display.react _ [.call .owner _]) (some (.edit .clear))).1 [] := rfl
  rw [Session.drain_owner, Session.drain] at hqsession
  have hqentries : q.selections.entries = [userWithId, firstFriends] := by
    rw [selections, hqsession]
    rfl
  have hqturns : q.tree.TurnsMixed q'.tree userWithId.path :=
    turnsMixed_of_nodeAt? [0, 0] (by decide +kernel) (by decide +kernel)
  have hqempty : q'.selections = .empty := by
    refine hqchecks.selections_of_clearing hq rfl 0 ?_ ?_ (x := userWithId) ?_ hqturns
    · rw [hqsession]
      rfl
    · rw [hqsession]
      rfl
    · simp [hqentries]
  exact ⟨rfl, hpuser, (hpchecks.selections hp rfl hundisturbed hpuser).2 hpturns, rfl,
    by simp [hqentries], not_turnsMixed_of_nodes (by decide +kernel), hqempty⟩

end Picker

end QueryPicker
