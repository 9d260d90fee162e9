import Mathlib
import QueryPicker.Proofs.Agreement

/-!
# Pickers that are reached

What holds of a picker after any steps of its own, in any order and with any texts. Its text is that
of its selection whenever a step has made a new version, and reads back as the selection. Checked
fields are selected. Unchecked fields have nothing selected at or below them exactly if the tree
shows all that is selected there.
-/

namespace QueryPicker

/-- The fields of every type have different names, and all of these can be written in documents. -/
structure Schema.WellNamed (s : Schema) : Prop where
  distinct : s.DistinctFields
  names : ∀ entry ∈ s.types, ∀ f ∈ entry.2.fields, isName f.name = true

theorem Schema.isName_of_selects {s : Schema} (h : s.WellNamed) {t : TypeDef} {names : List String}
    (ht : ∃ name, (name, t) ∈ s.types) (hselects : s.Selects t names) :
    ∀ name ∈ names, isName name = true := by
  induction names generalizing t with
  | nil => simp
  | cons name names ih =>
    obtain ⟨f, hf, hrest⟩ := hselects
    obtain ⟨typeName, ht⟩ := ht
    intro name' hname'
    rcases List.mem_cons.mp hname' with rfl | hname'
    · have hfname : f.name = name' := by simpa using List.find?_some hf
      exact hfname ▸ h.names _ ht f (List.mem_of_find?_eq_some hf)
    · rcases hrest with rfl | ⟨inner, hinner, hrest⟩
      · simp at hname'
      · have htype : s.typeNamed? f.type.innerName = some inner :=
          (Option.filter_eq_some_iff.mp hinner).1
        exact ih ⟨_, Schema.mem_types_of_typeNamed? htype⟩ hrest name' hname'

/-- What a picker stores can be written, and what is written can be read. -/
theorem paths_text_of_isStored {s : Schema} (h : s.WellNamed) {m : SelectionMap}
    (hstored : ∀ x ∈ m.entries, IsStored s x) (hdepth : m.bracketDepth ≤ Token.bracketBudget) :
    QueryText.paths s m.text = .ok m.closure := by
  have hselectable : ∀ p ∈ m.paths, s.Selectable p := by
    intro p hp
    obtain ⟨x, hx, rfl⟩ := SelectionMap.mem_paths.mp hp
    exact (hstored x hx).selectable
  refine SelectionMap.paths_text_of_isReadable hselectable ?_ hdepth ?_
  · intro x hx
    constructor
    · obtain ⟨op, root, names, hroot, hpath, hselects⟩ := (hstored x hx).selectable
      obtain ⟨rootName, -, htype⟩ := Option.bind_eq_some_iff.mp hroot
      rw [hpath]
      exact Schema.isName_of_selects h ⟨rootName, Schema.mem_types_of_typeNamed? htype⟩ hselects
    · intro args hargs
      rw [(hstored x hx).args] at hargs
      cases hargs
  · intro x hx _ args hargs
    rw [(hstored x hx).args] at hargs
    cases hargs

namespace Picker

variable {schema : Schema} {maxDepth : Nat} {surface : TextSurface} {steps : List Step}

/-- Reading a text never changes it. A step that neither edits nor reads the text leaves it as it is
unless there is a new version of the selection; then it is the text of the selection, which reads
back as all that is selected and what lies on the way to it. -/
theorem text_agrees (hschema : schema.WellNamed) (maxDepth : Nat) (surface : TextSurface)
    (hsteps : ∀ step ∈ steps, step.IsOwn Schema.WellNamed) :
    let p := (start schema maxDepth surface).run steps
    (p.perform .readText).picker.surface = p.surface ∧
      (∀ text, (p.perform (.edit text)).picker.surface =
        (p.perform (.setText text)).picker.surface) ∧
      ∀ step : Step, step.IsOwn Schema.WellNamed → step.usesText = false →
        let p' := (p.perform step).picker
        (p'.session.current.version ≤ p.session.current.version → p'.surface = p.surface) ∧
        (p.session.current.version < p'.session.current.version →
          p'.surface.text = p'.selections.text ∧
            (p'.selections.bracketDepth ≤ Token.bracketBudget →
              QueryText.paths p'.schema p'.surface.text = .ok p'.selections.closure)) := by
  have hok : ∀ s : Schema, s.WellNamed → s.DistinctFields := fun _ hs => hs.distinct
  have h := agrees_run hok (agrees_start hschema maxDepth surface) hsteps
  intro p
  have h : Agrees Schema.WellNamed p := h
  refine ⟨(agrees_readText hok h).2, ?_, ?_⟩
  · intro text
    exact (agrees_readText hok (agrees_withSurface h (p.surface.setText text).1)).2
  · intro step hstep huses p'
    obtain ⟨hagrees, hshows⟩ := agrees_perform hok h hstep
    constructor
    · intro hle
      rcases hshows huses with ⟨-, hsurface⟩ | ⟨hversion, -⟩
      · exact hsurface
      · have hversion : p'.session.current.version = p.session.current.version + 1 := hversion
        omega
    · intro hlt
      rcases hshows huses with ⟨hcurrent, -⟩ | ⟨-, htext⟩
      · have hcurrent : p'.session.current = p.session.current := hcurrent
        rw [hcurrent] at hlt
        omega
      · have htext : p'.surface.text = p'.selections.text := htext
        refine ⟨htext, ?_⟩
        intro hdepth
        rw [htext]
        exact paths_text_of_isStored hagrees.schema hagrees.stored hdepth

theorem wellNamed_friends : SelectionMap.friends.WellNamed :=
  ⟨by unfold Schema.DistinctFields; decide +kernel, by decide +kernel⟩

/-- A click on the name of the user writes a text that reads back as that path and the way to it. -/
theorem text_agrees_user_name :
    let p := (start SelectionMap.friends 5 (.showing "")).run [.expand 1]
    let p' := (p.perform (.set 3 .checked)).picker
    p.session.current.version < p'.session.current.version ∧
      p'.surface.text = p'.selections.text ∧ QueryText.paths p'.schema p'.surface.text =
        .ok [["Query", "user"], ["Query", "user", "name"]] := by
  intro p p'
  have hsteps : ∀ step ∈ [Step.expand 1], step.IsOwn Schema.WellNamed := by simp [Step.IsOwn]
  have hagrees : Agrees Schema.WellNamed p :=
    agrees_run (fun _ hs => hs.distinct) (agrees_start wellNamed_friends 5 _) hsteps
  have hclick : (match p.tree.apply 3 .checked with
      | .error _ => false
      | .ok (t, changed) => (t.notify 3 .checked changed).length == 1 &&
          (t.notify 3 .checked changed).all fun call =>
            let b := (Batch.start p.selections).follow call.2
            b.changed && decide (b.selections.bracketDepth ≤ Token.bracketBudget) &&
              b.selections.closure == [["Query", "user"], ["Query", "user", "name"]]) = true := by
    decide +kernel
  cases happly : p.tree.apply 3 .checked with
  | error e =>
    rw [happly] at hclick
    cases hclick
  | ok made =>
    obtain ⟨t, changed⟩ := made
    rw [happly] at hclick
    obtain ⟨hlength, hall⟩ := Bool.and_eq_true_iff.mp hclick
    obtain ⟨call, hcall⟩ := List.length_eq_one_iff.mp (beq_iff_eq.mp hlength)
    rw [hcall, List.all_cons, List.all_nil, Bool.and_true, Bool.and_eq_true, Bool.and_eq_true,
      decide_eq_true_eq, beq_iff_eq] at hall
    obtain ⟨⟨hchanged, hdepth⟩, hclosure⟩ := hall
    have hcurrent : p'.session.current =
        ⟨((Batch.start p.selections).follow call.2).selections, p.session.current.version + 1⟩ :=
      current_set_of_notify hagrees.rest happly hcall hchanged
    have hversion : p.session.current.version < p'.session.current.version := by
      rw [hcurrent]
      exact Nat.lt_succ_self _
    obtain ⟨htext, hpaths⟩ := ((text_agrees wellNamed_friends 5 _ hsteps).2.2
      (.set 3 .checked) trivial rfl).2 hversion
    have hselections : p'.selections = ((Batch.start p.selections).follow call.2).selections :=
      congrArg Snapshot.selections hcurrent
    refine ⟨hversion, htext, ?_⟩
    rw [← hclosure, ← hselections]
    exact hpaths (hselections ▸ hdepth)

/-- Every checked field is selected. -/
theorem isSelected_of_checked (hschema : schema.DistinctFields) (maxDepth : Nat)
    (surface : TextSurface) (hsteps : ∀ step ∈ steps, step.IsOwn Schema.DistinctFields)
    {x : NodeInfo} (hx : x ∈ ((start schema maxDepth surface).run steps).tree.nodes)
    (hchecked : x.state = .checked) (hfield : x.field?.isSome = true) :
    ((start schema maxDepth surface).run steps).selections.isSelected x.path = true := by
  have h := agrees_run (fun _ hs => hs) (agrees_start hschema maxDepth surface) hsteps
  obtain ⟨hshows, hmark, hlength⟩ := h.grown.node_spec h.schema hx
  rw [SelectionMap.isSelected_iff]
  exact h.marks.checked x.path hshows (hmark.trans hchecked) (hlength.mp hfield)

theorem isSelected_user_name :
    ((start SelectionMap.friends 5 (.showing "")).run
      [.setPath ["Query", "user", "name"] .checked]).selections.isSelected
        ["Query", "user", "name"] = true := by
  have hnode : ((start SelectionMap.friends 5 (.showing "")).run
      [.setPath ["Query", "user", "name"] .checked]).tree.nodes.any (fun x =>
        x.path == ["Query", "user", "name"] && x.state == .checked && x.field?.isSome) = true := by
    decide +kernel
  obtain ⟨x, hx, hspec⟩ := List.any_eq_true.mp hnode
  rw [Bool.and_eq_true, Bool.and_eq_true, beq_iff_eq, beq_iff_eq] at hspec
  obtain ⟨⟨hpath, hchecked⟩, hfield⟩ := hspec
  have hselected := isSelected_of_checked wellNamed_friends.distinct 5 _ (by simp [Step.IsOwn]) hx
    hchecked hfield
  rwa [hpath] at hselected

/-- An unchecked node has nothing selected at or below it exactly if the tree shows all that is
selected there. -/
theorem selections_state_eq_unchecked_iff (hschema : schema.DistinctFields) (maxDepth : Nat)
    (surface : TextSurface) (hsteps : ∀ step ∈ steps, step.IsOwn Schema.DistinctFields)
    {x : NodeInfo} (hx : x ∈ ((start schema maxDepth surface).run steps).tree.nodes)
    (hunchecked : x.state = .unchecked) :
    let p := (start schema maxDepth surface).run steps
    p.selections.state x.path = .unchecked ↔
      ∀ q ∈ p.selections.paths, x.path <+: q → (p.tree.expandPath q).2.isSome = true := by
  have h := agrees_run (fun _ hs => hs) (agrees_start hschema maxDepth surface) hsteps
  intro p
  have h : Agrees Schema.DistinctFields p := h
  obtain ⟨hshows, hmark, -⟩ := h.grown.node_spec h.schema hx
  rw [SelectionMap.state_eq_unchecked_iff]
  constructor
  · intro hnone q hq hstart
    exact absurd hstart (hnone q hq)
  · intro hall q hq hstart
    have hqshows := (SelectionTree.isSome_expandPath_iff h.grown).mp (hall q hq hstart)
    have hqmark := h.grown.markAt_of_start hshows.ne_nil (hmark.trans hunchecked) hstart
    obtain ⟨r, hr, hqr, hrshows⟩ := h.marks.unchecked q hq hqshows hqmark
    exact hrshows ((SelectionTree.isSome_expandPath_iff h.grown).mp
      (hall r hr (hstart.trans hqr)))

theorem selections_state_user_friend_eq_unchecked_iff :
    let p := (start SelectionMap.friends 5 (.showing "")).run
      [.setPath ["Query", "user", "name"] .checked]
    p.selections.state ["Query", "user", "friend"] = .unchecked ↔
      ∀ q ∈ p.selections.paths, ["Query", "user", "friend"] <+: q →
        (p.tree.expandPath q).2.isSome = true := by
  have hnode : ((start SelectionMap.friends 5 (.showing "")).run
      [.setPath ["Query", "user", "name"] .checked]).tree.nodes.any (fun x =>
        x.path == ["Query", "user", "friend"] && x.state == .unchecked) = true := by
    decide +kernel
  obtain ⟨x, hx, hspec⟩ := List.any_eq_true.mp hnode
  rw [Bool.and_eq_true, beq_iff_eq, beq_iff_eq] at hspec
  obtain ⟨hpath, hunchecked⟩ := hspec
  rw [← hpath]
  exact selections_state_eq_unchecked_iff wellNamed_friends.distinct 5 _ (by simp [Step.IsOwn]) hx
    hunchecked

/-- A text that goes on beyond the bounds of the tree. -/
def friendNameText : String :=
  "query \x7b\n  user \x7b\n    friend \x7b\n      name\n    \x7d\n  \x7d\n\x7d"

theorem paths_text_one {p : FieldPath} (hp : SelectionMap.friends.Selectable p)
    (hlength : 2 ≤ p.length)
    (hdepth : (SelectionMap.empty.insert ⟨p, default, none⟩).1.bracketDepth ≤
      Token.bracketBudget) :
    QueryText.paths SelectionMap.friends (SelectionMap.empty.insert ⟨p, default, none⟩).1.text =
      .ok (SelectionMap.empty.insert ⟨p, default, none⟩).1.closure := by
  refine paths_text_of_isStored wellNamed_friends (fun x hx => ?_) hdepth
  rcases SelectionMap.mem_entries_insert hx with rfl | hx
  · exact ⟨hp, hlength, rfl⟩
  · cases hx

theorem paths_friendNameText : QueryText.paths SelectionMap.friends friendNameText =
    .ok [["Query", "user"], ["Query", "user", "friend"], ["Query", "user", "friend", "name"]] := by
  have htext : friendNameText = (SelectionMap.empty.insert
      ⟨["Query", "user", "friend", "name"], default, none⟩).1.text := by
    decide +kernel
  rw [htext,
    paths_text_one SelectionMap.selectable_user_friend_name (by decide) (by decide +kernel)]
  decide +kernel

/-- The text selects the user and leaves its node unchecked. -/
theorem state_user_ne_unchecked :
    let p := (start SelectionMap.friends 5 (.showing "")).run [.edit friendNameText]
    ∃ x ∈ p.tree.nodes, x.state = .unchecked ∧ p.selections.state x.path ≠ .unchecked := by
  have hagrees : Agrees Schema.WellNamed
      ((start SelectionMap.friends 5 (.showing "")).setText friendNameText).1 :=
    agrees_withSurface (agrees_start wellNamed_friends 5 _) _
  obtain ⟨-, -, htree, hselected⟩ :=
    agrees_restate (fun _ hs => hs.distinct) hagrees paths_friendNameText
  have hnode : (restatedTree (start SelectionMap.friends 5 (.showing "")).tree
      [["Query", "user"], ["Query", "user", "friend"],
        ["Query", "user", "friend", "name"]]).nodes.any
          (fun x => x.path == ["Query", "user"] && x.state == .unchecked) = true := by
    decide +kernel
  obtain ⟨x, hx, hspec⟩ := List.any_eq_true.mp hnode
  rw [Bool.and_eq_true, beq_iff_eq, beq_iff_eq] at hspec
  obtain ⟨hpath, hunchecked⟩ := hspec
  refine ⟨x, htree ▸ hx, hunchecked, ?_⟩
  intro hstate
  rw [hpath, SelectionMap.state_eq_unchecked_iff] at hstate
  exact hstate _ (hselected _ List.mem_cons_self) List.prefix_rfl

end Picker

end QueryPicker
