import Mathlib
import QueryPicker.Proofs.ReachedPickers

/-!
# Selections without texts

A picker that reads no text selects exactly the checked fields of its tree. A click keeps this
because it reports every node with another mark than before, and only those: what it does not report
is selected after the click if it was before.
-/

namespace QueryPicker

open SelectionTree

/-- Exactly the fields that are shown as checked are selected. -/
def SelectsChecked (b : TreeBounds) (mark : FieldPath → CheckState) (ps : List FieldPath) : Prop :=
  ∀ q, q ∈ ps ↔ b.ShowsPath q ∧ mark q = .checked ∧ 2 ≤ q.length

variable {t t' : SelectionTree} {m : SelectionMap} {s : CheckState} {target : FieldPath}
  {changed : List NodeInfo}

theorem SelectsChecked.of_eq {b : TreeBounds} {mark mark' : FieldPath → CheckState}
    {ps : List FieldPath} (h : SelectsChecked b mark ps)
    (heq : ∀ q, b.ShowsPath q → mark' q = mark q) : SelectsChecked b mark' ps := by
  intro q
  rw [h q]
  apply and_congr_right
  intro hq
  rw [heq q hq]

theorem selectsChecked_nil {b : TreeBounds} {mark : FieldPath → CheckState}
    (h : ∀ q, mark q = .unchecked) : SelectsChecked b mark [] := by
  intro q
  simp [h q]

/-- A click that has been written to the selection. -/
theorem selectsChecked_follow (hdistinct : t.bounds.schema.DistinctFields)
    (hstored : ∀ x ∈ m.entries, IsStored t.bounds.schema x)
    (h : SelectsChecked t.bounds t.markAt m.paths) (hsets : SetsMarkAt s t target t' changed)
    (id : Nat) : SelectsChecked t.bounds t'.markAt
      ((Batch.start m).follow ⟨id, target, s, changed⟩).selections.paths := by
  have hlength := length_of_stored (keeps_click hdistinct hstored hsets id).all
  have hmem : ∀ q : FieldPath, 2 ≤ q.length →
      (q ∈ ((Batch.start m).follow ⟨id, target, s, changed⟩).selections.paths ↔
        ((∃ x ∈ changed, x.path = q) ∧ t'.markAt q = .checked) ∨
          ((∀ x ∈ changed, x.path ≠ q) ∧ q ∈ m.paths ∧ ¬ (s = .unchecked ∧ target <+: q))) := by
    intro q hq
    exact Batch.mem_paths_follow (fun x hx => (hsets.changed_spec hdistinct hx).2) hq
  intro q
  constructor
  · intro hq
    have hqlength := hlength q hq
    rcases (hmem q hqlength).mp hq with ⟨⟨x, hx, rfl⟩, hmark⟩ | ⟨hnone, hqm, -⟩
    · exact ⟨(hsets.changed_spec hdistinct hx).1, hmark, hqlength⟩
    · obtain ⟨hshows, hmark, -⟩ := (h q).mp hqm
      exact ⟨hshows, (hsets.markAt_of_not_reported hshows hnone).trans hmark, hqlength⟩
  · rintro ⟨hshows, hmark, hqlength⟩
    apply (hmem q hqlength).mpr
    by_cases hreported : ∃ x ∈ changed, x.path = q
    · exact Or.inl ⟨hreported, hmark⟩
    · push Not at hreported
      have hold := hsets.markAt_of_not_reported hshows hreported
      refine Or.inr ⟨hreported, (h q).mpr ⟨hshows, hold.symm.trans hmark, hqlength⟩, ?_⟩
      rintro ⟨rfl, hstart⟩
      rw [hsets.below q hshows hstart] at hmark
      cases hmark

namespace Picker

/-- A picker selects exactly the checked fields of its tree. -/
def IsExact (p : Picker) : Prop :=
  SelectsChecked p.tree.bounds p.tree.markAt p.selections.paths

variable {ok : Schema → Prop} {p p' : Picker} (hok : ∀ s, ok s → s.DistinctFields)

theorem isExact_grow (h : p.IsExact) {t : SelectionTree} (hext : p.tree.Extends t) :
    IsExact ⟨t, p.session⟩ := by
  rw [IsExact, hext.bounds]
  exact SelectsChecked.of_eq h fun q _ => hext.marks q

include hok

theorem isExact_apply (hagrees : Agrees ok p) (h : p.IsExact) {id : Nat} {s : CheckState}
    {t : SelectionTree} {changed : List NodeInfo} (happly : p.tree.apply id s = .ok (t, changed)) :
    IsExact (p.afterClick t (t.notify id s changed)) := by
  have hdistinct : p.tree.bounds.schema.DistinctFields := hok _ hagrees.schema
  obtain ⟨target, -, hsets, hnotify⟩ :=
    SelectionTree.setsMarkAt_apply hagrees.grown hdistinct happly
  obtain ⟨l, hl⟩ := hagrees.listener
  rw [hnotify, IsExact]
  show SelectsChecked t.bounds t.markAt _
  rw [hsets.bounds]
  by_cases hnil : changed = []
  · subst hnil
    exact SelectsChecked.of_eq h fun q hq => hsets.markAt_of_not_reported hq (by simp)
  · rw [if_neg (by simpa using hnil), hl, List.map_cons, List.map_nil]
    have hkeeps := keeps_click hdistinct hagrees.stored hsets id
    obtain ⟨hselections, -, -⟩ := shows_followChange hagrees.rest hkeeps
    show SelectsChecked p.tree.bounds t.markAt
      (followChange p.session _).current.selections.paths
    rw [hselections]
    exact selectsChecked_follow hdistinct hagrees.stored h hsets id

theorem isExact_moved (hagrees : Agrees ok p) (h : p.IsExact) (hmoved : p.Moved p') :
    p'.IsExact := by
  cases hmoved with
  | grown hext => exact isExact_grow h hext
  | clicked hext happly =>
    exact isExact_apply hok (agrees_grow hagrees hext) (isExact_grow h hext) happly

omit hok in
theorem isExact_replaceSchema (hagrees : Agrees ok p) (schema : Schema) :
    (p.replaceSchema schema).IsExact := by
  rw [IsExact, (selections_replaceSchema hagrees.rest schema).1]
  exact selectsChecked_nil (SelectionTree.markAt_build schema p.tree.bounds.maxDepth)

theorem isExact_perform (hagrees : Agrees ok p) (h : p.IsExact) {step : Step}
    (hown : step.IsOwn ok) (hnotext : step.usesText = false) : (p.perform step).picker.IsExact := by
  by_cases hmove : step.isMove = true
  · exact isExact_moved hok hagrees h (moved_perform hagrees.grown hmove)
  cases step with
  | toggle | set | setPath | expand | expandPath | expandToDepth => exact absurd rfl hmove
  | readText | setText | setTextSilently | edit => cases hnotext
  | replaceSchema schema => exact isExact_replaceSchema hagrees schema
  | select | session => exact hown.elim

theorem isExact_run (hagrees : Agrees ok p) (h : p.IsExact) {steps : List Step}
    (hsteps : ∀ step ∈ steps, step.IsOwn ok ∧ step.usesText = false) : (p.run steps).IsExact := by
  induction steps generalizing p with
  | nil => exact h
  | cons step steps ih =>
    obtain ⟨hown, hnotext⟩ := hsteps step List.mem_cons_self
    exact ih (agrees_perform hok hagrees hown).1 (isExact_perform hok hagrees h hown hnotext)
      fun step' hstep' => hsteps step' (List.mem_cons_of_mem step hstep')

omit hok

/-- Without texts, the selected paths are those of the checked nodes that have a field. -/
theorem mem_paths_iff_checked {schema : Schema} (hschema : schema.DistinctFields) (maxDepth : Nat)
    (surface : TextSurface) {steps : List Step}
    (hsteps : ∀ step ∈ steps, step.IsOwn Schema.DistinctFields ∧ step.usesText = false)
    (q : FieldPath) :
    let p := (start schema maxDepth surface).run steps
    q ∈ p.selections.paths ↔
      ∃ x ∈ p.tree.nodes, x.state = .checked ∧ x.field?.isSome = true ∧ x.path = q := by
  have hok : ∀ s : Schema, s.DistinctFields → s.DistinctFields := fun _ hs => hs
  have hstart := agrees_start hschema maxDepth surface
  have hagrees := agrees_run hok hstart fun step hstep => (hsteps step hstep).1
  have hempty : (start schema maxDepth surface).IsExact :=
    selectsChecked_nil (SelectionTree.markAt_build schema maxDepth)
  have hexact := isExact_run hok hstart hempty hsteps
  intro p
  have hagrees : Agrees Schema.DistinctFields p := hagrees
  have hexact : p.IsExact := hexact
  rw [hexact q]
  constructor
  · rintro ⟨-, hmark, hlength⟩
    obtain ⟨x, hx, rfl⟩ := (exists_checkedNode_iff hagrees.grown hagrees.schema).mpr hmark
    obtain ⟨hx, hstate⟩ := List.mem_filter.mp hx
    obtain ⟨-, -, hfield⟩ := hagrees.grown.node_spec hagrees.schema hx
    exact ⟨x, hx, by simpa using hstate, hfield.mpr hlength, rfl⟩
  · rintro ⟨x, hx, hchecked, hfield, rfl⟩
    obtain ⟨hshows, hmark, hlength⟩ := hagrees.grown.node_spec hagrees.schema hx
    exact ⟨hshows, hmark.trans hchecked, hlength.mp hfield⟩

/-- The user is checked as a whole, and then the name is unchecked again. -/
theorem mem_paths_user_friend :
    let p := (start SelectionMap.friends 5 (.showing "")).run
      [.expandPath ["Query", "user", "name"], .setPath ["Query", "user"] .checked,
        .setPath ["Query", "user", "name"] .unchecked]
    ["Query", "user", "friend"] ∈ p.selections.paths ∧ ["Query", "user"] ∉ p.selections.paths := by
  intro p
  have hsteps : ∀ step ∈ [Step.expandPath ["Query", "user", "name"],
      .setPath ["Query", "user"] .checked, .setPath ["Query", "user", "name"] .unchecked],
      step.IsOwn Schema.DistinctFields ∧ step.usesText = false := by
    simp [Step.IsOwn, Step.usesText]
  have hmem := mem_paths_iff_checked wellNamed_friends.distinct 5 (.showing "") hsteps
  have hfriend : (p.tree.nodes.any fun x =>
      x.state == .checked && x.field?.isSome && x.path == ["Query", "user", "friend"]) = true := by
    decide +kernel
  have huser : (p.tree.nodes.all fun x =>
      !(x.state == .checked && x.path == ["Query", "user"])) = true := by
    decide +kernel
  constructor
  · apply (hmem _).mpr
    simpa [and_assoc] using List.any_eq_true.mp hfriend
  · intro hselected
    obtain ⟨x, hx, hchecked, -, hpath⟩ := (hmem _).mp hselected
    have hnot := List.all_eq_true.mp huser x hx
    simp [hchecked, hpath] at hnot

end Picker

end QueryPicker
