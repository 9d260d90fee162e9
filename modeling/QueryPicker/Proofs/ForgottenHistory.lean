import Mathlib
import QueryPicker.Proofs.LazyExpansion
import QueryPicker.Proofs.Reloading

/-!
# A text forgets what was before

Reading a text takes nothing over from what was marked and selected before. Two pickers that read
one text over one schema end with the same selection, without arguments, and with the same marks,
however different the steps were that led to them and whatever nodes they have made.
-/

namespace QueryPicker

namespace Batch

variable {α : Type} {b b' : Batch}

/-- What a fold selects depends on what was selected before it alone, if this holds of its steps. -/
theorem selections_foldl {step : Batch → α → Batch}
    (hstep : ∀ (b b' : Batch) (a : α), b'.selections = b.selections →
      (step b' a).selections = (step b a).selections) (as : List α)
    (h : b'.selections = b.selections) :
    (as.foldl step b').selections = (as.foldl step b).selections := by
  induction as generalizing b b' with
  | nil => exact h
  | cons a as ih => exact ih (hstep b b' a h)

theorem selections_add (h : b'.selections = b.selections) (s : SelectedField) :
    (b'.add s).1.selections = (b.add s).1.selections := by
  rw [add, add, h]

/-- A text selects the same whatever was selected before. -/
theorem selections_restate (b b' : Batch) (schema : Schema) (ps : List FieldPath)
    (checked : List NodeInfo) :
    (b'.restate schema ps checked).selections = (b.restate schema ps checked).selections := by
  rw [restate_eq, restate_eq]
  apply selections_foldl
  · intro b b' info h
    unfold addNode addIfMissing
    cases info.field? with
    | none => exact h
    | some f =>
      have hselected : b'.isSelected info.path = b.isSelected info.path := by
        rw [isSelected, isSelected, h]
      dsimp only
      rw [hselected]
      split
      · exact h
      · exact selections_add h _
  · apply selections_foldl
    · intro b b' p h
      unfold addResolved
      cases schema.resolve? p with
      | none => exact h
      | some f => exact selections_add h _
    · rfl

end Batch

namespace Picker

variable {p p' : Picker} {ps : List FieldPath}

/-- The arguments that were given to fields are gone once a text has been read. -/
theorem args?_readText (h : p.IsReady)
    (hpaths : QueryText.paths p.schema p.surface.text = .ok ps)
    (hversion : p.readText.1.session.current.version ≤ p.session.current.version + 1) :
    ∀ x ∈ p.readText.1.selections.entries, x.args? = none := by
  have hkeeps : Batch.Keeps p.selections (fun x => x.args? = none)
      ((Batch.start p.selections).restate p.schema ps (restatedTree p.tree ps).checkedNodes) :=
    Batch.keeps_restate (Batch.keeps_start (P := fun _ => True) fun _ _ => trivial)
      (fun _ _ _ _ => rfl) fun _ _ _ _ => rfl
  rw [(readText_spec h hpaths).2.2.2 hversion]
  exact hkeeps.all

/-- Two pickers that nothing is going on in, with trees over the same bounds, read the same text.
The selections are the same unless someone has changed one of them in turn. -/
theorem IsReady.readText_forgets (h : p.IsReady) (h' : p'.IsReady)
    (hbounds : p'.tree.bounds = p.tree.bounds) (hlisteners : p'.tree.listeners = p.tree.listeners)
    (htext : p'.surface.text = p.surface.text) (hread : p.readText.2 = .ok ()) :
    p'.readText.2 = .ok () ∧ p.readText.1.tree.Alike p'.readText.1.tree ∧
      (p.readText.1.session.current.version ≤ p.session.current.version + 1 →
        p'.readText.1.session.current.version ≤ p'.session.current.version + 1 →
        p'.readText.1.selections = p.readText.1.selections ∧
          ∀ x ∈ p.readText.1.selections.entries, x.args? = none) := by
  obtain ⟨ps, hpaths⟩ := exists_paths_of_readText h hread
  have hschema : p'.schema = p.schema := congrArg TreeBounds.schema hbounds
  have hpaths' : QueryText.paths p'.schema p'.surface.text = .ok ps := by
    rw [hschema, htext, hpaths]
  obtain ⟨-, -, htree, hselections⟩ := readText_spec h hpaths
  obtain ⟨hread', -, htree', hselections'⟩ := readText_spec h' hpaths'
  have halike : (restatedTree p.tree ps).Alike (restatedTree p'.tree ps) :=
    (SelectionTree.alike_resetSilently h.grown h'.grown hbounds hlisteners).foldl_checkSilently
      (FieldPath.maximal ps)
  refine ⟨hread', ?_, fun hversion hversion' => ⟨?_, args?_readText h hpaths hversion⟩⟩
  · rw [htree, htree']
    exact halike
  · rw [hselections hversion, hselections' hversion', hschema,
      ← Batch.restate_unnumbered _ _ _ (restatedTree p.tree ps).checkedNodes,
      ← halike.checkedNodes_eq, Batch.restate_unnumbered]
    exact Batch.selections_restate _ _ _ _ _

/-- No listener comes with a step that it takes when it is called. -/
def Step.isDirect : Step → Bool
  | .session (.listen (some _)) => false
  | _ => true

theorem followUps_followChange {s : Session Display} (h : s.followUps = []) (change : TreeChange) :
    (followChange s change).followUps = [] := by
  rw [followChange]
  split
  · exact h
  · exact (Session.change_of_no_followUps Display.react
      (s := { s with outside := { s.outside with fromClicks := s.outside.fromClicks.acquire } })
      h ((Batch.start s.current.selections).follow change)).2

theorem followUps_foldl_followChange (calls : List (Nat × TreeChange)) {s : Session Display}
    (h : s.followUps = []) :
    (calls.foldl (fun s call => followChange s call.2) s).followUps = [] := by
  induction calls generalizing s with
  | nil => exact h
  | cons call calls ih => exact ih (followUps_followChange h call.2)

theorem followUps_moved (h : p.session.followUps = []) (hmoved : p.Moved p') :
    p'.session.followUps = [] := by
  cases hmoved with
  | grown _ => exact h
  | clicked _ _ => exact followUps_foldl_followChange _ h

/-- Steps on the session leave no follow-up if none is registered. -/
theorem followUps_session {s : Session Display} (h : s.followUps = []) {step : QueryPicker.Step}
    (hstep : (Step.session step).isDirect = true) :
    (s.run Display.react step).1.followUps = [] := by
  have hperform : (s.perform step).1.followUps = [] := by
    cases step with
    | edit e => exact (Session.followUps_commit s _).trans h
    | batch edits => exact (Session.followUps_commit s _).trans h
    | listen followUp =>
      cases followUp with
      | none => exact h
      | some step => cases hstep
    | ask question held => cases held <;> exact h
    | unlisten | hold | describe => exact h
  exact (Session.drain_of_no_followUps Display.react _ _ hperform).2

theorem followUps_perform (h : p.session.followUps = []) (hready : p.IsReady) {step : Step}
    (hstep : step.isDirect = true) : (p.perform step).picker.session.followUps = [] := by
  by_cases hmove : step.isMove = true
  · exact followUps_moved h (moved_perform hready.grown hmove)
  cases step with
  | toggle | set | setPath | expand | expandPath | expandToDepth => exact absurd rfl hmove
  | readText => exact (readText_of_no_followUps hready h).2
  | setText text => exact h
  | setTextSilently text => exact h
  | edit text =>
    exact (readText_of_no_followUps (isReady_withSurface hready (p.surface.setText text).1) h).2
  | replaceSchema schema => exact (Session.change_of_no_followUps Display.react h _).2
  | select path args? =>
    rw [perform, select?]
    cases p.schema.resolve? path with
    | none => exact h
    | some f =>
      have hdirect : (Step.session (.edit (.add ⟨path, f, args?⟩))).isDirect = true := rfl
      exact followUps_session h hdirect
  | session step => exact followUps_session h hstep

theorem followUps_run (h : p.session.followUps = []) (hready : p.IsReady) {steps : List Step}
    (hsteps : ∀ step ∈ steps, step.isDirect = true) : (p.run steps).session.followUps = [] := by
  induction steps generalizing p with
  | nil => exact h
  | cons step steps ih =>
    have hfirst := followUps_perform h hready (hsteps step List.mem_cons_self)
    exact ih hfirst (isReady_perform hready step) fun step' hstep' =>
      hsteps step' (List.mem_cons_of_mem step hstep')

/-- Whatever two runs have done, reading the same text over the same schema, with trees bounded by
the same depth, ends in the same selection, without arguments, and in the same marks. -/
theorem readText_forgets_runs (schema schema' : Schema) (maxDepth : Nat)
    (surface surface' : TextSurface) (steps steps' : List Step)
    (hsteps : ∀ step ∈ steps ++ steps', step.isDirect = true) :
    let p := (start schema maxDepth surface).run steps
    let p' := (start schema' maxDepth surface').run steps'
    p'.schema = p.schema → p'.surface.text = p.surface.text → p.readText.2 = .ok () →
    p'.readText.2 = .ok () ∧
      p'.readText.1.selections = p.readText.1.selections ∧
      (∀ x ∈ p.readText.1.selections.entries, x.args? = none) ∧
      ∀ path n n', p.readText.1.tree.find? path = some n →
        p'.readText.1.tree.find? path = some n' → n'.state = n.state := by
  intro p p' hschema htext hread
  have hready : p.IsReady := isReady_run (isReady_start schema maxDepth surface) steps
  have hready' : p'.IsReady := isReady_run (isReady_start schema' maxDepth surface') steps'
  have hnone : p.session.followUps = [] :=
    followUps_run rfl (isReady_start schema maxDepth surface) fun step hstep =>
      hsteps step (List.mem_append_left steps' hstep)
  have hnone' : p'.session.followUps = [] :=
    followUps_run rfl (isReady_start schema' maxDepth surface') fun step hstep =>
      hsteps step (List.mem_append_right steps hstep)
  obtain ⟨hlisteners, hdepth⟩ : OwnsTree maxDepth p :=
    ownsTree_run (ownsTree_start schema maxDepth surface)
      (isReady_start schema maxDepth surface) steps
  obtain ⟨hlisteners', hdepth'⟩ : OwnsTree maxDepth p' :=
    ownsTree_run (ownsTree_start schema' maxDepth surface')
      (isReady_start schema' maxDepth surface') steps'
  have hbounds : p'.tree.bounds = p.tree.bounds := by
    have hdepths := hdepth'.trans hdepth.symm
    have hschemas : p'.tree.bounds.schema = p.tree.bounds.schema := hschema
    generalize p'.tree.bounds = b' at hdepths hschemas
    generalize p.tree.bounds = b at hdepths hschemas
    cases b
    cases b'
    simp_all
  obtain ⟨hread', htrees, hstores⟩ :=
    hready.readText_forgets hready' hbounds (hlisteners'.trans hlisteners.symm) htext hread
  obtain ⟨hselections, hargs⟩ := hstores (readText_of_no_followUps hready hnone).1
    (readText_of_no_followUps hready' hnone').1
  refine ⟨hread', hselections, hargs, fun path n n' hn hn' => ?_⟩
  have hmark := htrees.markAt_eq path
  rwa [SelectionTree.markAt, SelectionTree.markAt, hn, hn'] at hmark

/-- One picker has arguments stored for the user, the other has made nodes and checked a friend. -/
theorem readText_forgets_arguments_of_user :
    let p := (start SelectionMap.friends 5 (.showing "")).run
      [.session (.edit (.add ⟨["Query", "user"], default, some [("id", .int 7)]⟩)),
        .setTextSilently userNameText]
    let p' := (start SelectionMap.friends 5 (.showing "")).run
      [.expandToDepth 2, .setPath ["Query", "user", "friend"] .checked,
        .setTextSilently userNameText]
    p'.readText.1.selections = p.readText.1.selections ∧
      ∀ x ∈ p.readText.1.selections.entries, x.args? = none := by
  intro p p'
  have hready : p.IsReady := isReady_run (isReady_start _ _ _) _
  have hread : p.readText.2 = .ok () := (readText_spec hready paths_userNameText).1
  have hschema : p'.schema = p.schema := by
    let q := (start SelectionMap.friends 5 (.showing "")).run [.expandToDepth 2]
    have hq : q.IsReady := isReady_run (isReady_start _ _ _) _
    have hmoved : q.Moved (q.perform (.setPath ["Query", "user", "friend"] .checked)).picker :=
      moved_perform hq.grown rfl
    exact congrArg TreeBounds.schema (bounds_moved hmoved).1
  obtain ⟨-, hselections, hargs, -⟩ := readText_forgets_runs SelectionMap.friends
    SelectionMap.friends 5 (.showing "") (.showing "") _ _ (by simp [Step.isDirect]) hschema rfl
    hread
  exact ⟨hselections, hargs⟩

end Picker

end QueryPicker
