import Mathlib
import QueryPicker.Proofs.Agreement
import QueryPicker.Proofs.LeafMarks

/-!
# What announcements leave alone

The listeners of a session may change its selection in turn while they are told of a change. Then
there is a later version; otherwise the selection stays what it was. Whatever they do, only the
owner changes what it keeps beside the session, and the holds of a picker stay as they are.
-/

namespace QueryPicker

namespace Session

variable {ω : Type} {react : Snapshot → ω → ω}

/-- The selection is the same as before, or there is a later version of it. -/
def MovesOn (s s' : Session ω) : Prop :=
  s'.current = s.current ∨ s.current.version < s'.current.version

theorem MovesOn.trans {s s' s'' : Session ω} (h : s.MovesOn s') (h' : s'.MovesOn s'') :
    s.MovesOn s'' := by
  rcases h with heq | hlt
  · rw [MovesOn, ← heq]
    exact h'
  · rcases h' with heq' | hlt'
    · exact Or.inr (heq' ▸ hlt)
    · exact Or.inr (hlt.trans hlt')

theorem current_commit (s : Session ω) (b : Batch) : (s.commit b).1.current =
    if b.changed then ⟨b.selections, s.current.version + 1⟩ else s.current := by
  cases hchanged : b.changed <;> simp [commit, Snapshot.commit?, hchanged, record]

theorem selections_commit {P : SelectedField → Prop} {s : Session ω} {b : Batch}
    (hb : b.Keeps s.current.selections P) : (s.commit b).1.current.selections = b.selections := by
  rw [current_commit]
  split
  · rfl
  · rename_i hchanged
    exact (hb.unchanged (Bool.eq_false_iff.mpr hchanged)).symm

theorem movesOn_commit (s : Session ω) (b : Batch) : s.MovesOn (s.commit b).1 := by
  rw [MovesOn, current_commit]
  split
  · exact Or.inr (Nat.lt_succ_self _)
  · exact Or.inl rfl

theorem movesOn_perform (s : Session ω) (step : Step) : s.MovesOn (s.perform step).1 := by
  cases step with
  | edit e => exact movesOn_commit s _
  | batch edits => exact movesOn_commit s _
  | ask question held => cases held <;> exact Or.inl rfl
  | listen | unlisten | hold | describe => exact Or.inl rfl

theorem outside_commit (s : Session ω) (b : Batch) : (s.commit b).1.outside = s.outside := by
  unfold commit
  split <;> rfl

theorem outside_perform (s : Session ω) (step : Step) : (s.perform step).1.outside = s.outside := by
  cases step with
  | edit e => exact outside_commit s _
  | batch edits => exact outside_commit s _
  | ask question held => cases held <;> rfl
  | listen | unlisten | hold | describe => rfl

/-- A property of what the owner keeps, unless its own calls break it, stays while tasks are
ended, and the selection moves on. -/
theorem drain_spec {P : ω → Prop} (hreact : ∀ snapshot o, P o → P (react snapshot o))
    (s : Session ω) (tasks : List Task) (h : P s.outside) :
    s.MovesOn (s.drain react tasks) ∧ P (s.drain react tasks).outside := by
  induction s, tasks using drain.induct react with
  | case1 s =>
    rw [drain]
    exact ⟨Or.inl rfl, h⟩
  | case2 s label value tasks ih =>
    rw [drain]
    exact ih h
  | case3 s snapshot tasks s' ih =>
    rw [drain]
    exact ih (hreact snapshot _ h)
  | case4 s label snapshot tasks s' hnone ih =>
    rw [drain]
    split
    · exact ih h
    · rename_i hsome
      cases hnone.symm.trans hsome
  | case5 s label snapshot tasks s' step rest hsome done hlt ih =>
    rw [drain]
    split
    · rename_i hnone
      cases hsome.symm.trans hnone
    · rename_i hsome'
      cases hsome.symm.trans hsome'
      have hstep : s.MovesOn done.1 := movesOn_perform { s' with followUps := rest } step
      have houtside := outside_perform { s' with followUps := rest } step
      obtain ⟨hmoves, hafter⟩ := ih (houtside.symm ▸ h)
      exact ⟨hstep.trans hmoves, hafter⟩

theorem outside_change {P : ω → Prop} (hreact : ∀ snapshot o, P o → P (react snapshot o))
    {s : Session ω} (h : P s.outside) (b : Batch) : P (s.change react b).outside :=
  (drain_spec hreact _ _ ((outside_commit s b).symm ▸ h)).2

/-- What is selected after a change of the owner, if nobody changed it once more. -/
theorem selections_change {P : SelectedField → Prop} {s : Session ω} {b : Batch}
    (hb : b.Keeps s.current.selections P)
    (hversion : (s.change react b).current.version ≤ s.current.version + 1) :
    (s.change react b).current.selections = b.selections := by
  cases hchanged : b.changed with
  | false =>
    rw [change_of_unchanged react hchanged]
    exact (hb.unchanged hchanged).symm
  | true =>
    have hmoves : (s.commit b).1.MovesOn (s.change react b) :=
      (drain_spec (P := fun _ => True) (fun _ _ _ => trivial) _ _ trivial).1
    rcases hmoves with heq | hlt
    · exact (congrArg Snapshot.selections heq).trans (selections_commit hb)
    · rw [current_commit, if_pos hchanged] at hlt
      have hlt : s.current.version + 1 < (s.change react b).current.version := hlt
      omega

/-- With no follow-up left, nobody answers a call with a change. -/
theorem drain_of_no_followUps (react : Snapshot → ω → ω) (s : Session ω) (tasks : List Task)
    (h : s.followUps = []) :
    (s.drain react tasks).current = s.current ∧ (s.drain react tasks).followUps = [] := by
  induction s, tasks using drain.induct react with
  | case1 s =>
    rw [drain]
    exact ⟨rfl, h⟩
  | case2 s label value tasks ih =>
    rw [drain]
    exact ih h
  | case3 s snapshot tasks s' ih =>
    rw [drain]
    exact ih h
  | case4 s label snapshot tasks s' hnone ih =>
    rw [drain]
    split
    · exact ih h
    · rename_i hsome
      cases hnone.symm.trans hsome
  | case5 s label snapshot tasks s' step rest hsome done hlt ih =>
    have hnone : s'.followUps = [] := h
    rw [hnone] at hsome
    cases hsome

theorem change_of_no_followUps (react : Snapshot → ω → ω) {s : Session ω} (h : s.followUps = [])
    (b : Batch) :
    (s.change react b).current.version ≤ s.current.version + 1 ∧
      (s.change react b).followUps = [] := by
  obtain ⟨hcurrent, hnone⟩ :=
    drain_of_no_followUps react (s.commit b).1 (s.commit b).2
      ((followUps_commit s b).trans h)
  refine ⟨?_, hnone⟩
  have hcurrent : (s.change react b).current = (s.commit b).1.current := hcurrent
  rw [hcurrent, current_commit]
  split
  · exact Nat.le_refl _
  · exact Nat.le_succ _

theorem keeps_apply (m : SelectionMap) (e : Edit) :
    Batch.Keeps m (fun _ => True) ((Batch.start m).apply e).1 :=
  (Batch.keeps_start fun _ _ => trivial).apply e

theorem drain_owner (react : Snapshot → ω → ω) (s : Session ω) (snapshot : Snapshot) :
    s.drain react [.call .owner snapshot] =
      { s.record (.called .owner snapshot) with outside := react snapshot s.outside } := by
  rw [drain, drain]
  rfl

/-- The one follow-up edits the selection that a change of the owner has made. -/
theorem selections_change_of_followUp (react : Snapshot → ω → ω) {s : Session ω} {b : Batch}
    {label : Nat} {e : Edit} (hlisteners : s.listeners = [.owner, .scripted label])
    (hfollowUps : s.followUps = [(label, .edit e)]) (hchanged : b.changed = true) :
    (s.change react b).current.selections = ((Batch.start b.selections).apply e).1.selections := by
  have hcommit : s.current.commit? b = some ⟨b.selections, s.current.version + 1⟩ := by
    simp [Snapshot.commit?, hchanged]
  rw [change, commit, hcommit]
  dsimp only
  rw [hlisteners, List.map_cons, List.map_cons, List.map_nil, drain, drain]
  split
  · rename_i hnone
    simp [record, hfollowUps, takeFollowUp?] at hnone
  · rename_i step rest hsome
    obtain ⟨rfl, rfl⟩ : Step.edit e = step ∧ [] = rest := by
      simpa [record, hfollowUps, takeFollowUp?] using hsome
    dsimp only
    rw [(drain_of_no_followUps react _ _ (followUps_commit _ _)).1]
    exact selections_commit (keeps_apply _ e)

end Session

/-- Nothing is being written. -/
def Display.IsFree (d : Display) : Prop := d.fromClicks = .free ∧ d.fromText = .free

theorem Display.holds_react {clicks text : Hold} (snapshot : Snapshot) (d : Display)
    (h : d.fromClicks = clicks ∧ d.fromText = text) :
    (d.react snapshot).fromClicks = clicks ∧ (d.react snapshot).fromText = text := by
  unfold react
  split
  · exact h
  · exact h

namespace Picker

/-- The tree has grown and nothing is being written. Others may listen to the session. -/
structure IsReady (p : Picker) : Prop where
  grown : p.tree.IsGrown
  free : p.display.IsFree

variable {p p' : Picker} {s : Session Display} {ps : List FieldPath}

theorem isFree_followChange (h : s.outside.IsFree) (change : TreeChange) :
    (followChange s change).outside.IsFree := by
  rw [followChange, not_isHeld_of_free h.2, if_neg Bool.false_ne_true]
  have hheld : s.outside.fromClicks.acquire = .acquire .free ∧ s.outside.fromText = .free :=
    ⟨congrArg Hold.acquire h.1, h.2⟩
  obtain ⟨hclicks, htext⟩ := Session.outside_change
    (P := fun d : Display => d.fromClicks = .acquire .free ∧ d.fromText = .free)
    Display.holds_react
    (s := { s with outside := { s.outside with fromClicks := s.outside.fromClicks.acquire } })
    hheld ((Batch.start s.current.selections).follow change)
  exact ⟨congrArg Hold.release hclicks, htext⟩

theorem isFree_foldl_followChange (calls : List (Nat × TreeChange)) (h : s.outside.IsFree) :
    (calls.foldl (fun s call => followChange s call.2) s).outside.IsFree := by
  induction calls generalizing s with
  | nil => exact h
  | cons call calls ih => exact ih (isFree_followChange h call.2)

theorem isReady_moved (h : p.IsReady) (hmoved : p.Moved p') : p'.IsReady := by
  cases hmoved with
  | grown hext => exact ⟨hext.grown, h.free⟩
  | clicked hext happly =>
    exact ⟨SelectionTree.isGrown_apply hext.grown happly, isFree_foldl_followChange _ h.free⟩

theorem isGrown_restatedTree {t : SelectionTree} (h : t.IsGrown) (ps : List FieldPath) :
    (restatedTree t ps).IsGrown ∧ (restatedTree t ps).bounds = t.bounds ∧
      (restatedTree t ps).listeners = t.listeners ∧ t.KeptIn (restatedTree t ps) := by
  obtain ⟨hgrown, hbounds, hlisteners, hkept⟩ := SelectionTree.keptIn_foldl_checkSilently
    (SelectionTree.isGrown_resetSilently h) (FieldPath.maximal ps)
  exact ⟨hgrown, hbounds, hlisteners, (SelectionTree.keptIn_resetSilently t).trans hkept⟩

/-- A text that has been read leads to the tree of its paths, and to a selection with its paths and
the checked fields unless someone has changed that in turn. -/
theorem readText_spec (h : p.IsReady) (hpaths : QueryText.paths p.schema p.surface.text = .ok ps) :
    p.readText.2 = .ok () ∧ p.readText.1.IsReady ∧
      p.readText.1.tree = restatedTree p.tree ps ∧
        (p.readText.1.session.current.version ≤ p.session.current.version + 1 →
          p.readText.1.selections = ((Batch.start p.selections).restate p.schema ps
            (restatedTree p.tree ps).checkedNodes).selections) := by
  rw [readText, not_isHeld_of_free h.free.1, if_neg Bool.false_ne_true, hpaths]
  have hheld : p.display.fromClicks = .free ∧ p.display.fromText.acquire = .acquire .free :=
    ⟨h.free.1, congrArg Hold.acquire h.free.2⟩
  obtain ⟨hclicks, htext⟩ := Session.outside_change
    (P := fun d : Display => d.fromClicks = .free ∧ d.fromText = .acquire .free)
    Display.holds_react
    (s := (p.withDisplay fun d => { d with fromText := d.fromText.acquire }).session)
    hheld ((Batch.start p.selections).restate p.schema ps (restatedTree p.tree ps).checkedNodes)
  refine ⟨rfl, ⟨?_, hclicks, congrArg Hold.release htext⟩, rfl, ?_⟩
  · exact (isGrown_restatedTree h.grown ps).1
  · have hkeeps : Batch.Keeps p.selections (fun _ => True) ((Batch.start p.selections).restate
        p.schema ps (restatedTree p.tree ps).checkedNodes) :=
      Batch.keeps_restate (Batch.keeps_start (P := fun _ => True) fun _ _ => trivial)
        (fun _ _ _ _ => trivial) fun _ _ _ _ => trivial
    exact Session.selections_change
      (s := (p.withDisplay fun d => { d with fromText := d.fromText.acquire }).session) hkeeps

theorem exists_paths_of_readText (h : p.IsReady) (hread : p.readText.2 = .ok ()) :
    ∃ ps, QueryText.paths p.schema p.surface.text = .ok ps := by
  cases hpaths : QueryText.paths p.schema p.surface.text with
  | ok ps => exact ⟨ps, rfl⟩
  | error e =>
    rw [readText, not_isHeld_of_free h.free.1, if_neg Bool.false_ne_true, hpaths] at hread
    cases hread

theorem isReady_withSurface (h : p.IsReady) (surface : TextSurface) :
    (p.withDisplay fun d => { d with surface }).IsReady := ⟨h.grown, h.free⟩

theorem isReady_readText (h : p.IsReady) : p.readText.1.IsReady := by
  cases hpaths : QueryText.paths p.schema p.surface.text with
  | ok ps => exact (readText_spec h hpaths).2.1
  | error e =>
    rw [readText, not_isHeld_of_free h.free.1, if_neg Bool.false_ne_true, hpaths]
    exact h

theorem isReady_replaceSchema (h : p.IsReady) (schema : Schema) :
    (p.replaceSchema schema).IsReady :=
  ⟨isGrown_freshTree schema p.tree.bounds.maxDepth,
    Session.outside_change Display.holds_react h.free _⟩

theorem isReady_step (h : p.IsReady) (step : QueryPicker.Step) : (p.step step).1.IsReady := by
  refine ⟨h.grown, ?_⟩
  exact (Session.drain_spec (P := Display.IsFree) Display.holds_react _ _
    ((Session.outside_perform p.session step).symm ▸ h.free)).2

theorem isReady_perform (h : p.IsReady) (step : Step) : (p.perform step).picker.IsReady := by
  by_cases hmove : step.isMove = true
  · exact isReady_moved h (moved_perform h.grown hmove)
  cases step with
  | toggle | set | setPath | expand | expandPath | expandToDepth => exact absurd rfl hmove
  | readText => exact isReady_readText h
  | setText text => exact isReady_withSurface h _
  | setTextSilently text => exact isReady_withSurface h _
  | edit text => exact isReady_readText (isReady_withSurface h (p.surface.setText text).1)
  | replaceSchema schema => exact isReady_replaceSchema h schema
  | select path args? =>
    rw [perform, select?]
    cases p.schema.resolve? path with
    | none => exact h
    | some f => exact isReady_step h (.edit (.add ⟨path, f, args?⟩))
  | session step => exact isReady_step h step

theorem isReady_start (schema : Schema) (maxDepth : Nat) (surface : TextSurface) :
    (start schema maxDepth surface).IsReady :=
  ⟨isGrown_freshTree schema maxDepth, rfl, rfl⟩

theorem isReady_run (h : p.IsReady) (steps : List Step) : (p.run steps).IsReady := by
  induction steps generalizing p with
  | nil => exact h
  | cons step steps ih => exact ih (isReady_perform h step)

/-- The picker alone listens to its tree, and the depth of the tree is bounded as it was first. -/
structure OwnsTree (maxDepth : Nat) (p : Picker) : Prop where
  listeners : p.tree.listeners = [0]
  maxDepth : p.tree.bounds.maxDepth = maxDepth

variable {maxDepth : Nat}

theorem bounds_moved (hmoved : p.Moved p') :
    p'.tree.bounds = p.tree.bounds ∧ p'.tree.listeners = p.tree.listeners := by
  cases hmoved with
  | grown hext => exact ⟨hext.bounds, hext.listeners⟩
  | clicked hext happly =>
    exact ⟨(SelectionTree.bounds_apply happly).trans hext.bounds,
      (SelectionTree.listeners_apply happly).trans hext.listeners⟩

theorem OwnsTree.of_tree (h : OwnsTree maxDepth p)
    (hlisteners : p'.tree.listeners = p.tree.listeners)
    (hbounds : p'.tree.bounds = p.tree.bounds) : OwnsTree maxDepth p' :=
  ⟨hlisteners.trans h.listeners, (congrArg TreeBounds.maxDepth hbounds).trans h.maxDepth⟩

theorem ownsTree_moved (h : OwnsTree maxDepth p) (hmoved : p.Moved p') : OwnsTree maxDepth p' :=
  h.of_tree (bounds_moved hmoved).2 (bounds_moved hmoved).1

theorem ownsTree_readText (h : OwnsTree maxDepth p) (hready : p.IsReady) :
    OwnsTree maxDepth p.readText.1 := by
  cases hpaths : QueryText.paths p.schema p.surface.text with
  | ok ps =>
    obtain ⟨-, hbounds, hlisteners, -⟩ := isGrown_restatedTree hready.grown ps
    have htree := (readText_spec hready hpaths).2.2.1
    exact h.of_tree (htree ▸ hlisteners) (htree ▸ hbounds)
  | error e =>
    rw [readText, not_isHeld_of_free hready.free.1, if_neg Bool.false_ne_true, hpaths]
    exact h

theorem ownsTree_perform (h : OwnsTree maxDepth p) (hready : p.IsReady) (step : Step) :
    OwnsTree maxDepth (p.perform step).picker := by
  by_cases hmove : step.isMove = true
  · exact ownsTree_moved h (moved_perform hready.grown hmove)
  cases step with
  | toggle | set | setPath | expand | expandPath | expandToDepth => exact absurd rfl hmove
  | readText => exact ownsTree_readText h hready
  | setText text => exact ⟨h.listeners, h.maxDepth⟩
  | setTextSilently text => exact ⟨h.listeners, h.maxDepth⟩
  | edit text =>
    have hset : OwnsTree maxDepth (p.setText text).1 := ⟨h.listeners, h.maxDepth⟩
    exact ownsTree_readText hset (isReady_withSurface hready (p.surface.setText text).1)
  | replaceSchema schema => exact ⟨rfl, h.maxDepth⟩
  | select path args? =>
    rw [perform, select?]
    cases p.schema.resolve? path with
    | none => exact h
    | some f => exact ⟨h.listeners, h.maxDepth⟩
  | session step => exact ⟨h.listeners, h.maxDepth⟩

theorem ownsTree_run (h : OwnsTree maxDepth p) (hready : p.IsReady) (steps : List Step) :
    OwnsTree maxDepth (p.run steps) := by
  induction steps generalizing p with
  | nil => exact h
  | cons step steps ih => exact ih (ownsTree_perform h hready step) (isReady_perform hready step)

theorem ownsTree_start (schema : Schema) (maxDepth : Nat) (surface : TextSurface) :
    OwnsTree maxDepth (start schema maxDepth surface) := ⟨rfl, rfl⟩

end Picker

end QueryPicker
