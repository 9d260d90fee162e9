import Mathlib
import QueryPicker.Picker.Run
import QueryPicker.Proofs.MarksAndSelection
import QueryPicker.Proofs.RoundTrip

/-!
# Agreement of tree, selection and text

A picker that alone changes its selection keeps the three in agreement over every run. The text is
rewritten exactly when there is a new version of the selection, and then it reads back as what is
selected; reading a text writes none. Checked fields are selected. Fields that are not checked have
nothing selected below them, except what lies beyond the bounds of the tree.
-/

namespace QueryPicker

namespace Session

theorem change_of_unchanged {ω : Type} (react : Snapshot → ω → ω) {s : Session ω} {b : Batch}
    (h : b.changed = false) : s.change react b = s := by
  have hcommit : s.commit b = (s, []) := by simp [commit, Snapshot.commit?, h]
  rw [change, hcommit]
  simp only [drain]

/-- A change made by an owner that listens alone. -/
theorem change_cases {ω : Type} (react : Snapshot → ω → ω) {s : Session ω}
    (h : s.listeners = [.owner]) (b : Batch) : (b.changed = false ∧ s.change react b = s) ∨
      ((s.change react b).current = ⟨b.selections, s.current.version + 1⟩ ∧
        (s.change react b).listeners = [.owner] ∧
        (s.change react b).outside = react ⟨b.selections, s.current.version + 1⟩ s.outside) := by
  cases hchanged : b.changed with
  | false => exact Or.inl ⟨rfl, change_of_unchanged react hchanged⟩
  | true =>
    right
    have hcommit? : s.current.commit? b = some ⟨b.selections, s.current.version + 1⟩ := by
      simp [Snapshot.commit?, hchanged]
    rw [change, commit, hcommit?]
    dsimp only
    rw [h, List.map_cons, List.map_nil, drain, drain]
    exact ⟨rfl, rfl, rfl⟩

end Session

namespace Picker

/-- Nobody but the picker listens to the session, and nothing is going on. -/
structure AtRest (s : Session Display) : Prop where
  listeners : s.listeners = [.owner]
  fromClicks : s.outside.fromClicks = .free
  fromText : s.outside.fromText = .free

/-- The text of a new version is shown, and without one the surface stays as it is. -/
def Shows (s s' : Session Display) : Prop :=
  (s'.current = s.current ∧ s'.outside.surface = s.outside.surface) ∨
    (s'.current.version = s.current.version + 1 ∧
      s'.outside.surface.text = s'.current.selections.text)

theorem shows_of_eq {s s' : Session Display} (h : s' = s) : Shows s s' :=
  Or.inl ⟨by rw [h], by rw [h]⟩

theorem not_isHeld_of_free {hold : Hold} (h : hold = .free) : hold.isHeld = false := by
  rw [h]
  rfl

variable {s : Session Display} {b : Batch} {P : SelectedField → Prop}

theorem shows_change (h : s.listeners = [.owner]) (hfree : s.outside.fromText = .free)
    (hb : b.Keeps s.current.selections P) :
    (s.change Display.react b).current.selections = b.selections ∧
      Shows s (s.change Display.react b) ∧ (s.change Display.react b).listeners = [.owner] ∧
      (s.change Display.react b).outside.fromClicks = s.outside.fromClicks ∧
      (s.change Display.react b).outside.fromText = .free := by
  rcases Session.change_cases Display.react h b with ⟨hchanged, heq⟩ | hchange
  · rw [heq]
    exact ⟨(hb.unchanged hchanged).symm, shows_of_eq rfl, h, rfl, hfree⟩
  · obtain ⟨hcurrent, hlisteners, houtside⟩ := hchange
    have hreact : ∀ snapshot, Display.react snapshot s.outside = { s.outside with
        surface := s.outside.surface.setTextSilently snapshot.selections.text } := by
      intro snapshot
      simp [Display.react, hfree, Hold.isHeld, Hold.free]
    rw [hreact] at houtside
    refine ⟨by rw [hcurrent], Or.inr ⟨by rw [hcurrent], ?_⟩, hlisteners, ?_, ?_⟩
    · rw [houtside, hcurrent]
      rfl
    · rw [houtside]
    · rw [houtside]
      exact hfree

/-- What comes from the text is not shown again. -/
theorem outside_change (h : s.listeners = [.owner]) (hheld : s.outside.fromText.isHeld = true)
    (hb : b.Keeps s.current.selections P) :
    (s.change Display.react b).current.selections = b.selections ∧
      (s.change Display.react b).listeners = [.owner] ∧
      (s.change Display.react b).outside = s.outside := by
  rcases Session.change_cases Display.react h b with ⟨hchanged, heq⟩ | hchange
  · rw [heq]
    exact ⟨(hb.unchanged hchanged).symm, h, rfl⟩
  · obtain ⟨hcurrent, hlisteners, houtside⟩ := hchange
    refine ⟨by rw [hcurrent], hlisteners, ?_⟩
    rw [houtside, Display.react, if_pos hheld]

theorem shows_followChange (h : AtRest s) {change : TreeChange}
    (hb : ((Batch.start s.current.selections).follow change).Keeps s.current.selections P) :
    (followChange s change).current.selections =
        ((Batch.start s.current.selections).follow change).selections ∧
      Shows s (followChange s change) ∧ AtRest (followChange s change) := by
  rw [followChange, not_isHeld_of_free h.fromText, if_neg Bool.false_ne_true]
  obtain ⟨hselections, hshows, hlisteners, hclicks, htext⟩ := shows_change
    (s := { s with outside := { s.outside with fromClicks := s.outside.fromClicks.acquire } })
    h.listeners h.fromText hb
  refine ⟨hselections, hshows, hlisteners, ?_, htext⟩
  show Hold.release _ = _
  rw [hclicks]
  exact h.fromClicks

/-- A change of marks that changes the selection makes a new version. -/
theorem current_followChange (h : AtRest s) {change : TreeChange}
    (hchanged : ((Batch.start s.current.selections).follow change).changed = true) :
    (followChange s change).current =
      ⟨((Batch.start s.current.selections).follow change).selections, s.current.version + 1⟩ := by
  rw [followChange, not_isHeld_of_free h.fromText, if_neg Bool.false_ne_true]
  rcases Session.change_cases Display.react
    (s := { s with outside := { s.outside with fromClicks := s.outside.fromClicks.acquire } })
    h.listeners ((Batch.start s.current.selections).follow change) with hsame | hchange
  · rw [hchanged] at hsame
    cases hsame.1
  · exact hchange.1

/-- What steps in the tree lead to: nodes are made, and then perhaps one of them is clicked on. -/
inductive Moved (p : Picker) : Picker → Prop where
  | grown {t : SelectionTree} : p.tree.Extends t → Moved p ⟨t, p.session⟩
  | clicked {t t' : SelectionTree} {id : Nat} {s : CheckState} {changed : List NodeInfo} :
      p.tree.Extends t → t.apply id s = .ok (t', changed) →
      Moved p (afterClick ⟨t, p.session⟩ t' (t'.notify id s changed))

section Moves

variable {p p' : Picker} {t : SelectionTree}

theorem moved_refl (h : p.tree.IsGrown) : p.Moved p := .grown (.refl h)

theorem setState_of_apply {id : Nat} {s : CheckState} {changed : List NodeInfo}
    (happly : p.tree.apply id s = .ok (t, changed)) :
    p.setState id s = .ok (p.afterClick t (t.notify id s changed)) := by
  rw [setState, SelectionTree.setState, happly]
  rfl

theorem moved_setState (hext : p.tree.Extends t) {id : Nat} {s : CheckState}
    (hset : (⟨t, p.session⟩ : Picker).setState id s = .ok p') : p.Moved p' := by
  cases happly : t.apply id s with
  | error e =>
    rw [setState, SelectionTree.setState, happly] at hset
    cases hset
  | ok made =>
    rw [setState_of_apply happly] at hset
    cases hset
    exact .clicked hext happly

theorem moved_toggle (h : p.tree.IsGrown) {id : Nat} {s : CheckState}
    (htoggle : p.toggle id = .ok (p', s)) : p.Moved p' := by
  unfold toggle SelectionTree.toggle SelectionTree.setState at htoggle
  cases hstate : p.tree.state? id with
  | none =>
    rw [hstate] at htoggle
    cases htoggle
  | some old =>
    rw [hstate] at htoggle
    dsimp only at htoggle
    cases happly : p.tree.apply id old.toggled with
    | error e =>
      rw [happly] at htoggle
      cases htoggle
    | ok made =>
      rw [happly] at htoggle
      cases htoggle
      exact .clicked (.refl h) happly

theorem moved_setPathState (h : p.tree.IsGrown) (path : FieldPath) (s : CheckState) :
    p.Moved (p.setPathState path s).1 := by
  have hext := SelectionTree.extends_expandPath h path
  rw [setPathState]
  generalize p.tree.expandPath path = made at hext
  obtain ⟨t, found⟩ := made
  cases found with
  | none => exact .grown hext
  | some id =>
    dsimp only
    split
    · rename_i p' hset
      exact moved_setState hext hset
    · exact .grown hext

theorem perform_setPath (p : Picker) (path : FieldPath) (s : CheckState) :
    (p.perform (.setPath path s)).picker = (p.setPathState path s).1 := by
  rw [perform]
  generalize p.setPathState path s = made
  obtain ⟨p', _ | id⟩ := made <;> rfl

/-- Steps that are taken in the tree, by number or by path. -/
def Step.isMove : Step → Bool
  | .toggle _ | .set .. | .setPath .. | .expand _ | .expandPath _ | .expandToDepth _ => true
  | _ => false

theorem moved_perform (h : p.tree.IsGrown) {step : Step} (hmove : step.isMove = true) :
    p.Moved (p.perform step).picker := by
  cases step with
  | toggle id =>
    rw [perform]
    cases htoggle : p.toggle id with
    | error e => exact moved_refl h
    | ok made => exact moved_toggle h htoggle
  | set id s =>
    rw [perform]
    cases hset : p.setState id s with
    | error e => exact moved_refl h
    | ok p' => exact moved_setState (.refl h) hset
  | setPath path s =>
    rw [perform_setPath]
    exact moved_setPathState h path s
  | expand id =>
    rw [perform, expand]
    cases hexpand : p.tree.expand id with
    | error e => exact moved_refl h
    | ok made => exact .grown (SelectionTree.extends_expand h hexpand)
  | expandPath path => exact .grown (SelectionTree.extends_expandPath h path)
  | expandToDepth depth => exact .grown (SelectionTree.extends_expandToDepth h depth)
  | readText | setText | setTextSilently | edit | replaceSchema | select | session => cases hmove

end Moves

/-- Tree and selection agree, and nothing is going on. The schemas have a property. -/
structure Agrees (ok : Schema → Prop) (p : Picker) : Prop where
  rest : AtRest p.session
  listener : ∃ l, p.tree.listeners = [l]
  schema : ok p.schema
  grown : p.tree.IsGrown
  stored : ∀ x ∈ p.selections.entries, IsStored p.schema x
  marks : MarksAgree p.tree.bounds p.tree.markAt p.selections.paths

variable {ok : Schema → Prop} {p p' : Picker}

/-- Another tree with the same bounds and listeners. -/
theorem Agrees.of_tree (h : Agrees ok p) {t : SelectionTree} {session : Session Display}
    (hbounds : t.bounds = p.tree.bounds) (hlisteners : t.listeners = p.tree.listeners)
    (hgrown : t.IsGrown) (hrest : AtRest session)
    (hstored : ∀ x ∈ session.current.selections.entries, IsStored p.schema x)
    (hmarks : MarksAgree p.tree.bounds t.markAt session.current.selections.paths) :
    Agrees ok ⟨t, session⟩ := by
  have hschema : Picker.schema ⟨t, session⟩ = p.schema := congrArg TreeBounds.schema hbounds
  refine ⟨hrest, hlisteners ▸ h.listener, hschema ▸ h.schema, hgrown, ?_, ?_⟩
  · rw [hschema]
    exact hstored
  · rw [hbounds]
    exact hmarks

theorem agrees_grow (h : Agrees ok p) {t : SelectionTree} (hext : p.tree.Extends t) :
    Agrees ok ⟨t, p.session⟩ :=
  h.of_tree hext.bounds hext.listeners hext.grown h.rest h.stored
    (h.marks.of_eq fun q _ => hext.marks q)

theorem agrees_withSurface (h : Agrees ok p) (surface : TextSurface) :
    Agrees ok (p.withDisplay fun d => { d with surface }) :=
  ⟨⟨h.rest.listeners, h.rest.fromClicks, h.rest.fromText⟩, h.listener, h.schema, h.grown, h.stored,
    h.marks⟩

theorem isGrown_freshTree (schema : Schema) (maxDepth : Nat) :
    (freshTree schema maxDepth).IsGrown :=
  have h := SelectionTree.isGrown_build schema maxDepth
  ⟨h.roots, h.grown, h.numbers⟩

section Steps

variable (hok : ∀ s, ok s → s.DistinctFields)

include hok

theorem agrees_apply (h : Agrees ok p) {id : Nat} {s : CheckState} {t : SelectionTree}
    {changed : List NodeInfo} (happly : p.tree.apply id s = .ok (t, changed)) :
    Agrees ok (p.afterClick t (t.notify id s changed)) ∧
      Shows p.session (p.afterClick t (t.notify id s changed)).session := by
  have hdistinct : p.tree.bounds.schema.DistinctFields := hok _ h.schema
  obtain ⟨target, htarget, hsets, hnotify⟩ :=
    SelectionTree.setsMarkAt_apply h.grown hdistinct happly
  obtain ⟨l, hl⟩ := h.listener
  rw [hnotify]
  by_cases hnil : changed = []
  · subst hnil
    exact ⟨h.of_tree hsets.bounds hsets.listeners hsets.grown h.rest h.stored
      (marksAgree_of_silent h.marks hsets), shows_of_eq rfl⟩
  · rw [if_neg (by simpa using hnil), hl, List.map_cons, List.map_nil]
    have hkeeps := keeps_click hdistinct h.stored hsets id
    obtain ⟨hselections, hshows, hrest⟩ := shows_followChange h.rest hkeeps
    refine ⟨h.of_tree hsets.bounds hsets.listeners hsets.grown hrest ?_ ?_, hshows⟩
    · show ∀ x ∈ (followChange p.session _).current.selections.entries, IsStored p.schema x
      rw [hselections]
      exact hkeeps.all
    · show MarksAgree p.tree.bounds t.markAt (followChange p.session _).current.selections.paths
      rw [hselections]
      exact marksAgree_follow h.grown hdistinct h.stored h.marks hsets hnil id

omit hok in
/-- A click that the one listener hears, and that changes the selection. -/
theorem current_set_of_notify (h : AtRest p.session) {id : Nat} {s : CheckState}
    {t : SelectionTree} {changed : List NodeInfo} {call : Nat × TreeChange}
    (happly : p.tree.apply id s = .ok (t, changed)) (hcall : t.notify id s changed = [call])
    (hchanged : ((Batch.start p.selections).follow call.2).changed = true) :
    (p.perform (.set id s)).picker.session.current =
      ⟨((Batch.start p.selections).follow call.2).selections, p.session.current.version + 1⟩ := by
  have hclick : (p.perform (.set id s)).picker = p.afterClick t (t.notify id s changed) := by
    rw [perform, setState_of_apply happly]
    rfl
  rw [hclick, afterClick, hcall]
  exact current_followChange h hchanged

theorem agrees_moved (h : Agrees ok p) (hmoved : p.Moved p') :
    Agrees ok p' ∧ Shows p.session p'.session := by
  cases hmoved with
  | grown hext => exact ⟨agrees_grow h hext, shows_of_eq rfl⟩
  | clicked hext happly => exact agrees_apply hok (agrees_grow h hext) happly

/-- The tree that the paths of a text lead to. -/
def restatedTree (t : SelectionTree) (ps : List FieldPath) : SelectionTree :=
  (FieldPath.maximal ps).foldl SelectionTree.checkSilently t.resetSilently

theorem restatedTree_spec (h : Agrees ok p) (ps : List FieldPath) :
    (restatedTree p.tree ps).bounds = p.tree.bounds ∧
      (restatedTree p.tree ps).listeners = p.tree.listeners ∧ (restatedTree p.tree ps).IsGrown ∧
      ∀ q ∈ FieldPath.maximal ps, p.tree.bounds.ShowsPath q → ∀ q', q' ≠ [] → q' <+: q →
        (restatedTree p.tree ps).markAt q' ≠ .unchecked := by
  have hreset := SelectionTree.isGrown_resetSilently h.grown
  obtain ⟨hbounds, hlisteners, hgrown, -, hmarks⟩ :=
    SelectionTree.markAt_foldl_checkSilently (FieldPath.maximal ps) hreset (hok _ h.schema)
  exact ⟨hbounds, hlisteners, hgrown, hmarks⟩

/-- A text that can be read is taken over by tree and selection, and stays on the surface. -/
theorem agrees_restate (h : Agrees ok p) {ps : List FieldPath}
    (hpaths : QueryText.paths p.schema p.surface.text = .ok ps) :
    Agrees ok p.readText.1 ∧ p.readText.1.surface = p.surface ∧
      p.readText.1.tree = restatedTree p.tree ps ∧ ∀ q ∈ ps, q ∈ p.readText.1.selections.paths := by
  have hfree : p.display.fromClicks.isHeld = false := not_isHeld_of_free h.rest.fromClicks
  rw [readText, hfree, if_neg Bool.false_ne_true, hpaths]
  have hps : ∀ q ∈ ps, p.schema.Selectable q ∧ 2 ≤ q.length := by
    intro q hq
    exact QueryText.selectable_of_mem_paths hpaths hq
  obtain ⟨hbounds, hlisteners, hgrown, hmarks⟩ := restatedTree_spec hok h ps
  have hschema : (restatedTree p.tree ps).bounds.schema = p.schema :=
    congrArg TreeBounds.schema hbounds
  have hdistinct : (restatedTree p.tree ps).bounds.schema.DistinctFields := by
    rw [hschema]
    exact hok _ h.schema
  have hps' := hps
  rw [← hschema] at hps'
  have hkeeps := keeps_text (m := p.selections) hgrown hdistinct hps'
  have hagree := marksAgree_restate (m := p.selections) hgrown hdistinct hps'
    (fun q hq hshows => hmarks q hq (hbounds ▸ hshows))
  have hmem := fun (q : FieldPath) (hq : 2 ≤ q.length) =>
    mem_paths_text (m := p.selections) hgrown hdistinct hps' hq
  rw [hschema, hbounds] at hagree
  rw [hschema] at hkeeps hmem
  obtain ⟨hselections, hlisten, houtside⟩ := outside_change
    (s := (p.withDisplay fun d => { d with fromText := d.fromText.acquire }).session)
    h.rest.listeners (Hold.isHeld_acquire _) hkeeps
  have hpathsEq := congrArg SelectionMap.paths hselections
  refine ⟨h.of_tree hbounds hlisteners hgrown ⟨hlisten, ?_, ?_⟩ ?_ ?_, ?_, rfl, ?_⟩
  · exact (congrArg Display.fromClicks houtside).trans h.rest.fromClicks
  · have hrelease := congrArg (fun d : Display => d.fromText.release) houtside
    exact hrelease.trans h.rest.fromText
  · intro x hx
    exact hkeeps.all x (hselections ▸ hx)
  · exact hpathsEq ▸ hagree
  · have hsurface := congrArg Display.surface houtside
    exact hsurface
  · intro q hq
    have hq' := (hmem q (hps q hq).2).mpr (Or.inl hq)
    exact hpathsEq ▸ hq'

/-- Reading a text keeps the agreement and leaves the text as it is. -/
theorem agrees_readText (h : Agrees ok p) :
    Agrees ok p.readText.1 ∧ p.readText.1.surface = p.surface := by
  cases hpaths : QueryText.paths p.schema p.surface.text with
  | error e =>
    have hfree : p.display.fromClicks.isHeld = false := not_isHeld_of_free h.rest.fromClicks
    rw [readText, hfree, if_neg Bool.false_ne_true, hpaths]
    exact ⟨h, rfl⟩
  | ok ps =>
    obtain ⟨hagrees, hsurface, -, -⟩ := agrees_restate hok h hpaths
    exact ⟨hagrees, hsurface⟩

omit hok in
/-- With another schema nothing is selected. -/
theorem selections_replaceSchema (h : AtRest p.session) (schema : Schema) :
    (p.replaceSchema schema).selections = .empty ∧
      Shows p.session (p.replaceSchema schema).session ∧
        AtRest (p.replaceSchema schema).session := by
  have hkeeps : Batch.Keeps p.selections (fun _ => True) (Batch.start p.selections).clear.1 :=
    (Batch.keeps_start (P := fun _ => True) fun _ _ => trivial).clear
  obtain ⟨hselections, hshows, hlisteners, hclicks, htext⟩ :=
    shows_change h.listeners h.fromText hkeeps
  exact ⟨hselections, hshows, hlisteners, hclicks.trans h.fromClicks, htext⟩

omit hok in
theorem agrees_replaceSchema (h : Agrees ok p) {schema : Schema} (hschema : ok schema) :
    Agrees ok (p.replaceSchema schema) ∧ Shows p.session (p.replaceSchema schema).session := by
  obtain ⟨hempty, hshows, hrest⟩ := selections_replaceSchema h.rest schema
  refine ⟨⟨hrest, ⟨0, rfl⟩, hschema, ?_, ?_, ?_⟩, hshows⟩
  · exact isGrown_freshTree schema p.tree.bounds.maxDepth
  · rw [hempty]
    simp [SelectionMap.empty]
  · rw [hempty]
    exact marksAgree_nil (SelectionTree.markAt_build schema p.tree.bounds.maxDepth)

/-- A step of the picker's own, or an edit on its surface. Steps that others take on its session are
none. New schemas have the property. -/
def Step.IsOwn (ok : Schema → Prop) : Step → Prop
  | .replaceSchema schema => ok schema
  | .select .. => False
  | .session _ => False
  | _ => True

/-- Whether the step edits or reads the text. -/
def Step.usesText : Step → Bool
  | .readText => true
  | .setText _ => true
  | .setTextSilently _ => true
  | .edit _ => true
  | _ => false

theorem agrees_perform (h : Agrees ok p) {step : Step} (hstep : step.IsOwn ok) :
    Agrees ok (p.perform step).picker ∧
      (step.usesText = false → Shows p.session (p.perform step).picker.session) := by
  by_cases hmove : step.isMove = true
  · obtain ⟨hagrees, hshows⟩ := agrees_moved hok h (moved_perform h.grown hmove)
    exact ⟨hagrees, fun _ => hshows⟩
  cases step with
  | toggle | set | setPath | expand | expandPath | expandToDepth => exact absurd rfl hmove
  | readText => exact ⟨(agrees_readText hok h).1, fun huses => by cases huses⟩
  | setText text => exact ⟨agrees_withSurface h _, fun huses => by cases huses⟩
  | setTextSilently text => exact ⟨agrees_withSurface h _, fun huses => by cases huses⟩
  | edit text =>
    exact ⟨(agrees_readText hok (agrees_withSurface h (p.surface.setText text).1)).1,
      fun huses => by cases huses⟩
  | replaceSchema schema =>
    obtain ⟨hagrees, hshows⟩ := agrees_replaceSchema h hstep
    exact ⟨hagrees, fun _ => hshows⟩
  | select path args? => exact hstep.elim
  | session step => exact hstep.elim

omit hok in
theorem agrees_start {schema : Schema} (hschema : ok schema) (maxDepth : Nat)
    (surface : TextSurface) : Agrees ok (start schema maxDepth surface) :=
  ⟨⟨rfl, rfl, rfl⟩, ⟨0, rfl⟩, hschema, isGrown_freshTree schema maxDepth,
    by simp [start, selections, Session.start, Snapshot.initial, SelectionMap.empty],
    marksAgree_nil (SelectionTree.markAt_build schema maxDepth)⟩

theorem agrees_run (h : Agrees ok p) {steps : List Step} (hsteps : ∀ step ∈ steps, step.IsOwn ok) :
    Agrees ok (p.run steps) := by
  induction steps generalizing p with
  | nil => exact h
  | cons step steps ih =>
    exact ih (agrees_perform hok h (hsteps step List.mem_cons_self)).1
      fun step' hstep' => hsteps step' (List.mem_cons_of_mem step hstep')

end Steps

end Picker

end QueryPicker
