import Mathlib
import QueryPicker.Proofs.CanonicalText
import QueryPicker.Proofs.MadeNodes
import QueryPicker.Proofs.MixedAncestors
import QueryPicker.Proofs.ReachedPickers

/-!
# The order of checking

After checking some paths a picker selects what is checked, and of the rest what it selected before
and still marks as before. What was mixed for a while on the way leaves no trace, since marks only
go up. So the order in which the paths are checked does not matter.
-/

namespace QueryPicker

namespace SelectionMap

variable {m : SelectionMap}

theorem argumentsAt_of_isStored {schema : Schema} (h : ∀ x ∈ m.entries, IsStored schema x)
    (p : FieldPath) : m.argumentsAt p = [] := by
  unfold argumentsAt
  cases hget : m.get? p with
  | none => rfl
  | some x =>
    have hargs := (h x (get?_eq_some_iff.mp hget).1).args
    simp [hargs]

end SelectionMap

namespace SelectionTree

open TreeBounds

variable {t t' t'' : SelectionTree} {q : FieldPath}

/-- What is marked is shown. -/
theorem IsGrown.showsPath_of_marked (h : t.IsGrown) (hdistinct : t.bounds.schema.DistinctFields)
    (hmark : t.markAt q ≠ .unchecked) : t.bounds.ShowsPath q := by
  obtain ⟨x, hx, rfl, -⟩ := h.exists_node hmark
  exact (h.node_spec hdistinct hx).1

theorem IsGrown.showsPath_of_checked (h : t.IsGrown) (hdistinct : t.bounds.schema.DistinctFields)
    (hmark : t.markAt q = .checked) : t.bounds.ShowsPath q := by
  refine h.showsPath_of_marked hdistinct ?_
  rw [hmark]
  decide

theorem IsGrown.markAt_of_not_shown (h : t.IsGrown) (hdistinct : t.bounds.schema.DistinctFields)
    (hnot : ¬ t.bounds.ShowsPath q) : t.markAt q = .unchecked := by
  by_contra hmarked
  exact hnot (h.showsPath_of_marked hdistinct hmarked)

/-- Marks only go up. -/
structure Raises (t t' : SelectionTree) : Prop where
  unchecked : ∀ q, t'.markAt q = .unchecked → t.markAt q = .unchecked
  checked : ∀ q, t.markAt q = .checked → t'.markAt q = .checked

theorem Raises.refl (t : SelectionTree) : t.Raises t := ⟨fun _ h => h, fun _ h => h⟩

theorem Raises.trans (h : t.Raises t') (h' : t'.Raises t'') : t.Raises t'' :=
  ⟨fun q hq => h.unchecked q (h'.unchecked q hq), fun q hq => h'.checked q (h.checked q hq)⟩

/-- A mark that in the end is as it was has been so all the time. -/
theorem Raises.eq_of_eq (h : t.Raises t') (h' : t'.Raises t'') (heq : t''.markAt q = t.markAt q) :
    t'.markAt q = t.markAt q := by
  cases hmark : t.markAt q with
  | unchecked => exact h'.unchecked q (heq.trans hmark)
  | checked => exact h.checked q hmark
  | mixed =>
    cases hmark' : t'.markAt q with
    | unchecked => rw [h.unchecked q hmark'] at hmark; cases hmark
    | checked => rw [← heq, h'.checked q hmark'] at hmark; cases hmark
    | mixed => rfl

theorem raises_checkSilently (h : t.IsGrown) (hdistinct : t.bounds.schema.DistinctFields)
    (p : FieldPath) : t.Raises (t.checkSilently p) := by
  have hchecks := checksAt_checkSilently h hdistinct p
  constructor
  · intro q hmark
    by_contra hmarked
    exact hchecks.keeps q (h.showsPath_of_marked hdistinct hmarked) hmarked hmark
  · intro q hmark
    have hshows := h.showsPath_of_checked hdistinct hmark
    have hshows' : (t.checkSilently p).bounds.ShowsPath q := hchecks.bounds ▸ hshows
    rw [hchecks.grown.markAt_eq_checked_iff (hchecks.bounds ▸ hdistinct) hshows', hchecks.bounds]
    intro leaf hleaf hstart
    rw [markAt_checkSilently h hdistinct hleaf]
    exact Or.inl ((h.markAt_eq_checked_iff hdistinct hshows).mp hmark leaf hleaf hstart)

/-- What turns mixed was unchecked at its path. -/
theorem markAt_of_turnsMixed (h : t.IsGrown) (h' : t'.IsGrown) (hbounds : t'.bounds = t.bounds)
    (hdistinct : t.bounds.schema.DistinctFields) (hkept : t.KeptIn t')
    (hturns : t.TurnsMixed t' q) : t.markAt q = .unchecked := by
  obtain ⟨position, m', hat', rfl, -, hbefore⟩ := hturns
  by_contra hmarked
  obtain ⟨x, hx, hpath, hstate⟩ := h.exists_node hmarked
  obtain ⟨position', m, hat, rfl⟩ := exists_nodeAt?_of_mem hx
  obtain ⟨n, hn, -, hblank⟩ := hkept.nodeAt? hat
  have hsame : n.path = m'.path := (NodeInfo.path_eq_of_blank hblank).trans hpath
  obtain rfl := h'.position_eq (hbounds ▸ hdistinct) hn hat' hsame
  exact hmarked (hstate ▸ hbefore m hat)

section Apply

variable {id : Nat} {changed : List NodeInfo}

theorem markAt_of_not_reported (h : t.IsGrown) (hdistinct : t.bounds.schema.DistinctFields)
    (happly : t.apply id .checked = .ok (t', changed)) (hnone : ∀ x ∈ changed, x.path ≠ q) :
    t'.markAt q = t.markAt q := by
  obtain ⟨target, -, hsets, -⟩ := setsMarkAt_apply h hdistinct happly
  by_cases hshows : t.bounds.ShowsPath q
  · exact hsets.markAt_of_not_reported hshows hnone
  · have hshows' : ¬ t'.bounds.ShowsPath q := hsets.bounds ▸ hshows
    rw [h.markAt_of_not_shown hdistinct hshows,
      hsets.grown.markAt_of_not_shown (hsets.bounds ▸ hdistinct) hshows']

/-- What is reported is checked now or has turned mixed, and what has turned mixed was unchecked. -/
theorem checked_of_reported (h : t.IsGrown) (hdistinct : t.bounds.schema.DistinctFields)
    (happly : t.apply id .checked = .ok (t', changed)) {x : NodeInfo} (hx : x ∈ changed)
    (hsame : t'.markAt x.path = t.markAt x.path) : t'.markAt x.path = .checked := by
  obtain ⟨target, -, hsets, -⟩ := setsMarkAt_apply h hdistinct happly
  obtain ⟨-, hmark, -⟩ := hsets.changed_spec hdistinct hx
  obtain ⟨checks, above, rfl, hchecks, hmixed, hturns⟩ := reports_apply h happly
  rcases List.mem_append.mp hx with hx | hx
  · exact hmark.trans (hchecks x hx)
  · have hunchecked := markAt_of_turnsMixed h hsets.grown hsets.bounds hdistinct
      (keptIn_apply h happly) ((hturns x.path).mp ⟨x, hx, rfl⟩)
    rw [hsame, hunchecked, hmixed x hx] at hmark
    cases hmark

end Apply

end SelectionTree

namespace Picker

open SelectionTree

variable {ok : Schema → Prop} {p p' p'' : Picker} {t : SelectionTree} {q : FieldPath}
  {paths paths' : List FieldPath}

/-- What checking some paths leads to. -/
structure Checking (p p' : Picker) : Prop where
  raises : p.tree.Raises p'.tree
  paths : ∀ q : FieldPath, 2 ≤ q.length → (q ∈ p'.selections.paths ↔ p'.tree.markAt q = .checked ∨
    (p'.tree.markAt q = p.tree.markAt q ∧ q ∈ p.selections.paths))

theorem Checking.trans (h : p.Checking p') (h' : p'.Checking p'') : p.Checking p'' := by
  refine ⟨h.raises.trans h'.raises, fun q hq => ?_⟩
  rw [h'.paths q hq, h.paths q hq]
  constructor
  · rintro (hchecked | ⟨hsame, hchecked | ⟨hsame', hmem⟩⟩)
    · exact Or.inl hchecked
    · exact Or.inl (hsame.trans hchecked)
    · exact Or.inr ⟨hsame.trans hsame', hmem⟩
  · rintro (hchecked | ⟨hsame, hmem⟩)
    · exact Or.inl hchecked
    · have hbetween := h.raises.eq_of_eq h'.raises hsame
      exact Or.inr ⟨hsame.trans hbetween.symm, Or.inr ⟨hbetween, hmem⟩⟩

/-- The marks at the beginning and at the end settle what is selected. -/
theorem Checking.paths_eq (h : p.Checking p') (h' : p.Checking p'') (hagrees : Agrees ok p')
    (hagrees' : Agrees ok p'') (hmarks : ∀ q, p''.tree.markAt q = p'.tree.markAt q) :
    p''.selections.paths = p'.selections.paths := by
  refine SortedSet.eq_of_mem_iff (List.pairwise_map.mpr (SelectionMap.sorted _))
    (List.pairwise_map.mpr (SelectionMap.sorted _)) fun q => ?_
  by_cases hlength : 2 ≤ q.length
  · rw [h'.paths q hlength, h.paths q hlength, hmarks]
  · exact iff_of_false (fun hmem => hlength (length_of_stored hagrees'.stored q hmem))
      fun hmem => hlength (length_of_stored hagrees.stored q hmem)

/-- Checked fields are selected. -/
theorem mem_paths_of_checked (hok : ∀ s, ok s → s.DistinctFields) (h : Agrees ok p)
    (hq : 2 ≤ q.length) (hmark : p.tree.markAt q = .checked) : q ∈ p.selections.paths :=
  h.marks.checked q (h.grown.showsPath_of_checked (hok _ h.schema) hmark) hmark hq

theorem checking_refl (hok : ∀ s, ok s → s.DistinctFields) (h : Agrees ok p) : p.Checking p := by
  refine ⟨.refl _, fun q hq => ⟨fun hmem => Or.inr ⟨rfl, hmem⟩, ?_⟩⟩
  rintro (hmark | ⟨-, hmem⟩)
  · exact mem_paths_of_checked hok h hq hmark
  · exact hmem

/-- Of the nodes that a click reports the checked ones are selected, and no others. -/
theorem mem_paths_afterClick (hok : ∀ s, ok s → s.DistinctFields) (h : Agrees ok p) {id : Nat}
    {changed : List NodeInfo} (happly : p.tree.apply id .checked = .ok (t, changed))
    (hq : 2 ≤ q.length) :
    q ∈ (p.afterClick t (t.notify id .checked changed)).selections.paths ↔
      ((∃ x ∈ changed, x.path = q) ∧ t.markAt q = .checked) ∨
        ((∀ x ∈ changed, x.path ≠ q) ∧ q ∈ p.selections.paths) := by
  have hdistinct : p.tree.bounds.schema.DistinctFields := hok _ h.schema
  obtain ⟨target, -, hsets, hnotify⟩ := setsMarkAt_apply h.grown hdistinct happly
  obtain ⟨l, hl⟩ := h.listener
  rw [hnotify]
  by_cases hnil : changed = []
  · subst hnil
    simp [afterClick, Picker.selections]
  · rw [if_neg (by simpa using hnil), hl, List.map_cons, List.map_nil]
    obtain ⟨hselections, -, -⟩ :=
      shows_followChange h.rest (keeps_click hdistinct h.stored hsets id)
    show q ∈ (followChange p.session _).current.selections.paths ↔ _
    rw [hselections]
    refine (Batch.mem_paths_follow (fun x hx => (hsets.changed_spec hdistinct hx).2) hq).trans ?_
    exact or_congr_right (and_congr_right fun _ => and_iff_left fun hno => by cases hno.1)

theorem mem_paths_apply (hok : ∀ s, ok s → s.DistinctFields) (h : Agrees ok p) {id : Nat}
    {changed : List NodeInfo} (happly : p.tree.apply id .checked = .ok (t, changed))
    (hq : 2 ≤ q.length) :
    q ∈ (p.afterClick t (t.notify id .checked changed)).selections.paths ↔
      t.markAt q = .checked ∨ (t.markAt q = p.tree.markAt q ∧ q ∈ p.selections.paths) := by
  have hdistinct : p.tree.bounds.schema.DistinctFields := hok _ h.schema
  rw [mem_paths_afterClick hok h happly hq]
  by_cases hreported : ∃ x ∈ changed, x.path = q
  · obtain ⟨x, hx, rfl⟩ := hreported
    constructor
    · rintro (⟨-, hchecked⟩ | ⟨hnone, -⟩)
      · exact Or.inl hchecked
      · exact absurd rfl (hnone x hx)
    · rintro (hchecked | ⟨hsame, -⟩)
      · exact Or.inl ⟨⟨x, hx, rfl⟩, hchecked⟩
      · exact Or.inl ⟨⟨x, hx, rfl⟩, checked_of_reported h.grown hdistinct happly hx hsame⟩
  · push Not at hreported
    have hsame := markAt_of_not_reported h.grown hdistinct happly hreported
    constructor
    · rintro (⟨⟨x, hx, hpath⟩, -⟩ | ⟨-, hselected⟩)
      · exact absurd hpath (hreported x hx)
      · exact Or.inr ⟨hsame, hselected⟩
    · rintro (hchecked | ⟨-, hselected⟩)
      · exact Or.inr ⟨hreported, mem_paths_of_checked hok h hq (hsame.symm.trans hchecked)⟩
      · exact Or.inr ⟨hreported, hselected⟩

/-- What checking a path does: nothing but making nodes if the path is not shown. -/
theorem setPathState_checked (h : p.tree.IsGrown) (path : FieldPath) :
    (¬ p.tree.bounds.ShowsPath path ∧ p.tree.Extends (p.tree.checkSilently path) ∧
        p.setPathState path .checked =
          (⟨p.tree.checkSilently path, p.session⟩, .error (.unknownPath path))) ∨
      ∃ t₁ id changed, p.tree.bounds.ShowsPath path ∧ p.tree.Extends t₁ ∧
        t₁.apply id .checked = .ok (p.tree.checkSilently path, changed) ∧
        p.setPathState path .checked =
          ((⟨t₁, p.session⟩ : Picker).afterClick (p.tree.checkSilently path)
            ((p.tree.checkSilently path).notify id .checked changed), .ok id) := by
  have hext := extends_expandPath h path
  rw [setPathState]
  rcases checkSilently_eq h path with
    ⟨hnot, heq⟩ | ⟨t₁, position, m, changed, hshows, heq, -, -, happly⟩
  · rw [heq] at hext ⊢
    exact Or.inl ⟨hnot, hext, rfl⟩
  · rw [heq] at hext ⊢
    refine Or.inr ⟨t₁, m.id, changed, hshows, hext, happly, ?_⟩
    dsimp only
    rw [setState_of_apply (p := ⟨t₁, p.session⟩) happly]

theorem tree_checkPath (h : p.tree.IsGrown) (path : FieldPath) :
    (p.perform (.setPath path .checked)).picker.tree = p.tree.checkSilently path := by
  rw [perform_setPath]
  rcases setPathState_checked h path with ⟨-, -, heq⟩ | ⟨t₁, id, changed, -, -, -, heq⟩
  · rw [heq]
  · rw [heq]
    rfl

theorem checking_checkPath (hok : ∀ s, ok s → s.DistinctFields) (h : Agrees ok p)
    (path : FieldPath) : p.Checking (p.perform (.setPath path .checked)).picker := by
  have hraises := raises_checkSilently h.grown (hok _ h.schema) path
  rw [← tree_checkPath h.grown] at hraises
  refine ⟨hraises, fun q hq => ?_⟩
  rw [tree_checkPath h.grown, perform_setPath]
  rcases setPathState_checked h.grown path with
    ⟨-, hext, heq⟩ | ⟨t₁, id, changed, -, hext, happly, heq⟩
  · rw [heq, hext.marks]
    exact (checking_refl hok h).paths q hq
  · rw [heq, mem_paths_apply hok (agrees_grow h hext) happly hq]
    show _ ∨ (_ = t₁.markAt q ∧ _) ↔ _
    rw [hext.marks]
    rfl

/-- The steps that check some paths one after the other. -/
def checkEach (paths : List FieldPath) : List Step := paths.map fun path => .setPath path .checked

theorem checking_run (hok : ∀ s, ok s → s.DistinctFields) (h : Agrees ok p)
    (paths : List FieldPath) : Agrees ok (p.run (checkEach paths)) ∧
      p.Checking (p.run (checkEach paths)) ∧
        (p.run (checkEach paths)).tree = paths.foldl checkSilently p.tree := by
  induction paths generalizing p with
  | nil => exact ⟨h, checking_refl hok h, rfl⟩
  | cons path paths ih =>
    have hown : (Step.setPath path .checked).IsOwn ok := trivial
    obtain ⟨hagrees, hchecking, htree⟩ := ih (agrees_perform hok h hown).1
    refine ⟨hagrees, (checking_checkPath hok h path).trans hchecking, ?_⟩
    rw [List.foldl_cons, ← tree_checkPath h.grown]
    exact htree

/-- The answers of the steps of a run. -/
def answers (p : Picker) : List Step → List Answer
  | [] => []
  | step :: steps => (p.perform step).answer :: answers (p.perform step).picker steps

/-- Why a step failed, if it did. -/
def Answer.failure? : Answer → Option Error
  | .failed e => some e
  | _ => none

theorem failure?_checkPath (h : p.tree.IsGrown) (path : FieldPath) :
    (p.tree.bounds.ShowsPath path ∧
        (p.perform (.setPath path .checked)).answer.failure? = none) ∨
      (¬ p.tree.bounds.ShowsPath path ∧ (p.perform (.setPath path .checked)).answer.failure? =
        some (.tree (.unknownPath path))) := by
  rw [perform]
  rcases setPathState_checked h path with ⟨hnot, -, heq⟩ | ⟨t₁, id, changed, hshows, -, -, heq⟩
  · rw [heq]
    exact Or.inr ⟨hnot, rfl⟩
  · rw [heq]
    exact Or.inl ⟨hshows, rfl⟩

/-- The bounds alone say whether a path can be checked. -/
theorem failure?_of_bounds (h : p.tree.IsGrown) (h' : p'.tree.IsGrown)
    (hbounds : p'.tree.bounds = p.tree.bounds) (path : FieldPath) :
    (p'.perform (.setPath path .checked)).answer.failure? =
      (p.perform (.setPath path .checked)).answer.failure? := by
  have hafter := failure?_checkPath h' path
  rw [hbounds] at hafter
  rcases failure?_checkPath h path with ⟨hshows, heq⟩ | ⟨hnot, heq⟩
  · exact ((hafter.resolve_right fun hno => hno.1 hshows).2).trans heq.symm
  · exact ((hafter.resolve_left fun hyes => hnot hyes.1).2).trans heq.symm

theorem failures_checkEach (h : p.tree.IsGrown) (paths : List FieldPath) :
    (p.answers (checkEach paths)).map Answer.failure? =
      paths.map fun path => (p.perform (.setPath path .checked)).answer.failure? := by
  induction paths generalizing p with
  | nil => rfl
  | cons path paths ih =>
    obtain ⟨hgrown, hbounds, -⟩ := keptIn_checkSilently h path
    rw [← tree_checkPath h] at hgrown hbounds
    rw [List.map_cons, ← List.map_congr_left fun q _ => failure?_of_bounds h hgrown hbounds q]
    exact congrArg (_ :: ·) (ih hgrown)

/-- Whatever a picker has gone through, checking some paths in two orders leads to the same selected
paths, the same text and the same nodes with the same marks, and each path can be checked or is not
known as if it were the only one. -/
theorem run_checkEach_perm {schema : Schema} (hschema : schema.DistinctFields) (maxDepth : Nat)
    (surface : TextSurface) {steps : List Step}
    (hsteps : ∀ step ∈ steps, step.IsOwn Schema.DistinctFields) (hperm : paths.Perm paths') :
    let p := (start schema maxDepth surface).run steps
    let q := p.run (checkEach paths)
    let q' := p.run (checkEach paths')
    let outcome := fun path => (p.perform (.setPath path .checked)).answer.failure?
    (∀ path, outcome path = none ∨ outcome path = some (.tree (.unknownPath path))) ∧
      (p.answers (checkEach paths)).map Answer.failure? = paths.map outcome ∧
      (p.answers (checkEach paths')).map Answer.failure? = paths'.map outcome ∧
      q'.selections.paths = q.selections.paths ∧ q'.selections.text = q.selections.text ∧
      ∀ path, (q'.tree.find? path).map (·.state) = (q.tree.find? path).map (·.state) := by
  intro p q q' outcome
  have hok : ∀ s : Schema, s.DistinctFields → s.DistinctFields := fun _ hs => hs
  have h : Agrees Schema.DistinctFields p :=
    agrees_run hok (agrees_start hschema maxDepth surface) hsteps
  obtain ⟨hq, hchecking, htree⟩ := checking_run hok h paths
  obtain ⟨hq', hchecking', htree'⟩ := checking_run hok h paths'
  have hsame := foldl_checkSilently_perm h.grown h.schema hperm
  have hmarks : ∀ path, q'.tree.markAt path = q.tree.markAt path := by
    intro path
    rw [htree, htree']
    exact (hsame path).1
  have hpaths := hchecking.paths_eq hchecking' hq hq' hmarks
  refine ⟨fun path => ?_, failures_checkEach h.grown paths, failures_checkEach h.grown paths',
    hpaths, ?_, fun path => ?_⟩
  · rcases failure?_checkPath h.grown path with ⟨-, heq⟩ | ⟨-, heq⟩
    · exact Or.inl heq
    · exact Or.inr heq
  · refine SelectionMap.text_congr hpaths fun path => ?_
    rw [SelectionMap.argumentsAt_of_isStored hq'.stored,
      SelectionMap.argumentsAt_of_isStored hq.stored]
  · refine state_find?_eq ?_ (hmarks path)
    rw [htree, htree']
    exact (hsame path).2

/-- The user is mixed after the first of the two fields below it, and checked after both. -/
theorem run_checkEach_user_fields :
    let p := (start SelectionMap.friends 5 (.showing "")).run [.edit friendNameText]
    let q := p.run (checkEach [["Query", "user", "name"], ["Query", "user", "friend"]])
    let q' := p.run (checkEach [["Query", "user", "friend"], ["Query", "user", "name"]])
    q'.selections.text = q.selections.text ∧
      (q'.tree.find? ["Query", "user"]).map (·.state) =
        (q.tree.find? ["Query", "user"]).map (·.state) := by
  intro p q q'
  have hsteps : ∀ step ∈ [Step.edit friendNameText], step.IsOwn Schema.DistinctFields := by
    simp [Step.IsOwn]
  obtain ⟨-, -, -, -, htext, hstates⟩ :=
    run_checkEach_perm wellNamed_friends.distinct 5 (.showing "") hsteps
      (.swap ["Query", "user", "friend"] ["Query", "user", "name"] [])
  exact ⟨htext, hstates _⟩

end Picker

end QueryPicker
