import Mathlib
import QueryPicker.Proofs.Announcements
import QueryPicker.Proofs.DocumentPaths
import QueryPicker.Proofs.ReachedPickers

/-!
# Reading the own text again

Reading a text widens what it selects: below a path from which no other goes on, all is checked as
far as the tree shows it. Reading the text of the outcome widens nothing more. Its maximal paths
lead to the same leaf paths, so every mark and every selected path stays.
-/

namespace QueryPicker

namespace Picker

open SelectionTree TreeBounds

variable {t : SelectionTree} {ps qs : List FieldPath} {p q leaf : FieldPath}

/-- Leaf paths are checked below those paths of a text from which no other goes on. -/
theorem markAt_restatedTree (h : t.IsGrown) (hdistinct : t.bounds.schema.DistinctFields)
    (hleaf : t.bounds.IsLeafPath leaf) (ps : List FieldPath) :
    (restatedTree t ps).markAt leaf = .checked ↔
      ∃ p ∈ FieldPath.maximal ps, t.bounds.ShowsPath p ∧ p <+: leaf := by
  have hreset : t.resetSilently.markAt leaf ≠ .checked := by
    rw [markAt_resetSilently h]
    decide
  rw [restatedTree, markAt_foldl_checkSilently_leaf (isGrown_resetSilently h) hdistinct hleaf]
  exact ⟨fun hor => hor.resolve_left hreset, Or.inr⟩

/-- What is selected once a text with these paths has been read. -/
structure LeadsTo (t : SelectionTree) (ps qs : List FieldPath) : Prop where
  sorted : qs.Pairwise (· < ·)
  mem_iff : ∀ q, q ∈ qs ↔ 2 ≤ q.length ∧ (q ∈ ps ∨ (restatedTree t ps).markAt q = .checked)

section Outcome

variable (h : t.IsGrown) (hdistinct : t.bounds.schema.DistinctFields)
  (hps : IsDocumentPaths t.bounds.schema ps) (hqs : LeadsTo t ps qs)

include h hdistinct

/-- Checked paths are shown. -/
theorem showsPath_of_checked (hmark : t.markAt q = .checked) : t.bounds.ShowsPath q := by
  obtain ⟨x, hx, rfl⟩ := (exists_checkedNode_iff h hdistinct).mpr hmark
  exact (checkedNodes_spec h hdistinct hx).1

include hps

/-- On the way to a checked path, a text has each path or leads to all that is below it. -/
theorem mem_or_checked_of_start (hmark : (restatedTree t ps).markAt q = .checked) (hstart : p <+: q)
    (hp : 2 ≤ p.length) : p ∈ ps ∨ (restatedTree t ps).markAt p = .checked := by
  obtain ⟨hgrown, hbounds, -⟩ := isGrown_restatedTree h ps
  have hdistinct' : (restatedTree t ps).bounds.schema.DistinctFields := hbounds ▸ hdistinct
  have hq := showsPath_of_checked hgrown hdistinct' hmark
  have hpne : p ≠ [] := by
    rintro rfl
    simp at hp
  have hpshows := hq.of_start hstart hpne
  rw [hbounds] at hq hpshows
  obtain ⟨leaf, hleaf, hbelow⟩ := exists_leafPath hdistinct hq
  have hleafmark := hgrown.markAt_below hdistinct' hmark (hbounds ▸ hleaf.1) hq.ne_nil hbelow
  obtain ⟨r, hr, hrshows, hrstart⟩ := (markAt_restatedTree h hdistinct hleaf ps).mp hleafmark
  rcases List.prefix_or_prefix_of_prefix (hstart.trans hbelow) hrstart with hpr | hrp
  · exact Or.inl (hps.start r (FieldPath.mem_of_mem_maximal hr) p hpr hp)
  · right
    rw [hgrown.markAt_eq_checked_iff hdistinct' (hbounds ▸ hpshows), hbounds]
    intro leaf' hleaf' hbelow'
    exact (markAt_restatedTree h hdistinct hleaf' ps).mpr ⟨r, hr, hrshows, hrp.trans hbelow'⟩

include hqs

/-- Nothing is missing on the way to what is selected. -/
theorem isDocumentPaths_outcome : IsDocumentPaths t.bounds.schema qs := by
  obtain ⟨hgrown, hbounds, -⟩ := isGrown_restatedTree h ps
  refine ⟨hqs.sorted, ?_, ?_⟩
  · intro q hq
    obtain ⟨hlength, hor⟩ := (hqs.mem_iff q).mp hq
    refine ⟨?_, hlength⟩
    rcases hor with hq | hmark
    · exact (hps.selectable q hq).1
    · have hshows := showsPath_of_checked hgrown (hbounds ▸ hdistinct) hmark
      rw [hbounds] at hshows
      exact hshows.selectable
  · intro q hq p hstart hp
    obtain ⟨-, hor⟩ := (hqs.mem_iff q).mp hq
    refine (hqs.mem_iff p).mpr ⟨hp, ?_⟩
    rcases hor with hq | hmark
    · exact Or.inl (hps.start q hq p hstart hp)
    · exact mem_or_checked_of_start h hdistinct hps hmark hstart hp

/-- The text of the outcome leads to the same leaf paths. -/
theorem markAt_outcome_leaf (hleaf : t.bounds.IsLeafPath leaf) :
    (restatedTree (restatedTree t ps) qs).markAt leaf = .checked ↔
      (restatedTree t ps).markAt leaf = .checked := by
  obtain ⟨hgrown, hbounds, -⟩ := isGrown_restatedTree h ps
  have hdistinct' : (restatedTree t ps).bounds.schema.DistinctFields := hbounds ▸ hdistinct
  rw [markAt_restatedTree hgrown hdistinct' (hbounds ▸ hleaf), hbounds]
  constructor
  · rintro ⟨p, hp, hshows, hstart⟩
    obtain ⟨hpqs, hlast⟩ := (FieldPath.mem_maximal_iff hqs.sorted).mp hp
    obtain ⟨-, hpps | hmark⟩ := (hqs.mem_iff p).mp hpqs
    · have hmax : p ∈ FieldPath.maximal ps := by
        refine (FieldPath.mem_maximal_iff hps.sorted).mpr ⟨hpps, fun q hq hpq => hlast q ?_ hpq⟩
        exact (hqs.mem_iff q).mpr ⟨(hps.selectable q hq).2, Or.inl hq⟩
      exact (markAt_restatedTree h hdistinct hleaf ps).mpr ⟨p, hmax, hshows, hstart⟩
    · exact hgrown.markAt_below hdistinct' hmark (hbounds ▸ hleaf.1) hshows.ne_nil hstart
  · intro hmark
    obtain ⟨p, hp, hshows, hstart⟩ := (markAt_restatedTree h hdistinct hleaf ps).mp hmark
    obtain ⟨hpps, hlast⟩ := (FieldPath.mem_maximal_iff hps.sorted).mp hp
    have hlength : 2 ≤ leaf.length := (hps.selectable p hpps).2.trans hstart.length_le
    have hleafqs : leaf ∈ qs := (hqs.mem_iff leaf).mpr ⟨hlength, Or.inr hmark⟩
    refine ⟨leaf, (FieldPath.mem_maximal_iff hqs.sorted).mpr ⟨hleafqs, ?_⟩, hleaf.1,
      List.prefix_rfl⟩
    intro q hq hleafq
    obtain ⟨-, hqps | hqmark⟩ := (hqs.mem_iff q).mp hq
    · have hqp : q = p := hlast q hqps (hstart.trans hleafq)
      subst hqp
      exact hstart.eq_of_length (Nat.le_antisymm hstart.length_le hleafq.length_le)
    · have hqshows := showsPath_of_checked hgrown hdistinct' hqmark
      exact hleaf.2 q (hbounds ▸ hqshows) hleafq

/-- The text of the outcome leads to the same marks. -/
theorem markAt_outcome (q : FieldPath) :
    (restatedTree (restatedTree t ps) qs).markAt q = (restatedTree t ps).markAt q := by
  obtain ⟨hgrown, hbounds, -⟩ := isGrown_restatedTree h ps
  obtain ⟨hgrown', hbounds', -⟩ := isGrown_restatedTree hgrown qs
  refine markAt_eq_of_leafPaths hgrown hgrown' hbounds' (hbounds ▸ hdistinct) ?_ q
  intro leaf hleaf
  exact markAt_outcome_leaf h hdistinct hps hqs (hbounds ▸ hleaf)

/-- The text of the outcome leads to the same selected paths. -/
theorem eq_of_leadsTo_again {rs : List FieldPath} (hrs : LeadsTo (restatedTree t ps) qs rs) :
    rs = qs := by
  refine SortedSet.eq_of_mem_iff hrs.sorted hqs.sorted fun q => ?_
  rw [hrs.mem_iff, markAt_outcome h hdistinct hps hqs]
  constructor
  · rintro ⟨hlength, hq | hmark⟩
    · exact hq
    · exact (hqs.mem_iff q).mpr ⟨hlength, Or.inr hmark⟩
  · intro hq
    exact ⟨((hqs.mem_iff q).mp hq).1, Or.inl hq⟩

/-- Each node has the mark from before once the text of the outcome has been read. -/
theorem state_find?_outcome {x : NodeInfo} (hx : x ∈ (restatedTree t ps).nodes) :
    ((restatedTree (restatedTree t ps) qs).find? x.path).map (·.state) = some x.state := by
  obtain ⟨hgrown, hbounds, -⟩ := isGrown_restatedTree h ps
  obtain ⟨hgrown', hbounds', -, hkept⟩ := isGrown_restatedTree hgrown qs
  have hdistinct' : (restatedTree t ps).bounds.schema.DistinctFields := hbounds ▸ hdistinct
  obtain ⟨n, hfind, hstate⟩ := hgrown'.find?_of_kept (hbounds' ▸ hdistinct') hkept hx
  have hmark := (hgrown.node_spec hdistinct' hx).2.1
  rw [markAt_outcome h hdistinct hps hqs, hmark] at hstate
  rw [hfind, Option.map_some, hstate]

end Outcome

variable {p : Picker}

/-- A text that has been read leads to the paths that are selected then, and no arguments are. -/
theorem leadsTo_readText (h : p.IsReady) (hdistinct : p.schema.DistinctFields)
    (hpaths : QueryText.paths p.schema p.surface.text = .ok ps)
    (hversion : p.readText.1.session.current.version ≤ p.session.current.version + 1) :
    LeadsTo p.tree ps p.readText.1.selections.paths ∧
      ∀ x ∈ p.readText.1.selections.entries, IsStored p.schema x := by
  obtain ⟨hgrown, hbounds, -⟩ := isGrown_restatedTree h.grown ps
  have hschema : (restatedTree p.tree ps).bounds.schema = p.schema :=
    congrArg TreeBounds.schema hbounds
  have hps := (QueryText.isDocumentPaths hpaths).selectable
  rw [← hschema] at hps hdistinct
  have hkeeps := keeps_text (m := p.selections) hgrown hdistinct hps
  have hmem := fun (q : FieldPath) (hq : 2 ≤ q.length) =>
    mem_paths_text (m := p.selections) hgrown hdistinct hps hq
  rw [hschema] at hkeeps hmem
  rw [(readText_spec h hpaths).2.2.2 hversion]
  have hlength := length_of_stored hkeeps.all
  refine ⟨⟨List.pairwise_map.mpr (SelectionMap.sorted _), fun q => ?_⟩, hkeeps.all⟩
  constructor
  · intro hq
    exact ⟨hlength q hq, (hmem q (hlength q hq)).mp hq⟩
  · rintro ⟨hq, hor⟩
    exact (hmem q hq).mpr hor

theorem schema_readText (h : p.IsReady)
    (hpaths : QueryText.paths p.schema p.surface.text = .ok ps) :
    p.readText.1.schema = p.schema := by
  have htree := (readText_spec h hpaths).2.2.1
  rw [Picker.schema, htree, (isGrown_restatedTree h.grown ps).2.1]
  rfl

/-- The text of what is selected after a text has been read selects just that. -/
theorem paths_text_readText (h : p.IsReady) (hschema : p.schema.WellNamed)
    (hpaths : QueryText.paths p.schema p.surface.text = .ok ps)
    (hversion : p.readText.1.session.current.version ≤ p.session.current.version + 1)
    (hdepth : p.readText.1.selections.bracketDepth ≤ Token.bracketBudget) :
    QueryText.paths p.schema p.readText.1.selections.text =
      .ok p.readText.1.selections.paths := by
  obtain ⟨hleads, hstored⟩ := leadsTo_readText h hschema.distinct hpaths hversion
  have hqs := isDocumentPaths_outcome h.grown hschema.distinct (QueryText.isDocumentPaths hpaths)
    hleads
  rw [paths_text_of_isStored hschema hstored hdepth, SelectionMap.closure_eq_paths hqs]

/-- Reading the text of the selection once more, from any surface that shows it. -/
theorem IsReady.readText_again (h : p.IsReady) (hschema : p.schema.WellNamed)
    (hpaths : QueryText.paths p.schema p.surface.text = .ok ps)
    (hversion : p.readText.1.session.current.version ≤ p.session.current.version + 1)
    (hdepth : p.readText.1.selections.bracketDepth ≤ Token.bracketBudget) {surface : TextSurface}
    (htext : surface.text = p.readText.1.selections.text) :
    let again := (p.readText.1.withDisplay fun d => { d with surface }).readText
    again.2 = .ok () ∧
      (again.1.session.current.version ≤ p.readText.1.session.current.version + 1 →
        again.1.selections.paths = p.readText.1.selections.paths) ∧
      ∀ x ∈ p.readText.1.tree.nodes,
        (again.1.tree.find? x.path).map (·.state) = some x.state := by
  intro again
  have hps := QueryText.isDocumentPaths hpaths
  obtain ⟨hleads, -⟩ := leadsTo_readText h hschema.distinct hpaths hversion
  obtain ⟨-, hready, htree, -⟩ := readText_spec h hpaths
  have hready' := isReady_withSurface hready surface
  have hschema' : (p.readText.1.withDisplay fun d => { d with surface }).schema = p.schema :=
    schema_readText h hpaths
  have hpaths' : QueryText.paths (p.readText.1.withDisplay fun d => { d with surface }).schema
      (p.readText.1.withDisplay fun d => { d with surface }).surface.text =
        .ok p.readText.1.selections.paths := by
    rw [hschema', ← paths_text_readText h hschema hpaths hversion hdepth, ← htext]
    rfl
  obtain ⟨hok, -, htree', -⟩ := readText_spec hready' hpaths'
  have htree' : again.1.tree =
    restatedTree p.readText.1.tree p.readText.1.selections.paths := htree'
  rw [htree] at htree'
  refine ⟨hok, fun hversion' => ?_, fun x hx => ?_⟩
  · obtain ⟨hagain, -⟩ :=
      leadsTo_readText hready' (hschema'.symm ▸ hschema.distinct) hpaths' hversion'
    have hagain : LeadsTo p.readText.1.tree p.readText.1.selections.paths
      again.1.selections.paths := hagain
    rw [htree] at hagain
    exact eq_of_leadsTo_again h.grown hschema.distinct hps hleads hagain
  · rw [htree] at hx
    rw [htree']
    exact state_find?_outcome h.grown hschema.distinct hps hleads hx

/-- Whatever steps have been taken, reading the text of the selection after a text has been read
changes neither the selected paths nor the mark of a node, if nobody else changes the selection
while it is announced. -/
theorem readText_own_text (schema : Schema) (maxDepth : Nat) (surface : TextSurface)
    (steps : List Step) :
    let p := (start schema maxDepth surface).run steps
    let loaded := p.readText.1
    p.schema.WellNamed → p.readText.2 = .ok () →
    loaded.session.current.version ≤ p.session.current.version + 1 →
    loaded.selections.bracketDepth ≤ Token.bracketBudget →
    ∀ surface' : TextSurface, surface'.text = loaded.selections.text →
      let again := (loaded.withDisplay fun d => { d with surface := surface' }).readText
      again.2 = .ok () ∧
        (again.1.session.current.version ≤ loaded.session.current.version + 1 →
          again.1.selections.paths = loaded.selections.paths) ∧
        ∀ x ∈ loaded.tree.nodes, (again.1.tree.find? x.path).map (·.state) = some x.state := by
  intro p loaded hschema hread hversion hdepth surface' htext
  have h : p.IsReady := isReady_run (isReady_start schema maxDepth surface) steps
  obtain ⟨ps, hpaths⟩ := exists_paths_of_readText h hread
  exact h.readText_again hschema hpaths hversion hdepth htext

/-- With no follow-up left, reading a text makes at most one version. -/
theorem readText_of_no_followUps (h : p.IsReady) (hnone : p.session.followUps = []) :
    p.readText.1.session.current.version ≤ p.session.current.version + 1 ∧
      p.readText.1.session.followUps = [] := by
  rw [readText, not_isHeld_of_free h.free.1, if_neg Bool.false_ne_true]
  cases QueryText.paths p.schema p.surface.text with
  | error e => exact ⟨Nat.le_succ _, hnone⟩
  | ok ps =>
    exact Session.change_of_no_followUps Display.react
      (s := (p.withDisplay fun d => { d with fromText := d.fromText.acquire }).session) hnone
      ((Batch.start p.selections).restate p.schema ps (restatedTree p.tree ps).checkedNodes)

/-- The text goes on beyond the bounds of the tree. -/
theorem readText_own_text_friend_name :
    let p := (start SelectionMap.friends 5 (.showing "")).run [.setTextSilently friendNameText]
    let loaded := p.readText.1
    let again := (loaded.withDisplay fun d =>
      { d with surface := .showing loaded.selections.text }).readText
    again.2 = .ok () ∧ again.1.selections.paths = loaded.selections.paths ∧
      ∀ x ∈ loaded.tree.nodes, (again.1.tree.find? x.path).map (·.state) = some x.state := by
  intro p loaded again
  have h : p.IsReady := isReady_run (isReady_start _ _ _) _
  obtain ⟨hread, hready, -, hselections⟩ := readText_spec h paths_friendNameText
  obtain ⟨hversion, hnone⟩ := readText_of_no_followUps h rfl
  have hdepth : loaded.selections.bracketDepth ≤ Token.bracketBudget := by
    rw [hselections hversion]
    decide +kernel
  obtain ⟨hok, hpaths, hstates⟩ := readText_own_text SelectionMap.friends 5 (.showing "")
    [.setTextSilently friendNameText] wellNamed_friends hread hversion hdepth
    (.showing loaded.selections.text) rfl
  refine ⟨hok, hpaths ?_, hstates⟩
  exact (readText_of_no_followUps
    (isReady_withSurface hready (.showing loaded.selections.text)) hnone).1

/-- The text of the name of the user. -/
def userNameText : String := "query \x7b\n  user \x7b\n    name\n  \x7d\n\x7d"

theorem paths_userNameText : QueryText.paths SelectionMap.friends userNameText =
    .ok [["Query", "user"], ["Query", "user", "name"]] := by
  have htext : userNameText =
      (SelectionMap.empty.insert ⟨["Query", "user", "name"], default, none⟩).1.text := by
    decide +kernel
  rw [htext, paths_text_one SelectionMap.selectable_user_name (by decide) (by decide +kernel)]
  decide +kernel

theorem selections_readText_of_followUp (label : Nat) (e : Edit) (h : p.IsReady)
    (hpaths : QueryText.paths p.schema p.surface.text = .ok ps)
    (hlisteners : p.session.listeners = [.owner, .scripted label])
    (hfollowUps : p.session.followUps = [(label, .edit e)])
    (hchanged : ((Batch.start p.selections).restate p.schema ps
      (restatedTree p.tree ps).checkedNodes).changed = true) :
    p.readText.1.selections = ((Batch.start ((Batch.start p.selections).restate p.schema ps
      (restatedTree p.tree ps).checkedNodes).selections).apply e).1.selections := by
  rw [readText, not_isHeld_of_free h.free.1, if_neg Bool.false_ne_true, hpaths]
  exact Session.selections_change_of_followUp Display.react
    (s := (p.withDisplay fun d => { d with fromText := d.fromText.acquire }).session)
    hlisteners hfollowUps hchanged

/-- A listener clears the selection when it is told that the name of the user is selected. The mark
of the name stays until the text of the empty selection is read. -/
theorem state_user_name_of_clearing :
    let p := (start SelectionMap.friends 5 (.showing "")).run
      [.session (.listen (some (.edit .clear))), .setTextSilently userNameText]
    let loaded := p.readText.1
    let again := (loaded.setTextSilently loaded.selections.text).readText
    p.schema.WellNamed ∧ p.readText.2 = .ok () ∧
      loaded.selections.bracketDepth ≤ Token.bracketBudget ∧
      ∃ x ∈ loaded.tree.nodes, (again.1.tree.find? x.path).map (·.state) ≠ some x.state := by
  intro p loaded again
  have h : p.IsReady := isReady_run (isReady_start _ _ _) _
  obtain ⟨hread, hready, htree, -⟩ := readText_spec h paths_userNameText
  have hsession : p.session = { Session.start (Display.mk (.showing userNameText) .free .free) with
      listeners := [.owner, .scripted 0], nextLabel := 1, followUps := [(0, .edit .clear)] } := by
    simp only [p, run, List.foldl_cons, List.foldl_nil, perform, step, Session.run,
      Session.perform, Session.drain, start]
    rfl
  have hempty : loaded.selections = .empty := by
    refine selections_readText_of_followUp 0 .clear h paths_userNameText ?_ ?_ ?_
    · rw [hsession]
    · rw [hsession]
    · rw [selections, hsession]
      decide +kernel
  have hpaths : QueryText.paths loaded.schema loaded.selections.text = .ok [] := by
    rw [schema_readText h paths_userNameText, hempty]
    exact paths_text_of_isStored wellNamed_friends (by simp [SelectionMap.empty])
      (by decide +kernel)
  obtain ⟨-, -, htree', -⟩ := readText_spec
    (isReady_withSurface hready (loaded.surface.setTextSilently loaded.selections.text)) hpaths
  have htree' : again.1.tree = restatedTree loaded.tree [] := htree'
  have hnode : (restatedTree (start SelectionMap.friends 5 (.showing "")).tree
      [["Query", "user"], ["Query", "user", "name"]]).nodes.any
        (fun x => x.path == ["Query", "user", "name"] && x.state == .checked) = true := by
    decide +kernel
  obtain ⟨x, hx, hspec⟩ := List.any_eq_true.mp hnode
  rw [Bool.and_eq_true, beq_iff_eq, beq_iff_eq] at hspec
  refine ⟨wellNamed_friends, hread, by rw [hempty]; decide +kernel, x, ?_, ?_⟩
  · rw [htree]
    exact hx
  · rw [htree', htree, hspec.1, hspec.2]
    have hafter : ((restatedTree (restatedTree (start SelectionMap.friends 5 (.showing "")).tree
        [["Query", "user"], ["Query", "user", "name"]]) []).find? ["Query", "user", "name"]).map
          (·.state) ≠ some .checked := by
      decide +kernel
    exact hafter

end Picker

end QueryPicker
