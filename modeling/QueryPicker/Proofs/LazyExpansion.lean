import Mathlib
import QueryPicker.Proofs.Agreement
import QueryPicker.Proofs.AlikeTrees
import QueryPicker.Proofs.KeptNodes

/-!
# Expansion does not show

What is done to a picker at paths, with clicks, texts and other schemas, leads to the same answers,
selections, versions and texts however many nodes are made in between. The trees differ only in how
much of what is unchecked has been made, and in the numbers of the nodes.
-/

namespace QueryPicker

theorem Batch.follow_unnumbered (b : Batch) (change : TreeChange) :
    b.follow change.unnumbered = b.follow change := by
  rw [follow, follow, TreeChange.unnumbered, List.foldl_map]
  rfl

theorem Batch.restate_unnumbered (b : Batch) (schema : Schema) (paths : List FieldPath)
    (checked : List NodeInfo) : b.restate schema paths (checked.map NodeInfo.unnumbered) =
      b.restate schema paths checked := by
  rw [restate, restate, List.foldl_map]
  rfl

namespace Picker

theorem followChange_unnumbered (s : Session Display) (change : TreeChange) :
    followChange s change.unnumbered = followChange s change := by
  rw [followChange, followChange]
  dsimp only
  rw [Batch.follow_unnumbered]

/-- What is done at paths, and what is not about nodes at all. -/
inductive PathStep where
  | set (path : FieldPath) (state : CheckState)
  /-- Finds the node of a path, and then clicks on it. -/
  | toggle (path : FieldPath)
  | readText
  | setText (text : String)
  | setTextSilently (text : String)
  | edit (text : String)
  | replaceSchema (schema : Schema)

/-- What only makes nodes. -/
inductive Growth where
  | expand (id : Nat)
  | expandPath (path : FieldPath)
  | expandToDepth (depth : Nat)

def Growth.step : Growth → Step
  | .expand id => .expand id
  | .expandPath path => .expandPath path
  | .expandToDepth depth => .expandToDepth depth

def grow (p : Picker) (growths : List Growth) : Picker := p.run (growths.map Growth.step)

/-- A step at a path. Nodes may be made after the node of the path was found. -/
def performAt (p : Picker) (between : List Growth) : PathStep → Outcome
  | .set path state => p.perform (.setPath path state)
  | .toggle path =>
    match p.expandPath path with
    | (p, none) => ⟨p, .found none, []⟩
    | (p, some id) => (p.grow between).perform (.toggle id)
  | .readText => p.perform .readText
  | .setText text => p.perform (.setText text)
  | .setTextSilently text => p.perform (.setTextSilently text)
  | .edit text => p.perform (.edit text)
  | .replaceSchema schema => p.perform (.replaceSchema schema)

/-- A step with the nodes that are made before it and within it. -/
structure Stage where
  before : List Growth
  step : PathStep
  between : List Growth

/-- The stage without its growth. -/
def Stage.bare (stage : Stage) : Stage := ⟨[], stage.step, []⟩

/-- The outcomes of the steps of a run. -/
def trace (p : Picker) : List Stage → List Outcome
  | [] => []
  | stage :: stages =>
    let outcome := (p.grow stage.before).performAt stage.between stage.step
    outcome :: trace outcome.picker stages

/-- The answer without the numbers of nodes. -/
def Answer.unnumbered : Answer → Answer
  | .found id? => .found (id?.map fun _ => 0)
  | answer => answer

/-- What can be observed of the second outcome, apart from numbers, is as in the first. -/
structure SameOutcome (o o' : Outcome) : Prop where
  answer : o'.answer.unnumbered = o.answer.unnumbered
  heard : o'.heard = o.heard
  selections : o'.picker.selections = o.picker.selections
  version : o'.picker.session.current.version = o.picker.session.current.version
  text : o'.picker.surface.text = o.picker.surface.text
  states : ∀ path n n', o.picker.tree.find? path = some n → o'.picker.tree.find? path = some n' →
    n'.state = n.state

/-- The same session, beside trees of which the same is told. -/
structure Alike (p p' : Picker) : Prop where
  session : p'.session = p.session
  tree : p.tree.Alike p'.tree

/-- Steps with the same answers that leave the pickers alike. -/
structure AlikeOutcome (o o' : Outcome) : Prop where
  answer : o'.answer.unnumbered = o.answer.unnumbered
  heard : o'.heard = o.heard
  picker : o.picker.Alike o'.picker

variable {p p' : Picker}

theorem AlikeOutcome.same {o o' : Outcome} (h : AlikeOutcome o o') : SameOutcome o o' := by
  obtain ⟨hanswer, hheard, hsession, htree⟩ := h
  refine ⟨hanswer, hheard, ?_, ?_, ?_, ?_⟩
  · rw [selections, hsession]
    rfl
  · rw [hsession]
  · rw [surface, display, hsession]
    rfl
  · intro path n n' hn hn'
    have hmark := htree.markAt_eq path
    rw [SelectionTree.markAt, SelectionTree.markAt, hn, hn'] at hmark
    exact hmark

/-- Making nodes changes the tree only, and nothing that is told of it. -/
structure GrowsOnly (p p' : Picker) : Prop where
  session : p'.session = p.session
  tree : p.tree.Extends p'.tree
  told : p'.tree.told = p.tree.told
  kept : p.tree.KeptIn p'.tree

theorem growsOnly_step (h : p.tree.IsGrown) (growth : Growth) :
    p.GrowsOnly (p.perform growth.step).picker := by
  cases growth with
  | expand id =>
    rw [Growth.step, perform, expand]
    cases hok : p.tree.expand id with
    | error e => exact ⟨rfl, .refl h, rfl, .refl _⟩
    | ok made =>
      exact ⟨rfl, SelectionTree.extends_expand h hok, SelectionTree.told_expand h hok,
        SelectionTree.keptIn_expand h hok⟩
  | expandPath path =>
    exact ⟨rfl, SelectionTree.extends_expandPath h path, SelectionTree.told_expandPath h path,
      SelectionTree.keptIn_expandPath h path⟩
  | expandToDepth depth =>
    exact ⟨rfl, SelectionTree.extends_expandToDepth h depth,
      SelectionTree.told_expandToDepth h depth, SelectionTree.keptIn_expandToDepth h depth⟩

theorem growsOnly_grow (h : p.tree.IsGrown) (growths : List Growth) :
    p.GrowsOnly (p.grow growths) := by
  induction growths generalizing p with
  | nil => exact ⟨rfl, .refl h, rfl, .refl _⟩
  | cons growth growths ih =>
    have hfirst := growsOnly_step h growth
    have hrest := ih hfirst.tree.grown
    exact ⟨hrest.session.trans hfirst.session, hfirst.tree.trans hrest.tree,
      hrest.told.trans hfirst.told, hfirst.kept.trans hrest.kept⟩

theorem Alike.grow (h : p.Alike p') (growths : List Growth) : p.Alike (p'.grow growths) := by
  have hgrows := growsOnly_grow h.tree.grown' growths
  exact ⟨hgrows.session.trans h.session, h.tree.extend hgrows.tree hgrows.told⟩

theorem foldl_followChange {calls calls' : List (Nat × TreeChange)} (s : Session Display)
    (h : calls.map (·.2.unnumbered) = calls'.map (·.2.unnumbered)) :
    calls'.foldl (fun s call => followChange s call.2) s =
      calls.foldl (fun s call => followChange s call.2) s := by
  have hfold : ∀ calls : List (Nat × TreeChange),
      calls.foldl (fun s call => followChange s call.2) s =
        (calls.map (·.2.unnumbered)).foldl followChange s := by
    intro calls
    rw [List.foldl_map]
    simp only [followChange_unnumbered]
  rw [hfold, hfold, h]

theorem Alike.afterClick {t t' : SelectionTree} {calls calls' : List (Nat × TreeChange)}
    (h : p.Alike p') (htree : t.Alike t')
    (hcalls : calls.map (·.2.unnumbered) = calls'.map (·.2.unnumbered)) :
    (p.afterClick t calls).Alike (p'.afterClick t' calls') := by
  refine ⟨?_, htree⟩
  show calls'.foldl _ p'.session = calls.foldl _ p.session
  rw [h.session]
  exact foldl_followChange p.session hcalls

/-- Setting a path fails in the same way, or leads to the same change. -/
theorem Alike.setPath (h : p.Alike p') (path : FieldPath) (s : CheckState) :
    AlikeOutcome (p.perform (.setPath path s)) (p'.perform (.setPath path s)) := by
  obtain ⟨halike, hfound⟩ := h.tree.expandPath path
  rw [perform, perform, setPathState, setPathState]
  generalize p.tree.expandPath path = made at halike hfound ⊢
  generalize p'.tree.expandPath path = made' at halike hfound ⊢
  obtain ⟨t, found⟩ := made
  obtain ⟨t', found'⟩ := made'
  dsimp only at halike hfound
  have hfailed : ({ p with tree := t } : Picker).Alike { p' with tree := t' } := ⟨h.session, halike⟩
  rcases hfound with ⟨rfl, rfl⟩ | ⟨position, m, m', rfl, rfl, hat, hat'⟩
  · exact ⟨rfl, rfl, hfailed⟩
  · dsimp only
    rw [setState, setState]
    rcases halike.setState hat hat' s with
      ⟨e, he, he'⟩ | ⟨t₁, calls, t₁', calls', hok, hok', htree, hcalls⟩
    · rw [he, he']
      exact ⟨rfl, rfl, hfailed⟩
    · rw [hok, hok']
      exact ⟨rfl, rfl, hfailed.afterClick htree hcalls⟩

/-- The node of a path is still clicked on after other nodes were made. -/
theorem Alike.toggle (h : p.Alike p') (between : List Growth) (path : FieldPath) :
    AlikeOutcome (p.performAt [] (.toggle path)) (p'.performAt between (.toggle path)) := by
  obtain ⟨halike, hfound⟩ := h.tree.expandPath path
  rw [performAt, performAt, expandPath, expandPath]
  generalize p.tree.expandPath path = made at halike hfound ⊢
  generalize p'.tree.expandPath path = made' at halike hfound ⊢
  obtain ⟨t, found⟩ := made
  obtain ⟨t', found'⟩ := made'
  dsimp only at halike hfound
  have hpaths : ({ p with tree := t } : Picker).Alike { p' with tree := t' } := ⟨h.session, halike⟩
  rcases hfound with ⟨rfl, rfl⟩ | ⟨position, m, m', rfl, rfl, hat, hat'⟩
  · exact ⟨rfl, rfl, hpaths⟩
  · have hgrown := hpaths.grow between
    obtain ⟨m₁, hat₁, hid, -⟩ := (growsOnly_grow hpaths.tree.grown' between).kept.nodeAt? hat'
    dsimp only
    rw [← hid]
    generalize ({ p' with tree := t' } : Picker).grow between = q at hgrown hat₁
    show AlikeOutcome (({ p with tree := t } : Picker).perform (.toggle m.id))
      (q.perform (.toggle m₁.id))
    rw [perform, perform, Picker.toggle, Picker.toggle]
    rcases hgrown.tree.toggle hat hat₁ with
      ⟨e, he, he'⟩ | ⟨t₁, calls, t₁', calls', s, hok, hok', htree, hcalls⟩
    · have he : t.toggle m.id = .error e := he
      rw [he, he']
      exact ⟨rfl, rfl, hgrown⟩
    · have hok : t.toggle m.id = .ok (t₁, calls, s) := hok
      rw [hok, hok']
      exact ⟨rfl, rfl, hgrown.afterClick htree hcalls⟩

theorem Alike.withDisplay (h : p.Alike p') (change : Display → Display) :
    (p.withDisplay change).Alike (p'.withDisplay change) := by
  refine ⟨?_, h.tree⟩
  rw [Picker.withDisplay, Picker.withDisplay, display, display, h.session]

theorem Alike.restate (h : p.Alike p') (paths : List FieldPath) :
    (p.restate paths).Alike (p'.restate paths) := by
  have htree := (SelectionTree.alike_resetSilently h.tree.grown h.tree.grown' h.tree.bounds
    h.tree.listeners).foldl_checkSilently (FieldPath.maximal paths)
  refine ⟨?_, htree⟩
  have hschema : p'.schema = p.schema := by rw [schema, schema, h.tree.bounds]
  rw [Picker.restate, Picker.restate]
  dsimp only
  rw [selections, selections, h.session, hschema, ← Batch.restate_unnumbered,
    htree.checkedNodes_eq, Batch.restate_unnumbered]

theorem Alike.readText (h : p.Alike p') :
    p.readText.1.Alike p'.readText.1 ∧ p'.readText.2 = p.readText.2 := by
  have hdisplay : p'.display = p.display := congrArg Session.outside h.session
  have hsurface : p'.surface = p.surface := congrArg Display.surface hdisplay
  have hschema : p'.schema = p.schema := by rw [schema, schema, h.tree.bounds]
  rw [Picker.readText, Picker.readText, hdisplay, hsurface, hschema]
  split
  · exact ⟨h, rfl⟩
  · cases QueryText.paths p.schema p.surface.text with
    | error e => exact ⟨h, rfl⟩
    | ok paths =>
      have hheld := h.withDisplay fun d => { d with fromText := d.fromText.acquire }
      exact ⟨(hheld.restate paths).withDisplay
        fun d => { d with fromText := d.fromText.release }, rfl⟩

theorem Alike.setText (h : p.Alike p') (text : String) :
    (p.setText text).1.Alike (p'.setText text).1 ∧ (p'.setText text).2 = (p.setText text).2 := by
  have hsurface : p'.surface = p.surface := by rw [surface, surface, display, display, h.session]
  rw [Picker.setText, Picker.setText, hsurface]
  exact ⟨h.withDisplay fun d => { d with surface := (p.surface.setText text).1 }, rfl⟩

theorem Alike.setTextSilently (h : p.Alike p') (text : String) :
    (p.setTextSilently text).Alike (p'.setTextSilently text) :=
  h.withDisplay fun d => { d with surface := d.surface.setTextSilently text }

theorem Alike.replaceSchema (h : p.Alike p') (schema : Schema) :
    (p.replaceSchema schema).Alike (p'.replaceSchema schema) := by
  rw [Picker.replaceSchema, Picker.replaceSchema, selections, selections, h.session, h.tree.bounds]
  exact ⟨rfl, .refl (isGrown_freshTree schema p.tree.bounds.maxDepth)⟩

theorem Alike.performAt (h : p.Alike p') (between : List Growth) (step : PathStep) :
    AlikeOutcome (p.performAt [] step) (p'.performAt between step) := by
  cases step with
  | set path s => exact h.setPath path s
  | toggle path => exact h.toggle between path
  | readText =>
    obtain ⟨hpicker, hresult⟩ := h.readText
    refine ⟨?_, rfl, hpicker⟩
    show (readAnswer p'.readText.2).unnumbered = (readAnswer p.readText.2).unnumbered
    rw [hresult]
  | setText text =>
    obtain ⟨hpicker, hheard⟩ := h.setText text
    exact ⟨rfl, hheard, hpicker⟩
  | setTextSilently text => exact ⟨rfl, rfl, h.setTextSilently text⟩
  | edit text =>
    obtain ⟨hpicker, hheard⟩ := h.setText text
    obtain ⟨hread, hresult⟩ := hpicker.readText
    refine ⟨?_, hheard, hread⟩
    show (readAnswer (p'.setText text).1.readText.2).unnumbered =
      (readAnswer (p.setText text).1.readText.2).unnumbered
    rw [hresult]
  | replaceSchema schema => exact ⟨rfl, rfl, h.replaceSchema schema⟩

theorem Alike.trace (h : p.Alike p') (stages : List Stage) :
    List.Forall₂ SameOutcome (p.trace (stages.map Stage.bare)) (p'.trace stages) := by
  induction stages generalizing p p' with
  | nil => exact .nil
  | cons stage stages ih =>
    have hstep := (h.grow stage.before).performAt stage.between stage.step
    exact .cons hstep.same (ih hstep.picker)

/-- However many nodes are made before the steps and within them, every step has the same outcome.
-/
theorem trace_bare (schema : Schema) (maxDepth : Nat) (surface : TextSurface)
    (stages : List Stage) :
    List.Forall₂ SameOutcome ((start schema maxDepth surface).trace (stages.map Stage.bare))
      ((start schema maxDepth surface).trace stages) := by
  have hstart : (start schema maxDepth surface).Alike (start schema maxDepth surface) :=
    ⟨rfl, .refl (isGrown_freshTree schema maxDepth)⟩
  exact hstart.trace stages

end Picker

end QueryPicker
