import QueryPicker.Document.Paths
import QueryPicker.Picker.Hold
import QueryPicker.Picker.Surface
import QueryPicker.Selection.Session
import QueryPicker.Tree.Basic

/-!
# The picker

The tree, the selection and the text surface, kept in agreement. The selection leads: clicks in the
tree are written to it, every change of it is shown on the surface, silently. Edited text restates
the tree, silently, and the selection. Two holds keep each direction from setting off the other.
-/

namespace QueryPicker

/-- What the listener of the picker shows on and looks at. -/
structure Display where
  surface : TextSurface
  /-- Held while clicks are written to the selection. -/
  fromClicks : Hold
  /-- Held while text is written to the tree and the selection. -/
  fromText : Hold

namespace Display

/-- Shows a new selection, unless it comes from the text. -/
def react (snapshot : Snapshot) (d : Display) : Display :=
  if d.fromText.isHeld then d
  else { d with surface := d.surface.setTextSilently snapshot.selections.text }

def isBusy (d : Display) : Bool := d.fromClicks.isHeld || d.fromText.isHeld

end Display

/-- A change of marks, written to a selection. What is checked and selected already keeps its
arguments; roots of operations are never selected. -/
def Batch.follow (b : Batch) (change : TreeChange) : Batch :=
  let b := match change.targetState with
    | .unchecked => (b.removeFrom change.targetPath).1
    | _ => b
  change.changed.foldl (fun b info =>
    match info.state, info.field? with
    | .checked, some f => b.addIfMissing info.path f
    | .checked, none => b
    | _, _ => (b.remove info.path).1) b

/-- The selection of parsed paths and checked nodes, in place of what was selected. -/
def Batch.restate (b : Batch) (schema : Schema) (paths : List FieldPath)
    (checked : List NodeInfo) : Batch :=
  let b := paths.foldl (fun b p =>
    match schema.resolve? p with
    | some f => (b.add ⟨p, f, none⟩).1
    | none => b) b.clear.1
  checked.foldl (fun b info =>
    match info.field? with
    | some f => b.addIfMissing info.path f
    | none => b) b

/-- Checks the node of a path without telling anyone, if the tree has such a node. -/
def SelectionTree.checkSilently (t : SelectionTree) (p : FieldPath) : SelectionTree :=
  match t.expandPath p with
  | (t, none) => t
  | (t, some id) =>
    match t.setStateSilently id .checked with
    | .ok t => t
    | .error _ => t

/-- The schema is that of the tree. -/
structure Picker where
  tree : SelectionTree
  session : Session Display

namespace Picker

/-- A tree that the picker listens to. -/
def freshTree (schema : Schema) (maxDepth : Nat) : SelectionTree :=
  (SelectionTree.build schema maxDepth).listen.1

def start (schema : Schema) (maxDepth : Nat) (surface : TextSurface) : Picker where
  tree := freshTree schema maxDepth
  session := { Session.start (Display.mk surface .free .free) with listeners := [.owner] }

def schema (p : Picker) : Schema := p.tree.bounds.schema

def display (p : Picker) : Display := p.session.outside

def surface (p : Picker) : TextSurface := p.display.surface

def selections (p : Picker) : SelectionMap := p.session.current.selections

def withDisplay (p : Picker) (change : Display → Display) : Picker :=
  { p with session := { p.session with outside := change p.display } }

/-- Writes a change of marks to the selection, unless it comes from the text. -/
def followChange (s : Session Display) (change : TreeChange) : Session Display :=
  if s.outside.fromText.isHeld then s
  else
    let held := s.outside.fromClicks
    let s := { s with outside := { s.outside with fromClicks := held.acquire } }
    let s := s.change Display.react ((Batch.start s.current.selections).follow change)
    { s with outside := { s.outside with fromClicks := s.outside.fromClicks.release } }

def afterClick (p : Picker) (tree : SelectionTree) (calls : List (Nat × TreeChange)) : Picker :=
  ⟨tree, calls.foldl (fun s call => followChange s call.2) p.session⟩

def setState (p : Picker) (id : Nat) (s : CheckState) : Except TreeError Picker := do
  let (tree, calls) ← p.tree.setState id s
  return p.afterClick tree calls

def toggle (p : Picker) (id : Nat) : Except TreeError (Picker × CheckState) := do
  let (tree, calls, s) ← p.tree.toggle id
  return (p.afterClick tree calls, s)

/-- As a click on the node of a path. The nodes along the path are made even if this fails. -/
def setPathState (p : Picker) (path : FieldPath) (s : CheckState) :
    Picker × Except TreeError Nat :=
  match p.tree.expandPath path with
  | (tree, none) => ({ p with tree }, .error (.unknownPath path))
  | (tree, some id) =>
    match ({ p with tree } : Picker).setState id s with
    | .ok p => (p, .ok id)
    | .error e => ({ p with tree }, .error e)

/-- The part of an edit that a parsed text leads to. -/
def restate (p : Picker) (paths : List FieldPath) : Picker :=
  let tree := (FieldPath.maximal paths).foldl SelectionTree.checkSilently p.tree.resetSilently
  let batch := (Batch.start p.selections).restate p.schema paths tree.checkedNodes
  ⟨tree, p.session.change Display.react batch⟩

/-- Takes over the text on the surface. Text that is no document leaves everything as it is, and so
does text that appears while clicks are being written. -/
def readText (p : Picker) : Picker × Except QueryText.SyntaxError Unit :=
  if p.display.fromClicks.isHeld then (p, .ok ())
  else
    match QueryText.paths p.schema p.surface.text with
    | .error e => (p, .error e)
    | .ok paths =>
      let p := p.withDisplay fun d => { d with fromText := d.fromText.acquire }
      let p := p.restate paths
      (p.withDisplay fun d => { d with fromText := d.fromText.release }, .ok ())

/-- An edit on the surface; the picker has to be told to read it. -/
def setText (p : Picker) (text : String) : Picker × List TextHeard :=
  let (surface, heard) := p.surface.setText text
  (p.withDisplay fun d => { d with surface }, heard)

def setTextSilently (p : Picker) (text : String) : Picker :=
  p.withDisplay fun d => { d with surface := d.surface.setTextSilently text }

def expand (p : Picker) (id : Nat) : Except TreeError (Picker × List TreeNode) := do
  let (tree, children) ← p.tree.expand id
  return ({ p with tree }, children)

def expandPath (p : Picker) (path : FieldPath) : Picker × Option Nat :=
  let (tree, found) := p.tree.expandPath path
  ({ p with tree }, found)

def expandToDepth (p : Picker) (depth : Nat) : Picker :=
  { p with tree := p.tree.expandToDepth depth }

/-- Goes over to another schema with an empty selection. -/
def replaceSchema (p : Picker) (schema : Schema) : Picker where
  tree := freshTree schema p.tree.bounds.maxDepth
  session := p.session.change Display.react (Batch.start p.selections).clear.1

/-- A step on the session from outside the picker. -/
def step (p : Picker) (s : Step) : Picker × Answer :=
  let (session, answer) := p.session.run Display.react s
  ({ p with session }, answer)

/-- Adds the field of the schema for a path, if there is one. -/
def select? (p : Picker) (path : FieldPath) (args? : Option Arguments) :
    Option (Picker × Answer) :=
  (p.schema.resolve? path).map fun f => p.step (.edit (.add ⟨path, f, args?⟩))

/-- Lets go of the session: its changes are shown no more. -/
def release (p : Picker) : Session Display := (p.session.unlisten .owner).1

def summary (p : Picker) : String :=
  "FieldSelectionSync \x7b flags: SyncFlags \x7b from_checkboxes: SyncFlag(" ++
    toString p.display.fromClicks.count ++ "), from_text: SyncFlag(" ++
    toString p.display.fromText.count ++ ") \x7d, store: " ++ p.session.summary ++
    ", surface: " ++ p.surface.summary ++ ", tree: " ++ p.tree.summary ++ " \x7d"

end Picker

end QueryPicker
