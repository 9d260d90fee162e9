import QueryPicker.Picker.Basic

/-!
# Runs of the picker

Everything that can happen to a picker as a step: clicks, growth of the tree, edits on the surface
and their reading, another schema, and steps of others on its session. A step that fails changes no
mark, no selection and no text.
-/

namespace QueryPicker.Picker

inductive Step where
  | toggle (id : Nat)
  | set (id : Nat) (state : CheckState)
  | setPath (path : FieldPath) (state : CheckState)
  | expand (id : Nat)
  | expandPath (path : FieldPath)
  | expandToDepth (depth : Nat)
  | readText
  | setText (text : String)
  | setTextSilently (text : String)
  /-- Sets a text and reads it. -/
  | edit (text : String)
  | replaceSchema (schema : Schema)
  /-- Adds the field of the schema for a path to the selection. -/
  | select (path : FieldPath) (args? : Option Arguments)
  /-- A step on the session, taken by someone else. -/
  | session (step : QueryPicker.Step)

inductive Error where
  | tree (e : TreeError)
  | text (e : QueryText.SyntaxError)
  | noSuchField

inductive Answer where
  | done
  | state (value : CheckState)
  | children (nodes : List TreeNode)
  | found (id? : Option Nat)
  | session (value : QueryPicker.Answer)
  | failed (e : Error)

/-- What a step leads to: the picker, the answer, and what the listeners of the surface heard. -/
structure Outcome where
  picker : Picker
  answer : Answer
  heard : List TextHeard

def outcomeOf (p : Picker) : Except TreeError Outcome → Outcome
  | .ok outcome => outcome
  | .error e => ⟨p, .failed (.tree e), []⟩

def readAnswer : Except QueryText.SyntaxError Unit → Answer
  | .ok () => .done
  | .error e => .failed (.text e)

def perform (p : Picker) : Step → Outcome
  | .toggle id => p.outcomeOf do
    let (p, state) ← p.toggle id
    return ⟨p, .state state, []⟩
  | .set id state => p.outcomeOf do
    let p ← p.setState id state
    return ⟨p, .done, []⟩
  | .setPath path state =>
    match p.setPathState path state with
    | (p, .ok id) => ⟨p, .found (some id), []⟩
    | (p, .error e) => ⟨p, .failed (.tree e), []⟩
  | .expand id => p.outcomeOf do
    let (p, nodes) ← p.expand id
    return ⟨p, .children nodes, []⟩
  | .expandPath path =>
    let (p, id?) := p.expandPath path
    ⟨p, .found id?, []⟩
  | .expandToDepth depth => ⟨p.expandToDepth depth, .done, []⟩
  | .readText =>
    let (p, result) := p.readText
    ⟨p, readAnswer result, []⟩
  | .setText text =>
    let (p, heard) := p.setText text
    ⟨p, .done, heard⟩
  | .setTextSilently text => ⟨p.setTextSilently text, .done, []⟩
  | .edit text =>
    let (p, heard) := p.setText text
    let (p, result) := p.readText
    ⟨p, readAnswer result, heard⟩
  | .replaceSchema schema => ⟨p.replaceSchema schema, .done, []⟩
  | .select path args? =>
    match p.select? path args? with
    | some (p, answer) => ⟨p, .session answer, []⟩
    | none => ⟨p, .failed .noSuchField, []⟩
  | .session step =>
    let (p, answer) := p.step step
    ⟨p, .session answer, []⟩

/-- The picker after a list of steps. -/
def run (p : Picker) (steps : List Step) : Picker :=
  steps.foldl (fun p step => (p.perform step).picker) p

end QueryPicker.Picker
