import QueryPicker.Selection.SelectionMap

/-!
# Versions of a selection

A snapshot is a selection with the number of changes that led to it. Several edits can be committed
as one change; a batch that changes nothing is no change.
-/

namespace QueryPicker

structure Snapshot where
  selections : SelectionMap
  version : Nat
  deriving Inhabited

namespace Snapshot

def initial : Snapshot := ⟨.empty, 0⟩

end Snapshot

/-- Edits in progress, and whether any of them has changed the selection. -/
structure Batch where
  selections : SelectionMap
  changed : Bool

namespace Batch

def start (m : SelectionMap) : Batch := ⟨m, false⟩

def isSelected (b : Batch) (p : FieldPath) : Bool := b.selections.isSelected p

def add (b : Batch) (s : SelectedField) : Batch × Bool :=
  let (m, changed) := b.selections.insert s
  (⟨m, b.changed || changed⟩, changed)

/-- A selection that is there already keeps its arguments. -/
def addIfMissing (b : Batch) (p : FieldPath) (f : Field) : Batch :=
  if b.isSelected p then b else (b.add ⟨p, f, none⟩).1

def remove (b : Batch) (p : FieldPath) : Batch × Bool :=
  let (m, changed) := b.selections.remove p
  (⟨m, b.changed || changed⟩, changed)

def removeFrom (b : Batch) (p : FieldPath) : Batch × Nat :=
  let (m, count) := b.selections.removeFrom p
  (⟨m, b.changed || decide (0 < count)⟩, count)

def clear (b : Batch) : Batch × Bool :=
  let (m, changed) := b.selections.clear
  (⟨m, b.changed || changed⟩, changed)

end Batch

inductive Edit where
  | add (s : SelectedField)
  | remove (p : FieldPath)
  | removeFrom (p : FieldPath)
  | clear
  | isSelected (p : FieldPath)

/-- Whether an edit changed something or a question holds, or how much was removed. -/
inductive EditResult where
  | flag (value : Bool)
  | count (removed : Nat)
  deriving DecidableEq

def EditResult.truth : EditResult → Bool
  | flag value => value
  | count removed => decide (0 < removed)

namespace Batch

def apply (b : Batch) : Edit → Batch × EditResult
  | .add s => let (b, changed) := b.add s; (b, .flag changed)
  | .remove p => let (b, changed) := b.remove p; (b, .flag changed)
  | .removeFrom p => let (b, removed) := b.removeFrom p; (b, .count removed)
  | .clear => let (b, changed) := b.clear; (b, .flag changed)
  | .isSelected p => (b, .flag (b.isSelected p))

def applyAll (b : Batch) : List Edit → Batch × List EditResult
  | [] => (b, [])
  | e :: es =>
    let (b, r) := b.apply e
    let (b, rs) := b.applyAll es
    (b, r :: rs)

end Batch

/-- The next version, if the batch has changed the selection. -/
def Snapshot.commit? (s : Snapshot) (b : Batch) : Option Snapshot :=
  if b.changed then some ⟨b.selections, s.version + 1⟩ else none

end QueryPicker
