import QueryPicker.Order.SortedSet
import QueryPicker.Schema.Basic
import QueryPicker.Selection.CheckState
import QueryPicker.Selection.Literal

/-!
# Selected fields

The selected fields, sorted by path, at most one to a path. As a path stands directly before all
paths that it starts, what is selected at or below a path is one stretch of the list, and every
question about it looks at that stretch only.
-/

namespace QueryPicker

structure SelectedField where
  path : FieldPath
  field : Field
  args? : Option Arguments
  deriving Inhabited

/-- Whether storing one in place of the other would change nothing. -/
def SelectedField.same (a b : SelectedField) : Bool :=
  a.path == b.path && a.field == b.field && Arguments.same? a.args? b.args?

def insertSelected (s : SelectedField) : List SelectedField → List SelectedField
  | [] => [s]
  | t :: ts =>
    if s.path < t.path then s :: t :: ts
    else if s.path = t.path then s :: ts
    else t :: insertSelected s ts

theorem mem_insertSelected {s x : SelectedField} {ts : List SelectedField}
    (h : x ∈ insertSelected s ts) : x = s ∨ x ∈ ts := by
  induction ts with
  | nil => simpa [insertSelected] using h
  | cons t ts ih =>
    unfold insertSelected at h
    split at h
    · simpa using h
    · split at h
      · rcases List.mem_cons.mp h with h | h <;> simp [h]
      · rcases List.mem_cons.mp h with h | h
        · simp [h]
        · rcases ih h with h | h <;> simp [h]

theorem path_lt_of_not_lt {p q : FieldPath} (h : ¬ p < q) (hne : p ≠ q) : q < p := by
  rcases Decidable.em (q < p) with hlt | hlt
  · exact hlt
  · exact absurd (List.le_antisymm hlt h) hne

theorem sorted_insertSelected {s : SelectedField} {ts : List SelectedField}
    (h : ts.Pairwise (·.path < ·.path)) : (insertSelected s ts).Pairwise (·.path < ·.path) := by
  induction ts with
  | nil => simp [insertSelected]
  | cons t ts ih =>
    have ht := List.pairwise_cons.mp h
    unfold insertSelected
    split
    · rename_i hst
      refine List.pairwise_cons.mpr ⟨fun x hx => ?_, h⟩
      rcases List.mem_cons.mp hx with rfl | hx
      · exact hst
      · exact List.lt_trans hst (ht.1 x hx)
    · split
      · rename_i heq
        exact List.pairwise_cons.mpr ⟨fun x hx => heq ▸ ht.1 x hx, ht.2⟩
      · rename_i hst hne
        refine List.pairwise_cons.mpr ⟨fun x hx => ?_, ih ht.2⟩
        rcases mem_insertSelected hx with rfl | hx
        · exact path_lt_of_not_lt hst hne
        · exact ht.1 x hx

structure SelectionMap where
  entries : List SelectedField
  sorted : entries.Pairwise (·.path < ·.path)

namespace SelectionMap

def empty : SelectionMap := ⟨[], .nil⟩

instance : Inhabited SelectionMap := ⟨empty⟩

def size (m : SelectionMap) : Nat := m.entries.length

def isEmpty (m : SelectionMap) : Bool := m.entries.isEmpty

def paths (m : SelectionMap) : List FieldPath := m.entries.map (·.path)

def get? (m : SelectionMap) (p : FieldPath) : Option SelectedField :=
  m.entries.find? (·.path == p)

def isSelected (m : SelectionMap) (p : FieldPath) : Bool := (m.get? p).isSome

/-- The new selection and whether it differs from the old one. What is stored already stays. -/
def insert (m : SelectionMap) (s : SelectedField) : SelectionMap × Bool :=
  if (m.get? s.path).any (·.same s) then (m, false)
  else (⟨insertSelected s m.entries, sorted_insertSelected m.sorted⟩, true)

def filter (m : SelectionMap) (keep : SelectedField → Bool) : SelectionMap :=
  ⟨m.entries.filter keep, m.sorted.sublist List.filter_sublist⟩

def remove (m : SelectionMap) (p : FieldPath) : SelectionMap × Bool :=
  (m.filter (·.path != p), m.isSelected p)

def clear (m : SelectionMap) : SelectionMap × Bool := (empty, !m.isEmpty)

/-- The stretch of what is selected at or below a path. -/
def atOrBelow (m : SelectionMap) (p : FieldPath) : List SelectedField :=
  (m.entries.dropWhile fun s => decide (s.path < p)).takeWhile (·.path.startsWith p)

/-- The selection without that stretch, and its length. -/
def removeFrom (m : SelectionMap) (p : FieldPath) : SelectionMap × Nat :=
  let doomed := (m.atOrBelow p).map (·.path)
  (m.filter fun s => !doomed.contains s.path, doomed.length)

/-- The names with which selected paths go on below a path, sorted. -/
def childNames (m : SelectionMap) (p : FieldPath) : List String :=
  SortedSet.ofList ((m.atOrBelow p).filterMap fun s => s.path[p.length]?)

def childSelections (m : SelectionMap) (p : FieldPath) : List SelectedField :=
  (m.atOrBelow p).filter fun s => s.path.length == p.length + 1

def state (m : SelectionMap) (p : FieldPath) : CheckState :=
  if m.isSelected p then .checked
  else if (m.atOrBelow p).isEmpty then .unchecked
  else .mixed

def forRoot (m : SelectionMap) (marker : String) : List SelectedField :=
  m.entries.filter fun s => s.path.rootMarker? == some marker

/-- The arguments stored at a path; none if nothing is stored there. -/
def argumentsAt (m : SelectionMap) (p : FieldPath) : Arguments :=
  ((m.get? p).bind (·.args?)).getD []

/-- The number of segments of the longest path. -/
def depth (m : SelectionMap) : Nat :=
  m.entries.foldl (fun d s => max d s.path.length) 0

end SelectionMap

end QueryPicker
