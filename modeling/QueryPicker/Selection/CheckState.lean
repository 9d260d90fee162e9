/-!
# Check marks

The mark of a field, and how the mark of a parent follows from those of its children.
-/

namespace QueryPicker

inductive CheckState where
  | checked
  | unchecked
  /-- Some of what lies below is selected and some is not. Always derived, never set. -/
  | mixed
  deriving DecidableEq, Inhabited

namespace CheckState

def name : CheckState → String
  | checked => "Checked"
  | unchecked => "Unchecked"
  | mixed => "Partial"

def ofName? (s : String) : Option CheckState :=
  [checked, unchecked, mixed].find? (·.name == s)

/-- A click unchecks a checked box and checks any other. -/
def toggled : CheckState → CheckState
  | checked => unchecked
  | unchecked => checked
  | mixed => checked

/-- The mark of a parent. Without children it is checked. -/
def ofChildren (states : List CheckState) : CheckState :=
  if states.all (· == checked) then checked
  else if states.all (· == unchecked) then unchecked
  else mixed

def marker : CheckState → String
  | checked => "[x]"
  | unchecked => "[ ]"
  | mixed => "[-]"

end CheckState

end QueryPicker
