/-!
# Sets of code points

A property of characters is written as a list of closed code point ranges.
-/

namespace QueryPicker.Text

abbrev CodePointRange := Nat × Nat

/-- Whether some range of the table contains the character. -/
def inRanges (table : List CodePointRange) (c : Char) : Bool :=
  table.any fun r => r.1 ≤ c.toNat && c.toNat ≤ r.2

end QueryPicker.Text
