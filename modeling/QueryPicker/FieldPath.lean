import QueryPicker.Operation
import QueryPicker.Text.Blank

/-!
# Field paths

A path leads from the marker of an operation to a field, one name a segment. Paths are ordered
segment by segment, so a path stands directly before all paths that it starts. The dotted form joins
the segments with dots; reading it drops blanks around the whole and around each segment.
-/

namespace QueryPicker

abbrev FieldPath := List String

namespace FieldPath

def root (op : Operation) : FieldPath := [op.marker]

def child (p : FieldPath) (name : String) : FieldPath := p ++ [name]

/-- The segments after the marker. -/
def fieldSegments (p : FieldPath) : List String := p.drop 1

def leafName? (p : FieldPath) : Option String := p.getLast?

def rootMarker? (p : FieldPath) : Option String := p.head?

def operation? (p : FieldPath) : Option Operation :=
  p.rootMarker?.bind Operation.ofMarker?

def isRoot (p : FieldPath) : Bool := p.length == 1

/-- The path without its last segment; a path of one segment has no parent. -/
def parent? (p : FieldPath) : Option FieldPath :=
  if p.length ≤ 1 then none else some p.dropLast

/-- The proper prefixes that are not empty, the longest first. -/
def ancestors (p : FieldPath) : List FieldPath :=
  ((List.range (p.length - 1)).map fun n => p.take (n + 1)).reverse

def startsWith (p start : FieldPath) : Bool := start.isPrefixOf p

/-- Whether the second path goes on below the first. -/
def isStrictPrefixOf (p q : FieldPath) : Bool :=
  decide (p.length < q.length) && q.startsWith p

/-- The paths of a sorted list below which no other goes on. A path that goes on below another
stands in the list directly after it or after one more of the kind, so looking at the next path is
enough. -/
def maximal : List FieldPath → List FieldPath
  | [] => []
  | [p] => [p]
  | p :: q :: ps => if p.isStrictPrefixOf q then maximal (q :: ps) else p :: maximal (q :: ps)

def dotted (p : FieldPath) : String := ".".intercalate p

inductive ParseError where
  | emptySegment (text : String)
  | unknownRootMarker (segment : String)
  deriving DecidableEq

def ParseError.message : ParseError → String
  | .emptySegment text => "Field path `" ++ text ++ "` contains an empty segment"
  | .unknownRootMarker segment =>
    "Field path must start with `Query`, `Mutation` or `Subscription`, found `" ++ segment ++ "`"

/-- Reads the dotted form. A blank segment is reported before a first segment that is no marker. -/
def parse (text : String) : Except ParseError FieldPath :=
  let parts := Text.splitAt '.' (Text.trimChars text.toList)
  if parts.any (·.all Text.isBlank) then .error (.emptySegment text)
  else
    let first := String.ofList (parts.headD [])
    if (Operation.ofMarker? first).isNone then .error (.unknownRootMarker first)
    else .ok (parts.map fun part => String.ofList (Text.trimChars part))

theorem leafName?_child (p : FieldPath) (name : String) : (p.child name).leafName? = some name :=
  List.getLast?_concat

theorem startsWith_iff {p q : FieldPath} : p.startsWith q = true ↔ q <+: p := by
  simp [startsWith]

theorem isStrictPrefixOf_iff {p q : FieldPath} :
    p.isStrictPrefixOf q = true ↔ p <+: q ∧ p ≠ q := by
  simp only [isStrictPrefixOf, Bool.and_eq_true, decide_eq_true_eq, startsWith_iff]
  constructor
  · rintro ⟨hlt, hp⟩
    exact ⟨hp, fun h => by subst h; exact Nat.lt_irrefl _ hlt⟩
  · rintro ⟨hp, hne⟩
    refine ⟨Nat.lt_of_le_of_ne hp.length_le fun h => hne (hp.eq_of_length h), hp⟩

end FieldPath

end QueryPicker
