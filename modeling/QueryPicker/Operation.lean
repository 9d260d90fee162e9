/-!
# Operations

The three operations of a schema, in the order in which they are shown and written.
-/

namespace QueryPicker

inductive Operation where
  | query
  | mutation
  | subscription
  deriving DecidableEq, Inhabited

namespace Operation

def all : List Operation := [query, mutation, subscription]

/-- The word that starts the operation in a document. -/
def keyword : Operation → String
  | query => "query"
  | mutation => "mutation"
  | subscription => "subscription"

/-- The first name of every path below the operation. -/
def marker : Operation → String
  | query => "Query"
  | mutation => "Mutation"
  | subscription => "Subscription"

def ofMarker? (s : String) : Option Operation :=
  all.find? (·.marker == s)

def ofKeyword? (s : String) : Option Operation :=
  all.find? (·.keyword == s)

theorem ofMarker?_marker (op : Operation) : ofMarker? op.marker = some op := by
  cases op <;> decide

theorem ofMarker?_eq_some {s : String} {op : Operation} :
    ofMarker? s = some op ↔ s = op.marker := by
  constructor
  · intro h
    have := List.find?_some h
    simpa using (beq_iff_eq.mp this).symm
  · rintro rfl
    exact ofMarker?_marker op

theorem ofKeyword?_keyword (op : Operation) : ofKeyword? op.keyword = some op := by
  cases op <;> decide

theorem ofKeyword?_eq_some {s : String} {op : Operation} :
    ofKeyword? s = some op ↔ s = op.keyword := by
  constructor
  · intro h
    have := List.find?_some h
    simpa using (beq_iff_eq.mp this).symm
  · rintro rfl
    exact ofKeyword?_keyword op

theorem marker_injective {a b : Operation} (h : a.marker = b.marker) : a = b := by
  cases a <;> cases b <;> first | rfl | (revert h; decide)

end Operation

end QueryPicker
