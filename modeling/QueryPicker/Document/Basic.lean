import QueryPicker.Operation

/-!
# Query documents

A document holds operations and fragments. Both select fields, spread fragments by name, or select
inside a condition on the type.
-/

namespace QueryPicker

namespace Document

inductive Value where
  | variable (name : String)
  | int (value : Int)
  /-- A number with a fraction or an exponent, as written. -/
  | float (text : String)
  | string (value : String)
  /-- A block string, as written between its quotes. -/
  | block (raw : String)
  | bool (value : Bool)
  | null
  | enumValue (name : String)
  | list (items : List Value)
  | object (fields : List (String × Value))
  deriving Inhabited

/-- What a bare name means as a value. -/
def Value.ofName (name : String) : Value :=
  if name = "true" then .bool true
  else if name = "false" then .bool false
  else if name = "null" then .null
  else .enumValue name

structure Directive where
  name : String
  args : List (String × Value)
  deriving Inhabited

inductive Selection where
  | field (alias? : Option String) (name : String) (args : List (String × Value))
      (directives : List Directive) (selections : List Selection)
  | spread (fragment : String) (directives : List Directive)
  | inline (condition? : Option String) (directives : List Directive)
      (selections : List Selection)
  deriving Inhabited

inductive Definition where
  | operation (kind : Operation) (name? : Option String) (selections : List Selection)
  | fragment (name : String) (condition : String) (selections : List Selection)
  deriving Inhabited

end Document

abbrev Document := List Document.Definition

namespace Document

/-- Of fragments with one name the last counts. -/
def fragment? (doc : Document) (name : String) : Option (List Selection) :=
  doc.reverse.findSome? fun
    | .fragment n _ selections => if n = name then some selections else none
    | .operation .. => none

def fragmentNames (doc : Document) : List String :=
  doc.filterMap fun
    | .fragment n _ _ => some n
    | .operation .. => none

theorem mem_fragmentNames_of_fragment? {doc : Document} {name : String}
    {selections : List Selection} (h : doc.fragment? name = some selections) :
    name ∈ doc.fragmentNames := by
  obtain ⟨d, hd, hsome⟩ := List.exists_of_findSome?_eq_some h
  cases d with
  | operation => simp at hsome
  | fragment n condition sels =>
    have hn : n = name := by
      by_cases hn : n = name
      · exact hn
      · simp [hn] at hsome
    exact List.mem_filterMap.mpr ⟨_, List.mem_reverse.mp hd, by simp [hn]⟩

/-- The name of the first operation that has one. -/
def operationName? (doc : Document) : Option String :=
  doc.findSome? fun
    | .operation _ name? _ => name?
    | .fragment .. => none

end Document

end QueryPicker
