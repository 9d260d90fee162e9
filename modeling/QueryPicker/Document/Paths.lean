import QueryPicker.Document.Grammar
import QueryPicker.Order.SortedSet
import QueryPicker.Order.Unused
import QueryPicker.Schema.Basic

/-!
# The paths that a document selects

A document is walked along the schema from the root type of each of its operations. Fields that
their type does not have are skipped, with all that they select. Fragments select from the type at
hand, whatever their condition; a spread of a fragment inside itself selects nothing. Only fields of
object type are entered.
-/

namespace QueryPicker

namespace Document

/-- How many fragments are not being spread. -/
def idleFragments (doc : Document) (spreading : List String) : Nat :=
  countUnused doc.fragmentNames spreading

theorem idleFragments_lt {doc : Document} {spreading : List String} {n : String}
    {sels : List Selection} (h : doc.fragment? n = some sels) (hn : n ∉ spreading) :
    doc.idleFragments (n :: spreading) < doc.idleFragments spreading :=
  countUnused_cons_lt (mem_fragmentNames_of_fragment? h) hn

mutual

/-- The paths of one selection on a type; the fragments being spread are not entered again. -/
def pathsOfSelection (s : Schema) (doc : Document) (spreading : List String) (parent : TypeDef)
    (path : FieldPath) (sel : Selection) : List FieldPath :=
  match sel with
  | .field _ name _ _ sels =>
    match parent.field? name with
    | none => []
    | some f =>
      path.child name ::
        match s.objectOf? f with
        | none => []
        | some inner => pathsOfSelections s doc spreading inner (path.child name) sels
  | .spread name _ =>
    if hn : name ∈ spreading then []
    else
      match h : doc.fragment? name with
      | none => []
      | some sels =>
        have := idleFragments_lt h hn
        pathsOfSelections s doc (name :: spreading) parent path sels
  | .inline _ _ sels => pathsOfSelections s doc spreading parent path sels
termination_by (doc.idleFragments spreading, sizeOf sel)

def pathsOfSelections (s : Schema) (doc : Document) (spreading : List String) (parent : TypeDef)
    (path : FieldPath) (sels : List Selection) : List FieldPath :=
  match sels with
  | [] => []
  | sel :: sels =>
    pathsOfSelection s doc spreading parent path sel ++
      pathsOfSelections s doc spreading parent path sels
termination_by (doc.idleFragments spreading, sizeOf sels)

end

/-- An operation without a defined root type selects nothing. -/
def pathsOfDefinition (s : Schema) (doc : Document) : Definition → List FieldPath
  | .operation op _ sels =>
    match s.rootType? op with
    | some root => pathsOfSelections s doc [] root (FieldPath.root op) sels
    | none => []
  | .fragment .. => []

def paths (s : Schema) (doc : Document) : List FieldPath :=
  SortedSet.ofList (doc.flatMap (pathsOfDefinition s doc))

end Document

namespace QueryText

structure SyntaxError where
  position : Position
  deriving DecidableEq

def SyntaxError.message (e : SyntaxError) : String :=
  "Error parsing query text: query parse error: Parse error at " ++
    toString e.position.line ++ ":" ++ toString e.position.column

/-- Operations that select nothing, without blanks. -/
def skeletons : List (List Char) :=
  ["query\x7b\x7d".toList, "mutation\x7b\x7d".toList, "subscription\x7b\x7d".toList,
    "\x7b\x7d".toList]

/-- The text after the first skeleton that it starts with. -/
def afterSkeleton? (cs : List Char) : Option (List Char) :=
  (skeletons.find? (·.isPrefixOf cs)).map fun skeleton => cs.drop skeleton.length

theorem length_afterSkeleton? {cs rest : List Char} (h : afterSkeleton? cs = some rest) :
    rest.length < cs.length := by
  obtain ⟨skeleton, hfind, rfl⟩ := Option.map_eq_some_iff.mp h
  have hstart := List.find?_some hfind
  have hle := (List.isPrefixOf_iff_prefix.mp hstart).length_le
  have hpos : 0 < skeleton.length := by
    have hmem := List.mem_of_find?_eq_some hfind
    have : ∀ k ∈ skeletons, 0 < k.length := by decide
    exact this skeleton hmem
  rw [List.length_drop]
  omega

/-- Whether the text is nothing but skeletons, one after the other. -/
def areSkeletons (cs : List Char) : Bool :=
  match cs with
  | [] => true
  | c :: cs =>
    match h : afterSkeleton? (c :: cs) with
    | some rest =>
      have : rest.length < cs.length + 1 := length_afterSkeleton? h
      areSkeletons rest
    | none => false
termination_by cs.length

/-- A selection set may not be empty in a document, but a text of nothing else stands for an empty
selection. -/
def isEmptySkeleton (text : String) : Bool :=
  areSkeletons (text.toList.filter fun c => !Text.isBlank c)

/-- The paths that a text selects, sorted. -/
def paths (s : Schema) (text : String) : Except SyntaxError (List FieldPath) :=
  if isEmptySkeleton text then .ok []
  else
    match Document.parse text with
    | .ok doc => .ok (doc.paths s)
    | .error position => .error ⟨position⟩

/-- A text that is no document selects nothing. -/
def pathsOrNone (s : Schema) (text : String) : List FieldPath :=
  match paths s text with
  | .ok ps => ps
  | .error _ => []

end QueryText

end QueryPicker
