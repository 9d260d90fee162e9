import Mathlib
import QueryPicker.Proofs.DocumentPaths
import QueryPicker.Proofs.ResolvedSelections

/-!
# Paths that come out of a text

Whatever a document is made of, every path it selects belongs to one of its operations and follows
the schema from the root type of that operation. The walk along the document and the resolution of a
path find the same fields on the way.
-/

namespace QueryPicker

namespace Document

variable {s : Schema} {doc : Document} {p : FieldPath}

/-- A path starts at the marker of an operation of the document. -/
theorem exists_operation_of_mem_paths (hp : p ∈ doc.paths s) :
    ∃ op name? sels root names, Definition.operation op name? sels ∈ doc ∧
      s.rootType? op = some root ∧ p = op.marker :: names := by
  rw [paths, SortedSet.mem_ofList, List.mem_flatMap] at hp
  obtain ⟨d, hd, hp⟩ := hp
  cases d with
  | fragment => simp [pathsOfDefinition] at hp
  | operation op name? sels =>
    rw [pathsOfDefinition] at hp
    split at hp
    · rename_i root hroot
      obtain ⟨names, -, rfl, -⟩ := selects_of_mem_pathsOfSelections s doc [] root _ sels p hp
      exact ⟨op, name?, sels, root, names, hd, hroot, rfl⟩
    · simp at hp

end Document

namespace QueryText

open Document in
/-- A user under an alias, with a field that no type has and a fragment that spreads itself and one
that is missing. The conditions name a type that is not defined. -/
def spreadDocument : Document :=
  [.operation .query none
      [.inline (some "Nothing") []
        [.field (some "u") "user" [] []
          [.field none "missing" [] [] [.field none "name" [] [] []], .spread "more" []]]],
    .fragment "more" "Nothing"
      [.field none "friend" [] [] [.field none "name" [] [] []], .spread "more" [],
        .spread "gone" []]]

def spreadText : String :=
  "query \x7b ... on Nothing \x7b u: user \x7b missing \x7b name \x7d ...more \x7d \x7d \x7d " ++
    "fragment more on Nothing \x7b friend \x7b name \x7d ...more ...gone \x7d"

theorem paths_spreadDocument : spreadDocument.paths SelectionMap.friends =
    [["Query", "user"], ["Query", "user", "friend"], ["Query", "user", "friend", "name"]] := by
  have hmore : spreadDocument.fragment? "more" = some
      [.field none "friend" [] [] [.field none "name" [] [] []], .spread "more" [],
        .spread "gone" []] := rfl
  have hgone : spreadDocument.fragment? "gone" = none := rfl
  obtain ⟨query, user, userField, friendField, nameField, hquery, huserField, huser, hfriendField,
      hfriend, hnameField, hname, hmissing⟩ :
      ∃ query user userField friendField nameField,
        SelectionMap.friends.rootType? .query = some query ∧
        query.field? "user" = some userField ∧
        SelectionMap.friends.objectOf? userField = some user ∧
        user.field? "friend" = some friendField ∧
        SelectionMap.friends.objectOf? friendField = some user ∧
        user.field? "name" = some nameField ∧
        SelectionMap.friends.objectOf? nameField = none ∧ user.field? "missing" = none :=
    ⟨_, _, _, _, _, rfl, rfl, rfl, rfl, rfl, rfl, rfl, rfl⟩
  have hwalk (sels : List Document.Selection) : Document.pathsOfDefinition SelectionMap.friends
      spreadDocument (.operation .query none sels) =
        Document.pathsOfSelections SelectionMap.friends spreadDocument [] query ["Query"] sels := by
    rw [Document.pathsOfDefinition, hquery]
    rfl
  have hpaths : spreadDocument.flatMap
      (Document.pathsOfDefinition SelectionMap.friends spreadDocument) =
        [["Query", "user"], ["Query", "user", "friend"], ["Query", "user", "friend", "name"]] := by
    refine (List.flatMap_cons.trans (congrArg₂ _ (hwalk _) rfl)).trans ?_
    simp [Document.pathsOfSelections, Document.pathsOfSelection_inline, FieldPath.child,
      Document.pathsOfSelection_field_of_object huserField huser,
      Document.pathsOfSelection_field_of_object hfriendField hfriend,
      Document.pathsOfSelection_field_of_leaf hnameField hname,
      Document.pathsOfSelection_field_of_unknown hmissing,
      Document.pathsOfSelection_spread_of_defined List.not_mem_nil hmore,
      Document.pathsOfSelection_spread_of_mem List.mem_cons_self,
      Document.pathsOfSelection_spread_of_undefined hgone, Document.pathsOfDefinition]
  rw [Document.paths, hpaths]
  decide

theorem paths_spreadText : paths SelectionMap.friends spreadText =
    .ok [["Query", "user"], ["Query", "user", "friend"], ["Query", "user", "friend", "name"]] := by
  have hskeleton : isEmptySkeleton spreadText = false := by decide +kernel
  have hparse : Document.parse spreadText = .ok spreadDocument := by cbv
  rw [paths, hskeleton, hparse, ← paths_spreadDocument]
  rfl

/-- Every path of a text starts at an operation of its document with a defined root type and
resolves to a field. The paths on the way to it are paths of the text as well, and end at fields
whose innermost type is defined as an object. -/
theorem resolves_and_starts_of_mem_paths (s : Schema) (text : String) (ps : List FieldPath)
    (h : paths s text = .ok ps) (p : FieldPath) (hp : p ∈ ps) :
    2 ≤ p.length ∧
      (∃ doc op name? sels root, Document.parse text = .ok doc ∧
        Document.Definition.operation op name? sels ∈ doc ∧ s.rootType? op = some root ∧
          p.rootMarker? = some op.marker) ∧
      (∃ f, s.resolve? p = some f) ∧
      ∀ q, q <+: p → q ≠ p → 2 ≤ q.length → q ∈ ps ∧
        ∃ f inner, s.resolve? q = some f ∧ s.typeNamed? f.type.innerName = some inner ∧
          inner.kind = .object := by
  obtain ⟨hselectable, hlength⟩ := selectable_of_mem_paths h hp
  refine ⟨hlength, ?_, Option.isSome_iff_exists.mp (Schema.isSome_resolve? hselectable hlength), ?_⟩
  · obtain ⟨doc, hdoc, rfl⟩ := (paths_cases h).resolve_left (List.ne_nil_of_mem hp)
    obtain ⟨op, name?, sels, root, names, hd, hroot, rfl⟩ :=
      Document.exists_operation_of_mem_paths hp
    exact ⟨doc, op, name?, sels, root, hdoc, hd, hroot, rfl⟩
  · intro q hstart hne hq
    exact ⟨(isDocumentPaths h).start p hp q hstart hq,
      Schema.exists_object_of_start hselectable hstart hne hq⟩

theorem resolves_and_starts_spreadText :
    let p : FieldPath := ["Query", "user", "friend", "name"]
    let q : FieldPath := ["Query", "user", "friend"]
    (∃ ps, paths SelectionMap.friends spreadText = .ok ps ∧ p ∈ ps ∧ q ∈ ps) ∧
    (∃ doc op name? sels root, Document.parse spreadText = .ok doc ∧
      Document.Definition.operation op name? sels ∈ doc ∧
        SelectionMap.friends.rootType? op = some root ∧ p.rootMarker? = some op.marker) ∧
    (∃ f, SelectionMap.friends.resolve? p = some f) ∧
    ∃ f inner, SelectionMap.friends.resolve? q = some f ∧
      SelectionMap.friends.typeNamed? f.type.innerName = some inner ∧ inner.kind = .object := by
  obtain ⟨-, hoperation, hresolve, hstart⟩ :=
    resolves_and_starts_of_mem_paths SelectionMap.friends spreadText _ paths_spreadText
      ["Query", "user", "friend", "name"] (by decide)
  obtain ⟨hmem, hobject⟩ :=
    hstart ["Query", "user", "friend"] ⟨["name"], rfl⟩ (by decide) (by decide)
  exact ⟨⟨_, paths_spreadText, by decide, hmem⟩, hoperation, hresolve, hobject⟩

end QueryText

end QueryPicker
