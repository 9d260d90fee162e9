import Mathlib
import QueryPicker.Proofs.SelectionChanges

/-!
# The paths of a document as a set

The paths that a text selects are sorted, and with each of them all fields on the way to it are
selected.
-/

namespace QueryPicker

namespace Document

/-- With a path all paths on the way to it are selected. -/
theorem mem_pathsOfSelections_of_append (s : Schema) (doc : Document) (spreading : List String)
    (t : TypeDef) (path : FieldPath) (sels : List Selection) :
    ∀ names more, names ≠ [] → path ++ (names ++ more) ∈
      pathsOfSelections s doc spreading t path sels →
        path ++ names ∈ pathsOfSelections s doc spreading t path sels := by
  induction spreading, t, path, sels using pathsOfSelections.induct doc
    (fun spreading t path sel => ∀ names more, names ≠ [] → path ++ (names ++ more) ∈
      pathsOfSelection s doc spreading t path sel →
        path ++ names ∈ pathsOfSelection s doc spreading t path sel) with
  | case1 spreading t path alias? name args directives sels hfield names more hne hmem =>
    simp [pathsOfSelection, hfield] at hmem
  | case2 spreading t path alias? name args directives sels f hfield ih names more hne hmem =>
    cases names with
    | nil => exact absurd rfl hne
    | cons first names =>
      rw [List.cons_append, ← FieldPath.child_append] at hmem
      rw [← FieldPath.child_append]
      simp only [pathsOfSelection, hfield, List.mem_cons] at hmem ⊢
      rcases hmem with heq | hmem
      · left
        simp_all [FieldPath.child]
      · split at hmem
        · simp at hmem
        · rename_i inner hinner
          obtain ⟨names', -, heq, -⟩ := selects_of_mem_pathsOfSelections s doc _ _ _ _ _ hmem
          obtain rfl : first = name := by
            simp only [FieldPath.child_append, List.append_cancel_left_eq, List.cons.injEq] at heq
            exact heq.1
          by_cases hnil : names = []
          · left
            rw [hnil, List.append_nil]
          · exact Or.inr (ih inner names more hnil hmem)
  | case3 spreading t path name directives hspread names more hne hmem =>
    simp [pathsOfSelection_spread_of_mem hspread] at hmem
  | case4 spreading t path name directives hspread hnone names more hne hmem =>
    simp [pathsOfSelection_spread_of_undefined hnone] at hmem
  | case5 spreading t path name directives hspread sels hsome _ ih names more hne hmem =>
    rw [pathsOfSelection_spread_of_defined hspread hsome] at hmem ⊢
    exact ih names more hne hmem
  | case6 spreading t path condition? directives sels ih names more hne hmem =>
    rw [pathsOfSelection_inline] at hmem ⊢
    exact ih names more hne hmem
  | case7 spreading t path =>
    intro names more hne hmem
    simp [pathsOfSelections] at hmem
  | case8 spreading t path sel sels ihsel ihsels =>
    intro names more hne hmem
    rw [pathsOfSelections, List.mem_append] at hmem ⊢
    exact hmem.imp (ihsel names more hne) (ihsels names more hne)

/-- All paths on the way to a path of a document are paths of the document. -/
theorem mem_paths_of_start {s : Schema} {doc : Document} {p q : FieldPath} (hp : p ∈ doc.paths s)
    (hstart : q <+: p) (hq : 2 ≤ q.length) : q ∈ doc.paths s := by
  rw [paths, SortedSet.mem_ofList, List.mem_flatMap] at hp ⊢
  obtain ⟨d, hd, hp⟩ := hp
  refine ⟨d, hd, ?_⟩
  obtain ⟨more, rfl⟩ := hstart
  cases d with
  | fragment => simp [pathsOfDefinition] at hp
  | operation op name? sels =>
    rw [pathsOfDefinition] at hp ⊢
    split at hp
    · rename_i root hroot
      obtain ⟨names, -, heq, -⟩ := selects_of_mem_pathsOfSelections s doc [] root _ sels _ hp
      obtain ⟨marker, rest, rfl⟩ : ∃ marker rest, q = marker :: rest :=
        List.exists_cons_of_length_pos (by omega)
      have hrest : rest ≠ [] := by
        rintro rfl
        simp at hq
      obtain rfl : marker = op.marker := by
        simp only [FieldPath.root, List.cons_append, List.cons.injEq] at heq
        exact heq.1
      exact mem_pathsOfSelections_of_append s doc [] root (FieldPath.root op) sels rest more hrest
        hp
    · simp at hp

end Document

namespace QueryText

variable {s : Schema} {text : String} {ps : List FieldPath}

/-- The paths of a text are none or those of the document that it is. -/
theorem paths_cases (h : paths s text = .ok ps) :
    ps = [] ∨ ∃ doc, Document.parse text = .ok doc ∧ ps = doc.paths s := by
  unfold paths at h
  split at h
  · cases h
    exact Or.inl rfl
  · split at h
    · rename_i doc hdoc
      cases h
      exact Or.inr ⟨doc, hdoc, rfl⟩
    · cases h

end QueryText

/-- Paths as texts select them: sorted, along the schema, and all that are on the way to one of
them. -/
structure IsDocumentPaths (s : Schema) (ps : List FieldPath) : Prop where
  sorted : ps.Pairwise (· < ·)
  selectable : ∀ p ∈ ps, s.Selectable p ∧ 2 ≤ p.length
  start : ∀ p ∈ ps, ∀ q, q <+: p → 2 ≤ q.length → q ∈ ps

theorem QueryText.isDocumentPaths {s : Schema} {text : String} {ps : List FieldPath}
    (h : QueryText.paths s text = .ok ps) : IsDocumentPaths s ps := by
  refine ⟨?_, fun p hp => selectable_of_mem_paths h hp, ?_⟩
  · rcases paths_cases h with rfl | ⟨doc, -, rfl⟩
    · exact .nil
    · exact SortedSet.sorted_ofList _
  · intro p hp q hstart hq
    rcases paths_cases h with rfl | ⟨doc, -, rfl⟩
    · cases hp
    · exact Document.mem_paths_of_start hp hstart hq

/-- Nothing is missing on the way to selected paths of this kind. -/
theorem SelectionMap.closure_eq_paths {s : Schema} {m : SelectionMap}
    (h : IsDocumentPaths s m.paths) : m.closure = m.paths := by
  refine SortedSet.eq_of_mem_iff (SortedSet.sorted_ofList _) h.sorted fun q => ?_
  refine mem_closure.trans ⟨?_, fun hq => ⟨(h.selectable q hq).2, q, hq, List.prefix_rfl⟩⟩
  rintro ⟨hlength, p, hp, hstart⟩
  exact h.start p hp q hstart hlength

end QueryPicker
