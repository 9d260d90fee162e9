import Mathlib
import QueryPicker.Document.Paths
import QueryPicker.Document.Synthesis
import QueryPicker.Proofs.GrammarReading
import QueryPicker.Proofs.PathRange

/-!
# Paths along a schema

A path can be selected if its names lead from the root type of its operation through object types.
Only such paths come out of a document. Walking the fields that are written for a selection of such
paths visits the selected paths with all that lies on the way to them, and nothing else.
-/

namespace QueryPicker

namespace FieldPath

variable {p q : FieldPath}

theorem mem_ancestors : q ∈ p.ancestors ↔ q ≠ [] ∧ q <+: p ∧ q ≠ p := by
  simp only [ancestors, List.mem_reverse, List.mem_map, List.mem_range]
  constructor
  · rintro ⟨n, hn, rfl⟩
    have hlength : (p.take (n + 1)).length = n + 1 := by
      rw [List.length_take]
      omega
    refine ⟨?_, List.take_prefix _ _, ?_⟩
    · intro hnil
      rw [hnil] at hlength
      simp at hlength
    · intro heq
      rw [heq] at hlength
      omega
  · rintro ⟨hnil, hstart, hne⟩
    have hpos : 0 < q.length := List.length_pos_iff.mpr hnil
    have hlt : q.length < p.length :=
      lt_of_le_of_ne hstart.length_le fun h => hne (hstart.eq_of_length h)
    refine ⟨q.length - 1, by omega, ?_⟩
    rw [Nat.sub_add_cancel hpos]
    exact (List.prefix_iff_eq_take.mp hstart).symm

end FieldPath

namespace SelectionMap

/-- The selected paths and all paths on the way to them, roots of operations apart. -/
def closure (m : SelectionMap) : List FieldPath :=
  SortedSet.ofList (m.paths.flatMap fun p => (p :: p.ancestors).filter fun q => 2 ≤ q.length)

variable {m : SelectionMap} {p q : FieldPath}

theorem mem_closure : q ∈ m.closure ↔ 2 ≤ q.length ∧ ∃ p ∈ m.paths, q <+: p := by
  simp only [closure, SortedSet.mem_ofList, List.mem_flatMap, List.mem_filter, List.mem_cons,
    FieldPath.mem_ancestors, decide_eq_true_eq]
  constructor
  · rintro ⟨p, hp, rfl | ⟨-, hstart, -⟩, hlength⟩
    · exact ⟨hlength, q, hp, List.prefix_rfl⟩
    · exact ⟨hlength, p, hp, hstart⟩
  · rintro ⟨hlength, p, hp, hstart⟩
    refine ⟨p, hp, ?_, hlength⟩
    by_cases heq : q = p
    · exact Or.inl heq
    · refine Or.inr ⟨?_, hstart, heq⟩
      rintro rfl
      simp at hlength

theorem length_le_depth (hp : p ∈ m.paths) : p.length ≤ m.depth := by
  obtain ⟨s, hs, rfl⟩ := mem_paths.mp hp
  have hfold : ∀ (entries : List SelectedField) (d : Nat),
      d ≤ entries.foldl (fun d s => max d s.path.length) d ∧
        ∀ s ∈ entries, s.path.length ≤ entries.foldl (fun d s => max d s.path.length) d := by
    intro entries
    induction entries with
    | nil => simp
    | cons t entries ih =>
      intro d
      obtain ⟨hle, hall⟩ := ih (max d t.path.length)
      refine ⟨(le_max_left _ _).trans hle, ?_⟩
      intro s hs
      rcases List.mem_cons.mp hs with rfl | hs
      · exact (le_max_right _ _).trans hle
      · exact hall s hs
  exact (hfold m.entries 0).2 s hs

end SelectionMap

namespace Schema

/-- The names lead from the type to a field, through object types only. -/
def Selects (s : Schema) (t : TypeDef) : List String → Prop
  | [] => True
  | name :: names => ∃ f, t.field? name = some f ∧
      (names = [] ∨ ∃ inner, s.objectOf? f = some inner ∧ s.Selects inner names)

/-- The path starts at a defined root type, and its names lead on from there. -/
def Selectable (s : Schema) (p : FieldPath) : Prop :=
  ∃ op root names, s.rootType? op = some root ∧ p = op.marker :: names ∧ s.Selects root names

variable {s : Schema} {t : TypeDef}

theorem selects_below {f : Field} {inner : TypeDef} {name : String} {names : List String}
    (hf : t.field? name = some f) (hinner : s.objectOf? f = some inner)
    (h : s.Selects t (name :: names)) : s.Selects inner names := by
  obtain ⟨f', hf', hnext⟩ := h
  obtain rfl : f = f' := by simpa [hf] using hf'
  rcases hnext with rfl | ⟨inner', hinner', hnext⟩
  · trivial
  · obtain rfl : inner = inner' := by simpa [hinner] using hinner'
    exact hnext

end Schema

namespace Document

variable {s : Schema} {doc : Document} {spreading : List String} {t : TypeDef}
  {alias? : Option String} {name : String} {args : List (String × Value)}
  {directives : List Directive} {sels : List Selection} {f : Field}

theorem pathsOfSelection_field_of_unknown (hf : t.field? name = none) (path : FieldPath) :
    pathsOfSelection s doc spreading t path (.field alias? name args directives sels) = [] := by
  rw [pathsOfSelection, hf]

theorem pathsOfSelection_field_of_leaf (hf : t.field? name = some f) (hleaf : s.objectOf? f = none)
    (path : FieldPath) : pathsOfSelection s doc spreading t path
      (.field alias? name args directives sels) = [path.child name] := by
  rw [pathsOfSelection, hf]
  simp only [hleaf]

theorem pathsOfSelection_field_of_object {inner : TypeDef} (hf : t.field? name = some f)
    (hinner : s.objectOf? f = some inner) (path : FieldPath) :
    pathsOfSelection s doc spreading t path (.field alias? name args directives sels) =
      path.child name :: pathsOfSelections s doc spreading inner (path.child name) sels := by
  rw [pathsOfSelection, hf]
  simp only [hinner]

theorem pathsOfSelection_spread_of_mem (h : name ∈ spreading) (path : FieldPath) :
    pathsOfSelection s doc spreading t path (.spread name directives) = [] := by
  rw [pathsOfSelection, dif_pos h]

theorem pathsOfSelection_spread_of_undefined (h : doc.fragment? name = none) (path : FieldPath) :
    pathsOfSelection s doc spreading t path (.spread name directives) = [] := by
  rw [pathsOfSelection]
  split
  · rfl
  · split
    · rfl
    · simp_all

/-- A fragment that is not being spread selects what its selections select. -/
theorem pathsOfSelection_spread_of_defined (hmem : name ∉ spreading)
    (h : doc.fragment? name = some sels) (path : FieldPath) :
    pathsOfSelection s doc spreading t path (.spread name directives) =
      pathsOfSelections s doc (name :: spreading) t path sels := by
  rw [pathsOfSelection, dif_neg hmem]
  split
  · simp_all
  · rename_i found hfound
    obtain rfl : found = sels := by simpa [h] using hfound.symm
    rfl

theorem pathsOfSelection_inline (condition? : Option String) (path : FieldPath) :
    pathsOfSelection s doc spreading t path (.inline condition? directives sels) =
      pathsOfSelections s doc spreading t path sels := by
  rw [pathsOfSelection]

/-- Whatever is selected at a path on a type leads on along the schema. -/
theorem selects_of_mem_pathsOfSelections (s : Schema) (doc : Document) (spreading : List String)
    (t : TypeDef) (path : FieldPath) (sels : List Selection) :
    ∀ q ∈ pathsOfSelections s doc spreading t path sels,
      ∃ names, names ≠ [] ∧ q = path ++ names ∧ s.Selects t names := by
  induction spreading, t, path, sels using pathsOfSelections.induct doc
    (fun spreading t path sel => ∀ q ∈ pathsOfSelection s doc spreading t path sel,
      ∃ names, names ≠ [] ∧ q = path ++ names ∧ s.Selects t names) with
  | case1 spreading t path alias? name args directives sels hfield q hq =>
    simp [pathsOfSelection, hfield] at hq
  | case2 spreading t path alias? name args directives sels f hfield ih q hq =>
    simp only [pathsOfSelection, hfield, List.mem_cons] at hq
    rcases hq with rfl | hq
    · exact ⟨[name], by simp, rfl, f, hfield, Or.inl rfl⟩
    · split at hq
      · simp at hq
      · rename_i inner hinner
        obtain ⟨names, -, rfl, hnames⟩ := ih inner q hq
        refine ⟨name :: names, by simp, ?_, f, hfield, Or.inr ⟨inner, hinner, hnames⟩⟩
        simp [FieldPath.child]
  | case3 spreading t path name directives hmem q hq =>
    simp [pathsOfSelection_spread_of_mem hmem] at hq
  | case4 spreading t path name directives hmem hnone q hq =>
    simp [pathsOfSelection_spread_of_undefined hnone] at hq
  | case5 spreading t path name directives hmem sels hsome _ ih q hq =>
    rw [pathsOfSelection_spread_of_defined hmem hsome] at hq
    exact ih q hq
  | case6 spreading t path condition? directives sels ih q hq =>
    rw [pathsOfSelection_inline] at hq
    exact ih q hq
  | case7 spreading t path =>
    intro q hq
    simp [pathsOfSelections] at hq
  | case8 spreading t path sel sels ihsel ihsels =>
    intro q hq
    rw [pathsOfSelections, List.mem_append] at hq
    exact hq.elim (ihsel q) (ihsels q)

theorem selectable_of_mem_paths {s : Schema} {doc : Document} {q : FieldPath}
    (h : q ∈ doc.paths s) : s.Selectable q ∧ 2 ≤ q.length := by
  rw [paths, SortedSet.mem_ofList, List.mem_flatMap] at h
  obtain ⟨d, -, hq⟩ := h
  cases d with
  | fragment => simp [pathsOfDefinition] at hq
  | operation op name? sels =>
    rw [pathsOfDefinition] at hq
    split at hq
    · rename_i root hroot
      obtain ⟨names, hne, rfl, hnames⟩ := selects_of_mem_pathsOfSelections s doc [] root _ sels q hq
      refine ⟨⟨op, root, names, hroot, rfl, hnames⟩, ?_⟩
      have := List.length_pos_iff.mpr hne
      simp [FieldPath.root]
      omega
    · simp at hq

end Document

/-- Only paths along the schema come out of a text. -/
theorem QueryText.selectable_of_mem_paths {s : Schema} {text : String} {ps : List FieldPath}
    (h : QueryText.paths s text = .ok ps) {q : FieldPath} (hq : q ∈ ps) :
    s.Selectable q ∧ 2 ≤ q.length := by
  unfold QueryText.paths at h
  split at h
  · cases h
    simp at hq
  · split at h
    · cases h
      exact Document.selectable_of_mem_paths hq
    · cases h

namespace Document

theorem mem_pathsOfSelections {s : Schema} {doc : Document} {spreading : List String} {t : TypeDef}
    {path q : FieldPath} {sels : List Selection} :
    q ∈ pathsOfSelections s doc spreading t path sels ↔
      ∃ sel ∈ sels, q ∈ pathsOfSelection s doc spreading t path sel := by
  induction sels with
  | nil => simp [pathsOfSelections]
  | cons sel sels ih => simp [pathsOfSelections, ih]

theorem toSelections_eq (trees : List FieldTree) :
    FieldTree.toSelections trees = trees.map FieldTree.toSelection := by
  induction trees with
  | nil => rfl
  | cons tree trees ih => rw [FieldTree.toSelections, ih, List.map_cons]

/-- What leads on from a path leads on from its child on the type of that field. -/
theorem selects_child {s : Schema} {m : SelectionMap} {t inner : TypeDef} {path : FieldPath}
    {f : Field} {name : String} (hf : t.field? name = some f) (hinner : s.objectOf? f = some inner)
    (hselects : ∀ names, path ++ names ∈ m.paths → s.Selects t names) :
    ∀ names, path.child name ++ names ∈ m.paths → s.Selects inner names := by
  intro names hnames
  rw [FieldPath.child_append] at hnames
  exact Schema.selects_below hf hinner (hselects (name :: names) hnames)

/-- Walking the fields below a path visits the selected paths below it and those on the way. -/
theorem mem_pathsOfSelections_treesBelow {s : Schema} {doc : Document} {m : SelectionMap}
    {levels : Nat} {t : TypeDef} {path q : FieldPath}
    (hselects : ∀ names, path ++ names ∈ m.paths → s.Selects t names) :
    q ∈ pathsOfSelections s doc [] t path (FieldTree.toSelections (m.treesBelow levels path)) ↔
      ∃ names, names ≠ [] ∧ names.length ≤ levels ∧ q = path ++ names ∧ ∃ p ∈ m.paths, q <+: p := by
  induction levels generalizing t path with
  | zero =>
    rw [SelectionMap.treesBelow, FieldTree.toSelections, pathsOfSelections]
    simp only [List.not_mem_nil, false_iff]
    rintro ⟨names, hne, hlength, -⟩
    exact hne (List.length_eq_zero_iff.mp (by omega))
  | succ levels ih =>
    rw [SelectionMap.treesBelow, toSelections_eq, List.map_map, mem_pathsOfSelections]
    simp only [List.mem_map, exists_exists_and_eq_and, Function.comp_apply, FieldTree.toSelection]
    constructor
    · rintro ⟨name, hname, hq⟩
      obtain ⟨p, hp, more, rfl⟩ := SelectionMap.mem_childNames.mp hname
      have hstored : path ++ name :: more ∈ m.paths := FieldPath.child_append path name more ▸ hp
      obtain ⟨f, hf, hmore⟩ := hselects (name :: more) hstored
      simp only [pathsOfSelection, hf, List.mem_cons] at hq
      rcases hq with rfl | hq
      · exact ⟨[name], by simp, by simp, rfl, _, hp, List.prefix_append _ _⟩
      · split at hq
        · simp at hq
        · rename_i inner hinner
          have hbelow := selects_child hf hinner hselects
          obtain ⟨names, -, hlength, rfl, hstored⟩ := (ih hbelow).mp hq
          refine ⟨name :: names, by simp, by simpa using hlength, ?_, hstored⟩
          exact FieldPath.child_append path name names
    · rintro ⟨names, hne, hlength, rfl, p, hp, hstart⟩
      obtain ⟨name, names, rfl⟩ := List.exists_cons_of_ne_nil hne
      obtain ⟨more, rfl⟩ := hstart
      have happend : path ++ name :: names ++ more = path ++ name :: (names ++ more) := by simp
      obtain ⟨f, hf, hmore⟩ := hselects (name :: (names ++ more)) (happend ▸ hp)
      have hname : name ∈ m.childNames path :=
        SelectionMap.mem_childNames.mpr ⟨_, hp, names ++ more, by
          rw [FieldPath.child_append, happend]⟩
      refine ⟨name, hname, ?_⟩
      simp only [pathsOfSelection, hf, List.mem_cons]
      cases names with
      | nil => exact Or.inl rfl
      | cons next names =>
        obtain ⟨inner, hinner, -⟩ := hmore.resolve_left (by simp)
        have hbelow := selects_child hf hinner hselects
        right
        rw [hinner]
        refine (ih hbelow).mpr ⟨next :: names, by simp, by simpa using hlength, ?_, _, hp, ?_⟩
        · exact (FieldPath.child_append path name (next :: names)).symm
        · exact List.prefix_append _ _

end Document

namespace SelectionMap

variable {m : SelectionMap} {s : Schema}

/-- The operations that are written, with the fields written in them. -/
def writtenOperations (m : SelectionMap) : FieldTree.Operations :=
  Operation.all.filterMap fun op =>
    match m.operationTrees op with
    | [] => none
    | trees => some (op, trees)

theorem mem_writtenOperations {op : Operation} {trees : List FieldTree} :
    (op, trees) ∈ m.writtenOperations ↔ trees = m.operationTrees op ∧ trees ≠ [] := by
  have hall : op ∈ Operation.all := by cases op <;> decide
  simp only [writtenOperations, List.mem_filterMap]
  constructor
  · rintro ⟨op', -, h⟩
    split at h
    · cases h
    · rename_i hne
      cases h
      exact ⟨rfl, fun hnil => hne hnil⟩
  · rintro ⟨rfl, hne⟩
    refine ⟨op, hall, ?_⟩
    split
    · rename_i hnil
      exact absurd hnil hne
    · rfl

theorem operationTexts_eq : m.operationTexts =
    m.writtenOperations.map fun o => FieldTree.operationText o.1 o.2 := by
  rw [operationTexts, writtenOperations, List.map_filterMap]
  congr 1
  funext op
  cases m.operationTrees op <;> rfl

theorem selects_of_selectable {op : Operation} {root : TypeDef} {names : List String}
    (hroot : s.rootType? op = some root) (h : s.Selectable (FieldPath.root op ++ names)) :
    s.Selects root names := by
  obtain ⟨op', root', names', hroot', hpath, hselects⟩ := h
  obtain ⟨hmarker, rfl⟩ := List.cons.inj hpath
  obtain rfl := Operation.marker_injective hmarker
  obtain rfl : root = root' := by simpa [hroot] using hroot'
  exact hselects

/-- An operation is written if a selected path goes on below its root. -/
theorem operationTrees_ne_nil {op : Operation} {name : String} {names : List String}
    (h : FieldPath.root op ++ name :: names ∈ m.paths) : m.operationTrees op ≠ [] := by
  have hdepth := length_le_depth h
  rw [List.length_append, List.length_cons] at hdepth
  obtain ⟨levels, hlevels⟩ := Nat.exists_eq_add_of_le' (show 1 ≤ m.depth by omega)
  have hname : name ∈ m.childNames (FieldPath.root op) :=
    mem_childNames.mpr ⟨_, h, names, FieldPath.child_append _ name names⟩
  rw [operationTrees, hlevels, treesBelow]
  intro hnil
  rw [List.map_eq_nil_iff.mp hnil] at hname
  simp at hname

theorem mem_writtenOperations_of_stored {op : Operation} {name : String} {names : List String}
    (h : FieldPath.root op ++ name :: names ∈ m.paths) :
    (op, m.operationTrees op) ∈ m.writtenOperations :=
  mem_writtenOperations.mpr ⟨rfl, operationTrees_ne_nil h⟩

/-- Read along the schema, what is written for a selection selects its closure. -/
theorem paths_document (hselectable : ∀ p ∈ m.paths, s.Selectable p) :
    (FieldTree.document m.writtenOperations).paths s = m.closure := by
  have hwalk : ∀ (op : Operation) (root : TypeDef) (q : FieldPath), s.rootType? op = some root →
      (q ∈ Document.pathsOfDefinition s (FieldTree.document m.writtenOperations)
          (.operation op none (FieldTree.toSelections (m.operationTrees op))) ↔
        ∃ names, names ≠ [] ∧ q = FieldPath.root op ++ names ∧ ∃ p ∈ m.paths, q <+: p) := by
    intro op root q hroot
    simp only [Document.pathsOfDefinition, hroot, operationTrees]
    rw [Document.mem_pathsOfSelections_treesBelow fun names hnames =>
      selects_of_selectable hroot (hselectable _ hnames)]
    apply exists_congr
    intro names
    apply and_congr_right
    intro _
    constructor
    · intro h
      exact h.2
    · rintro ⟨rfl, p, hp, hstart⟩
      have hlength := hstart.length_le.trans (length_le_depth hp)
      rw [List.length_append] at hlength
      exact ⟨by omega, rfl, p, hp, hstart⟩
  apply SortedSet.ofList_eq_of_mem_iff
  intro q
  refine Iff.trans ?_ ((mem_closure (m := m)).symm.trans SortedSet.mem_ofList)
  rw [List.mem_flatMap]
  constructor
  · rintro ⟨d, hd, hq⟩
    obtain ⟨⟨op, trees⟩, ho, rfl⟩ := List.mem_map.mp hd
    obtain ⟨rfl, -⟩ := mem_writtenOperations.mp ho
    cases hroot : s.rootType? op with
    | none => simp [Document.pathsOfDefinition, hroot] at hq
    | some root =>
      obtain ⟨names, hne, rfl, hstored⟩ := (hwalk op root q hroot).mp hq
      have hpos := List.length_pos_iff.mpr hne
      refine ⟨?_, hstored⟩
      simp [FieldPath.root]
      omega
  · rintro ⟨hlength, p, hp, hstart⟩
    obtain ⟨more, rfl⟩ := hstart
    obtain ⟨op, root, names, hroot, hpath, -⟩ := hselectable _ hp
    match q, hlength with
    | marker :: name :: names', _ =>
      obtain ⟨rfl, -⟩ := List.cons.inj hpath
      have hstored : FieldPath.root op ++ name :: (names' ++ more) ∈ m.paths := hp
      refine ⟨.operation op none (FieldTree.toSelections (m.operationTrees op)), ?_, ?_⟩
      · exact List.mem_map.mpr ⟨_, mem_writtenOperations_of_stored hstored, rfl⟩
      · exact (hwalk op root _ hroot).mpr
          ⟨name :: names', by simp, rfl, _, hp, List.prefix_append _ _⟩

theorem allFieldsOf_treesBelow_succ {ok : String → Arguments → Bool} {levels : Nat}
    {path : FieldPath} : FieldTree.allFieldsOf ok (m.treesBelow (levels + 1) path) = true ↔
      ∀ name ∈ m.childNames path, ok name (m.argumentsAt (path.child name)) = true ∧
        FieldTree.allFieldsOf ok (m.treesBelow levels (path.child name)) = true := by
  rw [treesBelow]
  induction m.childNames path with
  | nil => simp [FieldTree.allFieldsOf]
  | cons name names ih => simp [FieldTree.allFieldsOf, FieldTree.allFields, ih]

/-- A test passes on all fields below a path exactly if it passes on all that lie on the way to a
selected path. -/
theorem allFieldsOf_treesBelow {ok : String → Arguments → Bool} {levels : Nat} {path : FieldPath} :
    FieldTree.allFieldsOf ok (m.treesBelow levels path) = true ↔
      ∀ (q : FieldPath) (name : String), path <+: q → q.length < path.length + levels →
        (∃ p ∈ m.paths, q.child name <+: p) → ok name (m.argumentsAt (q.child name)) = true := by
  induction levels generalizing path with
  | zero =>
    simp only [treesBelow, FieldTree.allFieldsOf, true_iff]
    intro q name hpath hlength
    have := hpath.length_le
    omega
  | succ levels ih =>
    rw [allFieldsOf_treesBelow_succ]
    constructor
    · intro h q name hpath hlt hstored
      obtain ⟨more, rfl⟩ := hpath
      obtain ⟨p, hp, hstart⟩ := hstored
      cases more with
      | nil =>
        rw [List.append_nil] at hstart ⊢
        exact (h name (mem_childNames.mpr ⟨p, hp, hstart⟩)).1
      | cons next more =>
        have hnext : path.child next <+: path ++ next :: more :=
          ⟨more, FieldPath.child_append path next more⟩
        have hchild := hnext.trans ((List.prefix_append _ [name]).trans hstart)
        refine ih.mp (h next (mem_childNames.mpr ⟨p, hp, hchild⟩)).2 _ name hnext ?_ ⟨p, hp, hstart⟩
        rw [FieldPath.length_child]
        omega
    · intro h name hname
      have hstored := mem_childNames.mp hname
      refine ⟨h path name List.prefix_rfl (by omega) hstored, ih.mpr ?_⟩
      intro q next hpath hlt hq
      refine h q next ((List.prefix_append path [name]).trans hpath) ?_ hq
      rw [FieldPath.length_child] at hlt
      omega

end SelectionMap

end QueryPicker
