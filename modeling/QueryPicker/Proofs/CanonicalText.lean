import Mathlib
import QueryPicker.Proofs.RoundTrip
import QueryPicker.Proofs.SelectionChanges
import QueryPicker.Proofs.WrittenLines

/-!
# Canonical text

The text of a selection is settled by the paths that it shows, which are those of its closure below
an operation, and by the texts of the arguments at them. It settles them in turn if everything in it
is named as documents name it. How the selection came about, which schema fields were stored, which
of the fields on the way to others were stored without arguments, and what was stored elsewhere
leaves no trace in the text.
-/

namespace QueryPicker

namespace FieldTree

variable {p : FieldPath} {x : FieldPath × String} {depth : Nat}

theorem mem_shownOf {trees : List FieldTree} :
    x ∈ shownOf p trees ↔ ∃ tree ∈ trees, x ∈ shown p tree := by
  induction trees with
  | nil => simp [shownOf]
  | cons tree trees ih => simp [shownOf, ih]

theorem isEmpty_listLines (depth : Nat) (trees : List FieldTree) :
    (listLines depth trees).isEmpty = trees.isEmpty := by
  cases trees with
  | nil => rfl
  | cons tree trees =>
    obtain ⟨name, args, children⟩ := tree
    rw [listLines_cons]
    rfl

/-- Of the arguments only their text is written. -/
theorem listLines_cons_congr {name : String} {args args' : Arguments}
    {children children' trees trees' : List FieldTree} (hargs : args.text = args'.text)
    (hchildren : listLines (depth + 1) children = listLines (depth + 1) children')
    (htrees : listLines depth trees = listLines depth trees') :
    listLines depth (node name args children :: trees) =
      listLines depth (node name args' children' :: trees') := by
  have hempty : children.isEmpty = children'.isEmpty := by
    rw [← isEmpty_listLines (depth + 1), hchildren, isEmpty_listLines]
  rw [listLines_cons, listLines_cons, headLine, headLine, linesBelow, linesBelow, hargs, hempty,
    hchildren, htrees]

theorem operationText_congr (op : Operation) {trees trees' : List FieldTree}
    (h : listLines 1 trees = listLines 1 trees') :
    operationText op trees = operationText op trees' := by
  rw [operationText, operationText, h]

end FieldTree

namespace SelectionMap

open FieldTree

variable {m m' : SelectionMap} {p q : FieldPath} {levels levels' : Nat}

/-- The paths of the fields that are written. -/
def shownPaths (m : SelectionMap) : List FieldPath :=
  m.closure.filter fun q => q.operation?.isSome

theorem mem_shownPaths : q ∈ m.shownPaths ↔ ∃ op names, names ≠ [] ∧
    q = FieldPath.root op ++ names ∧ ∃ p ∈ m.paths, q <+: p := by
  rw [shownPaths, List.mem_filter, mem_closure, Option.isSome_iff_exists]
  constructor
  · rintro ⟨⟨hlength, hstored⟩, op, hop⟩
    obtain ⟨marker, name, names, rfl⟩ : ∃ marker name names, q = marker :: name :: names := by
      match q, hlength with
      | marker :: name :: names, _ => exact ⟨marker, name, names, rfl⟩
    obtain rfl := Operation.ofMarker?_eq_some.mp hop
    exact ⟨op, name :: names, by simp, rfl, hstored⟩
  · rintro ⟨op, names, hne, rfl, hstored⟩
    have hpos := List.length_pos_iff.mpr hne
    refine ⟨⟨?_, hstored⟩, op, Operation.ofMarker?_marker op⟩
    rw [List.length_append, FieldPath.root, List.length_singleton]
    omega

theorem sorted_shownPaths (m : SelectionMap) : m.shownPaths.Pairwise (· < ·) :=
  (SortedSet.sorted_ofList _).sublist List.filter_sublist

/-- The selections show the same paths, and the same texts of arguments at them. -/
structure ShowsAlike (m m' : SelectionMap) : Prop where
  paths : m.shownPaths = m'.shownPaths
  texts : ∀ q ∈ m.shownPaths, (m.argumentsAt q).text = (m'.argumentsAt q).text

/-- The fields that are written, each with the text of its arguments. -/
def shownFields (m : SelectionMap) : List (FieldPath × String) :=
  m.writtenOperations.flatMap fun o => shownOf (FieldPath.root o.1) o.2

theorem mem_shownOf_treesBelow {text : String} :
    (q, text) ∈ shownOf p (m.treesBelow levels p) ↔ ∃ names, names ≠ [] ∧ names.length ≤ levels ∧
      q = p ++ names ∧ (∃ r ∈ m.paths, q <+: r) ∧ text = (m.argumentsAt q).text := by
  induction levels generalizing p with
  | zero =>
    simp only [treesBelow, shownOf, List.not_mem_nil, false_iff]
    rintro ⟨names, hne, hlength, -⟩
    exact hne (List.length_eq_zero_iff.mp (by omega))
  | succ levels ih =>
    rw [treesBelow, mem_shownOf]
    simp only [List.mem_map, exists_exists_and_eq_and, shown, List.mem_cons, ih, Prod.mk.injEq]
    constructor
    · rintro ⟨name, hname, ⟨rfl, rfl⟩ | ⟨names, -, hlength, rfl, hstored, rfl⟩⟩
      · exact ⟨[name], by simp, by simp, rfl, mem_childNames.mp hname, rfl⟩
      · rw [FieldPath.child_append] at hstored ⊢
        exact ⟨name :: names, by simp, by simpa using hlength, rfl, hstored, rfl⟩
    · rintro ⟨names, hne, hlength, rfl, hstored, rfl⟩
      obtain ⟨name, names, rfl⟩ := List.exists_cons_of_ne_nil hne
      rw [← FieldPath.child_append] at hstored ⊢
      obtain ⟨r, hr, hstart⟩ := hstored
      refine ⟨name, mem_childNames.mpr ⟨r, hr, (List.prefix_append _ names).trans hstart⟩, ?_⟩
      cases names with
      | nil => exact Or.inl ⟨List.append_nil _, by rw [List.append_nil]⟩
      | cons next names =>
        exact Or.inr ⟨next :: names, by simp, by simpa using hlength, rfl, ⟨r, hr, hstart⟩, rfl⟩

theorem mem_shownFields {text : String} : (q, text) ∈ m.shownFields ↔
    q ∈ m.shownPaths ∧ text = (m.argumentsAt q).text := by
  rw [shownFields, List.mem_flatMap, mem_shownPaths]
  constructor
  · rintro ⟨⟨op, trees⟩, ho, hq⟩
    obtain ⟨rfl, -⟩ := mem_writtenOperations.mp ho
    obtain ⟨names, hne, -, rfl, hstored, rfl⟩ := mem_shownOf_treesBelow.mp hq
    exact ⟨⟨op, names, hne, rfl, hstored⟩, rfl⟩
  · rintro ⟨⟨op, names, hne, rfl, r, hr, hstart⟩, rfl⟩
    obtain ⟨name, names, rfl⟩ := List.exists_cons_of_ne_nil hne
    obtain ⟨more, rfl⟩ := hstart
    have hlength := length_le_depth hr
    rw [List.length_append, List.length_append] at hlength
    have hwritten : (op, m.operationTrees op) ∈ m.writtenOperations := by
      rw [List.append_assoc, List.cons_append] at hr
      exact mem_writtenOperations_of_stored hr
    exact ⟨_, hwritten, mem_shownOf_treesBelow.mpr ⟨name :: names, hne, by omega, rfl,
      ⟨_, hr, List.prefix_append _ _⟩, rfl⟩⟩

theorem showsAlike_of_shownFields (h : m.shownFields = m'.shownFields) : m.ShowsAlike m' := by
  have hmem : ∀ {m m' : SelectionMap}, m.shownFields = m'.shownFields → ∀ q ∈ m.shownPaths,
      q ∈ m'.shownPaths ∧ (m.argumentsAt q).text = (m'.argumentsAt q).text := by
    intro m m' h q hq
    have hfield : (q, (m.argumentsAt q).text) ∈ m.shownFields := mem_shownFields.mpr ⟨hq, rfl⟩
    rw [h] at hfield
    exact mem_shownFields.mp hfield
  refine ⟨?_, fun q hq => (hmem h q hq).2⟩
  exact SortedSet.eq_of_mem_iff m.sorted_shownPaths m'.sorted_shownPaths fun q =>
    ⟨fun hq => (hmem h q hq).1, fun hq => (hmem h.symm q hq).1⟩

theorem childNames_eq_nil (h : m.depth ≤ p.length) : m.childNames p = [] := by
  rw [List.eq_nil_iff_forall_not_mem]
  intro name hname
  obtain ⟨q, hq, hstart⟩ := mem_childNames.mp hname
  have hlength := hstart.length_le.trans (length_le_depth hq)
  rw [FieldPath.length_child] at hlength
  omega

theorem treesBelow_eq_nil (h : m.childNames p = []) (levels : Nat) :
    m.treesBelow levels p = [] := by
  cases levels with
  | zero => rfl
  | succ levels => rw [treesBelow, h, List.map_nil]

/-- Below an operation the names with which paths go on are those of the paths that are shown. -/
theorem ShowsAlike.childNames_eq (h : m.ShowsAlike m') (op : Operation) (names : List String) :
    m.childNames (FieldPath.root op ++ names) = m'.childNames (FieldPath.root op ++ names) := by
  have hshown : ∀ (m : SelectionMap) (name : String),
      name ∈ m.childNames (FieldPath.root op ++ names) ↔
        (FieldPath.root op ++ names).child name ∈ m.shownPaths := by
    intro m name
    rw [mem_childNames, mem_shownPaths]
    constructor
    · intro hstored
      exact ⟨op, names ++ [name], by simp, List.append_assoc _ _ _, hstored⟩
    · rintro ⟨-, -, -, -, hstored⟩
      exact hstored
  refine SortedSet.eq_of_mem_iff (SortedSet.sorted_ofList _) (SortedSet.sorted_ofList _) ?_
  intro name
  rw [hshown, hshown, h.paths]

/-- With levels enough on both sides, the same lines are written. -/
theorem ShowsAlike.listLines_eq (h : m.ShowsAlike m') {op : Operation} {names : List String}
    (hp : p = FieldPath.root op ++ names) (hlevels : m.depth ≤ p.length + levels)
    (hlevels' : m'.depth ≤ p.length + levels') (depth : Nat) :
    listLines depth (m.treesBelow levels p) = listLines depth (m'.treesBelow levels' p) := by
  induction levels generalizing p names levels' depth with
  | zero =>
    have hnames : m.childNames p = m'.childNames p := hp ▸ h.childNames_eq op names
    have hnil := childNames_eq_nil hlevels
    rw [treesBelow_eq_nil hnil, treesBelow_eq_nil (hnames.symm.trans hnil)]
  | succ levels ih =>
    have hnames : m.childNames p = m'.childNames p := hp ▸ h.childNames_eq op names
    cases levels' with
    | zero =>
      have hnil := childNames_eq_nil hlevels'
      rw [treesBelow_eq_nil hnil, treesBelow_eq_nil (hnames.trans hnil)]
    | succ levels' =>
      rw [treesBelow, treesBelow, ← hnames]
      have hall : ∀ name ∈ m.childNames p, p.child name ∈ m.shownPaths := by
        intro name hname
        refine mem_shownPaths.mpr ⟨op, names ++ [name], by simp, ?_, mem_childNames.mp hname⟩
        rw [hp, FieldPath.child, List.append_assoc]
      generalize m.childNames p = written at hall
      induction written with
      | nil => rfl
      | cons name written ihWritten =>
        obtain ⟨hname, hwritten⟩ := List.forall_mem_cons.mp hall
        refine listLines_cons_congr (h.texts _ hname) ?_ (ihWritten hwritten)
        have hchild : p.child name = FieldPath.root op ++ (names ++ [name]) := by
          rw [hp, FieldPath.child, List.append_assoc]
        refine ih hchild ?_ ?_ (depth + 1)
        · rw [FieldPath.length_child]
          omega
        · rw [FieldPath.length_child]
          omega

/-- What is shown settles the text, however things are named. -/
theorem ShowsAlike.text_eq (h : m.ShowsAlike m') : m.text = m'.text := by
  have hlines (op : Operation) :
      listLines 1 (m.operationTrees op) = listLines 1 (m'.operationTrees op) :=
    h.listLines_eq (List.append_nil _).symm (Nat.le_add_left _ _) (Nat.le_add_left _ _) 1
  have htexts : m.operationTexts = m'.operationTexts := by
    unfold operationTexts
    congr 1
    funext op
    have hempty : (m.operationTrees op).isEmpty = (m'.operationTrees op).isEmpty := by
      rw [← isEmpty_listLines 1, hlines, isEmpty_listLines]
    have htext := operationText_congr op (hlines op)
    generalize m.operationTrees op = trees at hempty htext
    generalize m'.operationTrees op = trees' at hempty htext
    cases trees <;> cases trees'
    · rfl
    · cases hempty
    · cases hempty
    · exact congrArg some htext
  rw [text, text, htexts]

/-- The text tells of the paths and the arguments at them. -/
theorem text_congr (hpaths : m'.paths = m.paths)
    (hargs : ∀ p, m'.argumentsAt p = m.argumentsAt p) : m'.text = m.text := by
  refine ShowsAlike.text_eq ⟨?_, fun q _ => by rw [hargs]⟩
  rw [shownPaths, shownPaths, closure, closure, hpaths]

/-- Fields, arguments and enum values have names that documents can write. -/
def IsNamed (m : SelectionMap) : Prop :=
  ∀ s ∈ m.entries, (∀ name ∈ s.path.fieldSegments, isName name = true) ∧
    ∀ args, s.args? = some args → args.isNamed = true

instance : Decidable m.IsNamed :=
  decidable_of_iff (∀ s ∈ m.entries, (∀ name ∈ s.path.fieldSegments, isName name = true) ∧
    s.args?.all Arguments.isNamed = true) (by simp [IsNamed, Option.all_eq_true])

theorem areNamed_of_mem (h : m.IsNamed) {o : Operation × List FieldTree}
    (ho : o ∈ m.writtenOperations) : areNamed o.2 = true :=
  allFieldsOf_of_mem rfl h ho

/-- The lines of the text, after an empty one. -/
def textLines (m : SelectionMap) : List String :=
  if m.writtenOperations.isEmpty then ["", "query \x7b", "  ", "\x7d"]
  else m.writtenOperations.flatMap operationLines

theorem inLines_textLines (m : SelectionMap) :
    inLines m.textLines = '\n' :: '\n' :: m.text.toList := by
  unfold textLines
  split
  · rename_i hempty
    rw [text_eq_emptyText (List.isEmpty_iff.mp hempty)]
    decide
  · rename_i hempty
    rw [toList_text (mt List.isEmpty_iff.mpr hempty)]
    generalize m.writtenOperations = operations at hempty
    cases operations with
    | nil => exact absurd rfl hempty
    | cons o operations =>
      have hlines : ∀ operations : List (Operation × List FieldTree),
          inLines (operations.flatMap operationLines) = operations.flatMap fun o =>
            ['\n', '\n'] ++ (operationText o.1 o.2).toList := by
        intro operations
        induction operations with
        | nil => rfl
        | cons o operations ih =>
          rw [List.flatMap_cons, List.flatMap_cons, inLines_append, ih, inLines_operationLines]
          rfl
      rw [hlines, List.flatMap_cons, List.map_cons, intercalate_cons, List.flatMap_map]
      rfl

theorem newline_notMem_textLines (h : m.IsNamed) : ∀ l ∈ m.textLines, '\n' ∉ l.toList := by
  unfold textLines
  split
  · decide
  · intro l hl
    obtain ⟨o, ho, hl⟩ := List.mem_flatMap.mp hl
    exact newline_notMem_operationLines (areNamed_of_mem h ho) l hl

/-- No field is written as a line of blanks. -/
theorem operationLines_ne_emptyLines (h : m.IsNamed) (hne : m.writtenOperations.isEmpty = false) :
    m.writtenOperations.flatMap operationLines ≠ ["", "query \x7b", "  ", "\x7d"] := by
  intro hlines
  obtain ⟨⟨op, trees⟩, operations, hcons⟩ :=
    List.exists_cons_of_ne_nil (List.isEmpty_eq_false_iff.mp hne)
  have ho : (op, trees) ∈ m.writtenOperations := by simp [hcons]
  obtain ⟨⟨name, args, children⟩, trees, rfl⟩ :=
    List.exists_cons_of_ne_nil (mem_writtenOperations.mp ho).2
  obtain ⟨hname, -⟩ := areNamed_cons.mp (areNamed_of_mem h ho)
  obtain ⟨c, cs, hcs, -⟩ := Token.isNameText_iff.mp hname
  rw [hcons] at hlines
  simp only [List.flatMap_cons, operationLines, listLines_cons, List.cons_append,
    List.cons.injEq] at hlines
  have hhead := congrArg String.toList hlines.2.2.1
  simp [headLine, indentation, hcs] at hhead

theorem shownFields_eq_of_text (h : m.IsNamed) (h' : m'.IsNamed) (htext : m.text = m'.text) :
    m.shownFields = m'.shownFields := by
  have hlines : m.textLines = m'.textLines := by
    apply inLines_inj (newline_notMem_textLines h) (newline_notMem_textLines h')
    rw [inLines_textLines, inLines_textLines, htext]
  unfold textLines at hlines
  cases hempty : m.writtenOperations.isEmpty <;> cases hempty' : m'.writtenOperations.isEmpty <;>
    simp only [hempty, hempty', if_pos, if_neg Bool.false_ne_true] at hlines
  · exact shown_eq_of_operationLines (fun _ ho => areNamed_of_mem h ho)
      (fun _ ho => areNamed_of_mem h' ho) hlines
  · exact absurd hlines (operationLines_ne_emptyLines h hempty)
  · exact absurd hlines.symm (operationLines_ne_emptyLines h' hempty')
  · rw [shownFields, shownFields, List.isEmpty_iff.mp hempty, List.isEmpty_iff.mp hempty']

variable {s t : SelectedField}

theorem eq_of_get? (h : ∀ p, m.get? p = m'.get? p) : m = m' := by
  have hanti : Std.Antisymm fun s t : SelectedField => s.path < t.path :=
    ⟨fun s t hst hts => absurd hts (asymm_of (· < ·) hst)⟩
  refine eq_of_entries (m.sorted.eq_of_mem_iff m'.sorted fun s => ?_)
  have hstored : ∀ m : SelectionMap, s ∈ m.entries ↔ m.get? s.path = some s := fun m =>
    (and_iff_left rfl).symm.trans get?_eq_some_iff.symm
  rw [hstored, hstored, h]

theorem get?_insert_of_ne (hne : p ≠ s.path) : (m.insert s).1.get? p = m.get? p := by
  apply Option.ext
  intro t
  rw [get?_eq_some_iff, get?_eq_some_iff]
  constructor
  · rintro ⟨ht, rfl⟩
    rcases mem_entries_insert ht with rfl | ht
    · exact absurd rfl hne
    · exact ⟨ht, rfl⟩
  · rintro ⟨ht, rfl⟩
    exact ⟨mem_insert_of_mem ht hne, rfl⟩

/-- What is stored at the path already stays if it is the same. -/
theorem get?_insert_self (m : SelectionMap) (s : SelectedField) :
    (m.insert s).1.get? s.path = some (((m.get? s.path).filter (·.same s)).getD s) := by
  have hnew : (m.overwritten s).get? s.path = some s :=
    get?_eq_some_iff.mpr ⟨mem_overwritten m s, rfl⟩
  rw [insert_eq]
  cases hget : m.get? s.path with
  | none => exact hnew
  | some t => cases hsame : t.same s <;> simp [hsame, hnew, hget, Option.filter]

theorem insert_comm (hne : s.path ≠ t.path) :
    ((m.insert s).1.insert t).1 = ((m.insert t).1.insert s).1 := by
  refine eq_of_get? fun p => ?_
  by_cases hs : p = s.path
  · subst hs
    rw [get?_insert_of_ne hne, get?_insert_self, get?_insert_self, get?_insert_of_ne hne]
  · by_cases ht : p = t.path
    · subst ht
      rw [get?_insert_of_ne hs, get?_insert_self, get?_insert_self, get?_insert_of_ne hs]
    · rw [get?_insert_of_ne ht, get?_insert_of_ne hs, get?_insert_of_ne hs, get?_insert_of_ne ht]

def insertAll (m : SelectionMap) (selections : List SelectedField) : SelectionMap :=
  selections.foldl (fun m s => (m.insert s).1) m

/-- Fields with different paths can be stored in any order. -/
theorem insertAll_perm {selections selections' : List SelectedField}
    (hperm : selections.Perm selections') (hpaths : (selections.map (·.path)).Nodup) :
    m.insertAll selections = m.insertAll selections' := by
  refine hperm.foldl_eq' (fun s hs t ht m => ?_) m
  by_cases heq : s = t
  · rw [heq]
  · exact insert_comm fun hpath => heq (List.inj_on_of_nodup_map hpaths hs ht hpath)

/-- The same paths with the same arguments, but with other fields of the schema. -/
def withFields (m : SelectionMap) (field : FieldPath → Field) : SelectionMap :=
  ⟨m.entries.map fun s => { s with field := field s.path }, List.pairwise_map.mpr m.sorted⟩

theorem get?_withFields (m : SelectionMap) (field : FieldPath → Field) (p : FieldPath) :
    (m.withFields field).get? p = (m.get? p).map fun s => { s with field := field s.path } :=
  List.find?_map ..

theorem text_withFields (m : SelectionMap) (field : FieldPath → Field) :
    (m.withFields field).text = m.text := by
  apply text_congr
  · rw [paths, withFields, List.map_map]
    rfl
  · intro p
    rw [argumentsAt, argumentsAt, get?_withFields]
    cases m.get? p <;> rfl

theorem argumentsAt_insert_of_ne (hne : p ≠ s.path) :
    (m.insert s).1.argumentsAt p = m.argumentsAt p := by
  rw [argumentsAt, argumentsAt, get?_insert_of_ne hne]

/-- Storing a field changes nothing that is shown if its path is not shown or is shown already, and
then without arguments before and after. -/
theorem text_insert (hpaths : ∀ q, q ∈ (m.insert s).1.shownPaths ↔ q ∈ m.shownPaths)
    (hargs : s.path ∈ m.shownPaths →
      (m.insert s).1.argumentsAt s.path = m.argumentsAt s.path) :
    (m.insert s).1.text = m.text := by
  refine ShowsAlike.text_eq ⟨?_, fun q hq => ?_⟩
  · exact SortedSet.eq_of_mem_iff (sorted_shownPaths _) (sorted_shownPaths _) hpaths
  · by_cases heq : q = s.path
    · subst heq
      rw [hargs ((hpaths _).mp hq)]
    · rw [argumentsAt_insert_of_ne heq]

/-- A field on the way to a selected one, stored without arguments. -/
theorem text_insert_of_mem_closure (hclosure : s.path ∈ m.closure) (hnew : s.path ∉ m.paths)
    (hargs : s.args?.getD [] = []) : (m.insert s).1.text = m.text := by
  have hnone : m.get? s.path = none := by
    rw [Option.eq_none_iff_forall_ne_some]
    intro t ht
    obtain ⟨ht, hpath⟩ := get?_eq_some_iff.mp ht
    exact hnew (mem_paths.mpr ⟨t, ht, hpath⟩)
  obtain ⟨-, r, hr, hstart⟩ := mem_closure.mp hclosure
  apply text_insert
  · intro q
    have hstored : (∃ p ∈ (m.insert s).1.paths, q <+: p) ↔ ∃ p ∈ m.paths, q <+: p := by
      simp only [mem_paths_insert]
      constructor
      · rintro ⟨p, rfl | hp, hq⟩
        · exact ⟨r, hr, hq.trans hstart⟩
        · exact ⟨p, hp, hq⟩
      · rintro ⟨p, hp, hq⟩
        exact ⟨p, Or.inr hp, hq⟩
    simp only [mem_shownPaths, hstored]
  · intro _
    rw [argumentsAt, get?_insert_self, argumentsAt, hnone]
    exact hargs

/-- A field at a root, or below none. -/
theorem text_insert_of_not_shown (h : s.path.length < 2 ∨ s.path.operation? = none) :
    (m.insert s).1.text = m.text := by
  have hnot : ∀ q op names, names ≠ [] → q = FieldPath.root op ++ names → ¬ q <+: s.path := by
    rintro q op names hne rfl hstart
    obtain ⟨more, hpath⟩ := hstart
    rw [← hpath] at h
    rcases h with hlength | hnone
    · have hpos := List.length_pos_iff.mpr hne
      simp only [FieldPath.root, List.length_append, List.length_singleton] at hlength
      omega
    · exact absurd ((Operation.ofMarker?_marker op).symm.trans hnone) (by simp)
  apply text_insert
  · intro q
    rw [mem_shownPaths, mem_shownPaths]
    refine exists_congr fun op => exists_congr fun names => and_congr_right fun hne =>
      and_congr_right fun hq => ?_
    simp only [mem_paths_insert]
    constructor
    · rintro ⟨p, rfl | hp, hstart⟩
      · exact absurd hstart (hnot q op names hne hq)
      · exact ⟨p, hp, hstart⟩
    · rintro ⟨p, hp, hstart⟩
      exact ⟨p, Or.inr hp, hstart⟩
  · intro hshown
    obtain ⟨op, names, hne, hq, -⟩ := mem_shownPaths.mp hshown
    exact absurd List.prefix_rfl (hnot _ op names hne hq)

/-- Two selections in which everything is named have the same text exactly if they show the same
paths with the same texts of arguments. In particular the order in which fields with different paths
are stored, the fields of the schema in them, fields on the way to others that are stored without
arguments and what is stored at a root or below none make no difference. -/
theorem text_canonical (m m' : SelectionMap) :
    (m.IsNamed → m'.IsNamed → (m.text = m'.text ↔ m.ShowsAlike m')) ∧
      (∀ selections selections' : List SelectedField, selections.Perm selections' →
        (selections.map (·.path)).Nodup →
          (m.insertAll selections).text = (m.insertAll selections').text) ∧
      (∀ field : FieldPath → Field, (m.withFields field).text = m.text) ∧
      (∀ s : SelectedField, s.path ∈ m.closure → s.path ∉ m.paths → s.args?.getD [] = [] →
        (m.insert s).1.text = m.text) ∧
      ∀ s : SelectedField, (s.path.length < 2 ∨ s.path.operation? = none) →
        (m.insert s).1.text = m.text := by
  refine ⟨fun h h' => ⟨?_, ShowsAlike.text_eq⟩, ?_, text_withFields m, ?_, ?_⟩
  · intro htext
    exact showsAlike_of_shownFields (shownFields_eq_of_text h h' htext)
  · intro selections selections' hperm hpaths
    rw [insertAll_perm hperm hpaths]
  · exact fun s => text_insert_of_mem_closure
  · exact fun s => text_insert_of_not_shown

/-- A user's name is written in the same way whether or not the user is stored as well, before or
after another field, and whether or not the root is. Arguments of the user make a difference. -/
theorem text_canonical_user_name :
    let m := single ["Query", "user", "name"] default []
    let user : SelectedField := ⟨["Query", "user"], default, none⟩
    let users : SelectedField := ⟨["Query", "users"], default, none⟩
    m.text ≠ (m.insert { user with args? := some [("id", .int 1)] }).1.text ∧
      (m.insertAll [user, users]).text = (m.insertAll [users, user]).text ∧
      (m.insert user).1.text = m.text ∧
      (m.insert { user with path := ["Query"] }).1.text = m.text := by
  intro m user users
  obtain ⟨hiff, hperm, -, habove, helse⟩ :=
    text_canonical m (m.insert { user with args? := some [("id", .int 1)] }).1
  refine ⟨fun htext => ?_, ?_, ?_, ?_⟩
  · have halike := (hiff (by decide +kernel) (by decide +kernel)).mp htext
    have htexts := halike.texts ["Query", "user"] (by decide +kernel)
    revert htexts
    decide +kernel
  · exact hperm [user, users] [users, user] (.swap users user []) (by decide)
  · exact habove user (by decide +kernel) (by decide) rfl
  · exact helse { user with path := ["Query"] } (Or.inl (by decide))

end SelectionMap

end QueryPicker
