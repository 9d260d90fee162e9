import Mathlib
import QueryPicker.Proofs.BracketDepth
import QueryPicker.Proofs.GrammarRefusal
import QueryPicker.Proofs.SelectedPaths

/-!
# Selections through their text

Reading the text of a selection gives the closure of the selection, whatever arguments the selected
fields carry, as long as every number in them is readable. One number that is not makes the whole
text unreadable.
-/

namespace QueryPicker

open Located

namespace QueryText

theorem not_isBlank_of_isNameStart {c : Char} (h : Token.isNameStart c = true) :
    Text.isBlank c = false := by
  have hrange : (65 ≤ c.toNat ∧ c.toNat ≤ 90) ∨ (97 ≤ c.toNat ∧ c.toNat ≤ 122) ∨ c.toNat = 95 := by
    simp only [Token.isNameStart, Char.isAlpha, Char.isUpper, Char.isLower, Bool.or_eq_true,
      Bool.and_eq_true, decide_eq_true_eq, beq_iff_eq, UInt32.le_iff_toNat_le, ge_iff_le] at h
    rcases h with (h | h) | rfl
    · exact Or.inl h
    · exact Or.inr (Or.inl h)
    · exact Or.inr (Or.inr rfl)
  unfold Text.isBlank
  generalize c.toNat = n at hrange
  simp only [Bool.or_eq_false_iff, Bool.and_eq_false_iff, decide_eq_false_iff_not,
    beq_eq_false_iff_ne]
  omega

theorem areSkeletons_eq_false {op : Operation} {c : Char} (hc : c ≠ '\x7d') (rest : List Char) :
    areSkeletons (op.keyword.toList ++ '\x7b' :: c :: rest) = false := by
  have hafter : afterSkeleton? (op.keyword.toList ++ '\x7b' :: c :: rest) = none := by
    rw [afterSkeleton?, Option.map_eq_none_iff, List.find?_eq_none]
    intro skeleton hskeleton
    have hc' : ('\x7d' == c) = false := by simpa using hc.symm
    cases op <;>
      · simp only [skeletons, List.mem_cons, List.not_mem_nil, or_false] at hskeleton
        rcases hskeleton with rfl | rfl | rfl | rfl <;>
          simp [Operation.keyword, List.isPrefixOf, hc']
  cases op <;>
    · rw [areSkeletons.eq_def]
      split
      · rename_i heq
        simp [Operation.keyword] at heq
      · rename_i heq
        rw [heq] at hafter
        split
        · rename_i hsome
          rw [hafter] at hsome
          cases hsome
        · rfl

/-- A text in which a field follows the opening brace of an operation is not taken for one that
selects nothing. -/
theorem isEmptySkeleton_of_field {text : String} {op : Operation} {c : Char} {after : List Char}
    (hc : Token.isNameStart c = true)
    (htext : text.toList =
      op.keyword.toList ++ ([' ', '\x7b', '\n', ' ', ' '] ++ c :: after)) :
    isEmptySkeleton text = false := by
  have hbrace : c ≠ '\x7d' := by
    rintro rfl
    exact absurd hc (by decide)
  have hfilter : text.toList.filter (fun c => !Text.isBlank c) =
      op.keyword.toList ++ '\x7b' :: c :: after.filter fun c => !Text.isBlank c := by
    have hkeyword : op.keyword.toList.filter (fun c => !Text.isBlank c) = op.keyword.toList := by
      cases op <;> decide
    have hopening : [' ', '\x7b', '\n', ' ', ' '].filter (fun c => !Text.isBlank c) = ['\x7b'] := by
      decide
    have hfirst : (!Text.isBlank c) = true := by
      rw [not_isBlank_of_isNameStart hc]
      rfl
    rw [htext, List.filter_append, List.filter_append, hkeyword, hopening,
      List.filter_cons, if_pos hfirst]
    rfl
  rw [isEmptySkeleton, hfilter]
  exact areSkeletons_eq_false hbrace _

end QueryText

namespace FieldTree

/-- Up to the first letter of its first field the text of an operation is fixed. -/
theorem exists_first_field (op : Operation) {trees : List FieldTree} (hne : trees ≠ [])
    (h : areWellFormed trees = true) :
    ∃ c after, Token.isNameStart c = true ∧ (operationText op trees).toList =
      op.keyword.toList ++ ([' ', '\x7b', '\n', ' ', ' '] ++ c :: after) := by
  obtain ⟨⟨name, args, children⟩, more, rfl⟩ := List.exists_cons_of_ne_nil hne
  obtain ⟨hname, -⟩ := isWellFormed_node.mp (areWellFormed_cons.mp h).1
  obtain ⟨c, cs, hcs, hc, -⟩ := Token.isNameText_iff.mp hname
  obtain ⟨rest, hrest⟩ := inLines_lines name args children 1
  rw [toList_operationText, listLines, inLines_append, inLines_append, hrest, hcs]
  refine ⟨c, ?_, hc, ?_⟩
  rotate_left
  · simp only [List.append_assoc, List.cons_append, indentation, String.toList_ofList]
    rfl

/-- A text that is read as the tokens of operations is parsed as their document. -/
theorem parse_of_scans {text : String} {operations : Operations} (hne : operations ≠ [])
    (h : ∀ o ∈ operations, areWellFormed o.2 = true ∧ o.2 ≠ [])
    (hscans : Scans text.toList (operations.flatMap fun o => operationTokens o.1 o.2) true)
    {depth : Nat} (hdepth : depth ≤ Token.bracketBudget)
    (hbalanced : Token.Balanced (operations.flatMap fun o => operationTokens o.1 o.2) depth) :
    Document.parse text = .ok (document operations) := by
  have hreads := hscans.spells rfl Token.ends_nil .finish
  rw [List.append_nil, List.append_nil] at hreads
  have hscan := scan_of_reads hreads Token.bracketBudget .start (by rw [hbalanced _ hdepth]; rfl)
  obtain ⟨pos, hspans⟩ := Document.Spans.of_map_lexeme hscan
  exact ofTokens_of_spans h hne hspans

end FieldTree

namespace SelectionMap

variable {m : SelectionMap} {s : Schema}

/-- Fields, arguments and enum values have names that documents can write, and the arguments hold
what arguments can hold. -/
def IsWellFormed (m : SelectionMap) : Prop :=
  ∀ sel ∈ m.entries, (∀ name ∈ sel.path.fieldSegments, isName name = true) ∧
    ∀ args, sel.args? = some args → args.isWellFormed = true

/-- All numbers among the arguments that are written are readable. -/
def IsReadable (m : SelectionMap) : Prop :=
  ∀ sel ∈ m.entries, 2 ≤ sel.path.length → ∀ args, sel.args? = some args → args.isReadable = true

/-- How deep brackets nest in the text. -/
def bracketDepth (m : SelectionMap) : Nat :=
  m.writtenOperations.foldr (fun o depth => max (FieldTree.depthOfAll o.2 + 1) depth) 0

def tokens (m : SelectionMap) : List Token :=
  m.writtenOperations.flatMap fun o => FieldTree.operationTokens o.1 o.2

theorem argumentsAt_of_mem {sel : SelectedField} (h : sel ∈ m.entries) :
    m.argumentsAt sel.path = sel.args?.getD [] := by
  rw [argumentsAt, get?_eq_some_iff.mpr ⟨h, rfl⟩, Option.bind_some]

/-- What is written at a path, if anything, are arguments of a field selected there. -/
theorem argumentsAt_cases (p : FieldPath) : m.argumentsAt p = [] ∨
    ∃ sel ∈ m.entries, sel.path = p ∧ ∃ args, sel.args? = some args ∧ m.argumentsAt p = args := by
  cases hget : m.get? p with
  | none => exact Or.inl (by rw [argumentsAt, hget]; rfl)
  | some sel =>
    obtain ⟨hsel, rfl⟩ := get?_eq_some_iff.mp hget
    rw [argumentsAt_of_mem hsel]
    cases hargs : sel.args? with
    | none => exact Or.inl rfl
    | some args => exact Or.inr ⟨sel, hsel, rfl, args, hargs, rfl⟩

/-- What holds of the names and of the arguments of all selected fields holds of all
written ones. -/
theorem allFieldsOf_of_mem {okName : String → Bool} {okArgs : Arguments → Bool}
    (hnil : okArgs [] = true)
    (h : ∀ sel ∈ m.entries, (∀ name ∈ sel.path.fieldSegments, okName name = true) ∧
      ∀ args, sel.args? = some args → okArgs args = true)
    {op : Operation} {trees : List FieldTree} (ho : (op, trees) ∈ m.writtenOperations) :
    FieldTree.allFieldsOf (fun name args => okName name && okArgs args) trees = true := by
  obtain ⟨rfl, -⟩ := mem_writtenOperations.mp ho
  apply allFieldsOf_treesBelow.mpr
  intro q name hroot _ hstored
  obtain ⟨more, rfl⟩ := hroot
  obtain ⟨p, hp, rest, rfl⟩ := hstored
  obtain ⟨sel, hsel, hpath⟩ := mem_paths.mp hp
  rw [Bool.and_eq_true]
  constructor
  · apply (h sel hsel).1 name
    simp [hpath, FieldPath.root, FieldPath.child, FieldPath.fieldSegments]
  · rcases argumentsAt_cases (m := m) ((FieldPath.root op ++ more).child name) with hno | hargs
    · rw [hno]
      exact hnil
    · obtain ⟨sel, hsel, -, args, hargs, hat⟩ := hargs
      rw [hat]
      exact (h sel hsel).2 args hargs

theorem areWellFormed_of_mem (h : m.IsWellFormed) {op : Operation} {trees : List FieldTree}
    (ho : (op, trees) ∈ m.writtenOperations) : FieldTree.areWellFormed trees = true :=
  allFieldsOf_of_mem rfl h ho

theorem isReadable_of_areReadable (hselectable : ∀ p ∈ m.paths, s.Selectable p)
    (h : ∀ o ∈ m.writtenOperations, FieldTree.areReadable o.2 = true) : m.IsReadable := by
  intro sel hsel hlength args hargs
  have hp : sel.path ∈ m.paths := mem_paths.mpr ⟨sel, hsel, rfl⟩
  obtain ⟨op, root, names, -, hpath, -⟩ := hselectable _ hp
  have hne : names ≠ [] := by
    rintro rfl
    rw [hpath] at hlength
    simp at hlength
  have hwritten : (op, m.operationTrees op) ∈ m.writtenOperations := by
    obtain ⟨first, rest, rfl⟩ := List.exists_cons_of_ne_nil hne
    exact mem_writtenOperations_of_stored (hpath ▸ hp)
  obtain ⟨before, name, rfl⟩ := (List.eq_nil_or_concat names).resolve_left hne
  have hchild : sel.path = FieldPath.child (FieldPath.root op ++ before) name := by
    simp [hpath, FieldPath.root, FieldPath.child]
  have hdepth : (FieldPath.root op ++ before).length < (FieldPath.root op).length + m.depth := by
    have hle := length_le_depth hp
    rw [hchild, FieldPath.length_child] at hle
    omega
  have hstored : ∃ p ∈ m.paths, FieldPath.child (FieldPath.root op ++ before) name <+: p :=
    ⟨sel.path, hp, by rw [hchild]⟩
  have hfield := allFieldsOf_treesBelow.mp (h _ hwritten) (FieldPath.root op ++ before) name
    (List.prefix_append _ _) hdepth hstored
  rw [← hchild, argumentsAt_of_mem hsel, hargs] at hfield
  exact hfield

theorem areReadable_of_isReadable (h : m.IsReadable) :
    ∀ o ∈ m.writtenOperations, FieldTree.areReadable o.2 = true := by
  rintro ⟨op, trees⟩ ho
  obtain ⟨rfl, -⟩ := mem_writtenOperations.mp ho
  apply allFieldsOf_treesBelow.mpr
  intro q name hroot _ _
  rcases argumentsAt_cases (m := m) (FieldPath.child q name) with hnil | hargs
  · rw [hnil]
    rfl
  · obtain ⟨sel, hsel, hpath, args, hargs, hat⟩ := hargs
    have hlength : 2 ≤ sel.path.length := by
      have hle := hroot.length_le
      rw [hpath, FieldPath.length_child]
      simp [FieldPath.root] at hle
      omega
    rw [hat]
    exact h sel hsel hlength args hargs

/-- The numbers in the text are those of the selected fields. -/
theorem areReadable_iff (hselectable : ∀ p ∈ m.paths, s.Selectable p) :
    (m.writtenOperations.all fun o => FieldTree.areReadable o.2) = true ↔ m.IsReadable := by
  rw [List.all_eq_true]
  constructor
  · exact isReadable_of_areReadable hselectable
  · exact areReadable_of_isReadable

theorem balanced_tokens (m : SelectionMap) : Token.Balanced m.tokens m.bracketDepth := by
  unfold tokens bracketDepth
  induction m.writtenOperations with
  | nil => exact .nil
  | cons o operations ih => exact (FieldTree.balanced_operationTokens o.1 o.2).append ih

theorem toList_text (hne : m.writtenOperations ≠ []) : m.text.toList =
    ['\n', '\n'].intercalate
      (m.writtenOperations.map fun o => (FieldTree.operationText o.1 o.2).toList) := by
  have htext : m.text = "\n\n".intercalate m.operationTexts := by
    rw [text]
    split
    · rename_i hnil
      rw [operationTexts_eq, List.map_eq_nil_iff] at hnil
      exact absurd hnil hne
    · rfl
  rw [htext, String.toList_intercalate, operationTexts_eq, List.map_map]
  rfl

theorem scans_text (h : m.IsWellFormed) (hne : m.writtenOperations ≠ []) :
    Scans m.text.toList m.tokens
      (m.writtenOperations.all fun o => FieldTree.areReadable o.2) := by
  rw [toList_text hne]
  apply Scans.intercalate (by decide) (by decide)
  intro o ho
  exact FieldTree.scans_operationText o.1 (areWellFormed_of_mem h ho)

theorem isEmptySkeleton_text (h : m.IsWellFormed) (hne : m.writtenOperations ≠ []) :
    QueryText.isEmptySkeleton m.text = false := by
  obtain ⟨⟨op, trees⟩, operations, hcons⟩ := List.exists_cons_of_ne_nil hne
  have ho : (op, trees) ∈ m.writtenOperations := by simp [hcons]
  obtain ⟨c, after, hc, hfirst⟩ := FieldTree.exists_first_field op
    (mem_writtenOperations.mp ho).2 (areWellFormed_of_mem h ho)
  have htext : ∃ rest, m.text.toList = (FieldTree.operationText op trees).toList ++ rest := by
    rw [toList_text hne, hcons, List.map_cons, intercalate_cons]
    exact ⟨_, rfl⟩
  obtain ⟨rest, hrest⟩ := htext
  rw [hfirst, List.append_assoc, List.append_assoc] at hrest
  exact QueryText.isEmptySkeleton_of_field hc hrest

theorem closure_eq_nil (hselectable : ∀ p ∈ m.paths, s.Selectable p)
    (hnil : m.writtenOperations = []) : m.closure = [] := by
  rw [← paths_document hselectable, hnil]
  rfl

theorem text_eq_emptyText (hnil : m.writtenOperations = []) : m.text = emptyText := by
  rw [text, operationTexts_eq, hnil]
  rfl

/-- The text is read as the document of the written fields. -/
theorem parse_text (h : m.IsWellFormed) (hne : m.writtenOperations ≠ [])
    (hdepth : m.bracketDepth ≤ Token.bracketBudget)
    (hreadable : (m.writtenOperations.all fun o => FieldTree.areReadable o.2) = true) :
    Document.parse m.text = .ok (FieldTree.document m.writtenOperations) := by
  have hscans := scans_text h hne
  rw [hreadable] at hscans
  exact FieldTree.parse_of_scans hne
    (fun o ho => ⟨areWellFormed_of_mem h ho, (mem_writtenOperations.mp ho).2⟩) hscans hdepth
    m.balanced_tokens

theorem parse_text_ne_ok (h : m.IsWellFormed) (hne : m.writtenOperations ≠ [])
    (hreadable : (m.writtenOperations.all fun o => FieldTree.areReadable o.2) = false)
    (doc : Document) : Document.parse m.text ≠ .ok doc := by
  obtain ⟨ts, hreads⟩ := (scans_text h hne).breaks hreadable Token.ends_nil
  rw [List.append_nil] at hreads
  obtain ⟨found, pos, hscan⟩ := scan_of_reads_junk hreads rfl Token.bracketBudget .start
  rw [Document.parse, ofText, hscan]
  exact Document.ofTokens_ne_ok_of_junk

/-- Whatever arguments the selected fields carry, the text gives back the closure of the selection,
if all numbers in it are readable. -/
theorem paths_text_of_isReadable (hselectable : ∀ p ∈ m.paths, s.Selectable p) (h : m.IsWellFormed)
    (hdepth : m.bracketDepth ≤ Token.bracketBudget) (hreadable : m.IsReadable) :
    QueryText.paths s m.text = .ok m.closure := by
  by_cases hne : m.writtenOperations = []
  · rw [closure_eq_nil hselectable hne, text_eq_emptyText hne, QueryText.paths,
      if_pos (by decide +kernel)]
  · have hparse := parse_text h hne hdepth ((areReadable_iff hselectable).mpr hreadable)
    rw [QueryText.paths, isEmptySkeleton_text h hne, if_neg Bool.false_ne_true, hparse]
    exact congrArg Except.ok (paths_document hselectable)

theorem isReadable_of_paths_text (hselectable : ∀ p ∈ m.paths, s.Selectable p) (h : m.IsWellFormed)
    {ps : List FieldPath} (hpaths : QueryText.paths s m.text = .ok ps) : m.IsReadable := by
  rw [← areReadable_iff hselectable]
  by_contra hunreadable
  have hne : m.writtenOperations ≠ [] := by
    intro hnil
    rw [hnil] at hunreadable
    exact hunreadable rfl
  rw [QueryText.paths, isEmptySkeleton_text h hne, if_neg Bool.false_ne_true] at hpaths
  split at hpaths
  · rename_i doc hparse
    exact parse_text_ne_ok h hne (Bool.eq_false_iff.mpr hunreadable) doc hparse
  · cases hpaths

/-- The text of a selection of paths along the schema is read, and as the closure of the selection,
exactly if no number among the arguments is written with an exponent that starts with a nine. -/
theorem paths_text_eq_closure_iff (s : Schema) (m : SelectionMap)
    (hselectable : ∀ p ∈ m.paths, s.Selectable p) (hwellFormed : m.IsWellFormed)
    (hdepth : m.bracketDepth ≤ Token.bracketBudget) :
    QueryText.paths s m.text = .ok m.closure ↔ m.IsReadable :=
  ⟨isReadable_of_paths_text hselectable hwellFormed,
    paths_text_of_isReadable hselectable hwellFormed hdepth⟩

/-- Users with friends, who are users. -/
def friends : Schema :=
  Schema.ofTypes
    [.object "Query" [{ name := "user", type := .named .object "User" }],
      .object "User"
        [{ name := "friend", type := .nonNull (.list (.named .object "User")) },
          { name := "name", type := .named .scalar "String" }]]
    "Query" none none

/-- One path, with arguments. -/
def single (p : FieldPath) (f : Field) (args : Arguments) : SelectionMap :=
  (empty.insert ⟨p, f, some args⟩).1

theorem entries_single (p : FieldPath) (f : Field) (args : Arguments) :
    (single p f args).entries = [⟨p, f, some args⟩] := rfl

theorem selectable_user_name : friends.Selectable ["Query", "user", "name"] :=
  ⟨.query, _, ["user", "name"], rfl, rfl, _, rfl, Or.inr ⟨_, rfl, _, rfl, Or.inl rfl⟩⟩

theorem selectable_user_friend_name : friends.Selectable ["Query", "user", "friend", "name"] :=
  ⟨.query, _, ["user", "friend", "name"], rfl, rfl, _, rfl,
    Or.inr ⟨_, rfl, _, rfl, Or.inr ⟨_, rfl, _, rfl, Or.inl rfl⟩⟩⟩

theorem selectable_single {p : FieldPath} (h : s.Selectable p) (f : Field) (args : Arguments) :
    ∀ q ∈ (single p f args).paths, s.Selectable q := by
  intro q hq
  obtain rfl : q = p := by simpa [paths, entries_single] using hq
  exact h

theorem isWellFormed_single {p : FieldPath} {args : Arguments} (f : Field)
    (hp : (p.fieldSegments.all isName) = true) (hargs : args.isWellFormed = true) :
    (single p f args).IsWellFormed := by
  intro sel hsel
  obtain rfl : sel = ⟨p, f, some args⟩ := by simpa [entries_single] using hsel
  refine ⟨fun name hname => List.all_eq_true.mp hp name hname, ?_⟩
  rintro args' ⟨⟩
  exact hargs

theorem isReadable_single_iff {p : FieldPath} {f : Field} {args : Arguments} (hp : 2 ≤ p.length) :
    (single p f args).IsReadable ↔ args.isReadable = true := by
  constructor
  · intro h
    exact h ⟨p, f, some args⟩ (by simp [entries_single]) hp args rfl
  · intro h sel hsel _ args' hargs
    obtain rfl : sel = ⟨p, f, some args⟩ := by simpa [entries_single] using hsel
    cases hargs
    exact h

theorem paths_text_eq_closure_user_name :
    QueryText.paths friends (single ["Query", "user", "name"] default
        [("in", .list [.string "a)\n", .float (.ofDecimal false 15 20)])]).text =
      .ok [["Query", "user"], ["Query", "user", "name"]] :=
  (paths_text_eq_closure_iff friends _ (selectable_single selectable_user_name _ _)
    (isWellFormed_single _ (by decide) (by decide +kernel)) (by decide +kernel)).mpr
    ((isReadable_single_iff (by decide)).mpr (by decide +kernel))

/-- A number of which the exponent starts with a nine makes the text unreadable, though the selected
path and the arguments are as they should be. -/
theorem paths_text_ne_closure_user_name :
    let m := single ["Query", "user", "name"] default [("in", .float (.ofDecimal false 1 90))]
    (∀ p ∈ m.paths, friends.Selectable p) ∧ m.IsWellFormed ∧
      m.bracketDepth ≤ Token.bracketBudget ∧ QueryText.paths friends m.text ≠ .ok m.closure := by
  have hselectable := selectable_single selectable_user_name default
    [("in", .float (.ofDecimal false 1 90))]
  have hwellFormed : (single ["Query", "user", "name"] default
      [("in", .float (.ofDecimal false 1 90))]).IsWellFormed :=
    isWellFormed_single _ (by decide) (by decide +kernel)
  refine ⟨hselectable, hwellFormed, by decide +kernel, ?_⟩
  intro h
  have hreadable := isReadable_of_paths_text hselectable hwellFormed h
  exact absurd ((isReadable_single_iff (by decide)).mp hreadable) (by decide +kernel)

end SelectionMap

end QueryPicker
