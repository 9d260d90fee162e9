import Mathlib
import QueryPicker.FieldPath
import QueryPicker.Proofs.WrittenText

/-!
# Written lines

Every field is written on a line of its own, also if a text among its arguments has line breaks. The
line tells the name of the field, the text of its arguments and whether other fields follow in
braces, and the indentation tells where those end. So fields that are written in the same lines have
the same names, texts of arguments and nesting.
-/

namespace QueryPicker

theorem notMem_intercalate {α : Type} {a : α} {sep : List α} {ls : List (List α)} (hsep : a ∉ sep)
    (h : ∀ l ∈ ls, a ∉ l) : a ∉ sep.intercalate ls := by
  cases ls with
  | nil => simp
  | cons l ls =>
    rw [intercalate_cons, List.mem_append, List.mem_flatMap]
    rintro (hl | ⟨l', hl', hmem⟩)
    · exact h l List.mem_cons_self hl
    · rcases List.mem_append.mp hmem with hmem | hmem
      · exact hsep hmem
      · exact h l' (List.mem_cons_of_mem l hl') hmem

theorem all_isNameChar {name : String} (h : isName name = true) :
    name.toList.all Token.isNameChar = true := by
  obtain ⟨c, cs, hname, hc, hcs⟩ := Token.isNameText_iff.mp h
  have hfirst : Token.isNameChar c = true := by
    simp only [Token.isNameStart, Bool.or_eq_true] at hc
    simp only [Token.isNameChar, Char.isAlphanum, Bool.or_eq_true]
    exact hc.imp_left Or.inl
  rw [hname, List.all_cons, hfirst, hcs]
  rfl

theorem newline_notMem_name {name : String} (h : isName name = true) : '\n' ∉ name.toList := by
  intro hmem
  exact absurd (List.all_eq_true.mp (all_isNameChar h) '\n' hmem) (by decide)

theorem newline_notMem_number {cs : List Char} (h : Token.RunsAsNumber cs) : '\n' ∉ cs := by
  obtain ⟨c, rest, rfl, -, hcs⟩ := h
  intro hmem
  exact absurd (List.all_eq_true.mp hcs '\n' hmem) (by decide)

theorem Binary64.newline_notMem_write (x : Binary64) :
    '\n' ∉ (x.write Literal.floatLayout).toList := by
  cases hfinite : x.isFinite with
  | true =>
    obtain ⟨exponent?, hwritten, -⟩ := written_write hfinite
    exact newline_notMem_number (runsAsNumber_of_written hwritten)
  | false =>
    have hexponent : x.exponentField = 2047 := by simpa [isFinite] using hfinite
    unfold write
    split
    · decide
    · rename_i hnan
      have hinfinite : x.isInfinite = true := by
        simpa [isNaN, isInfinite, hexponent] using hnan
      rw [hinfinite, if_pos rfl]
      cases x.isNegative <;> decide

namespace Literal

mutual

/-- Whether all enum values in the literal are names. -/
def isNamed : Literal → Bool
  | enumValue name => isName name
  | list items => areNamed items
  | _ => true

def areNamed : List Literal → Bool
  | [] => true
  | item :: items => isNamed item && areNamed items

end

/-- A string in quotes stays on its line. -/
theorem lineEnd_notMem_quote {c : Char} (hc : c = '\n' ∨ c = '\r') (s : String) :
    c ∉ (quote s).toList := by
  have hescape : ∀ d, c ∉ escapeChar d := by
    intro d
    unfold escapeChar
    split_ifs with hquote hslash hfeed hreturn
    all_goals first
      | (rcases hc with rfl | rfl <;> decide)
      | (rcases hc with rfl | rfl <;> simp_all [eq_comm])
  rw [quote, String.toList_ofList]
  rcases hc with rfl | rfl <;> simp [List.mem_flatMap, hescape]

mutual

theorem newline_notMem_text : ∀ l : Literal, l.isNamed = true → '\n' ∉ l.text.toList
  | null, _ => by decide
  | bool true, _ => by decide
  | bool false, _ => by decide
  | int n, _ => by
    have hrun := Token.runsAsNumber_append (Token.isWhole_toDigits n.natAbs) (decide (n < 0)) [] rfl
    rw [List.append_nil, ← toList_toString_int] at hrun
    exact newline_notMem_number hrun
  | float x, _ => x.newline_notMem_write
  | string s, _ => lineEnd_notMem_quote (.inl rfl) s
  | enumValue _, h => newline_notMem_name h
  | list items, h => by
    have hitems : '\n' ∉ [',', ' '].intercalate ((texts items).map String.toList) :=
      notMem_intercalate (by decide) (newline_notMem_texts items h)
    rw [text, String.toList_append, String.toList_append, String.toList_intercalate]
    simpa using hitems

theorem newline_notMem_texts : ∀ items : List Literal, areNamed items = true →
    ∀ l ∈ (texts items).map String.toList, '\n' ∉ l
  | [], _ => by simp [texts]
  | item :: items, h => by
    obtain ⟨hitem, hitems⟩ := Bool.and_eq_true_iff.mp h
    rw [texts, List.map_cons]
    exact List.forall_mem_cons.mpr
      ⟨newline_notMem_text item hitem, newline_notMem_texts items hitems⟩

end

end Literal

namespace Arguments

/-- Whether all arguments, and all enum values in them, have names. -/
def isNamed (args : Arguments) : Bool :=
  args.all fun (name, value) => isName name && value.isNamed

theorem toList_text (args : Arguments) : args.text.toList = [] ∨
    args.text.toList = '(' :: [',', ' '].intercalate
      (args.map fun arg => arg.1.toList ++ ':' :: ' ' :: arg.2.text.toList) ++ [')'] := by
  cases args with
  | nil => exact Or.inl rfl
  | cons arg args =>
    right
    rw [text, List.isEmpty_cons, if_neg Bool.false_ne_true, String.toList_append,
      String.toList_append, String.toList_intercalate, List.map_map]
    simp [Function.comp_def]

theorem newline_notMem_text {args : Arguments} (h : args.isNamed = true) :
    '\n' ∉ args.text.toList := by
  rcases args.toList_text with htext | htext
  · simp [htext]
  · have hargs : '\n' ∉ [',', ' '].intercalate
        (args.map fun arg => arg.1.toList ++ ':' :: ' ' :: arg.2.text.toList) := by
      refine notMem_intercalate (by decide) fun l hl => ?_
      obtain ⟨arg, harg, rfl⟩ := List.mem_map.mp hl
      obtain ⟨hname, hvalue⟩ := Bool.and_eq_true_iff.mp (List.all_eq_true.mp h arg harg)
      simpa using ⟨newline_notMem_name hname, arg.2.newline_notMem_text hvalue⟩
    rw [htext]
    simpa using hargs

/-- Nothing that a name goes on with starts the text. -/
theorem ends_text (args : Arguments) : Token.Ends args.text.toList := by
  rcases args.toList_text with htext | htext <;> rw [htext]
  · exact Token.ends_nil
  · exact Token.ends_cons (by decide)

theorem getLast?_text (args : Arguments) : ∀ c ∈ args.text.toList.getLast?, c = ')' := by
  rcases args.toList_text with htext | htext <;> rw [htext]
  · simp
  · rw [List.getLast?_concat]
    simp

end Arguments

namespace FieldTree

/-- The line of a field, in which its children are opened if it has any. -/
def headLine (depth : Nat) (name : String) (args : Arguments) (opens : Bool) : String :=
  indentation depth ++ name ++ args.text ++ if opens then " \x7b" else ""

def closingLine (depth : Nat) : String := indentation depth ++ "\x7d"

/-- The lines of a field after its own. -/
def linesBelow (depth : Nat) (children : List FieldTree) : List String :=
  if children.isEmpty then [] else listLines (depth + 1) children ++ [closingLine depth]

theorem listLines_cons (depth : Nat) (name : String) (args : Arguments)
    (children trees : List FieldTree) : listLines depth (node name args children :: trees) =
      headLine depth name args (!children.isEmpty) ::
        (linesBelow depth children ++ listLines depth trees) := by
  rw [listLines]
  cases children with
  | nil => simp [lines, headLine, linesBelow]
  | cons child more => simp [lines, listLines, headLine, linesBelow, closingLine]

/-- A line tells the name of its field, the text of the arguments and whether children follow. -/
theorem headLine_inj {depth : Nat} {name name' : String} {args args' : Arguments}
    {opens opens' : Bool} (hname : isName name = true) (hname' : isName name' = true)
    (h : headLine depth name args opens = headLine depth name' args' opens') :
    name = name' ∧ args.text = args'.text ∧ opens = opens' := by
  have htext : name.toList ++ (args.text.toList ++ if opens then [' ', '\x7b'] else []) =
      name'.toList ++ (args'.text.toList ++ if opens' then [' ', '\x7b'] else []) := by
    have hlist := congrArg String.toList h
    simp only [headLine, String.toList_append, List.append_assoc, List.append_cancel_left_eq]
      at hlist
    cases opens <;> cases opens' <;> exact hlist
  have hends : ∀ (args : Arguments) (opens : Bool),
      Token.Ends (args.text.toList ++ if opens then [' ', '\x7b'] else []) := by
    intro args opens
    refine Token.ends_append args.ends_text ?_
    cases opens
    · exact Token.ends_nil
    · exact Token.ends_cons (by decide)
  obtain ⟨htake, hdrop⟩ := Token.takeWhile_append_of_ends (p := Token.isNameChar) (by decide)
    (all_isNameChar hname) (hends args opens)
  obtain ⟨htake', hdrop'⟩ := Token.takeWhile_append_of_ends (p := Token.isNameChar) (by decide)
    (all_isNameChar hname') (hends args' opens')
  rw [← htext] at htake' hdrop'
  have hafter := hdrop.symm.trans hdrop'
  have hlast : ∀ (args args' : Arguments),
      args.text.toList ++ [' ', '\x7b'] ≠ args'.text.toList := by
    intro args args' heq
    have hbrace := args'.getLast?_text '\x7b' (by rw [← heq]; simp)
    exact absurd hbrace (by decide)
  refine ⟨String.toList_inj.mp (htake.symm.trans htake'), ?_⟩
  cases opens <;> cases opens' <;>
    simp only [if_pos, if_neg Bool.false_ne_true, List.append_nil, List.append_left_inj] at hafter
  · exact ⟨String.toList_inj.mp hafter, rfl⟩
  · exact absurd hafter.symm (hlast args' args)
  · exact absurd hafter (hlast args args')
  · exact ⟨String.toList_inj.mp hafter, rfl⟩

theorem toList_indentation_succ (depth : Nat) :
    (indentation (depth + 1)).toList = (indentation depth).toList ++ [' ', ' '] := by
  rw [indentation, indentation, String.toList_ofList, String.toList_ofList, Nat.mul_succ,
    List.replicate_add]
  rfl

theorem headLine_ne_closingLine (depth : Nat) (name : String) (args : Arguments) (opens : Bool) :
    headLine (depth + 1) name args opens ≠ closingLine depth := by
  intro h
  have hlist := congrArg String.toList h
  simp [headLine, closingLine, toList_indentation_succ] at hlist

/-- Whether all fields, and all names in their arguments, are names. -/
def areNamed (trees : List FieldTree) : Bool :=
  allFieldsOf (fun name args => isName name && args.isNamed) trees

theorem areNamed_cons {name : String} {args : Arguments} {children trees : List FieldTree} :
    areNamed (node name args children :: trees) = true ↔ isName name = true ∧
      args.isNamed = true ∧ areNamed children = true ∧ areNamed trees = true := by
  simp only [areNamed, allFieldsOf, allFields, Bool.and_eq_true, and_assoc]

theorem newline_notMem_indented (depth : Nat) {l : String} (h : '\n' ∉ l.toList) :
    '\n' ∉ (indentation depth ++ l).toList := by
  simp [indentation, h]

theorem newline_notMem_listLines : ∀ {trees : List FieldTree} (depth : Nat),
    areNamed trees = true → ∀ l ∈ listLines depth trees, '\n' ∉ l.toList
  | [], _, _ => by simp [listLines]
  | node name args children :: trees, depth, h => by
    obtain ⟨hname, hargs, hchildren, htrees⟩ := areNamed_cons.mp h
    have hhead : '\n' ∉ (headLine depth name args (!children.isEmpty)).toList := by
      rw [headLine, String.append_assoc, String.append_assoc]
      refine newline_notMem_indented depth ?_
      have hname := newline_notMem_name hname
      have hargs := Arguments.newline_notMem_text hargs
      cases children.isEmpty <;> simp [hname, hargs]
    have hbelow : ∀ l ∈ linesBelow depth children, '\n' ∉ l.toList := by
      unfold linesBelow
      split
      · simp
      · intro l hl
        rcases List.mem_append.mp hl with hl | hl
        · exact newline_notMem_listLines (depth + 1) hchildren l hl
        · obtain rfl := List.mem_singleton.mp hl
          exact newline_notMem_indented depth (by decide)
    rw [listLines_cons]
    refine List.forall_mem_cons.mpr ⟨hhead, fun l hl => ?_⟩
    rcases List.mem_append.mp hl with hl | hl
    · exact hbelow l hl
    · exact newline_notMem_listLines depth htrees l hl

/-- Lines are the pieces between line breaks. -/
theorem inLines_inj : ∀ {ls ms : List String}, (∀ l ∈ ls, '\n' ∉ l.toList) →
    (∀ l ∈ ms, '\n' ∉ l.toList) → inLines ls = inLines ms → ls = ms
  | [], [], _, _, _ => rfl
  | [], m :: ms, _, _, h => by cases h
  | l :: ls, [], _, _, h => by cases h
  | l :: ls, m :: ms, hls, hms, h => by
    obtain ⟨hl, hmore⟩ := List.forall_mem_cons.mp hls
    obtain ⟨hm, hmore'⟩ := List.forall_mem_cons.mp hms
    have hsplit : ∀ {cs : List Char} (more : List String), '\n' ∉ cs →
        (cs ++ inLines more).takeWhile (· != '\n') = cs ∧
          (cs ++ inLines more).dropWhile (· != '\n') = inLines more := by
      intro cs more hcs
      have hall : ∀ c ∈ cs, (c != '\n') = true := by
        intro c hc
        rw [bne_iff_ne]
        rintro rfl
        exact hcs hc
      rw [List.takeWhile_append_of_pos hall, List.dropWhile_append_of_pos hall]
      cases more <;> simp [inLines]
    have htexts : l.toList ++ inLines ls = m.toList ++ inLines ms := (List.cons.inj h).2
    obtain ⟨htake, hdrop⟩ := hsplit ls hl
    obtain ⟨htake', hdrop'⟩ := hsplit ms hm
    rw [← htexts] at htake' hdrop'
    obtain rfl := String.toList_inj.mp (htake.symm.trans htake')
    rw [inLines_inj hmore hmore' (hdrop.symm.trans hdrop')]

mutual

/-- The paths of a field and of all fields in it, each with the text of its arguments. -/
def shown (p : FieldPath) : FieldTree → List (FieldPath × String)
  | node name args children => (p.child name, args.text) :: shownOf (p.child name) children

def shownOf (p : FieldPath) : List FieldTree → List (FieldPath × String)
  | [] => []
  | tree :: trees => shown p tree ++ shownOf p trees

end

/-- Fields up to a closing line that are written in the same lines show the same, and the same lines
follow them: no line of a child is the line that closes its parent. -/
theorem shownOf_eq_of_lines : ∀ {trees trees' : List FieldTree} (p : FieldPath) {depth : Nat}
    {rest rest' : List String}, areNamed trees = true → areNamed trees' = true →
    listLines (depth + 1) trees ++ closingLine depth :: rest =
      listLines (depth + 1) trees' ++ closingLine depth :: rest' →
    shownOf p trees = shownOf p trees' ∧ rest = rest'
  | [], [], _, _, _, _, _, _, h => ⟨rfl, (List.cons.inj h).2⟩
  | [], node name args children :: trees', _, depth, _, _, _, _, h => by
    rw [listLines_cons] at h
    exact absurd (List.cons.inj h).1.symm (headLine_ne_closingLine depth name args _)
  | node name args children :: trees, [], _, depth, _, _, _, _, h => by
    rw [listLines_cons] at h
    exact absurd (List.cons.inj h).1 (headLine_ne_closingLine depth name args _)
  | node name args children :: trees, node name' args' children' :: trees', p, depth, rest, rest',
      hnamed, hnamed', h => by
    obtain ⟨hname, -, hchildren, htrees⟩ := areNamed_cons.mp hnamed
    obtain ⟨hname', -, hchildren', htrees'⟩ := areNamed_cons.mp hnamed'
    rw [listLines_cons, listLines_cons, List.cons_append, List.cons_append, List.append_assoc,
      List.append_assoc] at h
    obtain ⟨hhead, hlines⟩ := List.cons.inj h
    obtain ⟨rfl, htext, hopens⟩ := headLine_inj hname hname' hhead
    have hboth : children.isEmpty = children'.isEmpty := by simpa using hopens
    obtain ⟨hbelow, hmore⟩ : shownOf (p.child name) children = shownOf (p.child name) children' ∧
        listLines (depth + 1) trees ++ closingLine depth :: rest =
          listLines (depth + 1) trees' ++ closingLine depth :: rest' := by
      unfold linesBelow at hlines
      rw [← hboth] at hlines
      split at hlines
      · rename_i hempty
        obtain rfl := List.isEmpty_iff.mp hempty
        obtain rfl := List.isEmpty_iff.mp hboth.symm
        exact ⟨rfl, hlines⟩
      · rw [List.append_assoc, List.append_assoc] at hlines
        exact shownOf_eq_of_lines (p.child name) hchildren hchildren' hlines
    obtain ⟨hshown, hrest⟩ := shownOf_eq_of_lines p htrees htrees' hmore
    refine ⟨?_, hrest⟩
    rw [shownOf, shownOf, shown, shown, htext, hbelow, hshown]

/-- The lines of an operation, after an empty one. -/
def operationLines (o : Operation × List FieldTree) : List String :=
  "" :: (o.1.keyword ++ " \x7b") :: (listLines 1 o.2 ++ [closingLine 0])

theorem inLines_operationLines (o : Operation × List FieldTree) :
    inLines (operationLines o) = '\n' :: '\n' :: (operationText o.1 o.2).toList := by
  rw [toList_operationText]
  simp [operationLines, inLines, closingLine, indentation]

theorem newline_notMem_operationLines {o : Operation × List FieldTree} (h : areNamed o.2 = true) :
    ∀ l ∈ operationLines o, '\n' ∉ l.toList := by
  have hkeyword : '\n' ∉ (o.1.keyword ++ " \x7b").toList := by
    cases o.1 <;> decide
  refine List.forall_mem_cons.mpr ⟨by decide, List.forall_mem_cons.mpr ⟨hkeyword, fun l hl => ?_⟩⟩
  rcases List.mem_append.mp hl with hl | hl
  · exact newline_notMem_listLines 1 h l hl
  · obtain rfl := List.mem_singleton.mp hl
    decide

theorem shown_eq_of_operationLines {operations operations' : List (Operation × List FieldTree)}
    (h : ∀ o ∈ operations, areNamed o.2 = true) (h' : ∀ o ∈ operations', areNamed o.2 = true)
    (hlines : operations.flatMap operationLines = operations'.flatMap operationLines) :
    (operations.flatMap fun o => shownOf (FieldPath.root o.1) o.2) =
      operations'.flatMap fun o => shownOf (FieldPath.root o.1) o.2 := by
  induction operations generalizing operations' with
  | nil =>
    cases operations' with
    | nil => rfl
    | cons o' operations' => cases hlines
  | cons o operations ih =>
    cases operations' with
    | nil => cases hlines
    | cons o' operations' =>
      obtain ⟨ho, hmore⟩ := List.forall_mem_cons.mp h
      obtain ⟨ho', hmore'⟩ := List.forall_mem_cons.mp h'
      simp only [List.flatMap_cons, operationLines, List.cons_append, List.append_assoc,
        List.nil_append] at hlines
      obtain ⟨hkeyword, hlines⟩ := List.cons.inj (List.cons.inj hlines).2
      have hop : o.1 = o'.1 := by
        revert hkeyword
        cases o.1 <;> cases o'.1 <;> decide
      obtain ⟨hshown, hrest⟩ := shownOf_eq_of_lines (FieldPath.root o.1) ho ho' hlines
      rw [List.flatMap_cons, List.flatMap_cons, ← hop, hshown, ih hmore hmore' hrest]

end FieldTree

end QueryPicker
