import Mathlib
import QueryPicker.Proofs.ReachedPickers
import QueryPicker.Sample.Query

/-!
# The paths of sample queries

The text of a sample operation is read as the operation that it shows: on every level the first
three fields of a type, and below a field the next level as long as the greatest depth is not
reached and the field leads to an object type with fields that is none of those with which a schema
describes itself. The placeholders among the arguments do not get in the way.
-/

namespace QueryPicker

namespace FieldTree

theorem allFieldsOf_eq (ok : String → Arguments → Bool) (trees : List FieldTree) :
    allFieldsOf ok trees = trees.all (allFields ok) := by
  induction trees with
  | nil => rfl
  | cons tree trees ih => rw [allFieldsOf, ih, List.all_cons]

end FieldTree

/-- A field without braces selects nothing but itself, whatever its type. -/
theorem Document.pathsOfSelection_field_of_bare {s : Schema} {doc : Document}
    {spreading : List String} {t : TypeDef} {alias? : Option String} {name : String}
    {args : List (String × Value)} {directives : List Directive} {f : Field}
    (hf : t.field? name = some f) (path : FieldPath) :
    pathsOfSelection s doc spreading t path (.field alias? name args directives []) =
      [path.child name] := by
  cases hobject : s.objectOf? f with
  | none => exact pathsOfSelection_field_of_leaf hf hobject path
  | some inner => rw [pathsOfSelection_field_of_object hf hobject path, pathsOfSelections]

namespace Schema

/-- All names that a sample query can show are names of documents. -/
structure FullyNamed (s : Schema) : Prop extends s.WellNamed where
  arguments : ∀ entry ∈ s.types, ∀ f ∈ entry.2.fields, ∀ a ∈ f.args, isName a.name = true
  enumValues : ∀ entry ∈ s.types, ∀ v ∈ entry.2.enumValues, isName v.name = true

/-- Whatever type a field refers to is of the kind that the reference says, if it is defined. -/
def KindsAgree (s : Schema) : Prop :=
  ∀ entry ∈ s.types, ∀ f ∈ entry.2.fields, ∀ t ∈ s.typeNamed? f.type.innerName,
    f.type.innerKind = t.kind

/-- Below a field at a depth the fields of a type are shown. -/
structure SampleOpens (s : Schema) (maxDepth depth : Nat) (f : Field) (inner : TypeDef) : Prop where
  depth_lt : depth < maxDepth
  object : inner.kind = .object
  described : f.type.innerName.startsWith "__" = false
  defined : s.typeNamed? f.type.innerName = some inner
  fields : inner.fields ≠ []

/-- The names lead from a type, whose fields stand at a depth, through fields that are shown. -/
def SampleLeads (s : Schema) (maxDepth : Nat) : Nat → TypeDef → List String → Prop
  | _, _, [] => False
  | depth, t, name :: names => ∃ f ∈ t.fields.take 3, f.name = name ∧
      (names = [] ∨ ∃ inner, s.SampleOpens maxDepth depth f inner ∧
        s.SampleLeads maxDepth (depth + 1) inner names)

variable {s : Schema}

theorem sampleType?_eq_some_iff {f : Field} {inner : TypeDef} :
    s.sampleType? f = some inner ↔ f.type.innerKind = .object ∧
      f.type.innerName.startsWith "__" = false ∧
      s.typeNamed? f.type.innerName = some inner ∧ inner.fields ≠ [] := by
  simp only [sampleType?, Option.ite_none_right_eq_some, Option.filter_eq_some_iff,
    Bool.and_eq_true, decide_eq_true_eq, Bool.not_eq_true', List.isEmpty_eq_false_iff, and_assoc]

/-- With references that agree with the definitions, the type that is opened in a sample is the one
that a document enters. -/
theorem sampleType?_iff_opens (h : s.KindsAgree) {entry : String × TypeDef}
    (hentry : entry ∈ s.types) {f : Field} (hf : f ∈ entry.2.fields) {maxDepth depth : Nat}
    (hdepth : depth < maxDepth) {inner : TypeDef} :
    s.sampleType? f = some inner ↔ s.SampleOpens maxDepth depth f inner := by
  rw [sampleType?_eq_some_iff]
  constructor
  · rintro ⟨hkind, hname, hdefined, hfields⟩
    exact ⟨hdepth, (h entry hentry f hf inner hdefined) ▸ hkind, hname, hdefined, hfields⟩
  · rintro ⟨-, hkind, hname, hdefined, hfields⟩
    exact ⟨(h entry hentry f hf inner hdefined).trans hkind, hname, hdefined, hfields⟩

theorem SampleOpens.objectOf? {maxDepth depth : Nat} {f : Field} {inner : TypeDef}
    (h : s.SampleOpens maxDepth depth f inner) : s.objectOf? f = some inner :=
  Option.filter_eq_some_iff.mpr ⟨h.defined, by simp [h.object]⟩

theorem scalarPlaceholder_spec (name : String) :
    (scalarPlaceholder name).isWellFormed = true ∧ (scalarPlaceholder name).isReadable = true := by
  unfold scalarPlaceholder
  split <;> decide +kernel

theorem isName_firstEnumValue? (h : s.FullyNamed) {name value : String}
    (hvalue : s.firstEnumValue? name = some value) : isName value = true := by
  obtain ⟨t, ht, hfirst⟩ := Option.bind_eq_some_iff.mp hvalue
  obtain ⟨v, hv, rfl⟩ := Option.map_eq_some_iff.mp hfirst
  exact h.enumValues _ (mem_types_of_typeNamed? ht) v (List.mem_of_head? hv)

theorem placeholder_spec (h : s.FullyNamed) (r : TypeRef) :
    (s.placeholder r).isWellFormed = true ∧ (s.placeholder r).isReadable = true := by
  induction r with
  | list inner => exact ⟨rfl, rfl⟩
  | nonNull inner ih => exact ih
  | named kind name =>
    cases kind with
    | scalar => exact scalarPlaceholder_spec name
    | enumeration =>
      refine ⟨?_, rfl⟩
      show isName ((s.firstEnumValue? name).getD "ENUM_VALUE") = true
      cases hvalue : s.firstEnumValue? name with
      | none => decide
      | some value => exact isName_firstEnumValue? h hvalue
    | _ => exact ⟨rfl, rfl⟩

theorem placeholderArguments_spec (h : s.FullyNamed) {entry : String × TypeDef}
    (hentry : entry ∈ s.types) {f : Field} (hf : f ∈ entry.2.fields) :
    (s.placeholderArguments f).isWellFormed = true ∧
      (s.placeholderArguments f).isReadable = true := by
  have hargs : ∀ a ∈ f.args.take argumentsPerField, isName a.name = true := fun a ha =>
    h.arguments entry hentry f hf a (List.mem_of_mem_take ha)
  simp only [placeholderArguments, Arguments.isWellFormed, Arguments.isReadable, List.all_map,
    List.all_eq_true, Function.comp_apply, Bool.and_eq_true]
  exact ⟨fun a ha => ⟨hargs a ha, (placeholder_spec h a.type).1⟩,
    fun a _ => (placeholder_spec h a.type).2⟩

/-- A test passes on a sample if it passes on the fields of all types and, with the arguments there,
on the field at the top. -/
theorem allFields_sampleTree {ok : String → Arguments → Bool}
    (hok : ∀ entry ∈ s.types, ∀ f ∈ entry.2.fields, ok f.name [] = true) {levels : Nat}
    {args : Arguments} {f : Field} (hf : ok f.name args = true) :
    (s.sampleTree levels args f).allFields ok = true := by
  induction levels generalizing args f with
  | zero => exact Bool.and_eq_true_iff.mpr ⟨hf, rfl⟩
  | succ levels ih =>
    refine Bool.and_eq_true_iff.mpr ⟨hf, ?_⟩
    cases htype : s.sampleType? f with
    | none => rfl
    | some inner =>
      have hdefined := (sampleType?_eq_some_iff.mp htype).2.2.1
      rw [FieldTree.allFieldsOf_eq, List.all_map, List.all_eq_true]
      exact fun g hg =>
        ih (hok _ (mem_types_of_typeNamed? hdefined) g (List.mem_of_mem_take hg))

theorem sampleTrees_spec (h : s.FullyNamed) {entry : String × TypeDef} (hentry : entry ∈ s.types)
    (maxDepth : Nat) : FieldTree.areWellFormed (s.sampleTrees entry.2 maxDepth) = true ∧
      FieldTree.areReadable (s.sampleTrees entry.2 maxDepth) = true := by
  simp only [FieldTree.areWellFormed, FieldTree.areReadable, FieldTree.allFieldsOf_eq, sampleTrees,
    List.all_map, List.all_eq_true, Function.comp_apply]
  refine ⟨fun f hf => allFields_sampleTree (fun e he g hg => ?_) ?_,
    fun f hf => allFields_sampleTree (fun _ _ _ _ => rfl) ?_⟩
  · exact Bool.and_eq_true_iff.mpr ⟨h.names e he g hg, rfl⟩
  · have hf := List.mem_of_mem_take hf
    exact Bool.and_eq_true_iff.mpr
      ⟨h.names entry hentry f hf, (placeholderArguments_spec h hentry hf).1⟩
  · exact (placeholderArguments_spec h hentry (List.mem_of_mem_take hf)).2

/-- Walking what is written for the first fields of a type is walking each of them. -/
theorem mem_pathsOfSelections_sampleTree {doc : Document} {maxDepth levels depth : Nat}
    {t : TypeDef} {args : Field → Arguments} {path q : FieldPath}
    (h : ∀ f ∈ t.fields.take 3,
      (q ∈ Document.pathsOfSelection s doc [] t path (s.sampleTree levels (args f) f).toSelection ↔
        ∃ names, q = path ++ f.name :: names ∧
          (names = [] ∨ ∃ inner, s.SampleOpens maxDepth depth f inner ∧
            s.SampleLeads maxDepth (depth + 1) inner names))) :
    q ∈ Document.pathsOfSelections s doc [] t path (FieldTree.toSelections
        ((t.fields.take 3).map fun f => s.sampleTree levels (args f) f)) ↔
      ∃ names, q = path ++ names ∧ s.SampleLeads maxDepth depth t names := by
  rw [Document.toSelections_eq, Document.mem_pathsOfSelections]
  simp only [List.map_map, List.mem_map, exists_exists_and_eq_and, Function.comp_apply]
  constructor
  · rintro ⟨f, hf, hq⟩
    obtain ⟨names, rfl, hnames⟩ := (h f hf).mp hq
    exact ⟨f.name :: names, rfl, f, hf, rfl, hnames⟩
  · rintro ⟨_ | ⟨_, names⟩, rfl, hleads⟩
    · exact hleads.elim
    · obtain ⟨f, hf, rfl, hnames⟩ := hleads
      exact ⟨f, hf, (h f hf).mpr ⟨names, rfl, hnames⟩⟩

/-- Walking what is written for a field visits the field, and below it what the sample shows. The
sample opens the type by the kind of the reference, the walk by the kind of the type. -/
theorem mem_pathsOfSelection_sampleTree (h : s.WellNamed) (hkinds : s.KindsAgree)
    (doc : Document) {maxDepth levels depth : Nat} (hlevels : levels = maxDepth - depth)
    {entry : String × TypeDef} (hentry : entry ∈ s.types) {f : Field} (hf : f ∈ entry.2.fields)
    {args : Arguments} {path q : FieldPath} :
    q ∈ Document.pathsOfSelection s doc [] entry.2 path (s.sampleTree levels args f).toSelection ↔
      ∃ names, q = path ++ f.name :: names ∧
        (names = [] ∨ ∃ inner, s.SampleOpens maxDepth depth f inner ∧
          s.SampleLeads maxDepth (depth + 1) inner names) := by
  have hfield : entry.2.field? f.name = some f := find?_of_nodup (h.distinct entry hentry) hf
  induction levels generalizing depth entry f args path with
  | zero =>
    have hclosed : ∀ inner, ¬ s.SampleOpens maxDepth depth f inner := fun inner hopens => by
      have := hopens.depth_lt
      omega
    rw [sampleTree, FieldTree.toSelection, FieldTree.toSelections,
      Document.pathsOfSelection_field_of_bare hfield]
    simp [hclosed, FieldPath.child]
  | succ levels ih =>
    have hopens : ∀ inner, s.sampleType? f = some inner ↔ s.SampleOpens maxDepth depth f inner :=
      fun _ => sampleType?_iff_opens hkinds hentry hf (by omega)
    rw [sampleTree, FieldTree.toSelection]
    cases htype : s.sampleType? f with
    | none =>
      have hclosed : ∀ inner, ¬ s.SampleOpens maxDepth depth f inner := fun inner hinner => by
        rw [(hopens inner).mpr hinner] at htype
        cases htype
      rw [FieldTree.toSelections, Document.pathsOfSelection_field_of_bare hfield]
      simp [hclosed, FieldPath.child]
    | some inner =>
      have hinner := (hopens inner).mp htype
      have hnext := mem_types_of_typeNamed? hinner.defined
      have hless : levels = maxDepth - (depth + 1) := by omega
      have hbelow : q ∈ Document.pathsOfSelections s doc [] inner (path.child f.name)
            (FieldTree.toSelections ((inner.fields.take 3).map (s.sampleTree levels []))) ↔
          ∃ names, q = path.child f.name ++ names ∧
            s.SampleLeads maxDepth (depth + 1) inner names :=
        mem_pathsOfSelections_sampleTree fun g hg =>
          have hg := List.mem_of_mem_take hg
          ih hless hnext hg (find?_of_nodup (h.distinct _ hnext) hg)
      rw [Document.pathsOfSelection_field_of_object hfield hinner.objectOf?, List.mem_cons]
      refine (or_congr_right hbelow).trans ?_
      constructor
      · rintro (rfl | ⟨names, rfl, hnames⟩)
        · exact ⟨[], rfl, .inl rfl⟩
        · exact ⟨names, FieldPath.child_append _ _ _, .inr ⟨inner, hinner, hnames⟩⟩
      · rintro ⟨names, rfl, rfl | ⟨inner', hinner', hnames⟩⟩
        · exact .inl rfl
        · obtain rfl : inner = inner' := by simpa [hinner.defined] using hinner'.defined
          exact .inr ⟨names, (FieldPath.child_append _ _ _).symm, hnames⟩

theorem rootType?_of_operationForRoot? {rootName : String} {op : Operation}
    (h : s.operationForRoot? rootName = some op) : s.rootType? op = s.typeNamed? rootName := by
  have hname : s.rootTypeName? op = some rootName := by simpa using List.find?_some h
  rw [rootType?, hname, Option.bind_some]

/-- The sample operation on the root type of an operation is read as the paths that it shows. -/
theorem paths_sampleQuery (s : Schema) (h : s.FullyNamed) (hkinds : s.KindsAgree)
    (rootName : String) (op : Operation) (hop : s.operationForRoot? rootName = some op)
    (root : TypeDef) (hroot : s.typeNamed? rootName = some root) (hfields : root.fields ≠ [])
    (maxDepth : Nat)
    (hdepth : FieldTree.depthOfAll (s.sampleTrees root maxDepth) + 1 ≤ Token.bracketBudget) :
    ∃ text ps, s.sampleQuery? rootName maxDepth = some text ∧
      QueryText.paths s text = .ok ps ∧ ps.Pairwise (· < ·) ∧
      ∀ p, p ∈ ps ↔ ∃ names, p = op.marker :: names ∧ s.SampleLeads maxDepth 1 root names := by
  have hentry := mem_types_of_typeNamed? hroot
  obtain ⟨hwf, hreadable⟩ := sampleTrees_spec h hentry maxDepth
  have hne : s.sampleTrees root maxDepth ≠ [] := by
    simpa [sampleTrees, fieldsPerLevel] using hfields
  have htext : s.sampleQuery? rootName maxDepth =
      some (FieldTree.operationText op (s.sampleTrees root maxDepth)) := by
    rw [sampleQuery?, hroot, Option.map_some, if_neg (by simpa using hfields), hop,
      Option.getD_some]
  have hscans := FieldTree.scans_operationText op hwf
  rw [hreadable] at hscans
  have hparse : Document.parse (FieldTree.operationText op (s.sampleTrees root maxDepth)) =
      .ok (FieldTree.document [(op, s.sampleTrees root maxDepth)]) :=
    FieldTree.parse_of_scans (List.cons_ne_nil _ _) (by simpa using ⟨hwf, hne⟩)
      (by simpa using hscans) hdepth
      (by simpa using FieldTree.balanced_operationTokens op (s.sampleTrees root maxDepth))
  obtain ⟨c, after, hc, hfirst⟩ := FieldTree.exists_first_field op hne hwf
  refine ⟨_, Document.paths s (FieldTree.document [(op, s.sampleTrees root maxDepth)]), htext, ?_,
    SortedSet.sorted_ofList _, fun p => ?_⟩
  · rw [QueryText.paths, QueryText.isEmptySkeleton_of_field hc hfirst, hparse]
    rfl
  · rw [Document.paths, SortedSet.mem_ofList, FieldTree.document, List.map_singleton,
      List.flatMap_singleton, Document.pathsOfDefinition, rootType?_of_operationForRoot? hop, hroot]
    exact mem_pathsOfSelections_sampleTree fun f hf =>
      mem_pathsOfSelection_sampleTree h.toWellNamed hkinds _ rfl hentry (List.mem_of_mem_take hf)

def forumPosts : Field where
  name := "posts"
  args :=
    [{ name := "limit", type := .nonNull (.named .scalar "Int") },
      { name := "role", type := .named .enumeration "Role" },
      { name := "tags", type := .list (.named .scalar "String") }]
  type := .list (.named .object "Post")

def forumPost : TypeDef :=
  .object "Post"
    [{ name := "title", type := .named .scalar "String" },
      { name := "author", type := .nonNull (.named .object "User") }]

/-- Posts for the readers of a role; there are more fields and arguments than a sample shows. -/
def forum : Schema :=
  .ofTypes
    [.object "Query"
        [forumPosts,
          { name := "me", type := .named .object "User" },
          { name := "now", type := .named .scalar "DateTime" },
          { name := "version", type := .named .scalar "String" }],
      forumPost,
      .object "User"
        [{ name := "name", type := .named .scalar "String" },
          { name := "posts", type := .list (.named .object "Post") }],
      .enumeration "Role" ["GUEST", "MEMBER"]]
    "Query" none none

theorem paths_sampleQuery_forum :
    (forum.FullyNamed ∧ forum.KindsAgree ∧ forum.operationForRoot? "Query" = some .query) ∧
      ∃ text ps, forum.sampleQuery? "Query" 2 = some text ∧ QueryText.paths forum text = .ok ps ∧
        ["Query", "posts", "author"] ∈ ps ∧ ["Query", "posts", "author", "name"] ∉ ps ∧
          ["Query", "version"] ∉ ps := by
  have hnamed : forum.FullyNamed :=
    { distinct := by unfold DistinctFields; decide +kernel
      names := by decide +kernel
      arguments := by decide +kernel
      enumValues := by decide +kernel }
  have hkinds : forum.KindsAgree := by
    unfold KindsAgree
    decide +kernel
  refine ⟨⟨hnamed, hkinds, rfl⟩, ?_⟩
  obtain ⟨text, ps, htext, hps, -, hmem⟩ := paths_sampleQuery forum hnamed hkinds "Query" .query rfl
    _ rfl (List.cons_ne_nil _ _) 2 (by decide +kernel)
  refine ⟨text, ps, htext, hps, ?_, ?_, ?_⟩
  · have hopens : forum.SampleOpens 2 1 forumPosts forumPost :=
      ⟨by decide, rfl, by decide +kernel, rfl, List.cons_ne_nil _ _⟩
    exact (hmem _).mpr ⟨["posts", "author"], rfl, _, .head _, rfl,
      .inr ⟨_, hopens, _, .tail _ (.head _), rfl, .inl rfl⟩⟩
  · intro hp
    obtain ⟨_, hnames, hleads⟩ := (hmem _).mp hp
    obtain rfl := (List.cons.inj hnames).2
    obtain ⟨_, -, -, hend | ⟨_, -, _, -, -, hend | ⟨_, hopens, -⟩⟩⟩ := hleads
    · cases hend
    · cases hend
    · exact absurd hopens.depth_lt (by decide)
  · intro hp
    obtain ⟨_, hnames, hleads⟩ := (hmem _).mp hp
    obtain rfl := (List.cons.inj hnames).2
    obtain ⟨f, hf, hname, -⟩ := hleads
    exact absurd (List.mem_map.mpr ⟨f, hf, hname⟩) (by decide +kernel)

end Schema

end QueryPicker
