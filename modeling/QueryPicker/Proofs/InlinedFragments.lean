import Mathlib
import QueryPicker.Proofs.PendingSelections
import QueryPicker.Proofs.RoundTrip
import QueryPicker.Proofs.TreeShape

/-!
# Spreads and inlined fragments

A spread stands for the selections of its fragment, and for none if the fragment is not defined.
Writing them out everywhere ends if no fragment spreads itself, directly or through others. The walk
along such a document never meets a fragment that is being spread, so it finds the paths of the
document that is written out.
-/

namespace QueryPicker

namespace Document

mutual

/-- The fragments spread by a selection or inside it. -/
def Selection.spreads : Selection → List String
  | .field _ _ _ _ sels => spreadsOf sels
  | .spread name _ => [name]
  | .inline _ _ sels => spreadsOf sels

def spreadsOf : List Selection → List String
  | [] => []
  | sel :: sels => sel.spreads ++ spreadsOf sels

end

/-- One fragment spreads another. -/
def SpreadsTo (doc : Document) (a b : String) : Prop :=
  ∃ c sels, Definition.fragment a c sels ∈ doc ∧ b ∈ spreadsOf sels

def IsAcyclic (doc : Document) : Prop := ∀ name, ¬ Relation.TransGen doc.SpreadsTo name name

theorem isAcyclic_of_rank {doc : Document} (rank : String → Nat)
    (h : ∀ a b, doc.SpreadsTo a b → rank b < rank a) : doc.IsAcyclic := by
  have hlt {a b : String} (hab : Relation.TransGen doc.SpreadsTo a b) : rank b < rank a := by
    induction hab with
    | single hab => exact h _ _ hab
    | tail _ hbc ih => exact (h _ _ hbc).trans ih
  exact fun name hcycle => Nat.lt_irrefl _ (hlt hcycle)

/-- None of the fragments being spread can be reached from the selections. -/
def Clear (doc : Document) (spreading : List String) (sels : List Selection) : Prop :=
  ∀ a ∈ spreadsOf sels, ∀ b ∈ spreading, ¬ Relation.ReflTransGen doc.SpreadsTo a b

variable {doc : Document} {spreading : List String} {sels rest : List Selection} {name : String}
  {directives : List Directive}

theorem clear_nil (doc : Document) (sels : List Selection) : doc.Clear [] sels := by
  intro a _ b hb
  cases hb

theorem Clear.inside {sel : Selection} (h : doc.Clear spreading (sel :: rest))
    (hinside : sel.spreads = spreadsOf sels) : doc.Clear spreading sels :=
  fun a ha => h a (List.mem_append_left _ (hinside ▸ ha))

theorem Clear.tail {sel : Selection} (h : doc.Clear spreading (sel :: rest)) :
    doc.Clear spreading rest :=
  fun a ha => h a (List.mem_append_right _ ha)

theorem Clear.not_mem (h : doc.Clear spreading (.spread name directives :: rest)) :
    name ∉ spreading :=
  fun hmem => h name (by simp [spreadsOf, Selection.spreads]) name hmem .refl

/-- Without cycles a fragment may be spread whenever its selections are reached. -/
theorem Clear.fragment {c : String} (h : doc.Clear spreading (.spread name directives :: rest))
    (hacyclic : doc.IsAcyclic) (hmem : Definition.fragment name c sels ∈ doc) :
    doc.Clear (name :: spreading) sels := by
  intro a ha b hb hreach
  have hstep : doc.SpreadsTo name a := ⟨c, sels, hmem, ha⟩
  rcases List.mem_cons.mp hb with rfl | hb
  · exact hacyclic b (.head' hstep hreach)
  · exact h name (by simp [spreadsOf, Selection.spreads]) b hb (.head hstep hreach)

theorem fragment?_eq_none (h : name ∉ doc.fragmentNames) : doc.fragment? name = none := by
  cases hfound : doc.fragment? name with
  | none => rfl
  | some sels => exact absurd (mem_fragmentNames_of_fragment? hfound) h

theorem exists_fragment_of_mem_fragmentNames (h : name ∈ doc.fragmentNames) :
    ∃ c sels, Definition.fragment name c sels ∈ doc := by
  obtain ⟨d, hd, hname⟩ := List.mem_filterMap.mp h
  cases d with
  | operation => simp at hname
  | fragment n c sels =>
    obtain rfl : n = name := by simpa using hname
    exact ⟨c, sels, hd⟩

theorem mem_fragmentNames_of_mem {c : String} (h : Definition.fragment name c sels ∈ doc) :
    name ∈ doc.fragmentNames :=
  List.mem_filterMap.mpr ⟨_, h, rfl⟩

theorem eq_of_fragments {c c' : String} {sels' : List Selection}
    (hdistinct : doc.fragmentNames.Nodup) (h : Definition.fragment name c sels ∈ doc)
    (h' : Definition.fragment name c' sels' ∈ doc) : sels = sels' := by
  induction doc with
  | nil => cases h
  | cons d doc ih =>
    rcases List.mem_cons.mp h with rfl | hmem
    · have hname : name ∉ fragmentNames doc := (List.nodup_cons.mp hdistinct).1
      rcases List.mem_cons.mp h' with heq | hmem'
      · cases heq
        rfl
      · exact (hname (mem_fragmentNames_of_mem hmem')).elim
    · rcases List.mem_cons.mp h' with rfl | hmem'
      · have hname : name ∉ fragmentNames doc := (List.nodup_cons.mp hdistinct).1
        exact (hname (mem_fragmentNames_of_mem hmem)).elim
      · exact ih (hdistinct.sublist ((List.sublist_cons_self d doc).filterMap _)) hmem hmem'

/-- Of fragments with distinct names each is found under its name. -/
theorem fragment?_of_mem {c : String} (hdistinct : doc.fragmentNames.Nodup)
    (h : Definition.fragment name c sels ∈ doc) : doc.fragment? name = some sels := by
  cases hfound : doc.fragment? name with
  | none =>
    have hnone := List.findSome?_eq_none_iff.mp hfound _ (List.mem_reverse.mpr h)
    simp at hnone
  | some found =>
    obtain ⟨c', hfragment⟩ := mem_of_fragment? hfound
    rw [eq_of_fragments hdistinct h hfragment]

/-- Selections with every spread replaced by the selections of its fragment, in which the spreads
are replaced in turn. -/
inductive Inlines (doc : Document) : List Selection → List Selection → Prop where
  | nil : Inlines doc [] []
  | field {alias? name args directives sels sels' rest rest'} : Inlines doc sels sels' →
      Inlines doc rest rest' → Inlines doc (.field alias? name args directives sels :: rest)
        (.field alias? name args directives sels' :: rest')
  | inline {condition? directives sels sels' rest rest'} : Inlines doc sels sels' →
      Inlines doc rest rest' → Inlines doc (.inline condition? directives sels :: rest)
        (.inline condition? directives sels' :: rest')
  | defined {name c directives sels sels' rest rest'} : Definition.fragment name c sels ∈ doc →
      Inlines doc sels sels' → Inlines doc rest rest' →
        Inlines doc (.spread name directives :: rest) (sels' ++ rest')
  | undefined {name directives rest rest'} : name ∉ doc.fragmentNames →
      Inlines doc rest rest' → Inlines doc (.spread name directives :: rest) rest'

/-- A definition with its spreads replaced. -/
inductive InlinesDefinition (doc : Document) : Definition → Definition → Prop where
  | operation {op name? sels sels'} : doc.Inlines sels sels' →
      InlinesDefinition doc (.operation op name? sels) (.operation op name? sels')
  | fragment {name c sels sels'} : doc.Inlines sels sels' →
      InlinesDefinition doc (.fragment name c sels) (.fragment name c sels')

/-- The document with every spread of another replaced. -/
def IsInlined (doc doc' : Document) : Prop := List.Forall₂ doc.InlinesDefinition doc doc'

theorem spreadsOf_append (sels rest : List Selection) :
    spreadsOf (sels ++ rest) = spreadsOf sels ++ spreadsOf rest := by
  induction sels with
  | nil => rfl
  | cons sel sels ih => rw [List.cons_append, spreadsOf, ih, spreadsOf, List.append_assoc]

theorem Inlines.spreadsOf_eq_nil {sels' : List Selection} (h : doc.Inlines sels sels') :
    spreadsOf sels' = [] := by
  induction h with
  | nil => rfl
  | field _ _ ih ihrest => rw [spreadsOf, Selection.spreads, ih, ihrest]; rfl
  | inline _ _ ih ihrest => rw [spreadsOf, Selection.spreads, ih, ihrest]; rfl
  | defined _ _ _ ih ihrest => rw [spreadsOf_append, ih, ihrest]; rfl
  | undefined _ _ ih => exact ih

/-- Without cycles the selections can be written out. -/
theorem exists_inlines (hacyclic : doc.IsAcyclic) : ∀ (spreading : List String)
    (sels : List Selection), doc.Clear spreading sels → ∃ sels', doc.Inlines sels sels'
  | _, [], _ => ⟨[], .nil⟩
  | spreading, .field _ _ _ _ sels :: rest, h => by
    obtain ⟨sels', hsels⟩ := exists_inlines hacyclic spreading sels (h.inside rfl)
    obtain ⟨rest', hrest⟩ := exists_inlines hacyclic spreading rest h.tail
    exact ⟨_, .field hsels hrest⟩
  | spreading, .inline _ _ sels :: rest, h => by
    obtain ⟨sels', hsels⟩ := exists_inlines hacyclic spreading sels (h.inside rfl)
    obtain ⟨rest', hrest⟩ := exists_inlines hacyclic spreading rest h.tail
    exact ⟨_, .inline hsels hrest⟩
  | spreading, .spread name _ :: rest, h => by
    obtain ⟨rest', hrest⟩ := exists_inlines hacyclic spreading rest h.tail
    by_cases hname : name ∈ doc.fragmentNames
    · obtain ⟨c, sels, hmem⟩ := exists_fragment_of_mem_fragmentNames hname
      have hidle : doc.idleFragments (name :: spreading) < doc.idleFragments spreading :=
        countUnused_cons_lt hname h.not_mem
      obtain ⟨sels', hsels⟩ :=
        exists_inlines hacyclic (name :: spreading) sels (h.fragment hacyclic hmem)
      exact ⟨_, .defined hmem hsels hrest⟩
    · exact ⟨_, .undefined hname hrest⟩
termination_by spreading sels => (doc.idleFragments spreading, sizeOf sels)

theorem exists_isInlined (hacyclic : doc.IsAcyclic) : ∃ doc', doc.IsInlined doc' := by
  have hall (ds : List Definition) : ∃ ds', List.Forall₂ doc.InlinesDefinition ds ds' := by
    induction ds with
    | nil => exact ⟨[], .nil⟩
    | cons d ds ih =>
      obtain ⟨ds', hds⟩ := ih
      cases d with
      | operation op name? sels =>
        obtain ⟨sels', hsels⟩ := exists_inlines hacyclic [] sels (clear_nil doc sels)
        exact ⟨_, .cons (.operation hsels) hds⟩
      | fragment name c sels =>
        obtain ⟨sels', hsels⟩ := exists_inlines hacyclic [] sels (clear_nil doc sels)
        exact ⟨_, .cons (.fragment hsels) hds⟩
  exact hall doc

theorem pathsOfSelections_append (s : Schema) (doc : Document) (spreading : List String)
    (t : TypeDef) (path : FieldPath) (sels rest : List Selection) :
    pathsOfSelections s doc spreading t path (sels ++ rest) =
      pathsOfSelections s doc spreading t path sels ++
        pathsOfSelections s doc spreading t path rest := by
  induction sels with
  | nil => rw [pathsOfSelections]; rfl
  | cons sel sels ih =>
    rw [List.cons_append, pathsOfSelections, ih, pathsOfSelections, List.append_assoc]

/-- Written out, selections have the paths they have while none of the fragments they reach is
being spread. What else the document holds does not matter to selections without spreads. -/
theorem Inlines.pathsOfSelections_eq {s : Schema} {doc' : Document} {sels' : List Selection}
    (hdistinct : doc.fragmentNames.Nodup) (hacyclic : doc.IsAcyclic) (h : doc.Inlines sels sels') :
    ∀ {spreading}, doc.Clear spreading sels → ∀ (t : TypeDef) (path : FieldPath),
      pathsOfSelections s doc' [] t path sels' = pathsOfSelections s doc spreading t path sels := by
  induction h with
  | nil =>
    intro spreading _ t path
    rw [pathsOfSelections, pathsOfSelections]
  | @field alias? name args directives sels sels' rest rest' _ _ ih ihrest =>
    intro spreading hclear t path
    rw [pathsOfSelections, pathsOfSelections, ihrest hclear.tail]
    congr 1
    cases hf : t.field? name with
    | none => simp only [pathsOfSelection_field_of_unknown hf]
    | some f =>
      cases hinner : s.objectOf? f with
      | none => simp only [pathsOfSelection_field_of_leaf hf hinner]
      | some inner =>
        simp only [pathsOfSelection_field_of_object hf hinner, ih (hclear.inside rfl)]
  | inline _ _ ih ihrest =>
    intro spreading hclear t path
    rw [pathsOfSelections, pathsOfSelections, ihrest hclear.tail, pathsOfSelection_inline,
      pathsOfSelection_inline, ih (hclear.inside rfl)]
  | defined hmem _ _ ih ihrest =>
    intro spreading hclear t path
    rw [pathsOfSelections_append, pathsOfSelections, ihrest hclear.tail,
      pathsOfSelection_spread_of_defined hclear.not_mem (fragment?_of_mem hdistinct hmem),
      ih (hclear.fragment hacyclic hmem)]
  | undefined hname _ ih =>
    intro spreading hclear t path
    rw [pathsOfSelections, pathsOfSelection_spread_of_undefined (fragment?_eq_none hname),
      List.nil_append, ih hclear.tail]

theorem InlinesDefinition.pathsOfDefinition_eq {s : Schema} {doc' : Document} {d d' : Definition}
    (hdistinct : doc.fragmentNames.Nodup) (hacyclic : doc.IsAcyclic)
    (h : doc.InlinesDefinition d d') :
    pathsOfDefinition s doc' d' = pathsOfDefinition s doc d := by
  cases h with
  | fragment => rfl
  | @operation op name? sels sels' h =>
    cases hroot : s.rootType? op with
    | none => simp only [pathsOfDefinition, hroot]
    | some root =>
      simp only [pathsOfDefinition, hroot]
      exact h.pathsOfSelections_eq hdistinct hacyclic (clear_nil doc sels) root _

theorem IsInlined.paths_eq {s : Schema} {doc' : Document} (hdistinct : doc.fragmentNames.Nodup)
    (hacyclic : doc.IsAcyclic) (h : doc.IsInlined doc') : doc'.paths s = doc.paths s := by
  have hall {ds ds' : List Definition} (h : List.Forall₂ doc.InlinesDefinition ds ds') :
      ds'.flatMap (pathsOfDefinition s doc') = ds.flatMap (pathsOfDefinition s doc) := by
    induction h with
    | nil => rfl
    | cons hd _ ih =>
      rw [List.flatMap_cons, List.flatMap_cons, hd.pathsOfDefinition_eq hdistinct hacyclic, ih]
  rw [paths, paths, hall h]

theorem IsInlined.spreadsOf_eq_nil {doc' : Document} (h : doc.IsInlined doc') {d' : Definition}
    (hd' : d' ∈ doc') : spreadsOf d'.selections = [] := by
  obtain ⟨d, -, hdd'⟩ := mem_right_of_forall₂ h d' hd'
  cases hdd' with
  | operation h => exact h.spreadsOf_eq_nil
  | fragment h => exact h.spreadsOf_eq_nil

/-- A fragment with a spread of another and one of a fragment that is missing. -/
def nestedSpreads : Document :=
  [.operation .query none [.field none "user" [] [] [.spread "person" []]],
    .fragment "person" "User"
      [.field none "friend" [] [] [.spread "named" [], .spread "gone" []], .spread "named" []],
    .fragment "named" "User" [.field none "name" [] [] []]]

def nestedFields : Document :=
  [.operation .query none
      [.field none "user" [] []
        [.field none "friend" [] [] [.field none "name" [] [] []], .field none "name" [] [] []]],
    .fragment "person" "User"
      [.field none "friend" [] [] [.field none "name" [] [] []], .field none "name" [] [] []],
    .fragment "named" "User" [.field none "name" [] [] []]]

theorem isAcyclic_nestedSpreads : nestedSpreads.IsAcyclic := by
  refine isAcyclic_of_rank
    (fun name => if name = "person" then 2 else if name = "named" then 1 else 0) ?_
  rintro a b ⟨c, sels, hmem, hb⟩
  simp only [nestedSpreads, List.mem_cons, List.not_mem_nil, reduceCtorEq, false_or, or_false,
    Definition.fragment.injEq] at hmem
  rcases hmem with ⟨rfl, rfl, rfl⟩ | ⟨rfl, rfl, rfl⟩
  · have hb : b = "named" ∨ b = "gone" ∨ b = "named" := by
      simpa [spreadsOf, Selection.spreads] using hb
    rcases hb with rfl | rfl | rfl <;> decide
  · simp [spreadsOf, Selection.spreads] at hb

theorem isInlined_nestedSpreads : nestedSpreads.IsInlined nestedFields := by
  have hnamed : Definition.fragment "named" "User" [.field none "name" [] [] []] ∈ nestedSpreads :=
    by simp [nestedSpreads]
  have hperson : Definition.fragment "person" "User"
      [.field none "friend" [] [] [.spread "named" [], .spread "gone" []], .spread "named" []] ∈
        nestedSpreads := by simp [nestedSpreads]
  have hname : nestedSpreads.Inlines [.field none "name" [] [] []] [.field none "name" [] [] []] :=
    .field .nil .nil
  have hfriend : nestedSpreads.Inlines
      [.field none "friend" [] [] [.spread "named" [], .spread "gone" []], .spread "named" []]
      [.field none "friend" [] [] [.field none "name" [] [] []], .field none "name" [] [] []] :=
    .field (.defined hnamed hname (.undefined (by decide) .nil)) (.defined hnamed hname .nil)
  exact .cons (.operation (.field (.defined hperson hfriend .nil) .nil))
    (.cons (.fragment hfriend) (.cons (.fragment hname) .nil))

/-- Whatever fragments a document defines and spreads, the walk along it ends. If no fragment
spreads itself, directly or through others, and their names are distinct, every spread can be
replaced by the selections of its fragment, and the paths stay the same. -/
theorem walk_ends_with_inlined_paths (s : Schema) (doc : Document) :
    (∃ found, (Walk.next s doc)^[doc.greatestWalk] (doc.walk s) = ⟨found, []⟩ ∧
      doc.paths s = SortedSet.ofList found) ∧
    (doc.fragmentNames.Nodup → doc.IsAcyclic →
      (∃ doc', doc.IsInlined doc') ∧
      ∀ doc', doc.IsInlined doc' →
        (∀ d ∈ doc', spreadsOf d.selections = []) ∧ doc'.paths s = doc.paths s) := by
  refine ⟨⟨_, walk_ends s doc, rfl⟩, fun hdistinct hacyclic => ⟨exists_isInlined hacyclic, ?_⟩⟩
  intro doc' h
  exact ⟨fun d hd => h.spreadsOf_eq_nil hd, h.paths_eq hdistinct hacyclic⟩

theorem walk_ends_nestedSpreads :
    nestedSpreads.fragmentNames.Nodup ∧ nestedSpreads.IsAcyclic ∧
      nestedSpreads.IsInlined nestedFields ∧
        nestedFields.paths SelectionMap.friends = nestedSpreads.paths SelectionMap.friends := by
  have hdistinct : nestedSpreads.fragmentNames.Nodup := by decide
  obtain ⟨-, hall⟩ :=
    (walk_ends_with_inlined_paths SelectionMap.friends nestedSpreads).2 hdistinct
      isAcyclic_nestedSpreads
  exact ⟨hdistinct, isAcyclic_nestedSpreads, isInlined_nestedSpreads,
    (hall nestedFields isInlined_nestedSpreads).2⟩

end Document

end QueryPicker
