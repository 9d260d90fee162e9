import Mathlib
import QueryPicker.Proofs.SelectionChanges
import QueryPicker.Proofs.TreeChanges

/-!
# Marks and selected paths

What a picker keeps of the agreement between its tree and its selection. A checked field is
selected. A selected field that is shown is not unchecked, unless something is selected below it
that the tree does not show. Clicks keep this, and reading a text establishes it.
-/

namespace QueryPicker

open SelectionTree

/-- The marks of a tree go with the selected paths. -/
structure MarksAgree (b : TreeBounds) (mark : FieldPath → CheckState) (ps : List FieldPath) :
    Prop where
  checked : ∀ q, b.ShowsPath q → mark q = .checked → 2 ≤ q.length → q ∈ ps
  unchecked : ∀ q ∈ ps, b.ShowsPath q → mark q = .unchecked →
    ∃ r ∈ ps, q <+: r ∧ ¬ b.ShowsPath r

/-- What a picker stores: a field along the schema, without arguments. -/
structure IsStored (schema : Schema) (x : SelectedField) : Prop where
  selectable : schema.Selectable x.path
  length : 2 ≤ x.path.length
  args : x.args? = none

variable {t t' : SelectionTree} {m : SelectionMap} {s : CheckState} {target : FieldPath}
  {changed : List NodeInfo}

theorem MarksAgree.of_eq {b : TreeBounds} {mark mark' : FieldPath → CheckState}
    {ps : List FieldPath} (h : MarksAgree b mark ps)
    (heq : ∀ q, b.ShowsPath q → mark' q = mark q) : MarksAgree b mark' ps := by
  constructor
  · intro q hq hmark
    rw [heq q hq] at hmark
    exact h.checked q hq hmark
  · intro q hmem hq hmark
    rw [heq q hq] at hmark
    exact h.unchecked q hmem hq hmark

theorem marksAgree_nil {b : TreeBounds} {mark : FieldPath → CheckState}
    (h : ∀ q, mark q = .unchecked) : MarksAgree b mark [] := by
  constructor
  · intro q _ hmark
    rw [h q] at hmark
    cases hmark
  · intro q hq
    cases hq

/-- What the nodes that a click reports say about their paths. -/
theorem SelectionTree.SetsMarkAt.changed_spec (h : SetsMarkAt s t target t' changed)
    (hdistinct : t.bounds.schema.DistinctFields) {x : NodeInfo} (hx : x ∈ changed) :
    t.bounds.ShowsPath x.path ∧ t'.markAt x.path = x.state ∧
      (x.field?.isSome = true ↔ 2 ≤ x.path.length) := by
  have hdistinct' : t'.bounds.schema.DistinctFields := by
    rw [h.bounds]
    exact hdistinct
  have hspec := h.grown.node_spec hdistinct' (h.reported x hx)
  rw [h.bounds] at hspec
  exact hspec

/-- A mark that is not reported is the one from before. -/
theorem SelectionTree.SetsMarkAt.markAt_of_not_reported (h : SetsMarkAt s t target t' changed)
    {q : FieldPath} (hq : t.bounds.ShowsPath q) (hnone : ∀ x ∈ changed, x.path ≠ q) :
    t'.markAt q = t.markAt q := by
  by_contra hdiffers
  obtain ⟨x, hx, hpath⟩ := h.complete q hq hdiffers
  exact hnone x hx hpath

theorem isStored_of_showsPath {b : TreeBounds} {x : NodeInfo} (hshows : b.ShowsPath x.path)
    (hfield : x.field?.isSome = true ↔ 2 ≤ x.path.length) :
    ∀ f, x.field? = some f → IsStored b.schema ⟨x.path, f, none⟩ := by
  intro f hf
  refine ⟨hshows.selectable, hfield.mp ?_, rfl⟩
  rw [hf]
  rfl

theorem length_of_stored {schema : Schema} (h : ∀ x ∈ m.entries, IsStored schema x) :
    ∀ q ∈ m.paths, 2 ≤ q.length := by
  intro q hq
  obtain ⟨x, hx, rfl⟩ := SelectionMap.mem_paths.mp hq
  exact (h x hx).length

theorem keeps_click (hdistinct : t.bounds.schema.DistinctFields)
    (hstored : ∀ x ∈ m.entries, IsStored t.bounds.schema x)
    (hsets : SetsMarkAt s t target t' changed) (id : Nat) :
    Batch.Keeps m (IsStored t.bounds.schema)
      ((Batch.start m).follow ⟨id, target, s, changed⟩) := by
  apply Batch.keeps_follow (Batch.keeps_start hstored)
  intro x hx
  obtain ⟨hshows, -, hfield⟩ := hsets.changed_spec hdistinct hx
  exact isStored_of_showsPath hshows hfield

/-- A click that changes no mark. -/
theorem marksAgree_of_silent (h : MarksAgree t.bounds t.markAt m.paths)
    (hsets : SetsMarkAt s t target t' []) : MarksAgree t.bounds t'.markAt m.paths := by
  apply h.of_eq
  intro q hq
  exact hsets.markAt_of_not_reported hq (by simp)

/-- A click that changes marks, once it has been written to the selection. -/
theorem marksAgree_follow (hgrown : t.IsGrown) (hdistinct : t.bounds.schema.DistinctFields)
    (hstored : ∀ x ∈ m.entries, IsStored t.bounds.schema x)
    (h : MarksAgree t.bounds t.markAt m.paths) (hsets : SetsMarkAt s t target t' changed)
    (hne : changed ≠ []) (id : Nat) :
    MarksAgree t.bounds t'.markAt
      ((Batch.start m).follow ⟨id, target, s, changed⟩).selections.paths := by
  have hmem : ∀ q : FieldPath, 2 ≤ q.length →
      (q ∈ ((Batch.start m).follow ⟨id, target, s, changed⟩).selections.paths ↔
        ((∃ x ∈ changed, x.path = q) ∧ t'.markAt q = .checked) ∨
          ((∀ x ∈ changed, x.path ≠ q) ∧ q ∈ m.paths ∧ ¬ (s = .unchecked ∧ target <+: q))) := by
    intro q hq
    exact Batch.mem_paths_follow (fun x hx => (hsets.changed_spec hdistinct hx).2) hq
  have hlength := length_of_stored hstored
  have hlength' := length_of_stored (keeps_click hdistinct hstored hsets id).all
  constructor
  · intro q hq hmark hqlength
    rw [hmem q hqlength]
    by_cases hreported : ∃ x ∈ changed, x.path = q
    · exact Or.inl ⟨hreported, hmark⟩
    · push Not at hreported
      refine Or.inr ⟨hreported, ?_, ?_⟩
      · rw [hsets.markAt_of_not_reported hq hreported] at hmark
        exact h.checked q hq hmark hqlength
      · rintro ⟨rfl, hstart⟩
        rw [hsets.below q hq hstart] at hmark
        cases hmark
  · intro q hqmem hq hmark
    rcases (hmem q (hlength' q hqmem)).mp hqmem with ⟨-, hchecked⟩ | ⟨hnone, hqm, hkept⟩
    · rw [hmark] at hchecked
      cases hchecked
    · rw [hsets.markAt_of_not_reported hq hnone] at hmark
      obtain ⟨r, hr, hqr, hrshows⟩ := h.unchecked q hqm hq hmark
      have hrnone : ∀ x ∈ changed, x.path ≠ r := by
        rintro x hx rfl
        exact hrshows (hsets.changed_spec hdistinct hx).1
      refine ⟨r, (hmem r (hlength r hr)).mpr (Or.inr ⟨hrnone, hr, ?_⟩), hqr, hrshows⟩
      rintro ⟨rfl, hstart⟩
      rcases List.prefix_or_prefix_of_prefix hqr hstart with hqt | htq
      · have htargetmark := hgrown.markAt_of_start hq.ne_nil hmark hqt
        exact hne (hsets.silent htargetmark)
      · exact hkept ⟨rfl, htq⟩

theorem checkedNodes_spec (hgrown : t.IsGrown) (hdistinct : t.bounds.schema.DistinctFields)
    {x : NodeInfo} (hx : x ∈ t.checkedNodes) : t.bounds.ShowsPath x.path ∧
      t.markAt x.path = .checked ∧ (x.field?.isSome = true ↔ 2 ≤ x.path.length) := by
  obtain ⟨hx, hstate⟩ := List.mem_filter.mp hx
  obtain ⟨hshows, hmark, hfield⟩ := hgrown.node_spec hdistinct hx
  exact ⟨hshows, hmark.trans (by simpa using hstate), hfield⟩

/-- The paths of the checked nodes are those that are marked as checked. -/
theorem exists_checkedNode_iff (hgrown : t.IsGrown) (hdistinct : t.bounds.schema.DistinctFields)
    {q : FieldPath} : (∃ x ∈ t.checkedNodes, x.path = q) ↔ t.markAt q = .checked := by
  constructor
  · rintro ⟨x, hx, rfl⟩
    exact (checkedNodes_spec hgrown hdistinct hx).2.1
  · intro hmark
    have hmarked : t.markAt q ≠ .unchecked := by
      rw [hmark]
      decide
    obtain ⟨x, hx, rfl, hstate⟩ := hgrown.exists_node hmarked
    refine ⟨x, List.mem_filter.mpr ⟨hx, ?_⟩, rfl⟩
    rw [hstate, hmark]
    rfl

/-- Whatever was selected before, a text leaves fields along the schema. -/
theorem keeps_text (hgrown : t.IsGrown) (hdistinct : t.bounds.schema.DistinctFields)
    {ps : List FieldPath} (hps : ∀ p ∈ ps, t.bounds.schema.Selectable p ∧ 2 ≤ p.length) :
    Batch.Keeps m (IsStored t.bounds.schema)
      ((Batch.start m).restate t.bounds.schema ps t.checkedNodes) := by
  apply Batch.keeps_restate (Batch.keeps_start (P := fun _ => True) fun _ _ => trivial)
  · intro p hp f _
    exact ⟨(hps p hp).1, (hps p hp).2, rfl⟩
  · intro x hx
    obtain ⟨hshows, -, hfield⟩ := checkedNodes_spec hgrown hdistinct hx
    exact isStored_of_showsPath hshows hfield

theorem mem_paths_text (hgrown : t.IsGrown) (hdistinct : t.bounds.schema.DistinctFields)
    {ps : List FieldPath} (hps : ∀ p ∈ ps, t.bounds.schema.Selectable p ∧ 2 ≤ p.length)
    {q : FieldPath} (hq : 2 ≤ q.length) :
    q ∈ ((Batch.start m).restate t.bounds.schema ps t.checkedNodes).selections.paths ↔
      q ∈ ps ∨ t.markAt q = .checked := by
  rw [← exists_checkedNode_iff hgrown hdistinct]
  exact Batch.mem_paths_restate (fun p hp => Schema.isSome_resolve? (hps p hp).1 (hps p hp).2)
    (fun _ hx => (checkedNodes_spec hgrown hdistinct hx).2.2) hq

/-- A tree with marks on the way to the paths of a text, and the selection restated with them. -/
theorem marksAgree_restate (hgrown : t.IsGrown) (hdistinct : t.bounds.schema.DistinctFields)
    {ps : List FieldPath}
    (hps : ∀ p ∈ ps, t.bounds.schema.Selectable p ∧ 2 ≤ p.length)
    (hmarks : ∀ p ∈ FieldPath.maximal ps, t.bounds.ShowsPath p → ∀ q, q ≠ [] → q <+: p →
      t.markAt q ≠ .unchecked) :
    MarksAgree t.bounds t.markAt
      ((Batch.start m).restate t.bounds.schema ps t.checkedNodes).selections.paths := by
  have hlength := length_of_stored (keeps_text (m := m) hgrown hdistinct hps).all
  have hmem := fun (q : FieldPath) (hq : 2 ≤ q.length) =>
    mem_paths_text (m := m) hgrown hdistinct hps hq
  constructor
  · intro q _ hmark hqlength
    exact (hmem q hqlength).mpr (Or.inr hmark)
  · intro q hqmem hq hmark
    rcases (hmem q (hlength q hqmem)).mp hqmem with hqps | hchecked
    · obtain ⟨r, hr, hqr⟩ := FieldPath.exists_maximal hqps
      have hrps := FieldPath.mem_of_mem_maximal hr
      refine ⟨r, (hmem r (hps r hrps).2).mpr (Or.inl hrps), hqr, ?_⟩
      intro hrshows
      exact hmarks r hr hrshows q hq.ne_nil hqr hmark
    · rw [hchecked] at hmark
      cases hmark

end QueryPicker
