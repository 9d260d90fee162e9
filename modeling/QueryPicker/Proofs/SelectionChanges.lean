import Mathlib
import QueryPicker.Picker.Basic
import QueryPicker.Proofs.MaximalPaths
import QueryPicker.Proofs.SelectedPaths

/-!
# Changes of a selection

Which paths are selected after clicks have been written to a selection and after a text has restated
it. A batch that does not count as a change has left the selection as it was, so the selection of a
session is always the one that was written last.
-/

namespace QueryPicker

namespace Schema

variable {s : Schema}

theorem resolveFrom?_of_selects {t : TypeDef} {names : List String} (hne : names ≠ [])
    (h : s.Selects t names) : (s.resolveFrom? t names).isSome = true := by
  induction names generalizing t with
  | nil => exact absurd rfl hne
  | cons name names ih =>
    obtain ⟨f, hf, hnames⟩ := h
    by_cases hnil : names = []
    · subst hnil
      rw [resolveFrom?, hf]
      rfl
    · obtain ⟨inner, hinner, hrest⟩ := hnames.resolve_left hnil
      have htype : s.typeNamed? f.type.innerName = some inner :=
        (Option.filter_eq_some_iff.mp hinner).1
      rw [resolveFrom?, hf]
      · simpa [htype] using ih hnil hrest
      · exact fun heq => hnil heq

theorem resolve?_marker {op : Operation} {root : TypeDef} (hroot : s.rootType? op = some root)
    (names : List String) : s.resolve? (op.marker :: names) = s.resolveFrom? root names := by
  have hop : FieldPath.operation? (op.marker :: names) = some op := Operation.ofMarker?_marker op
  rw [resolve?, hop, Option.bind_eq_bind, Option.bind_some, hroot]
  rfl

/-- A path that can be selected leads to a field. -/
theorem isSome_resolve? {p : FieldPath} (h : s.Selectable p) (hlength : 2 ≤ p.length) :
    (s.resolve? p).isSome = true := by
  obtain ⟨op, root, names, hroot, rfl, hselects⟩ := h
  have hne : names ≠ [] := by
    rintro rfl
    simp at hlength
  rw [resolve?_marker hroot]
  exact resolveFrom?_of_selects hne hselects

end Schema

namespace SelectionMap

variable {m : SelectionMap} {s : SelectedField} {p q : FieldPath}

theorem eq_of_entries {m m' : SelectionMap} (h : m.entries = m'.entries) : m = m' := by
  cases m
  cases m'
  cases h
  rfl

theorem mem_entries_insert {x : SelectedField} (h : x ∈ (m.insert s).1.entries) :
    x = s ∨ x ∈ m.entries := by
  unfold insert at h
  split at h
  · exact Or.inr h
  · exact mem_insertSelected h

theorem mem_insertSelected_self (s : SelectedField) (ts : List SelectedField) :
    s ∈ insertSelected s ts := by
  induction ts with
  | nil => simp [insertSelected]
  | cons t ts ih =>
    unfold insertSelected
    split
    · exact List.mem_cons_self
    · split
      · exact List.mem_cons_self
      · exact List.mem_cons_of_mem t ih

/-- What is selected once the field is stored in place of what is at its path. -/
def overwritten : SelectionMap → SelectedField → SelectionMap
  | ⟨entries, sorted⟩, s => ⟨insertSelected s entries, sorted_insertSelected sorted⟩

theorem mem_overwritten (m : SelectionMap) (s : SelectedField) : s ∈ (m.overwritten s).entries :=
  mem_insertSelected_self s m.entries

theorem insert_eq (m : SelectionMap) (s : SelectedField) : m.insert s =
    if (m.get? s.path).any (·.same s) then (m, false) else (m.overwritten s, true) := rfl

theorem insert_of_changed (h : (m.insert s).2 = true) : (m.insert s).1 = m.overwritten s := by
  rw [insert_eq] at h ⊢
  split at h
  · cases h
  · rename_i hnew
    rw [if_neg hnew]

theorem mem_insertSelected_of_mem {x : SelectedField} {ts : List SelectedField}
    (hx : x ∈ ts) (hne : x.path ≠ s.path) : x ∈ insertSelected s ts := by
  induction ts with
  | nil => cases hx
  | cons t ts ih =>
    unfold insertSelected
    split
    · exact List.mem_cons_of_mem s hx
    · split
      · rename_i heq
        rcases List.mem_cons.mp hx with rfl | hx
        · exact absurd heq.symm hne
        · exact List.mem_cons_of_mem s hx
      · rcases List.mem_cons.mp hx with rfl | hx
        · exact List.mem_cons_self
        · exact List.mem_cons_of_mem t (ih hx)

theorem mem_insert_of_mem {x : SelectedField} (hx : x ∈ m.entries) (hne : x.path ≠ s.path) :
    x ∈ (m.insert s).1.entries := by
  unfold insert
  split
  · exact hx
  · exact mem_insertSelected_of_mem hx hne

theorem mem_paths_insertSelected (s : SelectedField) (ts : List SelectedField) :
    q ∈ (insertSelected s ts).map (·.path) ↔ q = s.path ∨ q ∈ ts.map (·.path) := by
  induction ts with
  | nil => simp [insertSelected]
  | cons t ts ih =>
    unfold insertSelected
    split
    · simp
    · split
      · rename_i heq
        simp [heq]
      · rw [List.map_cons, List.mem_cons, ih, List.map_cons, List.mem_cons]
        exact or_left_comm

theorem mem_paths_insert : q ∈ (m.insert s).1.paths ↔ q = s.path ∨ q ∈ m.paths := by
  unfold insert
  split
  · rename_i hsame
    obtain ⟨t, hget⟩ := Option.isSome_iff_exists.mp (Option.isSome_of_any hsame)
    obtain ⟨ht, hpath⟩ := get?_eq_some_iff.mp hget
    refine ⟨Or.inr, ?_⟩
    rintro (rfl | hq)
    · exact mem_paths.mpr ⟨t, ht, hpath⟩
    · exact hq
  · exact mem_paths_insertSelected s m.entries

theorem mem_paths_filter {keep : SelectedField → Bool} :
    q ∈ (m.filter keep).paths ↔ ∃ x ∈ m.entries, keep x = true ∧ x.path = q := by
  simp only [paths, filter, List.mem_map, List.mem_filter, and_assoc]

theorem mem_paths_remove : q ∈ (m.remove p).1.paths ↔ q ∈ m.paths ∧ q ≠ p := by
  rw [remove, mem_paths_filter, mem_paths]
  constructor
  · rintro ⟨x, hx, hkeep, rfl⟩
    exact ⟨⟨x, hx, rfl⟩, by simpa using hkeep⟩
  · rintro ⟨⟨x, hx, rfl⟩, hne⟩
    exact ⟨x, hx, by simpa using hne, rfl⟩

/-- Removing from a path on leaves what does not start with the path. -/
theorem entries_removeFrom (m : SelectionMap) (p : FieldPath) :
    (m.removeFrom p).1.entries = m.entries.filter fun x => !decide (p <+: x.path) := by
  apply List.filter_congr
  intro x hx
  have hdoomed : x.path ∈ (m.atOrBelow p).map (·.path) ↔ p <+: x.path := by
    rw [List.mem_map]
    constructor
    · rintro ⟨y, hy, hpath⟩
      exact hpath ▸ (mem_atOrBelow.mp hy).2
    · intro hstart
      exact ⟨x, mem_atOrBelow.mpr ⟨hx, hstart⟩, rfl⟩
  rw [Bool.not_inj_iff, Bool.eq_iff_iff, List.contains_iff_mem, decide_eq_true_iff]
  exact hdoomed

theorem mem_paths_removeFrom : q ∈ (m.removeFrom p).1.paths ↔ q ∈ m.paths ∧ ¬ p <+: q := by
  rw [mem_paths, entries_removeFrom, mem_paths]
  constructor
  · rintro ⟨x, hx, rfl⟩
    obtain ⟨hx, hkeep⟩ := List.mem_filter.mp hx
    exact ⟨⟨x, hx, rfl⟩, by simpa using hkeep⟩
  · rintro ⟨⟨x, hx, rfl⟩, hnot⟩
    exact ⟨x, List.mem_filter.mpr ⟨hx, by simpa using hnot⟩, rfl⟩

theorem filter_eq_self {keep : SelectedField → Bool} (h : ∀ x ∈ m.entries, keep x = true) :
    m.filter keep = m :=
  eq_of_entries (List.filter_eq_self.mpr h)

theorem remove_of_not_isSelected (h : m.isSelected p = false) : (m.remove p).1 = m := by
  apply filter_eq_self
  intro x hx
  have hne : x.path ≠ p := by
    rintro rfl
    have hselected := isSelected_iff.mpr (mem_paths.mpr ⟨x, hx, rfl⟩)
    rw [h] at hselected
    cases hselected
  simpa using hne

theorem removeFrom_of_eq_zero (h : (m.removeFrom p).2 = 0) : (m.removeFrom p).1 = m := by
  have hnil : (m.atOrBelow p).map (·.path) = [] := List.length_eq_zero_iff.mp h
  apply filter_eq_self
  intro x _
  rw [hnil]
  rfl

theorem insert_of_unchanged (h : (m.insert s).2 = false) : (m.insert s).1 = m := by
  unfold insert at h ⊢
  split
  · rfl
  · rename_i hsame
    rw [if_neg hsame] at h
    cases h

theorem clear_of_unchanged (h : m.clear.2 = false) : m.clear.1 = m := by
  have hnil : m.entries = [] := by simpa [clear, isEmpty] using h
  exact (eq_of_entries hnil).symm

end SelectionMap

namespace Batch

variable {m : SelectionMap} {P Q : SelectedField → Prop} {b : Batch} {p q : FieldPath}

/-- A batch on a selection: if it is no change, the selection is still the same, and all that is
selected has a property. -/
structure Keeps (m : SelectionMap) (P : SelectedField → Prop) (b : Batch) : Prop where
  unchanged : b.changed = false → b.selections = m
  all : ∀ x ∈ b.selections.entries, P x

theorem keeps_start (h : ∀ x ∈ m.entries, P x) : Keeps m P (start m) := ⟨fun _ => rfl, h⟩

/-- A single edit, which is a change unless it leaves the selection as it is. -/
theorem Keeps.edit (h : Keeps m Q b) {b' : Batch} {edits : Bool}
    (hchanged : b'.changed = (b.changed || edits))
    (hsame : edits = false → b'.selections = b.selections)
    (hall : ∀ x ∈ b'.selections.entries, P x) : Keeps m P b' := by
  constructor
  · intro hnot
    rw [hchanged, Bool.or_eq_false_iff] at hnot
    exact (hsame hnot.2).trans (h.unchanged hnot.1)
  · exact hall

theorem Keeps.add (h : Keeps m P b) {s : SelectedField} (hs : P s) : Keeps m P (b.add s).1 := by
  apply h.edit rfl SelectionMap.insert_of_unchanged
  intro x hx
  rcases SelectionMap.mem_entries_insert hx with rfl | hx
  · exact hs
  · exact h.all x hx

theorem Keeps.addIfMissing (h : Keeps m P b) {f : Field} (hs : P ⟨p, f, none⟩) :
    Keeps m P (b.addIfMissing p f) := by
  unfold Batch.addIfMissing
  split
  · exact h
  · exact h.add hs

theorem Keeps.remove (h : Keeps m P b) (p : FieldPath) : Keeps m P (b.remove p).1 := by
  apply h.edit rfl SelectionMap.remove_of_not_isSelected
  intro x hx
  exact h.all x (List.mem_filter.mp hx).1

theorem Keeps.removeFrom (h : Keeps m P b) (p : FieldPath) : Keeps m P (b.removeFrom p).1 := by
  have hsame : decide (0 < (b.selections.removeFrom p).2) = false →
      (b.selections.removeFrom p).1 = b.selections := by
    intro hcount
    have hzero : (b.selections.removeFrom p).2 = 0 := by simpa using hcount
    exact SelectionMap.removeFrom_of_eq_zero hzero
  apply h.edit rfl hsame
  intro x hx
  exact h.all x (List.mem_filter.mp hx).1

/-- After clearing it does not matter what was selected. -/
theorem Keeps.clear (h : Keeps m Q b) : Keeps m P b.clear.1 := by
  apply h.edit rfl SelectionMap.clear_of_unchanged
  intro x hx
  cases hx

theorem Keeps.apply (h : Keeps m (fun _ => True) b) (e : Edit) :
    Keeps m (fun _ => True) (b.apply e).1 := by
  cases e with
  | add s => exact h.add trivial
  | remove p => exact h.remove p
  | removeFrom p => exact h.removeFrom p
  | clear => exact h.clear
  | isSelected p => exact h

theorem Keeps.applyAll (h : Keeps m (fun _ => True) b) (edits : List Edit) :
    Keeps m (fun _ => True) (b.applyAll edits).1 := by
  induction edits generalizing b with
  | nil => exact h
  | cons e edits ih => exact ih (h.apply e)

theorem Keeps.foldl {α : Type} {step : Batch → α → Batch} {as : List α} (h : Keeps m P b)
    (hstep : ∀ a ∈ as, ∀ b, Keeps m P b → Keeps m P (step b a)) : Keeps m P (as.foldl step b) := by
  induction as generalizing b with
  | nil => exact h
  | cons a as ih =>
    exact ih (hstep a List.mem_cons_self b h) fun a' ha' => hstep a' (List.mem_cons_of_mem a ha')

theorem mem_paths_addIfMissing {f : Field} :
    q ∈ (b.addIfMissing p f).selections.paths ↔ q = p ∨ q ∈ b.selections.paths := by
  unfold addIfMissing
  split
  · rename_i hselected
    refine ⟨Or.inr, ?_⟩
    rintro (rfl | hq)
    · exact SelectionMap.isSelected_iff.mp hselected
    · exact hq
  · exact SelectionMap.mem_paths_insert

/-- The part of a change of marks that one node reports. -/
def followNode (b : Batch) (info : NodeInfo) : Batch :=
  match info.state, info.field? with
  | .checked, some f => b.addIfMissing info.path f
  | .checked, none => b
  | _, _ => (b.remove info.path).1

theorem follow_eq (b : Batch) (change : TreeChange) :
    b.follow change = change.changed.foldl followNode
      (if change.targetState = .unchecked then (b.removeFrom change.targetPath).1 else b) := by
  unfold follow followNode
  cases change.targetState <;> rfl

theorem keeps_followNode (h : Keeps m P b) {info : NodeInfo}
    (hinfo : ∀ f, info.field? = some f → P ⟨info.path, f, none⟩) :
    Keeps m P (b.followNode info) := by
  unfold followNode
  split
  · rename_i f _ hfield
    exact h.addIfMissing (hinfo f hfield)
  · exact h
  · exact h.remove info.path

theorem keeps_follow (h : Keeps m P b) {change : TreeChange}
    (hchange : ∀ x ∈ change.changed, ∀ f, x.field? = some f → P ⟨x.path, f, none⟩) :
    Keeps m P (b.follow change) := by
  rw [follow_eq]
  apply Keeps.foldl
  · split
    · exact h.removeFrom change.targetPath
    · exact h
  · intro x hx b hb
    exact keeps_followNode hb (hchange x hx)

/-- What one node reports settles whether its own path is selected. -/
theorem mem_paths_followNode {info : NodeInfo}
    (hfield : info.field?.isSome = true ↔ 2 ≤ info.path.length) (hq : 2 ≤ q.length) :
    q ∈ (b.followNode info).selections.paths ↔
      if q = info.path then info.state = .checked else q ∈ b.selections.paths := by
  unfold followNode
  split
  · rename_i f hstate _
    rw [mem_paths_addIfMissing]
    split <;> simp_all
  · rename_i hstate hnone
    have hne : q ≠ info.path := by
      rintro rfl
      rw [← hfield, hnone] at hq
      cases hq
    rw [if_neg hne]
  · rename_i hstate hsome
    have hmem : q ∈ (b.remove info.path).1.selections.paths ↔
        q ∈ b.selections.paths ∧ q ≠ info.path := SelectionMap.mem_paths_remove
    have hnot : info.state ≠ .checked := by
      intro hchecked
      cases hfield? : info.field? with
      | none => exact hsome hchecked hfield?
      | some f => exact hstate f hchecked hfield?
    rw [hmem]
    split <;> simp_all

theorem mem_paths_foldl_followNode {mark : FieldPath → CheckState} {infos : List NodeInfo}
    (hinfos : ∀ x ∈ infos, mark x.path = x.state ∧ (x.field?.isSome = true ↔ 2 ≤ x.path.length))
    (hq : 2 ≤ q.length) : q ∈ (infos.foldl followNode b).selections.paths ↔
      ((∃ x ∈ infos, x.path = q) ∧ mark q = .checked) ∨
        ((∀ x ∈ infos, x.path ≠ q) ∧ q ∈ b.selections.paths) := by
  induction infos generalizing b with
  | nil => simp
  | cons x infos ih =>
    obtain ⟨hmark, hfield⟩ := hinfos x List.mem_cons_self
    rw [List.foldl_cons, ih fun y hy => hinfos y (List.mem_cons_of_mem x hy),
      mem_paths_followNode hfield hq]
    by_cases hx : x.path = q
    · subst hx
      by_cases hall : ∀ y ∈ infos, y.path ≠ x.path
      · simp_all
      · simp_all
    · have hx' : q ≠ x.path := fun heq => hx heq.symm
      simp [hx, hx']

/-- A path is selected after a change of marks if it was reported as checked, or was selected before
and neither reported nor, when something was unchecked, at or below that. -/
theorem mem_paths_follow {mark : FieldPath → CheckState} {change : TreeChange}
    (hchange : ∀ x ∈ change.changed,
      mark x.path = x.state ∧ (x.field?.isSome = true ↔ 2 ≤ x.path.length))
    (hq : 2 ≤ q.length) : q ∈ (b.follow change).selections.paths ↔
      ((∃ x ∈ change.changed, x.path = q) ∧ mark q = .checked) ∨
        ((∀ x ∈ change.changed, x.path ≠ q) ∧ q ∈ b.selections.paths ∧
          ¬ (change.targetState = .unchecked ∧ change.targetPath <+: q)) := by
  rw [follow_eq, mem_paths_foldl_followNode hchange hq]
  apply or_congr_right
  apply and_congr_right
  intro _
  split
  · rename_i hstate
    have hmem : q ∈ (b.removeFrom change.targetPath).1.selections.paths ↔
        q ∈ b.selections.paths ∧ ¬ change.targetPath <+: q := SelectionMap.mem_paths_removeFrom
    rw [hmem]
    simp [hstate]
  · rename_i hstate
    simp [hstate]

/-- Adds the field of the schema for a path. -/
def addResolved (schema : Schema) (b : Batch) (p : FieldPath) : Batch :=
  match schema.resolve? p with
  | some f => (b.add ⟨p, f, none⟩).1
  | none => b

/-- Adds the field of a node. -/
def addNode (b : Batch) (info : NodeInfo) : Batch :=
  match info.field? with
  | some f => b.addIfMissing info.path f
  | none => b

theorem restate_eq (b : Batch) (schema : Schema) (ps : List FieldPath) (checked : List NodeInfo) :
    b.restate schema ps checked = checked.foldl addNode (ps.foldl (addResolved schema) b.clear.1) :=
  rfl

theorem keeps_restate {schema : Schema} {ps : List FieldPath} {checked : List NodeInfo}
    (h : Keeps m Q b) (hps : ∀ p ∈ ps, ∀ f, schema.resolve? p = some f → P ⟨p, f, none⟩)
    (hchecked : ∀ x ∈ checked, ∀ f, x.field? = some f → P ⟨x.path, f, none⟩) :
    Keeps m P (b.restate schema ps checked) := by
  rw [restate_eq]
  apply Keeps.foldl
  · apply h.clear.foldl
    intro p hp b hb
    unfold addResolved
    split
    · rename_i f hf
      exact hb.add (hps p hp f hf)
    · exact hb
  · intro x hx b hb
    unfold addNode
    split
    · rename_i f hfield
      exact hb.addIfMissing (hchecked x hx f hfield)
    · exact hb

theorem mem_paths_foldl {α : Type} {step : Batch → α → Batch} {as : List α} (path : α → FieldPath)
    (hstep : ∀ a ∈ as, ∀ b, q ∈ (step b a).selections.paths ↔ path a = q ∨ q ∈ b.selections.paths) :
    q ∈ (as.foldl step b).selections.paths ↔
      (∃ a ∈ as, path a = q) ∨ q ∈ b.selections.paths := by
  induction as generalizing b with
  | nil => simp
  | cons a as ih =>
    rw [List.foldl_cons, ih fun a' ha' => hstep a' (List.mem_cons_of_mem a ha'),
      hstep a List.mem_cons_self b]
    simp only [List.mem_cons, exists_eq_or_imp]
    exact ⟨fun h => or_assoc.mpr (or_left_comm.mp h), fun h => or_left_comm.mp (or_assoc.mp h)⟩

/-- After a text has been read, the selected paths are those of the text and of the checked
fields. -/
theorem mem_paths_restate {schema : Schema} {ps : List FieldPath} {checked : List NodeInfo}
    (hps : ∀ p ∈ ps, (schema.resolve? p).isSome = true)
    (hchecked : ∀ x ∈ checked, x.field?.isSome = true ↔ 2 ≤ x.path.length) (hq : 2 ≤ q.length) :
    q ∈ (b.restate schema ps checked).selections.paths ↔ q ∈ ps ∨ ∃ x ∈ checked, x.path = q := by
  have hclear : q ∉ b.clear.1.selections.paths := by
    show q ∉ SelectionMap.empty.paths
    simp [SelectionMap.paths, SelectionMap.empty]
  have hresolved : ∀ p ∈ ps, ∀ b : Batch, q ∈ (addResolved schema b p).selections.paths ↔
      p = q ∨ q ∈ b.selections.paths := by
    intro p hp b
    obtain ⟨f, hf⟩ := Option.isSome_iff_exists.mp (hps p hp)
    have hadd : q ∈ (b.add ⟨p, f, none⟩).1.selections.paths ↔ q = p ∨ q ∈ b.selections.paths :=
      SelectionMap.mem_paths_insert
    rw [addResolved, hf, eq_comm]
    exact hadd
  have hnode : ∀ x ∈ checked, ∀ b : Batch, q ∈ (addNode b x).selections.paths ↔
      x.path = q ∨ q ∈ b.selections.paths := by
    intro x hx b
    unfold addNode
    split
    · rw [mem_paths_addIfMissing, eq_comm]
    · rename_i hnone
      have hne : x.path ≠ q := by
        rintro rfl
        rw [← hchecked x hx, hnone] at hq
        cases hq
      simp [hne]
  rw [restate_eq, mem_paths_foldl (·.path) hnode, mem_paths_foldl id hresolved]
  simp [hclear, or_comm]

end Batch

end QueryPicker
