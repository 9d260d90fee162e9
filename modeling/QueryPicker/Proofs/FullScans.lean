import Mathlib
import QueryPicker.Proofs.SelectionChanges

/-!
# Full scans

What is selected at or below a path is found in one stretch of the selection, and what every
question about the path answers is what looking at all selected paths would: none of the paths that
start with it lies outside of the stretch, also where one name starts another, and whether or not
the path itself is selected.
-/

namespace QueryPicker

namespace FieldPath

variable {p q : FieldPath}

/-- A path that starts with another and is longer goes on below it with the name that follows. -/
theorem strict_start_iff {name : String} :
    p.child name <+: q ↔ p.isStrictPrefixOf q = true ∧ q[p.length]? = some name := by
  rw [isStrictPrefixOf_iff]
  constructor
  · rintro ⟨t, rfl⟩
    rw [child_append]
    refine ⟨⟨List.prefix_append p _, ?_⟩, by simp⟩
    intro h
    simpa using congrArg List.length h
  · rintro ⟨⟨⟨t, rfl⟩, -⟩, hname⟩
    cases t with
    | nil => simp at hname
    | cons c t =>
      obtain rfl : c = name := by simpa using hname
      exact ⟨t, child_append p c t⟩

end FieldPath

namespace SelectionMap

variable {m : SelectionMap} {p : FieldPath}

theorem count_removeFrom (m : SelectionMap) (p : FieldPath) :
    (m.removeFrom p).2 = (m.paths.filter fun q => decide (p <+: q)).length := by
  have hstarts : (fun s : SelectedField => s.path.startsWith p) =
      (fun q => decide (p <+: q)) ∘ (·.path) := by
    funext s
    rw [Bool.eq_iff_iff, FieldPath.startsWith_iff, Function.comp_apply, decide_eq_true_iff]
  rw [removeFrom, List.length_map, atOrBelow_eq_filter, paths, List.filter_map, List.length_map,
    hstarts]

theorem childSelections_eq_scan (m : SelectionMap) (p : FieldPath) : m.childSelections p =
    m.entries.filter fun s => decide (p <+: s.path ∧ s.path.length = p.length + 1) := by
  rw [childSelections, atOrBelow_eq_filter, List.filter_filter]
  apply List.filter_congr
  intro s _
  rw [Bool.eq_iff_iff, Bool.and_eq_true, FieldPath.startsWith_iff, decide_eq_true_iff, beq_iff_eq]
  exact and_comm

theorem mem_childNames_iff_scan {name : String} : name ∈ m.childNames p ↔
    ∃ q ∈ m.paths, p.isStrictPrefixOf q = true ∧ q[p.length]? = some name := by
  rw [mem_childNames]
  simp only [FieldPath.strict_start_iff]

/-- What is at or below a path that is not selected is below it. -/
theorem state_eq_scan (m : SelectionMap) (p : FieldPath) : m.state p =
    if p ∈ m.paths then .checked
    else if m.paths.any p.isStrictPrefixOf then .mixed
    else .unchecked := by
  unfold state
  by_cases hselected : p ∈ m.paths
  · rw [if_pos (isSelected_iff.mpr hselected), if_pos hselected]
  · rw [if_neg (mt isSelected_iff.mp hselected), if_neg hselected]
    have hempty : (m.atOrBelow p).isEmpty = true ↔ ¬ m.paths.any p.isStrictPrefixOf = true := by
      rw [List.isEmpty_iff, List.eq_nil_iff_forall_not_mem, List.any_eq_true]
      constructor
      · rintro hnone ⟨q, hq, hstrict⟩
        obtain ⟨s, hs, rfl⟩ := mem_paths.mp hq
        exact hnone s (mem_atOrBelow.mpr ⟨hs, (FieldPath.isStrictPrefixOf_iff.mp hstrict).1⟩)
      · intro hnone s hs
        obtain ⟨hs, hstart⟩ := mem_atOrBelow.mp hs
        have hpath : s.path ∈ m.paths := mem_paths.mpr ⟨s, hs, rfl⟩
        have hne : p ≠ s.path := fun heq => hselected (heq ▸ hpath)
        exact hnone ⟨s.path, hpath, FieldPath.isStrictPrefixOf_iff.mpr ⟨hstart, hne⟩⟩
    by_cases hany : m.paths.any p.isStrictPrefixOf = true
    · rw [if_neg (mt hempty.mp (not_not.mpr hany)), if_pos hany]
    · rw [if_pos (hempty.mpr hany), if_neg hany]

/-- Removing from a path on takes away exactly the selected paths that start with it, and counts
them; the selections one segment below it are found in their order, and the names with which
selected paths go on below it each once; and the mark of the path tells whether it is selected
itself or, if not, something strictly below it is. -/
theorem range_queries_eq_scans (m : SelectionMap) (p : FieldPath) :
    (m.removeFrom p).1.entries = (m.entries.filter fun s => !decide (p <+: s.path)) ∧
      (m.removeFrom p).2 = (m.paths.filter fun q => decide (p <+: q)).length ∧
      m.childSelections p =
        (m.entries.filter fun s => decide (p <+: s.path ∧ s.path.length = p.length + 1)) ∧
      (m.childNames p).Pairwise (· < ·) ∧
      (∀ name, name ∈ m.childNames p ↔
        ∃ q ∈ m.paths, p.isStrictPrefixOf q = true ∧ q[p.length]? = some name) ∧
      m.state p =
        (if p ∈ m.paths then .checked
          else if m.paths.any p.isStrictPrefixOf then .mixed
          else .unchecked) :=
  ⟨entries_removeFrom m p, count_removeFrom m p, childSelections_eq_scan m p,
    SortedSet.sorted_ofList _, fun _ => mem_childNames_iff_scan, state_eq_scan m p⟩

/-- One name starts the other, but no path through the one starts a path through the other. -/
example :
    let m : SelectionMap := ⟨[["Query", "user"], ["Query", "user", "name"], ["Query", "users"]].map
      fun p => ⟨p, default, none⟩, by decide⟩
    m.childNames ["Query"] = ["user", "users"] ∧ m.state ["Query", "use"] = .unchecked ∧
      (m.removeFrom ["Query", "user"]).1.paths = [["Query", "users"]] := by
  decide

end SelectionMap

end QueryPicker
