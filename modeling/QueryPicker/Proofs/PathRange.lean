import Mathlib
import QueryPicker.Selection.SelectionMap

/-!
# Paths in order

All paths that go on from one path stand next to each other in the order of paths, and the path
itself stands first. What is selected at or below a path is therefore found in one stretch, and the
questions about a selection are questions about the paths that start with a given one.
-/

namespace QueryPicker

namespace FieldPath

variable {p q a b : FieldPath}

theorem child_append (p : FieldPath) (name : String) (names : List String) :
    p.child name ++ names = p ++ name :: names :=
  List.append_assoc p [name] names

theorem length_child (p : FieldPath) (name : String) : (p.child name).length = p.length + 1 :=
  List.length_append

theorem lt_of_start (h : p <+: q) (hne : p ≠ q) : p < q := by
  obtain ⟨t, rfl⟩ := h
  induction p with
  | nil =>
    cases t with
    | nil => exact absurd rfl hne
    | cons c t => exact List.nil_lt_cons c t
  | cons c p ih =>
    refine List.cons_lt_cons_iff.mpr (Or.inr ⟨rfl, ih fun h => hne ?_⟩)
    exact congrArg (c :: ·) h

/-- A path between another and one that goes on from it goes on from it as well. -/
theorem prefix_of_between (hpa : ¬ a < p) (hab : a < b) (hpb : p <+: b) : p <+: a := by
  induction p generalizing a b with
  | nil => exact List.nil_prefix
  | cons c p ih =>
    obtain ⟨t, rfl⟩ := hpb
    cases a with
    | nil => exact absurd (List.nil_lt_cons c p) hpa
    | cons d a =>
      have hdc : ¬ (d < c ∨ d = c ∧ a < p) := fun h => hpa (List.cons_lt_cons_iff.mpr h)
      rcases List.cons_lt_cons_iff.mp hab with hlt | ⟨rfl, hlt⟩
      · exact absurd (Or.inl hlt) hdc
      · have hap : ¬ a < p := fun h => hdc (Or.inr ⟨rfl, h⟩)
        exact (List.prefix_cons_inj d).mpr (ih hap hlt (List.prefix_append p t))

theorem startsWith_of_between (hpa : ¬ a < p) (hab : a < b) (hb : b.startsWith p = true) :
    a.startsWith p = true :=
  startsWith_iff.mpr (prefix_of_between hpa hab (startsWith_iff.mp hb))

theorem not_lt_of_startsWith (h : q.startsWith p = true) : ¬ q < p := by
  intro hlt
  have hp := startsWith_iff.mp h
  by_cases hpq : p = q
  · exact List.lt_irrefl p (hpq ▸ hlt)
  · exact List.lt_irrefl p (List.lt_trans (lt_of_start hp hpq) hlt)

end FieldPath

namespace SortedSet

variable {α : Type} [LT α] [DecidableLT α] [DecidableEq α]
  [IsStrictTotalOrder α (· < ·)]

theorem sorted_insert {a : α} {s : List α} (hs : s.Pairwise (· < ·)) :
    (insert a s).Pairwise (· < ·) := by
  induction s with
  | nil => simp [insert]
  | cons b bs ih =>
    have hb := List.pairwise_cons.mp hs
    unfold insert
    split
    · rename_i hab
      refine List.pairwise_cons.mpr ⟨fun x hx => ?_, hs⟩
      rcases List.mem_cons.mp hx with rfl | hx
      · exact hab
      · exact trans_of (· < ·) hab (hb.1 x hx)
    · split
      · exact hs
      · rename_i hab hne
        refine List.pairwise_cons.mpr ⟨fun x hx => ?_, ih hb.2⟩
        rcases mem_insert.mp hx with rfl | hx
        · exact (trichotomous_of (· < ·) x b).elim (absurd · hab) (·.resolve_left hne)
        · exact hb.1 x hx

theorem sorted_ofList (as : List α) : (ofList as).Pairwise (· < ·) := by
  induction as with
  | nil => exact .nil
  | cons a as ih => exact sorted_insert ih

omit [DecidableLT α] [DecidableEq α] in
/-- Sorted lists with the same members are the same. -/
theorem eq_of_mem_iff {as bs : List α} (has : as.Pairwise (· < ·))
    (hbs : bs.Pairwise (· < ·)) (h : ∀ a, a ∈ as ↔ a ∈ bs) : as = bs := by
  have hanti : Std.Antisymm (α := α) (· < ·) :=
    ⟨fun a b hab hba => absurd hba (asymm_of (· < ·) hab)⟩
  exact has.eq_of_mem_iff hbs h

theorem ofList_eq_of_mem_iff {as bs : List α} (h : ∀ a, a ∈ as ↔ a ∈ bs) :
    ofList as = ofList bs := by
  refine eq_of_mem_iff (sorted_ofList as) (sorted_ofList bs) fun a => ?_
  rw [mem_ofList, mem_ofList, h]

end SortedSet

namespace SelectionMap

variable {m : SelectionMap} {p q : FieldPath} {s : SelectedField}

/-- Cutting a sorted list before a path and after the last that starts with it keeps exactly those
that do. -/
theorem takeWhile_dropWhile_eq_filter {entries : List SelectedField}
    (h : entries.Pairwise (·.path < ·.path)) :
    (entries.dropWhile fun s => decide (s.path < p)).takeWhile (·.path.startsWith p) =
      entries.filter (·.path.startsWith p) := by
  induction entries with
  | nil => rfl
  | cons s entries ih =>
    have hs := List.pairwise_cons.mp h
    by_cases hlt : s.path < p
    · have hno : s.path.startsWith p ≠ true := fun hst =>
        FieldPath.not_lt_of_startsWith hst hlt
      rw [List.dropWhile_cons_of_pos (by simpa using hlt), List.filter_cons, if_neg hno, ih hs.2]
    · rw [List.dropWhile_cons_of_neg (by simpa using hlt)]
      by_cases hst : s.path.startsWith p = true
      · have hdrop : (entries.dropWhile fun t => decide (t.path < p)) = entries := by
          refine List.dropWhile_eq_self_iff.mpr fun hpos => ?_
          have hmem := hs.1 _ (List.getElem_mem hpos)
          simpa using fun h => hlt (List.lt_trans hmem h)
        rw [List.takeWhile_cons, if_pos hst, List.filter_cons, if_pos hst, ← ih hs.2, hdrop]
      · rw [List.takeWhile_cons, if_neg hst, List.filter_cons, if_neg hst]
        refine (List.filter_eq_nil_iff.mpr fun t ht htp => hst ?_).symm
        exact FieldPath.startsWith_of_between hlt (hs.1 t ht) htp

theorem atOrBelow_eq_filter (m : SelectionMap) (p : FieldPath) :
    m.atOrBelow p = m.entries.filter (·.path.startsWith p) :=
  takeWhile_dropWhile_eq_filter m.sorted

theorem mem_paths : q ∈ m.paths ↔ ∃ s ∈ m.entries, s.path = q := List.mem_map

theorem mem_atOrBelow : s ∈ m.atOrBelow p ↔ s ∈ m.entries ∧ p <+: s.path := by
  rw [atOrBelow_eq_filter, List.mem_filter, FieldPath.startsWith_iff]

theorem entry_unique {s t : SelectedField} (hs : s ∈ m.entries) (ht : t ∈ m.entries)
    (h : s.path = t.path) : s = t := by
  obtain ⟨i, hi, rfl⟩ := List.getElem_of_mem hs
  obtain ⟨j, hj, rfl⟩ := List.getElem_of_mem ht
  have hsorted := List.pairwise_iff_getElem.mp m.sorted
  rcases Nat.lt_trichotomy i j with hij | rfl | hij
  · exact absurd (h ▸ hsorted i j hi hj hij) (List.lt_irrefl _)
  · rfl
  · exact absurd (h ▸ hsorted j i hj hi hij) (List.lt_irrefl _)

theorem get?_eq_some_iff : m.get? p = some s ↔ s ∈ m.entries ∧ s.path = p := by
  constructor
  · intro h
    exact ⟨List.mem_of_find?_eq_some h, by simpa using List.find?_some h⟩
  · rintro ⟨hs, rfl⟩
    cases h : m.get? s.path with
    | none => simpa using List.find?_eq_none.mp h s hs
    | some t =>
      have ht : t.path = s.path := by simpa using List.find?_some h
      exact congrArg some (entry_unique (List.mem_of_find?_eq_some h) hs ht)

theorem isSelected_iff : m.isSelected p = true ↔ p ∈ m.paths := by
  rw [isSelected, Option.isSome_iff_exists, mem_paths]
  exact exists_congr fun s => get?_eq_some_iff

/-- A box is unchecked exactly if nothing is selected at or below its path. -/
theorem state_eq_unchecked_iff : m.state p = .unchecked ↔ ∀ q ∈ m.paths, ¬ p <+: q := by
  unfold state
  by_cases hsel : m.isSelected p = true
  · rw [if_pos hsel]
    simp only [reduceCtorEq, false_iff, not_forall, not_not]
    exact ⟨p, isSelected_iff.mp hsel, List.prefix_rfl⟩
  · rw [if_neg hsel]
    have hempty : (m.atOrBelow p).isEmpty = true ↔ ∀ q ∈ m.paths, ¬ p <+: q := by
      rw [List.isEmpty_iff, List.eq_nil_iff_forall_not_mem]
      constructor
      · intro h q hq hpq
        obtain ⟨s, hs, rfl⟩ := mem_paths.mp hq
        exact h s (mem_atOrBelow.mpr ⟨hs, hpq⟩)
      · intro h s hs
        obtain ⟨hs, hps⟩ := mem_atOrBelow.mp hs
        exact h s.path (mem_paths.mpr ⟨s, hs, rfl⟩) hps
    rw [← hempty]
    split <;> simp_all

/-- The names below a path are those with which selected paths go on. -/
theorem mem_childNames {name : String} :
    name ∈ m.childNames p ↔ ∃ q ∈ m.paths, p.child name <+: q := by
  rw [childNames, SortedSet.mem_ofList, List.mem_filterMap]
  constructor
  · rintro ⟨s, hs, hname⟩
    obtain ⟨hs, t, ht⟩ := mem_atOrBelow.mp hs
    refine ⟨s.path, mem_paths.mpr ⟨s, hs, rfl⟩, ?_⟩
    rw [← ht] at hname ⊢
    cases t with
    | nil => simp at hname
    | cons c t =>
      obtain rfl : c = name := by simpa using hname
      exact ⟨t, by simp [FieldPath.child]⟩
  · rintro ⟨q, hq, t, rfl⟩
    obtain ⟨s, hs, hpath⟩ := mem_paths.mp hq
    refine ⟨s, mem_atOrBelow.mpr ⟨hs, ?_⟩, ?_⟩
    · rw [hpath, FieldPath.child, List.append_assoc]
      exact List.prefix_append p _
    · rw [hpath]
      simp [FieldPath.child]

end SelectionMap

end QueryPicker
