import Mathlib
import QueryPicker.Proofs.PathRange

/-!
# Maximal paths

A path of a set is maximal if no other path of the set goes on from it. In a list of the set in
order, a path from which any goes on has one of these directly behind it. The next path alone
therefore tells whether a path is maximal, and one look ahead finds all that are.
-/

namespace QueryPicker.FieldPath

variable {p q next : FieldPath} {ps : List FieldPath}

theorem maximal_sublist (ps : List FieldPath) : (maximal ps).Sublist ps := by
  induction ps using maximal.induct with
  | case1 => exact List.Sublist.refl []
  | case2 p => exact List.Sublist.refl [p]
  | case3 p next ps hstrict ih =>
    rw [maximal, if_pos hstrict]
    exact ih.cons p
  | case4 p next ps hstrict ih =>
    rw [maximal, if_neg hstrict]
    exact ih.cons_cons p

theorem mem_of_mem_maximal (hp : p ∈ maximal ps) : p ∈ ps :=
  (maximal_sublist ps).subset hp

/-- Each path is on the way to one below which no other goes on. -/
theorem exists_maximal (hp : p ∈ ps) : ∃ q ∈ maximal ps, p <+: q := by
  induction ps using maximal.induct generalizing p with
  | case1 => simp at hp
  | case2 q =>
    obtain rfl : p = q := by simpa using hp
    exact ⟨p, by simp [maximal], List.prefix_rfl⟩
  | case3 q q' ps hstrict ih =>
    rw [maximal, if_pos hstrict]
    rcases List.mem_cons.mp hp with rfl | hp
    · obtain ⟨r, hr, hstart⟩ := ih List.mem_cons_self
      exact ⟨r, hr, (isStrictPrefixOf_iff.mp hstrict).1.trans hstart⟩
    · exact ih hp
  | case4 q q' ps hstrict ih =>
    rw [maximal, if_neg hstrict]
    rcases List.mem_cons.mp hp with rfl | hp
    · exact ⟨p, List.mem_cons_self, List.prefix_rfl⟩
    · obtain ⟨r, hr, hstart⟩ := ih hp
      exact ⟨r, List.mem_cons_of_mem q hr, hstart⟩

/-- In a sorted list nothing goes on from a path unless the next path does. -/
theorem isStrictPrefixOf_next (hsorted : (p :: next :: ps).Pairwise (· < ·))
    (hq : q ∈ next :: ps) (hstart : p <+: q) : p.isStrictPrefixOf next = true := by
  obtain ⟨hp, hrest⟩ := List.pairwise_cons.mp hsorted
  have hlt : p < next := hp next List.mem_cons_self
  have hne : p ≠ next := by
    rintro rfl
    exact List.lt_irrefl p hlt
  refine isStrictPrefixOf_iff.mpr ⟨?_, hne⟩
  rcases List.mem_cons.mp hq with rfl | hq
  · exact hstart
  · have hbetween : next < q := (List.pairwise_cons.mp hrest).1 q hq
    have hnot : ¬ next < p := fun hback => List.lt_irrefl p (List.lt_trans hlt hback)
    exact prefix_of_between hnot hbetween hstart

/-- No path of a sorted list goes on in one that stands before it. -/
theorem not_start_of_before (hsorted : (q :: ps).Pairwise (· < ·)) (hp : p ∈ ps) : ¬ p <+: q := by
  intro hstart
  exact not_lt_of_startsWith (startsWith_iff.mpr hstart) ((List.pairwise_cons.mp hsorted).1 p hp)

theorem eq_of_mem_maximal (hsorted : ps.Pairwise (· < ·)) (hp : p ∈ maximal ps) (hq : q ∈ ps)
    (hstart : p <+: q) : q = p := by
  induction ps using maximal.induct with
  | case1 => simp at hq
  | case2 r =>
    obtain rfl : p = r := by simpa [maximal] using hp
    simpa using hq
  | case3 r next ps hstrict ih =>
    rw [maximal, if_pos hstrict] at hp
    rcases List.mem_cons.mp hq with rfl | hq
    · exact absurd hstart (not_start_of_before hsorted (mem_of_mem_maximal hp))
    · exact ih (List.pairwise_cons.mp hsorted).2 hp hq
  | case4 r next ps hstrict ih =>
    rw [maximal, if_neg hstrict] at hp
    rcases List.mem_cons.mp hp with rfl | hp'
    · rcases List.mem_cons.mp hq with rfl | hq
      · rfl
      · exact absurd (isStrictPrefixOf_next hsorted hq hstart) hstrict
    · rcases List.mem_cons.mp hq with rfl | hq
      · exact absurd hstart (not_start_of_before hsorted (mem_of_mem_maximal hp'))
      · exact ih (List.pairwise_cons.mp hsorted).2 hp' hq

/-- Of a sorted list those paths are maximal from which no other goes on. -/
theorem mem_maximal_iff (hsorted : ps.Pairwise (· < ·)) :
    p ∈ maximal ps ↔ p ∈ ps ∧ ∀ q ∈ ps, p <+: q → q = p := by
  constructor
  · intro hp
    exact ⟨mem_of_mem_maximal hp, fun q hq hstart => eq_of_mem_maximal hsorted hp hq hstart⟩
  · rintro ⟨hp, hlast⟩
    obtain ⟨q, hq, hstart⟩ := exists_maximal hp
    obtain rfl := hlast q (mem_of_mem_maximal hq) hstart
    exact hq

/-- A path of a sorted list is maximal unless the next one goes on from it: if any path behind it
does, the next one does as well. -/
theorem mem_maximal_iff_next {before after : List FieldPath}
    (hsorted : (before ++ p :: after).Pairwise (· < ·)) : p ∈ maximal (before ++ p :: after) ↔
      ∀ next, after.head? = some next → ¬ (p <+: next ∧ p ≠ next) := by
  obtain ⟨-, hafter, hbefore⟩ := List.pairwise_append.mp hsorted
  rw [mem_maximal_iff hsorted]
  constructor
  · rintro ⟨-, hlast⟩ next hnext ⟨hstart, hne⟩
    have hmem : next ∈ before ++ p :: after := by simp [List.mem_of_head? hnext]
    exact hne (hlast next hmem hstart).symm
  · intro hnext
    refine ⟨by simp, fun q hq hstart => ?_⟩
    rcases List.mem_append.mp hq with hq | hq
    · have hlt : q < p := hbefore q hq p List.mem_cons_self
      exact absurd hlt (not_lt_of_startsWith (startsWith_iff.mpr hstart))
    · rcases List.mem_cons.mp hq with rfl | hq
      · rfl
      · cases after with
        | nil => cases hq
        | cons next after =>
          have hstrict := isStrictPrefixOf_next hafter hq hstart
          exact absurd (isStrictPrefixOf_iff.mp hstrict) (hnext next rfl)

/-- Of every finite set of paths, gone through in order, exactly those are kept, in order and once
each, from which no path of the set goes on; whether one is kept shows in the next path alone. -/
theorem maximal_sort (s : Finset FieldPath) :
    maximal s.sort = (s.filter fun p => ∀ q ∈ s, ¬ (p <+: q ∧ p ≠ q)).sort ∧
      ∀ before p after, s.sort = before ++ p :: after →
        (p ∈ maximal s.sort ↔ ∀ next, after.head? = some next → ¬ (p <+: next ∧ p ≠ next)) := by
  have hsorted : s.sort.Pairwise (· < ·) := s.sortedLT_sort.pairwise
  constructor
  · refine SortedSet.eq_of_mem_iff (hsorted.sublist (maximal_sublist _))
      (Finset.sortedLT_sort _).pairwise fun p => ?_
    rw [mem_maximal_iff hsorted, Finset.mem_sort, Finset.mem_sort, Finset.mem_filter]
    refine and_congr_right fun _ => forall_congr' fun q => ?_
    rw [Finset.mem_sort, not_and, not_ne_iff, eq_comm]
  · intro before p after heq
    rw [heq] at hsorted ⊢
    exact mem_maximal_iff_next hsorted

/-- A name may start like another: users are not below the user. -/
example : maximal [["Query", "user"], ["Query", "user", "name"], ["Query", "users"]] =
    [["Query", "user", "name"], ["Query", "users"]] := by decide

end QueryPicker.FieldPath
