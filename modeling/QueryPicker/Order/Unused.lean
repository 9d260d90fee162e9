/-!
# What has not been used yet

Counting the elements of a list that are not in use bounds every walk that uses an element at most
once at a time.
-/

namespace QueryPicker

variable {α : Type} [DecidableEq α]

def countUnused (all used : List α) : Nat := all.countP fun a => decide (a ∉ used)

theorem countUnused_cons_le (all used : List α) (a : α) :
    countUnused all (a :: used) ≤ countUnused all used := by
  apply List.countP_mono_left
  intro x _ hx
  simp_all

theorem countUnused_cons_lt {all used : List α} {a : α} (hmem : a ∈ all) (ha : a ∉ used) :
    countUnused all (a :: used) < countUnused all used := by
  induction all with
  | nil => simp at hmem
  | cons b bs ih =>
    have hle := countUnused_cons_le bs used a
    by_cases hb : b = a
    · subst hb
      simp only [countUnused, List.countP_cons, List.mem_cons, true_or, not_true_eq_false,
        decide_false, Bool.false_eq_true, if_false, ha, not_false_eq_true, decide_true, if_true]
      simp only [countUnused, List.mem_cons] at hle
      omega
    · have ih := ih ((List.mem_cons.mp hmem).resolve_left (Ne.symm hb))
      simp only [countUnused, List.countP_cons, List.mem_cons, hb, false_or] at ih ⊢
      omega

end QueryPicker
