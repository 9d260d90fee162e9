import Mathlib
import QueryPicker.Exchange.History

/-!
# Retained entries

A history holds the entries that were added and that no later step took away: one that deletes the
entry, one that clears the history, or an addition to a full history of which the entry is the
oldest. Numbers only go up, so none is given twice, whatever was deleted or cleared.
-/

namespace QueryPicker.History

variable {h : History}

/-- The newest entries come first, and there is room for at least one. -/
structure IsSound (h : History) : Prop where
  room : 0 < h.capacity
  bounded : h.entries.length ≤ h.capacity
  descending : h.ids.Pairwise (· > ·)
  used : ∀ id ∈ h.ids, id < h.next

theorem isSound_empty (capacity : Nat) : (empty capacity).IsSound :=
  ⟨lt_max_of_lt_right one_pos, Nat.zero_le _, .nil, by simp [empty, ids]⟩

/-- Fewer entries in the same order. -/
theorem IsSound.of_sublist (hsound : h.IsSound) {entries : List HistoryEntry}
    (hsub : entries.Sublist h.entries) : IsSound { h with entries } where
  room := hsound.room
  bounded := hsub.length_le.trans hsound.bounded
  descending := hsound.descending.sublist (hsub.map _)
  used := fun id hid => hsound.used id ((hsub.map _).subset hid)

/-- An addition to a full history makes the oldest entry give way, any other keeps all entries. -/
theorem IsSound.entries_add (hsound : h.IsSound) (e : HistoryEntry) :
    (h.add e).1.entries = { e with id := h.next } ::
      if h.entries.length = h.capacity then h.entries.dropLast else h.entries := by
  obtain ⟨room, hroom⟩ := Nat.exists_eq_succ_of_ne_zero hsound.room.ne'
  have hbounded := hsound.bounded
  have hentries : (h.add e).1.entries = ({ e with id := h.next } :: h.entries).take h.capacity :=
    rfl
  rw [hentries, hroom, List.take_succ_cons]
  congr 1
  split
  · rename_i hfull
    rw [List.dropLast_eq_take, hfull, Nat.succ_sub_one]
  · exact List.take_of_length_le (by omega)

theorem IsSound.add (hsound : h.IsSound) (e : HistoryEntry) : (h.add e).1.IsSound := by
  have hentries := hsound.entries_add e
  have hsub : ((h.add e).1.entries).Sublist ({ e with id := h.next } :: h.entries) :=
    List.take_sublist _ _
  refine ⟨hsound.room, List.length_take_le _ _, ?_, ?_⟩
  · refine List.Pairwise.sublist (hsub.map _) (List.pairwise_cons.mpr ⟨?_, hsound.descending⟩)
    exact hsound.used
  · intro id hid
    show id < h.next + 1
    rcases List.mem_cons.mp ((hsub.map _).subset hid) with rfl | hid
    · exact Nat.lt_succ_self _
    · exact (hsound.used id hid).trans (Nat.lt_succ_self _)

theorem IsSound.perform (hsound : h.IsSound) (step : Step) : (h.perform step).IsSound := by
  cases step with
  | add e => exact hsound.add e
  | delete id => exact hsound.of_sublist List.filter_sublist
  | clear => exact hsound.of_sublist (List.nil_sublist _)

theorem capacity_perform (h : History) (step : Step) :
    (h.perform step).capacity = h.capacity := by
  cases step <;> rfl

theorem IsSound.run (hsound : h.IsSound) (steps : List Step) :
    (h.run steps).IsSound ∧ (h.run steps).capacity = h.capacity := by
  induction steps generalizing h with
  | nil => exact ⟨hsound, rfl⟩
  | cons step steps ih =>
    obtain ⟨hrun, hcapacity⟩ := ih (hsound.perform step)
    exact ⟨hrun, hcapacity.trans (capacity_perform h step)⟩

theorem isSound_run_empty (capacity : Nat) (steps : List Step) :
    ((empty capacity).run steps).IsSound := ((isSound_empty capacity).run steps).1

/-- The step takes the entry out of the history. -/
inductive Step.TakesAway (h : History) (entry : HistoryEntry) : Step → Prop where
  | delete : TakesAway h entry (.delete entry.id)
  | clear : TakesAway h entry .clear
  | evict {e} (full : h.entries.length = h.capacity)
      (oldest : ∀ other ∈ h.entries, entry.id ≤ other.id) : TakesAway h entry (.add e)

/-- The last of the entries is the oldest. -/
theorem IsSound.mem_dropLast_iff (hsound : h.IsSound) {entry : HistoryEntry} :
    entry ∈ h.entries.dropLast ↔
      entry ∈ h.entries ∧ ¬ ∀ other ∈ h.entries, entry.id ≤ other.id := by
  rcases List.eq_nil_or_concat h.entries with hnil | ⟨newer, last, hentries⟩
  · simp [hnil]
  · have hdescending := hsound.descending
    rw [List.concat_eq_append] at hentries
    rw [ids, hentries, List.map_append, List.pairwise_append] at hdescending
    have hlast : ∀ other ∈ newer, last.id < other.id := fun other hother =>
      hdescending.2.2 _ (List.mem_map_of_mem hother) _ (by simp)
    rw [hentries, List.dropLast_concat]
    simp only [List.mem_append, List.mem_singleton, not_forall, not_le]
    constructor
    · intro hentry
      exact ⟨.inl hentry, last, .inr rfl, hlast entry hentry⟩
    · rintro ⟨hentry | rfl, other, hother, hlt⟩
      · exact hentry
      · rcases hother with hother | rfl
        · exact absurd (hlast other hother) hlt.not_gt
        · exact absurd hlt (lt_irrefl _)

theorem IsSound.mem_perform_iff (hsound : h.IsSound) {step : Step} {entry : HistoryEntry} :
    entry ∈ (h.perform step).entries ↔ (∃ e, step = .add e ∧ entry = { e with id := h.next }) ∨
      (entry ∈ h.entries ∧ ¬ step.TakesAway h entry) := by
  cases step with
  | add e =>
    have hevict : Step.TakesAway h entry (.add e) ↔ h.entries.length = h.capacity ∧
        ∀ other ∈ h.entries, entry.id ≤ other.id :=
      ⟨fun | .evict full oldest => ⟨full, oldest⟩, fun ⟨full, oldest⟩ => .evict full oldest⟩
    have hadded : (∃ e', Step.add e = .add e' ∧ entry = { e' with id := h.next }) ↔
        entry = { e with id := h.next } := by simp
    rw [History.perform, hsound.entries_add, List.mem_cons, hevict, hadded]
    split
    · rename_i hfull
      rw [hsound.mem_dropLast_iff, and_iff_right hfull]
    · rename_i hroom
      simp only [hroom, false_and, not_false_eq_true, and_true]
  | delete id =>
    have hdelete : Step.TakesAway h entry (.delete id) ↔ entry.id = id :=
      ⟨fun | .delete => rfl, fun heq => heq ▸ .delete⟩
    rw [hdelete]
    simp [History.perform, History.delete]
  | clear =>
    have hclear : Step.TakesAway h entry .clear := .clear
    simp [History.perform, History.clear, hclear]

/-- A step of the run added the entry, and none of the later steps took it away. -/
def Retained (capacity : Nat) (steps : List Step) (entry : HistoryEntry) : Prop :=
  ∃ before e after, steps = before ++ .add e :: after ∧
    entry = { e with id := ((empty capacity).run before).next } ∧
      ∀ between step rest, after = between ++ step :: rest →
        ¬ step.TakesAway ((empty capacity).run (before ++ .add e :: between)) entry

theorem retained_concat {capacity : Nat} {steps : List Step} {step : Step} {entry : HistoryEntry} :
    Retained capacity (steps ++ [step]) entry ↔
      (∃ e, step = .add e ∧ entry = { e with id := ((empty capacity).run steps).next }) ∨
        (Retained capacity steps entry ∧
          ¬ step.TakesAway ((empty capacity).run steps) entry) := by
  constructor
  · rintro ⟨before, e, after, heq, hentry, hkept⟩
    obtain rfl | ⟨after, last, rfl⟩ := List.eq_nil_or_concat after
    · obtain ⟨rfl, hlast⟩ := List.append_inj' heq rfl
      exact .inl ⟨e, List.head_eq_of_cons_eq hlast, hentry⟩
    · rw [List.concat_eq_append, ← List.cons_append, ← List.append_assoc] at heq
      obtain ⟨rfl, hlast⟩ := List.append_inj' heq rfl
      obtain rfl := List.head_eq_of_cons_eq hlast
      rw [List.concat_eq_append] at hkept
      refine .inr ⟨⟨before, e, after, rfl, hentry, fun between other rest hafter => ?_⟩,
        hkept after step [] rfl⟩
      exact hkept between other (rest ++ [step]) (by rw [hafter]; simp)
  · rintro (⟨e, rfl, hentry⟩ | ⟨⟨before, e, after, rfl, hentry, hkept⟩, hlast⟩)
    · exact ⟨steps, e, [], rfl, hentry, by simp⟩
    · refine ⟨before, e, after ++ [step], by simp, hentry, fun between other rest hafter => ?_⟩
      obtain rfl | ⟨rest, last, rfl⟩ := List.eq_nil_or_concat rest
      · obtain ⟨rfl, hother⟩ := List.append_inj' hafter rfl
        exact List.head_eq_of_cons_eq hother ▸ hlast
      · rw [List.concat_eq_append, ← List.cons_append, ← List.append_assoc] at hafter
        exact hkept between other rest (List.append_inj' hafter rfl).1

theorem mem_run_empty_iff {capacity : Nat} {steps : List Step} {entry : HistoryEntry} :
    entry ∈ ((empty capacity).run steps).entries ↔ Retained capacity steps entry := by
  induction steps using List.reverseRecOn with
  | nil =>
    refine iff_of_false (by simp [run, empty]) ?_
    rintro ⟨before, e, after, heq, -⟩
    exact List.append_ne_nil_of_right_ne_nil before (List.cons_ne_nil _ after) heq.symm
  | append_singleton steps step ih =>
    have hrun : (empty capacity).run (steps ++ [step]) =
        ((empty capacity).run steps).perform step := List.foldl_concat ..
    rw [hrun, (isSound_run_empty capacity steps).mem_perform_iff, ih, retained_concat]

/-- The numbers of a run follow one another. -/
theorem numbers_eq (h : History) (steps : List Step) :
    h.numbers steps = List.range' h.next (h.numbers steps).length := by
  induction steps generalizing h with
  | nil => rfl
  | cons step steps ih =>
    cases step with
    | add e =>
      have hcons : h.numbers (.add e :: steps) = h.next :: (h.perform (.add e)).numbers steps := rfl
      rw [hcons, List.length_cons, List.range'_succ]
      exact congrArg (h.next :: ·) (ih _)
    | delete id => exact ih _
    | clear => exact ih _

theorem nodup_numbers (h : History) (steps : List Step) : (h.numbers steps).Nodup := by
  rw [numbers_eq]
  exact List.nodup_range'

theorem next_run (h : History) (steps : List Step) :
    (h.run steps).next = h.next + (h.numbers steps).length := by
  induction steps generalizing h with
  | nil => rfl
  | cons step steps ih =>
    have hrun : (h.run (step :: steps)).next = ((h.perform step).run steps).next := rfl
    have hnumbers : (h.numbers (step :: steps)).length =
        (h.number? step).toList.length + ((h.perform step).numbers steps).length := by
      rw [numbers, List.length_append]
    have hnext : (h.perform step).next = h.next + (h.number? step).toList.length := by
      cases step <;> rfl
    rw [hrun, ih, hnumbers, hnext, Nat.add_assoc]

/-- The number for the next entry was not given before. -/
theorem next_run_notMem_numbers (h : History) (steps : List Step) :
    (h.run steps).next ∉ h.numbers steps := by
  rw [next_run, numbers_eq, List.length_range', List.mem_range'_1]
  omega

/-- The entry that was just added is found by its number. -/
theorem IsSound.finds_added (hsound : h.IsSound) (e : HistoryEntry) :
    entry? (h.add e).1 (h.add e).2 = some { e with id := (h.add e).2 } := by
  have hfind : entry? (h.add e).1 (h.add e).2 =
      (h.add e).1.entries.find? (·.id == (h.add e).2) := rfl
  have hid : (h.next == (h.add e).2) = true := beq_self_eq_true h.next
  rw [hfind, hsound.entries_add]
  exact List.find?_cons_of_pos hid

/-- After any run the entries stand from the newest to the oldest, and there are no more of them
than there is room for. They are those that were added and not taken away since. Only when there is
no more room, the oldest gives way to another entry. No number is given twice, and an entry that
was just added is found by its number. -/
theorem run_retains (capacity : Nat) (steps : List Step) :
    let h := (empty capacity).run steps
    h.ids.Pairwise (· > ·) ∧ h.entries.length ≤ max capacity 1 ∧
      (∀ entry, entry ∈ h.entries ↔ Retained capacity steps entry) ∧
      ((empty capacity).numbers steps).Nodup ∧
      ∀ e, (h.add e).1.entries = { e with id := (h.add e).2 } ::
          (if h.entries.length = max capacity 1 then h.entries.dropLast else h.entries) ∧
        entry? (h.add e).1 (h.add e).2 = some { e with id := (h.add e).2 } := by
  intro h
  obtain ⟨hsound, hcapacity⟩ := (isSound_empty capacity).run steps
  have hcapacity : h.capacity = max capacity 1 := hcapacity
  rw [← hcapacity]
  exact ⟨hsound.descending, hsound.bounded, fun _ => mem_run_empty_iff, nodup_numbers _ steps,
    fun e => ⟨hsound.entries_add e, hsound.finds_added e⟩⟩

end QueryPicker.History
