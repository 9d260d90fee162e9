import Mathlib
import QueryPicker.Proofs.ComparedArguments
import QueryPicker.Proofs.EffectiveEdits
import QueryPicker.Proofs.KeptArguments

/-!
# Added selections

A field that is added is stored at its path in place of what was there, and is written with the
arguments that it was added with. The one exception is a field that is the same as what is stored
already: that stays as it is, and with it the order of its arguments and the signs of its zeros.
-/

namespace QueryPicker

namespace SelectionMap

variable {m : SelectionMap} {s : SelectedField}

/-- The field is stored at its path, its arguments are written there as they are, name by name and
value by value, and so they follow it in the text. -/
structure Shows (m : SelectionMap) (s : SelectedField) : Prop where
  stored : ∃ t, m.get? s.path = some t ∧ t.field = s.field ∧
    (t.args?.getD []).written = (s.args?.getD []).written
  text : ∀ (op : Operation) (names : List String), names ≠ [] →
    s.path = FieldPath.root op ++ names →
    (FieldTree.argumentsAt? names (m.operationTrees op)).map Arguments.text =
      some (s.args?.getD []).text

theorem shows_of_mem (hs : s ∈ m.entries) : m.Shows s := by
  refine ⟨⟨s, get?_eq_some_iff.mpr ⟨hs, rfl⟩, rfl, rfl⟩, fun op names hne hpath => ?_⟩
  rw [argumentsAt?_operationTrees hs hpath hne, Option.map_some]

/-- Of two fields that are the same only a field itself shows the other. -/
theorem eq_of_shows (hshows : m.Shows s) (hnames : ((s.args?.getD []).map (·.1)).Nodup)
    {t : SelectedField} (ht : m.get? s.path = some t) (hsame : t.same s = true) : t = s := by
  obtain ⟨t', ht', -, hwritten⟩ := hshows.stored
  obtain rfl : t = t' := Option.some.inj (ht.symm.trans ht')
  simp only [SelectedField.same, Bool.and_eq_true, beq_iff_eq] at hsame
  obtain ⟨⟨hpath, hfield⟩, hargs⟩ := hsame
  have hargs := Arguments.eq_of_same? hnames hargs hwritten
  cases t
  cases s
  subst hpath hfield hargs
  rfl

/-- The field is added to what is selected, with the answer: in a batch, as a change of a session
that nobody has been told of yet, or as a whole step of a session in which no listener changes the
selection in turn. -/
inductive Adds (s : SelectedField) : SelectionMap → SelectionMap → Bool → Prop where
  | batch (b : Batch) : Adds s b.selections (b.add s).1.selections (b.add s).2
  | change {ω : Type} (session : Session ω) {changed : Bool}
      (hanswer : (session.perform (.edit (.add s))).2.1 = .flag changed) :
      Adds s session.current.selections
        (session.perform (.edit (.add s))).1.current.selections changed
  | step {ω : Type} (react : Snapshot → ω → ω) (session : Session ω) {changed : Bool}
      (hanswer : (session.run react (.edit (.add s))).2 = .flag changed)
      (hversion : (session.run react (.edit (.add s))).1.current.version ≤
        session.current.version + 1) :
      Adds s session.current.selections
        (session.run react (.edit (.add s))).1.current.selections changed

theorem Adds.eq_insert {m' : SelectionMap} {changed : Bool} (h : Adds s m m' changed) :
    m' = (m.insert s).1 ∧ changed = (m.insert s).2 := by
  cases h with
  | batch b => exact ⟨rfl, rfl⟩
  | change session hanswer =>
    exact ⟨Session.selections_commit (Session.keeps_apply _ (.add s)),
      (Answer.flag.inj hanswer).symm⟩
  | step react session hanswer hversion =>
    exact ⟨Session.selections_change (Session.keeps_apply _ (.add s)) hversion,
      (Answer.flag.inj hanswer).symm⟩

/-- What was stored already has stayed, or the field has taken its place. -/
theorem Adds.cases {m' : SelectionMap} {changed : Bool} (h : Adds s m m' changed) :
    (m' = m ∧ changed = false ∧ ∃ t, m.get? s.path = some t ∧ t.same s = true) ∨
      (m' = m.overwritten s ∧ changed = true ∧
        ∀ t, m.get? s.path = some t → t.same s = false) := by
  obtain ⟨rfl, rfl⟩ := h.eq_insert
  cases hchanged : (m.insert s).2 with
  | true =>
    exact Or.inr ⟨insert_of_changed hchanged, rfl, insert_changed_iff.mp hchanged⟩
  | false =>
    refine Or.inl ⟨insert_of_unchanged hchanged, rfl, ?_⟩
    by_contra hnone
    push Not at hnone
    rw [insert_changed_iff.mpr fun t ht => Bool.eq_false_iff.mpr (hnone t ht)] at hchanged
    cases hchanged

/-- A field that has been added shows, and an add that is said to change nothing leaves nothing to
write in another way, exactly if the field is not the same as one that is stored already without
being equal to it: one with its arguments in another order, or a zero of the other sign. -/
theorem added_shows_iff {m' : SelectionMap} {changed : Bool} (h : Adds s m m' changed)
    (hnames : ((s.args?.getD []).map (·.1)).Nodup) :
    (m'.Shows s ∧ (changed = false → (m.overwritten s).text = m.text)) ↔
      ∀ t, m.get? s.path = some t → t.same s = true → t = s := by
  rcases h.cases with ⟨rfl, rfl, t, ht, hsame⟩ | ⟨rfl, rfl, hnone⟩
  · constructor
    · rintro ⟨hshows, -⟩ t ht hsame
      exact eq_of_shows hshows hnames ht hsame
    · intro heq
      obtain rfl := heq t ht hsame
      have hmem := (get?_eq_some_iff.mp ht).1
      exact ⟨shows_of_mem hmem, fun _ => congrArg text (overwritten_of_mem hmem)⟩
  · constructor
    · intro _ t ht hsame
      exact absurd hsame (Bool.eq_false_iff.mp (hnone t ht))
    · intro _
      exact ⟨shows_of_mem (mem_overwritten m s), fun hfalse => by cases hfalse⟩

/-- Two fields with the same arguments in two orders. -/
def byIdAndName : SelectedField :=
  ⟨["Query", "user"], default, some [("id", .int 1), ("name", .string "a")]⟩

def byNameAndId : SelectedField :=
  ⟨["Query", "user"], default, some [("name", .string "a"), ("id", .int 1)]⟩

theorem added_shows_other_arguments :
    let b : Batch := .start (single ["Query", "user"] default [("id", .int 2)])
    (b.add byIdAndName).1.selections.Shows byIdAndName := by
  intro b
  have hnames : ((byIdAndName.args?.getD []).map (·.1)).Nodup := by decide
  refine ((added_shows_iff (.batch b) hnames).mpr fun t ht hsame => ?_).1
  obtain rfl : _ = t := Option.some.inj ht
  cases hsame

theorem added_not_shown :
    let b : Batch := .start (SelectionMap.empty.overwritten byIdAndName)
    ¬ (b.add byNameAndId).1.selections.Shows byNameAndId ∧ (b.add byNameAndId).2 = false ∧
      (b.selections.overwritten byNameAndId).text ≠ b.selections.text := by
  intro b
  refine ⟨fun hshows => ?_, by decide, by decide +kernel⟩
  obtain ⟨t, ht, -, hwritten⟩ := hshows.stored
  obtain rfl : byIdAndName = t := Option.some.inj ht
  revert hwritten
  decide +kernel

end SelectionMap

end QueryPicker
