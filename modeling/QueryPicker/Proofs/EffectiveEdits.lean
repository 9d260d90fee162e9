import Mathlib
import QueryPicker.Proofs.CommitLog

/-!
# Edits that take effect

A session commits edits if one of them has taken effect in the selection that it met. Then everyone
who listens is called once with the next version, and otherwise nothing happens at all. An edit that
changes the selection takes effect, whatever becomes of the change, so edits that undo each other
are announced although they leave the selection as it was. So is a selection that is stored once
more with an argument that differs from itself. In all other cases a change is announced exactly if
there is one.
-/

namespace QueryPicker

namespace SelectionMap

variable {m : SelectionMap} {s : SelectedField}

theorem insert_changed_iff :
    (m.insert s).2 = true ↔ ∀ t, m.get? s.path = some t → t.same s = false := by
  unfold insert
  cases m.get? s.path with
  | none => simp
  | some t => cases hsame : t.same s <;> simp [hsame]

/-- What is stored already leaves the selection as it is when it is stored again. -/
theorem insertSelected_of_mem {ts : List SelectedField} (hsorted : ts.Pairwise (·.path < ·.path))
    (hs : s ∈ ts) : insertSelected s ts = ts := by
  induction ts with
  | nil => cases hs
  | cons t ts ih =>
    obtain ⟨hfirst, hrest⟩ := List.pairwise_cons.mp hsorted
    rcases List.mem_cons.mp hs with rfl | hs
    · rw [insertSelected, if_neg (List.lt_irrefl _), if_pos rfl]
    · have hlt := hfirst s hs
      have hne : s.path ≠ t.path := fun heq => List.lt_irrefl _ (heq ▸ hlt)
      rw [insertSelected, if_neg (asymm_of (· < ·) hlt), if_neg hne, ih hrest hs]

theorem overwritten_of_mem (hs : s ∈ m.entries) : m.overwritten s = m :=
  eq_of_entries (insertSelected_of_mem m.sorted hs)

theorem insert_of_mem (hs : s ∈ m.entries) : (m.insert s).1 = m := by
  rw [insert_eq]
  split
  · rfl
  · exact overwritten_of_mem hs

/-- An edit that takes a path away changes the selection. -/
theorem edited_ne_of_gone {e : Edit} {p : FieldPath} (hp : p ∈ m.paths)
    (hgone : p ∉ (m.edited [e]).paths) : m.edited [e] ≠ m :=
  fun heq => hgone (heq.symm ▸ hp)

end SelectionMap

/-- The edit changes the selection, or it stores a selection over itself that differs from itself,
as one with a NaN among its arguments does. -/
inductive Edit.TakesEffect (m : SelectionMap) : Edit → Prop where
  | changes {e} : m.edited [e] ≠ m → TakesEffect m e
  | storesAgain {s} : s ∈ m.entries → s.same s = false → TakesEffect m (.add s)

/-- One of the edits takes effect in the selection that those before it have left. -/
inductive SomeTakesEffect : SelectionMap → List Edit → Prop where
  | first {m e edits} : e.TakesEffect m → SomeTakesEffect m (e :: edits)
  | later {m e edits} : SomeTakesEffect (m.edited [e]) edits → SomeTakesEffect m (e :: edits)

namespace Batch

variable {m : SelectionMap} {e : Edit} {edits : List Edit}

theorem takesEffect_of_changed (hchanged : ((start m).apply e).1.changed = true) :
    e.TakesEffect m := by
  cases e with
  | add s =>
    have hflag : (m.insert s).2 = true := hchanged
    by_cases hs : s ∈ m.entries
    · have hget := SelectionMap.get?_eq_some_iff.mpr ⟨hs, rfl⟩
      exact .storesAgain hs (SelectionMap.insert_changed_iff.mp hflag s hget)
    · refine .changes fun heq => hs ?_
      have heq : (m.insert s).1 = m := heq
      have hstored : s ∈ (m.insert s).1.entries :=
        SelectionMap.insert_of_changed hflag ▸ SelectionMap.mem_overwritten m s
      rwa [heq] at hstored
  | remove p =>
    have hselected : p ∈ m.paths := SelectionMap.isSelected_iff.mp hchanged
    exact .changes (SelectionMap.edited_ne_of_gone hselected fun hmem =>
      (SelectionMap.mem_paths_remove.mp hmem).2 rfl)
  | removeFrom p =>
    have hcount : 0 < (m.removeFrom p).2 := of_decide_eq_true hchanged
    obtain ⟨q, hq⟩ := List.exists_mem_of_length_pos hcount
    obtain ⟨s, hs, rfl⟩ := List.mem_map.mp hq
    obtain ⟨hs, hstart⟩ := SelectionMap.mem_atOrBelow.mp hs
    exact .changes (SelectionMap.edited_ne_of_gone (SelectionMap.mem_paths.mpr ⟨s, hs, rfl⟩)
      fun hmem => (SelectionMap.mem_paths_removeFrom.mp hmem).2 hstart)
  | clear =>
    have hnonempty : (!m.entries.isEmpty) = true := hchanged
    have hne : m.entries ≠ [] := by
      rintro hnil
      rw [hnil] at hnonempty
      cases hnonempty
    obtain ⟨s, hs⟩ := List.exists_mem_of_ne_nil _ hne
    exact .changes (SelectionMap.edited_ne_of_gone (SelectionMap.mem_paths.mpr ⟨s, hs, rfl⟩)
      fun hmem => by cases hmem)
  | isSelected p => cases hchanged

theorem changed_apply_iff : ((start m).apply e).1.changed = true ↔ e.TakesEffect m := by
  refine ⟨takesEffect_of_changed, fun heffect => ?_⟩
  cases heffect with
  | changes hne =>
    by_contra hunchanged
    exact hne ((Session.keeps_apply m e).unchanged (Bool.eq_false_iff.mpr hunchanged))
  | storesAgain hs hself =>
    refine SelectionMap.insert_changed_iff.mpr fun t ht => ?_
    have hstored := SelectionMap.get?_eq_some_iff.mpr ⟨hs, rfl⟩
    obtain rfl : _ = t := Option.some.inj (hstored.symm.trans ht)
    exact hself

/-- Edits do to the selection what they do in a batch of their own, and a change before them stays
one. -/
theorem apply_eq (b : Batch) (e : Edit) : (b.apply e).1 =
    ⟨b.selections.edited [e], b.changed || ((start b.selections).apply e).1.changed⟩ := by
  cases e with
  | isSelected p => exact congrArg (Batch.mk b.selections) (Bool.or_false _).symm
  | _ => rfl

theorem applyAll_eq (b : Batch) (edits : List Edit) : (b.applyAll edits).1 =
    ⟨b.selections.edited edits, b.changed || ((start b.selections).applyAll edits).1.changed⟩ := by
  induction edits generalizing b with
  | nil => exact congrArg (Batch.mk b.selections) (Bool.or_false _).symm
  | cons e edits ih =>
    have hcons : ∀ b : Batch, (b.applyAll (e :: edits)).1 = ((b.apply e).1.applyAll edits).1 :=
      fun _ => rfl
    have hedited : b.selections.edited (e :: edits) =
        (b.selections.edited [e]).edited edits := by
      rw [SelectionMap.edited, hcons, ih]
      rfl
    rw [hcons, hcons, ih, ih ((start b.selections).apply e).1, apply_eq b e, hedited,
      apply_eq (start b.selections) e]
    simp [start, Bool.or_assoc]

theorem changed_applyAll_iff :
    ((start m).applyAll edits).1.changed = true ↔ SomeTakesEffect m edits := by
  induction edits generalizing m with
  | nil => exact iff_of_false Bool.false_ne_true (fun h => by cases h)
  | cons e edits ih =>
    have hcons : ((start m).applyAll (e :: edits)).1.changed =
        (((start m).apply e).1.changed || ((start (m.edited [e])).applyAll edits).1.changed) :=
      congrArg Batch.changed (applyAll_eq ((start m).apply e).1 edits)
    rw [hcons, Bool.or_eq_true, changed_apply_iff, ih]
    constructor
    · exact fun h => h.elim .first .later
    · intro h
      cases h with
      | first h => exact Or.inl h
      | later h => exact Or.inr h

end Batch

namespace Session

variable {ω : Type} {react : Snapshot → ω → ω} {s : Session ω} {edits : List Edit}

/-- A step logs no calls itself, and the calls that are due because of it are about later
versions. -/
theorem perform_spec (s : Session ω) (step : Step) :
    (∃ events, (s.perform step).1.log = s.log ++ events ∧ callsOf events = []) ∧
      (∀ call ∈ dueOf (s.perform step).2.2, s.current.version < call.2.version) ∧
      s.current.version ≤ (s.perform step).1.current.version := by
  have hcommit : ∀ b : Batch, (∃ events, (s.commit b).1.log = s.log ++ events ∧
      callsOf events = []) ∧
        (∀ call ∈ dueOf (s.commit b).2, s.current.version < call.2.version) ∧
        s.current.version ≤ (s.commit b).1.current.version := by
    intro b
    cases hchanged : b.changed with
    | false =>
      simp only [commit, Snapshot.commit?, hchanged, if_neg Bool.false_ne_true]
      exact ⟨⟨[], (List.append_nil _).symm, rfl⟩, by simp [dueOf], le_rfl⟩
    | true =>
      simp only [commit, Snapshot.commit?, hchanged, if_pos]
      exact ⟨⟨[_], rfl, rfl⟩, by simp [dueOf], Nat.le_succ _⟩
  have hplain : (∃ events, s.log = s.log ++ events ∧ callsOf events = []) ∧
      (∀ call ∈ dueOf [], s.current.version < call.2.version) ∧
      s.current.version ≤ s.current.version :=
    ⟨⟨[], (List.append_nil _).symm, rfl⟩, by simp [dueOf], le_rfl⟩
  cases step with
  | edit e => exact hcommit _
  | batch edits => exact hcommit _
  | ask question held => cases held <;> exact hplain
  | listen | unlisten | hold | describe => exact hplain

/-- The calls about one version. -/
def callsAbout (version : Nat) (calls : List (Listener × Snapshot)) : List (Listener × Snapshot) :=
  calls.filter fun call => decide (call.2.version = version)

theorem callsAbout_append (version : Nat) (calls more : List (Listener × Snapshot)) :
    callsAbout version (calls ++ more) = callsAbout version calls ++ callsAbout version more :=
  List.filter_append calls more

theorem callsAbout_announced (next : Snapshot) (listeners : List Listener) :
    callsAbout next.version (listeners.map fun l => (l, next)) =
      listeners.map fun l => (l, next) := by
  simp [callsAbout, List.filter_eq_self]

/-- A call that is due has been made, and other events than calls have followed. -/
theorem callsAbout_called {version : Nat} {events more : List Event} {tasks : List Task}
    (l : Listener) (snapshot : Snapshot) (hnone : callsOf events = [])
    (h : callsAbout version (callsOf more) = callsAbout version (dueOf tasks)) :
    callsAbout version (callsOf (.called l snapshot :: (events ++ more))) =
      callsAbout version (dueOf (.call l snapshot :: tasks)) := by
  have hmade : callsOf (.called l snapshot :: (events ++ more)) =
      [(l, snapshot)] ++ (callsOf events ++ callsOf more) := by
    simp [callsOf]
  have hdue : dueOf (.call l snapshot :: tasks) = [(l, snapshot)] ++ dueOf tasks := by
    simp [dueOf]
  rw [hmade, hnone, List.nil_append, hdue, callsAbout_append, callsAbout_append, h]

/-- Of the calls about one of the versions so far exactly those that are due are made, in their
order, whatever the listeners do from inside their calls. -/
theorem calls_drain (react : Snapshot → ω → ω) (s : Session ω) (tasks : List Task) {version : Nat}
    (h : version ≤ s.current.version) :
    ∃ more, (s.drain react tasks).log = s.log ++ more ∧
      callsAbout version (callsOf more) = callsAbout version (dueOf tasks) := by
  induction s, tasks using drain.induct react with
  | case1 s =>
    rw [drain]
    exact ⟨[], (List.append_nil _).symm, rfl⟩
  | case2 s label value tasks ih =>
    rw [drain]
    obtain ⟨more, hlog, hcalls⟩ := ih h
    exact ⟨.followedUp label value :: more, by rw [hlog, record, List.append_assoc]; rfl, hcalls⟩
  | case3 s snapshot tasks s' =>
    rename_i ih
    rw [drain]
    obtain ⟨more, hlog, hcalls⟩ := ih h
    exact ⟨.called .owner snapshot :: ([] ++ more), by rw [hlog]; simp [s', record],
      callsAbout_called .owner snapshot rfl hcalls⟩
  | case4 s label snapshot tasks s' hnone =>
    rename_i ih
    rw [drain]
    split
    · obtain ⟨more, hlog, hcalls⟩ := ih h
      exact ⟨.called (.scripted label) snapshot :: ([] ++ more),
        by rw [hlog]; simp [s', record], callsAbout_called _ snapshot rfl hcalls⟩
    · rename_i hsome
      cases hnone.symm.trans hsome
  | case5 s label snapshot tasks s' step rest hsome done hlt =>
    rename_i ih
    rw [drain]
    split
    · rename_i hnone
      cases hsome.symm.trans hnone
    · rename_i hsome'
      cases hsome.symm.trans hsome'
      obtain ⟨⟨events, hevents, hnone⟩, hlater, hversion⟩ :=
        perform_spec ({ s' with followUps := rest } : Session ω) step
      have hversion : s.current.version ≤ done.1.current.version := hversion
      obtain ⟨more, hlog, hcalls⟩ := ih (h.trans hversion)
      have hnew : callsAbout version (dueOf done.2.2) = [] := by
        refine List.filter_eq_nil_iff.mpr fun call hcall => ?_
        have hcall : s.current.version < call.2.version := hlater call hcall
        rw [decide_eq_true_iff]
        omega
      have hdue : dueOf (done.2.2 ++ .answer label done.2.1 :: tasks) =
          dueOf done.2.2 ++ dueOf tasks := by
        simp [dueOf]
      rw [hdue, callsAbout_append, hnew, List.nil_append] at hcalls
      refine ⟨.called (.scripted label) snapshot :: (events ++ more), ?_,
        callsAbout_called _ snapshot hnone hcalls⟩
      have hevents : done.1.log = s'.log ++ events := hevents
      rw [hlog, hevents]
      simp [s', record]

/-- The step makes a selection the next version, commits it, and calls everyone who listens once
with it, with nothing else for that version. -/
def Announces (react : Snapshot → ω → ω) (s : Session ω) (step : Step) (m : SelectionMap) : Prop :=
  let next : Snapshot := ⟨m, s.current.version + 1⟩
  (s.perform step).1.current = next ∧
    ∃ more, (s.run react step).1.log = s.log ++ .committed next s.listeners :: more ∧
      callsAbout next.version (callsOf more) = s.listeners.map fun l => (l, next)

/-- The step leaves version, selection and log alone, and so does everyone else. -/
def IsSilent (react : Snapshot → ω → ω) (s : Session ω) (step : Step) : Prop :=
  (s.run react step).1 = s

/-- The step is announced if its edits lead to another selection, and silent if they do not. -/
def AnnouncesChange (react : Snapshot → ω → ω) (s : Session ω) (step : Step)
    (edits : List Edit) : Prop :=
  let m := s.current.selections
  (m.edited edits ≠ m → s.Announces react step (m.edited edits)) ∧
    (m.edited edits = m → s.IsSilent react step)

/-- The step writes the edits as one change. -/
inductive Writes : Step → List Edit → Prop where
  | edit (e : Edit) : Writes (.edit e) [e]
  | batch (edits : List Edit) : Writes (.batch edits) edits

theorem not_isSilent_of_announces {step : Step} {m : SelectionMap} (h : s.Announces react step m) :
    ¬ s.IsSilent react step := by
  intro hsilent
  obtain ⟨-, more, hlog, -⟩ := h
  rw [hsilent] at hlog
  simpa using congrArg List.length hlog

/-- Edits are announced exactly if one of them takes effect. -/
theorem announces_or_isSilent (react : Snapshot → ω → ω) (s : Session ω) {step : Step}
    (h : Writes step edits) :
    (SomeTakesEffect s.current.selections edits →
      s.Announces react step (s.current.selections.edited edits)) ∧
      (¬ SomeTakesEffect s.current.selections edits → s.IsSilent react step) := by
  obtain ⟨b, hb, hperform, hrun⟩ : ∃ b : Batch,
      b = ((Batch.start s.current.selections).applyAll edits).1 ∧
      (s.perform step).1 = (s.commit b).1 ∧
      (s.run react step).1 = (s.commit b).1.drain react (s.commit b).2 := by
    cases h with
    | edit e => exact ⟨_, rfl, rfl, rfl⟩
    | batch edits => exact ⟨_, rfl, rfl, rfl⟩
  have hchanged : b.changed = true ↔ SomeTakesEffect s.current.selections edits :=
    hb ▸ Batch.changed_applyAll_iff
  have hselections : b.selections = s.current.selections.edited edits := hb ▸ rfl
  constructor
  · intro heffect
    have hcommit : s.commit b =
        (({ s with current := ⟨b.selections, s.current.version + 1⟩ } : Session ω).record
            (.committed ⟨b.selections, s.current.version + 1⟩ s.listeners),
          s.listeners.map fun l => .call l ⟨b.selections, s.current.version + 1⟩) := by
      rw [commit, Snapshot.commit?, if_pos (hchanged.mpr heffect)]
    rw [← hselections]
    refine ⟨by rw [hperform, hcommit]; rfl, ?_⟩
    have hversion : s.current.version + 1 ≤ (s.commit b).1.current.version := by
      rw [hcommit]
      exact le_rfl
    obtain ⟨more, hlog, hcalls⟩ := calls_drain react (s.commit b).1 (s.commit b).2 hversion
    refine ⟨more, ?_, ?_⟩
    · rw [hrun, hlog, hcommit]
      simp [record]
    · have hdue : dueOf (s.commit b).2 =
          s.listeners.map fun l => (l, ⟨b.selections, s.current.version + 1⟩) := by
        simp [hcommit, dueOf, List.filterMap_map]
      rw [hcalls, hdue]
      exact callsAbout_announced ⟨b.selections, s.current.version + 1⟩ s.listeners
  · intro hnone
    have hunchanged : b.changed = false := Bool.eq_false_iff.mpr (mt hchanged.mp hnone)
    have hcommit : s.commit b = (s, []) := by
      simp [commit, Snapshot.commit?, hunchanged]
    rw [IsSilent, hrun, hcommit, drain]

/-- Edits none of which takes effect leave the selection as it is. -/
theorem edited_of_not_someTakesEffect {m : SelectionMap} (h : ¬ SomeTakesEffect m edits) :
    m.edited edits = m :=
  (((Batch.keeps_start (m := m) (P := fun _ => True) fun _ _ => trivial).applyAll edits).unchanged
    (Bool.eq_false_iff.mpr (mt Batch.changed_applyAll_iff.mp h)))

theorem announcesChange_iff (react : Snapshot → ω → ω) (s : Session ω) {step : Step}
    (h : Writes step edits) : s.AnnouncesChange react step edits ↔
      (s.current.selections.edited edits = s.current.selections →
        ¬ SomeTakesEffect s.current.selections edits) := by
  obtain ⟨hannounces, hsilent⟩ := announces_or_isSilent react s h
  constructor
  · rintro ⟨-, hsame⟩ heq heffect
    exact not_isSilent_of_announces (hannounces heffect) (hsame heq)
  · intro hnone
    refine ⟨fun hne => hannounces ?_, fun heq => hsilent (hnone heq)⟩
    by_contra hnot
    exact hne (edited_of_not_someTakesEffect hnot)

/-- A batch is announced exactly if it leads to another selection, unless it ends with the selection
that it began with after one of its edits has taken effect. For a single edit this is so unless it
stores a selection over itself that differs from itself. -/
theorem announces_exactly_changes (react : Snapshot → ω → ω) (s : Session ω) :
    (∀ edits, s.AnnouncesChange react (.batch edits) edits ↔
      (s.current.selections.edited edits = s.current.selections →
        ¬ SomeTakesEffect s.current.selections edits)) ∧
      ∀ e, s.AnnouncesChange react (.edit e) [e] ↔
        ∀ x ∈ s.current.selections.entries, e = .add x → x.same x = true := by
  refine ⟨fun edits => announcesChange_iff react s (.batch edits), fun e => ?_⟩
  rw [announcesChange_iff react s (.edit e)]
  constructor
  · rintro hnone x hx rfl
    by_contra hself
    have hsame : s.current.selections.edited [.add x] = s.current.selections :=
      SelectionMap.insert_of_mem hx
    exact hnone hsame (.first (.storesAgain hx (Bool.eq_false_iff.mpr hself)))
  · intro hself heq heffect
    cases heffect with
    | later h => cases h
    | first h =>
      cases h with
      | changes hne => exact hne heq
      | storesAgain hx hne => exact absurd (hself _ hx rfl) (Bool.eq_false_iff.mp hne)

/-- A session with one listener, and edits of which the second undoes the first. -/
def heard : Session Unit := { start () with listeners := [.scripted 0] }

def undone : List Edit := [.add ⟨["Query", "user"], default, none⟩, .remove ["Query", "user"]]

theorem announced_without_change :
    ¬ heard.AnnouncesChange (fun _ o => o) (.batch undone) undone := by
  have hsame : heard.current.selections.edited undone = heard.current.selections :=
    SelectionMap.eq_of_entries rfl
  have heffect : SomeTakesEffect heard.current.selections undone :=
    .first (Batch.changed_apply_iff.mp rfl)
  rw [announcesChange_iff _ heard (.batch undone)]
  exact fun hnone => hnone hsame heffect

end Session

end QueryPicker
