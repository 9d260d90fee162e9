import Mathlib
import QueryPicker.Proofs.Announcements

/-!
# The commit log

Listeners may do steps of their own from inside any call, so newer changes are announced in the
middle of older ones, and listeners come and go while a change is being announced. The steps alone
still account for what a session has logged: commits are numbered without gaps, a call hands over
the selection right after the commit that it is about, and everyone who listens when a commit is
made is called once with it.
-/

namespace QueryPicker

/-- The selection after edits. -/
def SelectionMap.edited (m : SelectionMap) (edits : List Edit) : SelectionMap :=
  ((Batch.start m).applyAll edits).1.selections

/-- Edits that have changed the selection, and who listens when they are committed. -/
structure Commit where
  edits : List Edit
  listeners : List Listener

/-- What is selected after commits, beginning with nothing. -/
def content (commits : List Commit) : SelectionMap :=
  commits.foldl (fun m c => m.edited c.edits) .empty

/-- The selection right after the commit of a number. -/
def snapshotAt (commits : List Commit) (version : Nat) : Snapshot :=
  ⟨content (commits.take version), version⟩

theorem content_concat (commits : List Commit) (c : Commit) :
    content (commits ++ [c]) = (content commits).edited c.edits := by
  simp [content]

theorem snapshotAt_length (commits : List Commit) :
    snapshotAt commits commits.length = ⟨content commits, commits.length⟩ := by
  rw [snapshotAt, List.take_length]

/-- Later commits leave earlier versions as they are. -/
theorem snapshotAt_concat {commits : List Commit} {version : Nat} (c : Commit)
    (h : version ≤ commits.length) :
    snapshotAt (commits ++ [c]) version = snapshotAt commits version := by
  rw [snapshotAt, List.take_append_of_le_length h, snapshotAt]

/-- Steps entered one by one, with nobody told of them: what is selected, with every edit done in
place, who listens, and the commits. -/
structure Ledger where
  selections : SelectionMap
  listeners : List Listener
  nextLabel : Nat
  commits : List Commit

namespace Ledger

def start (listeners : List Listener) : Ledger := ⟨.empty, listeners, 0, []⟩

/-- Edits are a commit if one of them has changed the selection. -/
def write (l : Ledger) (edits : List Edit) : Ledger :=
  { l with
    selections := l.selections.edited edits
    commits :=
      if ((Batch.start l.selections).applyAll edits).1.changed then
        l.commits ++ [⟨edits, l.listeners⟩]
      else l.commits }

def enter (l : Ledger) : Step → Ledger
  | .edit e => l.write [e]
  | .batch edits => l.write edits
  | .listen _ =>
    { l with listeners := l.listeners ++ [.scripted l.nextLabel], nextLabel := l.nextLabel + 1 }
  | .unlisten label => { l with listeners := l.listeners.filter (· != .scripted label) }
  | .hold | .ask _ _ | .describe => l

/-- The ledger of a list of steps. -/
def ofSteps (listeners : List Listener) (steps : List Step) : Ledger :=
  steps.foldl enter (start listeners)

theorem ofSteps_concat (listeners : List Listener) (steps : List Step) (step : Step) :
    ofSteps listeners (steps ++ [step]) = (ofSteps listeners steps).enter step := by
  simp [ofSteps]

end Ledger

namespace Session

variable {ω : Type} {first : List Listener} {s : Session ω} {steps : List Step}

/-- The commits of a log, each with the listeners that have to be called. -/
def commitsOf (log : List Event) : List (Snapshot × List Listener) :=
  log.filterMap fun
    | .committed snapshot listeners => some (snapshot, listeners)
    | _ => none

def callsOf (log : List Event) : List (Listener × Snapshot) :=
  log.filterMap fun
    | .called l snapshot => some (l, snapshot)
    | _ => none

/-- The calls among tasks. -/
def dueOf (tasks : List Task) : List (Listener × Snapshot) :=
  tasks.filterMap fun
    | .call l snapshot => some (l, snapshot)
    | .answer _ _ => none

/-- Who is called with a version, in the order of the calls. -/
def calledWith (version : Nat) (calls : List (Listener × Snapshot)) : List Listener :=
  (calls.filter fun call => call.2.version = version).map Prod.fst

/-- A session, the steps done so far and the calls that are still due, the next one first. A
listener may do any number of steps from inside a call, so a step may come at any moment; its own
calls go before those that are due already. What the listeners mean to do, and what the owner keeps
beside the session, may change all the time. -/
inductive Reached (first : List Listener) :
    List Step → Session ω → List (Listener × Snapshot) → Prop where
  | start (outside : ω) : Reached first [] { Session.start outside with listeners := first } []
  | step {steps s due} (h : Reached first steps s due) (step : Step) :
    Reached first (steps ++ [step]) (s.perform step).1 (dueOf (s.perform step).2.2 ++ due)
  | called {steps s l snapshot due} (h : Reached first steps s ((l, snapshot) :: due)) :
    Reached first steps (s.record (.called l snapshot)) due
  | answered {steps s due} (h : Reached first steps s due) (label : Nat) (value : Answer) :
    Reached first steps (s.record (.followedUp label value)) due
  | apart {steps s due} (h : Reached first steps s due) (followUps : List (Nat × Step))
      (outside : ω) : Reached first steps { s with followUps, outside } due

/-- Ending the tasks of a session is such a course of steps and calls. -/
theorem reached_drain (react : Snapshot → ω → ω) (s : Session ω) (tasks : List Task) :
    ∀ {steps}, Reached first steps s (dueOf tasks) →
      ∃ more, Reached first (steps ++ more) (s.drain react tasks) [] := by
  induction s, tasks using drain.induct react with
  | case1 s =>
    intro steps h
    rw [drain]
    exact ⟨[], (List.append_nil steps).symm ▸ h⟩
  | case2 s label value tasks ih =>
    intro steps h
    rw [drain]
    exact ih (h.answered label value)
  | case3 s snapshot tasks s' =>
    rename_i ih
    intro steps h
    rw [drain]
    have hcalled : Reached first steps s' (dueOf tasks) := h.called
    exact ih (hcalled.apart s'.followUps (react snapshot s'.outside))
  | case4 s label snapshot tasks s' hnone =>
    rename_i ih
    intro steps h
    rw [drain]
    split
    · exact ih h.called
    · rename_i hsome
      cases hnone.symm.trans hsome
  | case5 s label snapshot tasks s' step rest hsome done hlt =>
    rename_i ih
    intro steps h
    rw [drain]
    split
    · rename_i hnone
      cases hsome.symm.trans hnone
    · rename_i hsome'
      cases hsome.symm.trans hsome'
      have hcalled : Reached first steps s' (dueOf tasks) := h.called
      have hdone := (hcalled.apart rest s'.outside).step step
      have hdue : dueOf (done.2.2 ++ .answer label done.2.1 :: tasks) =
          dueOf done.2.2 ++ dueOf tasks := by
        simp [dueOf]
      obtain ⟨more, hmore⟩ := ih (hdue ▸ hdone)
      exact ⟨step :: more, List.append_assoc steps [step] more ▸ hmore⟩

theorem reached_run (react : Snapshot → ω → ω) (h : Reached first steps s []) (step : Step) :
    ∃ inner, Reached first (steps ++ step :: inner) (s.run react step).1 [] := by
  have hstep : Reached first (steps ++ [step]) (s.perform step).1
      (dueOf (s.perform step).2.2) := by
    simpa using h.step step
  obtain ⟨inner, hinner⟩ := reached_drain react _ _ hstep
  exact ⟨inner, List.append_assoc steps [step] inner ▸ hinner⟩

/-- So is a whole run, with the steps of the listeners in between. -/
theorem reached_runs (react : Snapshot → ω → ω) (h : Reached first steps s [])
    (more : List Step) : ∃ done, more.Sublist done ∧
      Reached first (steps ++ done) (more.foldl (fun s step => (s.run react step).1) s) [] := by
  induction more generalizing s steps with
  | nil => exact ⟨[], .slnil, (List.append_nil steps).symm ▸ h⟩
  | cons step more ih =>
    obtain ⟨inner, hinner⟩ := reached_run react h step
    obtain ⟨done, hsublist, hdone⟩ := ih hinner
    refine ⟨step :: (inner ++ done), .cons_cons step (hsublist.trans ?_), ?_⟩
    · exact List.sublist_append_right inner done
    · rw [List.append_assoc, List.cons_append] at hdone
      exact hdone

/-- Calls are counted whether they have been made or are due. -/
structure Accounts (l : Ledger) (s : Session ω) (due : List (Listener × Snapshot)) : Prop where
  current : s.current = snapshotAt l.commits l.commits.length
  selections : l.selections = content l.commits
  listeners : s.listeners = l.listeners
  nextLabel : s.nextLabel = l.nextLabel
  nodup : l.listeners.Nodup
  fresh : ∀ label, .scripted label ∈ l.listeners → label < l.nextLabel
  once : ∀ c ∈ l.commits, c.listeners.Nodup
  commits : commitsOf s.log =
    l.commits.mapIdx fun i c => (snapshotAt l.commits (i + 1), c.listeners)
  calls : ∀ call ∈ callsOf s.log ++ due, ∃ i < l.commits.length,
    call.2 = snapshotAt l.commits (i + 1)
  told : ∀ i c, l.commits[i]? = some c →
    calledWith (i + 1) (callsOf s.log ++ due) = c.listeners

variable {l : Ledger} {due : List (Listener × Snapshot)}

theorem accounts_start (hfirst : first = [] ∨ first = [.owner]) (outside : ω) :
    Accounts (.start first) { Session.start outside with listeners := first } [] where
  current := rfl
  selections := rfl
  listeners := rfl
  nextLabel := rfl
  nodup := by rcases hfirst with rfl | rfl <;> simp [Ledger.start]
  fresh := by rcases hfirst with rfl | rfl <;> simp [Ledger.start]
  once := by simp [Ledger.start]
  commits := by simp [Ledger.start, Session.start, commitsOf]
  calls := by simp [Session.start, callsOf]
  told := by simp [Ledger.start]

/-- A change of the log that adds no commit and only moves calls from those due to those made. -/
theorem Accounts.withLog (h : Accounts l s due) {s' : Session ω}
    {due' : List (Listener × Snapshot)} (hcurrent : s'.current = s.current)
    (hlisteners : s'.listeners = s.listeners) (hnext : s'.nextLabel = s.nextLabel)
    (hcommits : commitsOf s'.log = commitsOf s.log)
    (hcalls : callsOf s'.log ++ due' = callsOf s.log ++ due) : Accounts l s' due' where
  current := hcurrent.trans h.current
  selections := h.selections
  listeners := hlisteners.trans h.listeners
  nextLabel := hnext.trans h.nextLabel
  nodup := h.nodup
  fresh := h.fresh
  once := h.once
  commits := hcommits ▸ h.commits
  calls := hcalls ▸ h.calls
  told := hcalls ▸ h.told

theorem Accounts.listen (h : Accounts l s due) (followUp : Option Step) :
    Accounts (l.enter (.listen followUp)) (s.listen followUp).1 due where
  current := h.current
  selections := h.selections
  listeners := by
    simp [Session.listen, Ledger.enter, h.listeners, h.nextLabel]
  nextLabel := by
    simp [Session.listen, Ledger.enter, h.nextLabel]
  nodup := by
    have hnew : Listener.scripted l.nextLabel ∉ l.listeners :=
      fun hmem => Nat.lt_irrefl _ (h.fresh _ hmem)
    exact List.nodup_append.mpr ⟨h.nodup, by simp, by
      rintro a ha b hb rfl
      exact hnew (List.mem_singleton.mp hb ▸ ha)⟩
  fresh := by
    intro label hlabel
    rcases List.mem_append.mp hlabel with hold | hnew
    · exact (h.fresh label hold).trans (Nat.lt_succ_self _)
    · obtain rfl : label = l.nextLabel := by simpa using hnew
      exact Nat.lt_succ_self _
  once := h.once
  commits := h.commits
  calls := h.calls
  told := h.told

theorem Accounts.unlisten (h : Accounts l s due) (label : Nat) :
    Accounts (l.enter (.unlisten label)) (s.unlisten (.scripted label)).1 due where
  current := h.current
  selections := h.selections
  listeners := by
    simp [Session.unlisten, Ledger.enter, h.listeners]
  nextLabel := h.nextLabel
  nodup := h.nodup.filter _
  fresh := fun _ hmem => h.fresh _ (List.mem_filter.mp hmem).1
  once := h.once
  commits := h.commits
  calls := h.calls
  told := h.told

/-- Nobody has been called with a version yet that has not been committed. -/
theorem Accounts.calledWith_succ (h : Accounts l s due) :
    calledWith (l.commits.length + 1) (callsOf s.log ++ due) = [] := by
  have hnone : ∀ call ∈ callsOf s.log ++ due, call.2.version ≠ l.commits.length + 1 := by
    intro call hcall
    obtain ⟨i, hi, heq⟩ := h.calls call hcall
    have hversion : call.2.version = i + 1 := congrArg Snapshot.version heq
    omega
  rw [calledWith, List.filter_eq_nil_iff.mpr (by simpa using hnone), List.map_nil]

theorem calledWith_append (version : Nat) (calls more : List (Listener × Snapshot)) :
    calledWith version (calls ++ more) = calledWith version calls ++ calledWith version more := by
  simp [calledWith]

/-- The calls of one commit are about its version only. -/
theorem calledWith_announced (version : Nat) (snapshot : Snapshot) (listeners : List Listener) :
    calledWith version (listeners.map fun l => (l, snapshot)) =
      if snapshot.version = version then listeners else [] := by
  by_cases hversion : snapshot.version = version
  · simp [calledWith, List.filter_map, Function.comp_def, hversion]
  · simp [calledWith, List.filter_map, Function.comp_def, hversion]

/-- Edits that change nothing are no commit. -/
theorem Accounts.write_of_unchanged (h : Accounts l s due) {edits : List Edit}
    (hchanged : ((Batch.start l.selections).applyAll edits).1.changed = false) :
    Accounts (l.write edits) s due := by
  have hkeeps : Batch.Keeps l.selections (fun _ => True)
      ((Batch.start l.selections).applyAll edits).1 :=
    (Batch.keeps_start fun _ _ => trivial).applyAll edits
  have hsame : l.write edits = l := by
    rw [Ledger.write, hchanged, if_neg Bool.false_ne_true, SelectionMap.edited,
      hkeeps.unchanged hchanged]
  exact hsame.symm ▸ h

/-- A commit becomes the last version, and its calls go before those that are due already. -/
theorem Accounts.write_of_changed (h : Accounts l s due) {edits : List Edit} {s' : Session ω}
    {next : Snapshot}
    (hchanged : ((Batch.start l.selections).applyAll edits).1.changed = true)
    (hnext : next = ⟨l.selections.edited edits, l.commits.length + 1⟩)
    (hs' : s' = ({ s with current := next } : Session ω).record (.committed next s.listeners)) :
    Accounts (l.write edits) s' ((s.listeners.map fun l => (l, next)) ++ due) := by
  have hcommits : (l.write edits).commits = l.commits ++ [⟨edits, l.listeners⟩] :=
    if_pos hchanged
  have hlength : (l.write edits).commits.length = l.commits.length + 1 := by
    rw [hcommits, List.length_append, List.length_singleton]
  have hcontent : content (l.write edits).commits = l.selections.edited edits := by
    rw [hcommits, content_concat, ← h.selections]
  have hnew : snapshotAt (l.write edits).commits (l.commits.length + 1) = next := by
    rw [← hlength, snapshotAt_length, hcontent, hlength, hnext]
  have hold : ∀ i < l.commits.length,
      snapshotAt (l.write edits).commits (i + 1) = snapshotAt l.commits (i + 1) :=
    fun i hi => hcommits ▸ snapshotAt_concat _ hi
  have hlog : callsOf s'.log = callsOf s.log := by
    simp [hs', record, callsOf]
  have hlogged : commitsOf s'.log = commitsOf s.log ++ [(next, l.listeners)] := by
    simp [hs', record, commitsOf, h.listeners]
  constructor
  case current => rw [hlength, hnew, hs']; rfl
  case selections => exact hcontent.symm
  case listeners => exact hs' ▸ h.listeners
  case nextLabel => exact hs' ▸ h.nextLabel
  case nodup => exact h.nodup
  case fresh => exact h.fresh
  case once =>
    intro c hc
    rcases List.mem_append.mp (hcommits ▸ hc) with hc | hc
    · exact h.once c hc
    · obtain rfl := List.mem_singleton.mp hc
      exact h.nodup
  case commits =>
    have hearlier : l.commits.mapIdx (fun i c => (snapshotAt l.commits (i + 1), c.listeners)) =
        l.commits.mapIdx fun i c => (snapshotAt (l.write edits).commits (i + 1), c.listeners) := by
      apply List.ext_getElem
      · simp
      · intro i hi _
        have hi : i < l.commits.length := by simpa using hi
        simp [hold i hi]
    rw [hlogged, h.commits, hearlier, ← hnew, hcommits, List.mapIdx_concat]
  case calls =>
    intro call hcall
    rw [hlength]
    rw [hlog] at hcall
    have hcases : call ∈ callsOf s.log ++ due ∨ call.2 = next := by
      simp only [List.mem_append, List.mem_map] at hcall ⊢
      rcases hcall with hmade | ⟨_, _, rfl⟩ | hdue
      · exact Or.inl (Or.inl hmade)
      · exact Or.inr rfl
      · exact Or.inl (Or.inr hdue)
    rcases hcases with hcall | hcall
    · obtain ⟨i, hi, heq⟩ := h.calls call hcall
      exact ⟨i, Nat.lt_succ_of_lt hi, heq.trans (hold i hi).symm⟩
    · exact ⟨l.commits.length, Nat.lt_succ_self _, hcall.trans hnew.symm⟩
  case told =>
    intro i c hc
    have hversion : next.version = l.commits.length + 1 := congrArg Snapshot.version hnext
    rw [hlog, calledWith_append, calledWith_append, calledWith_announced, hversion]
    rw [hcommits] at hc
    rcases Nat.lt_or_ge i l.commits.length with hi | hi
    · rw [List.getElem?_append_left hi] at hc
      rw [if_neg (by omega), List.nil_append, ← calledWith_append]
      exact h.told i c hc
    · have hi : i = l.commits.length := by
        have hlt := (List.getElem?_eq_some_iff.mp hc).1
        rw [← hcommits, hlength] at hlt
        omega
      subst hi
      obtain rfl : ⟨edits, l.listeners⟩ = c := by simpa using hc
      have hnone := h.calledWith_succ
      rw [calledWith_append, List.append_eq_nil_iff] at hnone
      rw [if_pos rfl, hnone.1, hnone.2, List.nil_append, List.append_nil]
      exact h.listeners

/-- Edits, whether they are a commit or not. -/
theorem Accounts.write (h : Accounts l s due) (edits : List Edit) :
    Accounts (l.write edits)
      (s.commit ((Batch.start s.current.selections).applyAll edits).1).1
      (dueOf (s.commit ((Batch.start s.current.selections).applyAll edits).1).2 ++ due) := by
  have hselections : s.current.selections = l.selections := by
    rw [h.current, snapshotAt_length, h.selections]
  rw [hselections]
  cases hchanged : ((Batch.start l.selections).applyAll edits).1.changed with
  | false =>
    have hsame : s.commit ((Batch.start l.selections).applyAll edits).1 = (s, []) := by
      simp [commit, Snapshot.commit?, hchanged]
    rw [hsame]
    exact h.write_of_unchanged hchanged
  | true =>
    have hnext : s.current.commit? ((Batch.start l.selections).applyAll edits).1 =
        some ⟨l.selections.edited edits, l.commits.length + 1⟩ := by
      simp [Snapshot.commit?, hchanged, SelectionMap.edited, h.current, snapshotAt]
    rw [commit, hnext]
    have hdue (next : Snapshot) : dueOf (s.listeners.map fun l => .call l next) =
        s.listeners.map fun l => (l, next) := by
      simp [dueOf, List.filterMap_map]
    rw [hdue]
    exact h.write_of_changed hchanged rfl rfl

theorem Accounts.step (h : Accounts l s due) (step : Step) :
    Accounts (l.enter step) (s.perform step).1 (dueOf (s.perform step).2.2 ++ due) := by
  cases step with
  | edit e => exact h.write [e]
  | batch edits => exact h.write edits
  | listen followUp => exact h.listen followUp
  | unlisten label => exact h.unlisten label
  | ask question held => cases held <;> exact h
  | hold => exact h.withLog rfl rfl rfl rfl rfl
  | describe => exact h

theorem accounts_of_reached (hfirst : first = [] ∨ first = [.owner])
    (h : Reached first steps s due) : Accounts (.ofSteps first steps) s due := by
  induction h with
  | start outside => exact accounts_start hfirst outside
  | step h step ih =>
    rw [Ledger.ofSteps_concat]
    exact ih.step step
  | called h ih =>
    exact ih.withLog rfl rfl rfl (by simp [record, commitsOf]) (by simp [record, callsOf])
  | answered h label value ih =>
    exact ih.withLog rfl rfl rfl (by simp [record, commitsOf]) (by simp [record, callsOf])
  | apart h followUps outside ih => exact ih.withLog rfl rfl rfl rfl rfl

/-- Whatever listeners do from inside their calls, the log is that of the commits in their order:
the one of a number has this number as its version, the snapshots handed over hold the selection
right after their commit, and everyone who listens when a commit is made is called exactly once with
it, or that call is due. The selection is that of all commits, one after the other. What a session
runs, with all that its listeners do in between, is such a course. -/
theorem log_of_reached (hfirst : first = [] ∨ first = [.owner]) (h : Reached first steps s due) :
    let ledger := Ledger.ofSteps first steps
    commitsOf s.log = ledger.commits.mapIdx
        (fun i c => (snapshotAt ledger.commits (i + 1), c.listeners)) ∧
      (∀ l snapshot, .called l snapshot ∈ s.log →
        1 ≤ snapshot.version ∧ snapshot.version ≤ ledger.commits.length ∧
          snapshot = snapshotAt ledger.commits snapshot.version) ∧
      (∀ i c, ledger.commits[i]? = some c → c.listeners.Nodup ∧
        calledWith (i + 1) (callsOf s.log) ++ calledWith (i + 1) due = c.listeners) ∧
      s.current = ⟨content ledger.commits, ledger.commits.length⟩ ∧
        ledger.selections = content ledger.commits ∧
      (due = [] → ∀ (react : Snapshot → ω → ω) (more : List Step), ∃ done, more.Sublist done ∧
        Reached first (steps ++ done)
          (more.foldl (fun s step => (s.run react step).1) s) []) := by
  have haccounts := accounts_of_reached hfirst h
  refine ⟨haccounts.commits, ?_, ?_, ?_, haccounts.selections, ?_⟩
  · intro l snapshot hcalled
    have hcall : (l, snapshot) ∈ callsOf s.log :=
      List.mem_filterMap.mpr ⟨_, hcalled, rfl⟩
    obtain ⟨i, hi, heq⟩ := haccounts.calls _ (List.mem_append_left due hcall)
    have hversion : snapshot.version = i + 1 := congrArg Snapshot.version heq
    rw [hversion]
    exact ⟨Nat.le_add_left 1 i, hi, heq⟩
  · intro i c hc
    rw [← calledWith_append]
    exact ⟨haccounts.once c (List.mem_of_getElem? hc), haccounts.told i c hc⟩
  · rw [haccounts.current, snapshotAt_length]
  · rintro rfl react more
    exact reached_runs react h more

/-- Two listeners, the first of which selects a second field from inside its first call. The second
listener hears of that change before the one that it answers. -/
theorem log_of_second_field : ∃ s : Session Unit,
    Reached [] [.listen none, .listen none, .edit (.add ⟨["Query", "a"], default, none⟩),
      .edit (.add ⟨["Query", "b"], default, none⟩)] s [] ∧
      (callsOf s.log).map (fun call => (call.1, call.2.version)) =
        [(.scripted 0, 1), (.scripted 0, 2), (.scripted 1, 2), (.scripted 1, 1)] ∧
      s.current.version = 2 ∧
      calledWith 1 (callsOf s.log) = [.scripted 0, .scripted 1] := by
  have hlistening : Reached [] [.listen none, .listen none] _ [] :=
    ((Reached.start ()).step (.listen none)).step (.listen none)
  have hfirst := (hlistening.step (.edit (.add ⟨["Query", "a"], default, none⟩))).called
  have hsecond := (hfirst.step (.edit (.add ⟨["Query", "b"], default, none⟩))).called
  have h := hsecond.called.called
  obtain ⟨-, -, hcalls, hcurrent, -⟩ := log_of_reached (Or.inl rfl) h
  exact ⟨_, h, rfl, congrArg Snapshot.version hcurrent,
    (List.append_nil _).symm.trans (hcalls 0 _ rfl).2⟩

end Session

end QueryPicker
